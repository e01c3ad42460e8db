/-
  A relay that has the outbox to itself.

  Claims are timestamps, so with several relays a row can change under the pass that holds it.  With
  one relay it cannot: as long as only relay 0 moves (`Alone`), whatever fails and however often it
  dies, the events in its hand are the rows of the table exactly as they stand there, unpublished,
  not dead-lettered, and distinct (`Holding`).  Everything about a single relay starts from this.

  `Holding` is about one location and the table, so its step lemma is for every relay whose rows
  no other one moves (`Holding.step_mover`).
-/
import SmartPatents.OutboxRelay

namespace SmartPatents.OutboxRelay

open Runs Outbox

variable {P : Type} {cfg : Config P} {σ σ' : State P} {a : Act P}

/-- The relay that an action moves. -/
def Act.mover : Act P → Option Nat
  | .begin r | .claim r _ | .send r _ | .mark r _ | .crash r => some r
  | .tick _ | .enqueue .. => none

/-- Relay 0 is the only relay that moves. -/
def Alone : Act P → Prop
  | .begin r | .claim r _ | .send r _ | .mark r _ | .crash r => r = 0
  | .tick _ | .enqueue .. => True

instance : DecidablePred (Alone : Act P → Prop)
  | .begin r | .claim r _ | .send r _ | .mark r _ | .crash r => inferInstanceAs (Decidable (r = 0))
  | .tick _ | .enqueue .. => .isTrue trivial

/-- The events in hand are live rows of the table, as they stand there. -/
structure Holding (cfg : Config P) (t : OutboxTable P) (l : Loc P) : Prop where
  row : ∀ e ∈ l.held, e ∈ t
  unpublished : ∀ e ∈ l.held, e.publishedAt = none
  alive : ∀ e ∈ l.held, deadLettered cfg.maxAttempts e = false
  distinct : (l.held.map OutboxEvent.id).Nodup

/-- A resting relay has nothing in hand. -/
theorem Holding.of_nil {t : OutboxTable P} {l : Loc P} (h : l.held = []) : Holding cfg t l where
  row := fun e he => by rw [h] at he; exact absurd he List.not_mem_nil
  unpublished := fun e he => by rw [h] at he; exact absurd he List.not_mem_nil
  alive := fun e he => by rw [h] at he; exact absurd he List.not_mem_nil
  distinct := by rw [h]; exact List.nodup_nil

/-- A relay that puts events down, while the rows it keeps stay as they are. -/
theorem Holding.keep {t t' : OutboxTable P} {l l' : Loc P} (h : Holding cfg t l)
    (hsub : l'.held.Sublist l.held) (hrow : ∀ e ∈ l'.held, e ∈ t → e ∈ t') :
    Holding cfg t' l' where
  row := fun e he => hrow e he (h.row e (hsub.subset he))
  unpublished := fun e he => h.unpublished e (hsub.subset he)
  alive := fun e he => h.alive e (hsub.subset he)
  distinct := h.distinct.sublist (hsub.map _)

/-- A claim takes live rows, and what it returns is what it has made of them. -/
theorem Holding.claim {t : OutboxTable P} {order : List Nat} {stale now : Time} {n : Nat}
    (hperm : order.Perm (batchIds cfg stale t)) :
    Holding cfg (claimBatch order now t)
      (nextEvent now n 0 (order.filterMap (claimBatch order now t).get?)) := by
  have hlive : ∀ e ∈ order.filterMap (claimBatch order now t).get?,
      e.publishedAt = none ∧ deadLettered cfg.maxAttempts e = false := by
    intro e he
    obtain ⟨y, hy, rfl⟩ := of_mem_events hperm he
    have hclaim := (of_mem_batch hy).2
    simp only [claimable, Bool.and_eq_true, Option.isNone_iff_eq_none, Bool.not_eq_true'] at hclaim
    exact ⟨hclaim.1.1, hclaim.1.2⟩
  constructor
  case row =>
    intro e he
    rw [held_nextEvent] at he
    obtain ⟨i, -, hget⟩ := List.mem_filterMap.mp he
    exact (Table.get?_eq_some.mp hget).1
  case unpublished =>
    intro e he
    rw [held_nextEvent] at he
    exact (hlive e he).1
  case alive =>
    intro e he
    rw [held_nextEvent] at he
    exact (hlive e he).2
  case distinct =>
    have hids : (batchIds cfg stale t).Nodup :=
      List.pairwise_map.mpr (batch_sorted.imp fun h => Nat.ne_of_lt h)
    rw [held_nextEvent, ids_events hperm]
    exact hperm.nodup_iff.mpr hids

/-- The head of the batch is not among the rest. -/
theorem Holding.head_ne {t : OutboxTable P} {l : Loc P} {event : OutboxEvent P}
    {rest : List (OutboxEvent P)} (h : Holding cfg t l) (hheld : l.held = event :: rest) :
    ∀ e ∈ rest, e.id ≠ event.id := by
  have hdistinct := h.distinct
  rw [hheld, List.map_cons, List.nodup_cons] at hdistinct
  intro e he hid
  exact hdistinct.1 (hid ▸ List.mem_map.mpr ⟨e, he, rfl⟩)

/-- **Step lemma**, for any relay `q`: a step that moves no other relay leaves it holding rows as they
    stand in the table. -/
theorem Holding.step_mover {q : Nat} (h : Holding cfg σ.table (σ.loc q))
    (hmover : ∀ r ∈ a.mover, r = q) (hs : step cfg σ a = some σ') :
    Holding cfg σ'.table (σ'.loc q) := by
  cases effect_of_step hs with
  | tick hle => exact h
  | @enqueue id aggregateType aggregateId eventType payload hnew =>
    exact h.keep (List.Sublist.refl _)
      fun e he het => Table.mem_put.mpr (Or.inr ⟨het, (hnew e het).1⟩)
  | begin hrest =>
    obtain rfl := hmover _ rfl
    exact Holding.of_nil (by simp only [goto_self]; rfl)
  | claim hloc hperm hevents =>
    obtain rfl := hmover _ rfl
    subst hevents
    simp only [goto_self]
    exact Holding.claim hperm
  | @accept r since claimed published event rest hloc hsize =>
    obtain rfl := hmover _ rfl
    simp only [goto_self]
    rw [hloc] at h
    exact h.keep (List.Sublist.refl _) fun e _ he => he
  | @refuse r since claimed published event rest error failure hloc hwhy =>
    obtain rfl := hmover _ rfl
    simp only [goto_self]
    rw [hloc] at h
    exact h.keep (List.Sublist.cons_cons event (List.nil_sublist rest)) fun e _ he => he
  | @published r since claimed published event rest hloc =>
    obtain rfl := hmover _ rfl
    simp only [goto_self]
    rw [hloc] at h
    refine h.keep ?_ fun e he het => mem_markPublished.mpr ⟨e, het, ?_⟩
    · rw [held_nextEvent]
      exact List.sublist_cons_self event rest
    · rw [held_nextEvent] at he
      exact markPublishedRow_of_ne (h.head_ne rfl e he)
  | @unpublished r since claimed published event rest error hloc =>
    obtain rfl := hmover _ rfl
    simp only [goto_self]
    rw [hloc] at h
    exact h.keep (List.Sublist.cons_cons event (List.nil_sublist rest)) fun e _ he => he
  | failed hloc =>
    obtain rfl := hmover _ rfl
    exact Holding.of_nil (by simp only [goto_self]; rfl)
  | threw hloc =>
    obtain rfl := hmover _ rfl
    exact Holding.of_nil (by simp only [goto_self]; rfl)
  | crash =>
    obtain rfl := hmover _ rfl
    exact Holding.of_nil (by simp only [goto_self]; rfl)

theorem eq_zero_of_alone (halone : Alone a) : ∀ r ∈ a.mover, r = 0 := by
  intro r hr
  cases a with
  | tick | enqueue => cases hr
  | begin | claim | send | mark | crash =>
    obtain rfl := Option.some.inj hr
    exact halone

/-- The step lemma for a relay that is alone. -/
theorem Holding.step (h : Holding cfg σ.table (σ.loc 0)) (halone : Alone a)
    (hs : OutboxRelay.step cfg σ a = some σ') : Holding cfg σ'.table (σ'.loc 0) :=
  h.step_mover (eq_zero_of_alone halone) hs

/-- What relay 0 holds along a run of its own. -/
theorem Holding.run {ok : State P → Act P → Prop} (halone : ∀ σ a, ok σ a → Alone a)
    (h : Holding cfg σ.table (σ.loc 0)) (hrun : Run (OutboxRelay.step cfg) ok σ σ') :
    Holding cfg σ'.table (σ'.loc 0) :=
  hrun.invariant (I := fun σ => Holding cfg σ.table (σ.loc 0))
    (fun _ _ _ h hok hs => h.step (halone _ _ hok) hs) h

end SmartPatents.OutboxRelay
