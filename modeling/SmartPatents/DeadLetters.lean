/-
  What a dead letter means (`publishBatch`, `markPublished`, `markFailed` and `stats`).

  `stats()` reports as `deadLettered` the unpublished rows that have used up their attempts, and its
  comment says of them that they will never be published and that whatever they described is missing
  downstream.  But one `catch` serves two failures: a send that did not deliver, and a `markPublished`
  that failed AFTER the broker had accepted the record.  Both end in `markFailed`, and both count.
  With one attempt allowed, one failed `markPublished` makes a dead letter of an event that consumers
  have (`not_deadLetters_undelivered`).

  ## Counting sends

  The outbox has no column for a send that did not deliver, so a `Tally` runs beside the relays and
  counts them: for each row, the sends that the broker refused or that were too large.  It only
  watches, and every run of the relays can be watched (`Tally.exists_run`).

  ## The condition

  Three things must not happen, and all three are the environment's:

    1. a write of `markPublished` fails (a failed `markFailed` does no harm);
    2. a relay dies between the broker's answer and the mark;
    3. a relay claims a row that another one still has in hand.

  The third takes a pass longer than the claim timeout and a second relay: a relay that runs alone
  cannot do it (`orderly_of_alone`).

  ## The invariant

  In a run without the three, whatever the broker refuses, the events in the hands of the relays are
  rows as they stand in the table, each in one hand at most (`Parted`), and what the broker has
  accepted is published or about to be marked (`Accounted`).  So an accepted row is never one that
  has used up its attempts, and a `markFailed` that is written always stands for a send that the
  tally has counted: `deadLetters_undelivered`.
-/
import SmartPatents.RelayAlone
import SmartPatents.RelayDurability
import SmartPatents.RelayOrder

namespace SmartPatents.OutboxRelay

open Runs Outbox

variable {P : Type} {cfg : Config P}

/-! ## `stats` -/

/-- The row that `stats` answers with. -/
structure Stats where
  pending : Nat
  retrying : Nat
  deadLettered : Nat
deriving DecidableEq

/-- `stats`: the three counts are over the unpublished rows. -/
def stats (maxAttempts : Nat) (t : OutboxTable P) : Stats :=
  let unpublished := t.rows.filter fun e => e.publishedAt.isNone
  { pending := unpublished.length
    retrying := unpublished.countP fun e => 0 < e.attempts
    deadLettered := unpublished.countP (Outbox.deadLettered maxAttempts) }

/-- The rows that `stats` counts as dead-lettered. -/
def deadLetters (maxAttempts : Nat) (t : OutboxTable P) : List (OutboxEvent P) :=
  (t.rows.filter fun e => e.publishedAt.isNone).filter (Outbox.deadLettered maxAttempts)

/-- The report counts the dead letters. -/
theorem deadLettered_stats (maxAttempts : Nat) (t : OutboxTable P) :
    (stats maxAttempts t).deadLettered = (deadLetters maxAttempts t).length :=
  List.countP_eq_length_filter

/-- A dead letter is not published and has no attempt left. -/
theorem mem_deadLetters {maxAttempts : Nat} {t : OutboxTable P} {e : OutboxEvent P} :
    e ∈ deadLetters maxAttempts t ↔ e ∈ t ∧ e.publishedAt = none ∧ maxAttempts ≤ e.attempts := by
  simp only [deadLetters, List.mem_filter, Option.isNone_iff_eq_none, deadLettered,
    decide_eq_true_eq, Table.mem_def, and_assoc]

instance (σ : State P) (i : Nat) : Decidable (Delivered σ i) :=
  inferInstanceAs (Decidable (∃ m ∈ σ.accepted, m.sequence = i))

/-! ## The tally -/

/-- The relays, and how many sends of each row did not deliver, refusals for size included. -/
structure Tally (P : Type) where
  relay : State P
  undelivered : Nat → Nat

/-- The row whose send this step ends without delivery. -/
def refusedRow (cfg : Config P) (σ : State P) : Act P → Option Nat
  | .send r error =>
    match σ.loc r with
    | .sending _ _ _ event _ => if oversized cfg event || error.isSome then some event.id else none
    | _ => none
  | _ => none

/-- One more send of a row, if any, did not deliver. -/
def countRefused (undelivered : Nat → Nat) : Option Nat → Nat → Nat
  | some i => Function.update undelivered i (undelivered i + 1)
  | none => undelivered

/-- The tally after a step of the relays. -/
def Tally.record (cfg : Config P) (τ : Tally P) (a : Act P) (relay : State P) : Tally P where
  relay := relay
  undelivered := countRefused τ.undelivered (refusedRow cfg τ.relay a)

/-- A step of the relays, watched. -/
def Tally.step (cfg : Config P) (τ : Tally P) (a : Act P) : Option (Tally P) :=
  (OutboxRelay.step cfg τ.relay a).map (τ.record cfg a)

/-- Nothing has been enqueued, and nothing sent. -/
def Tally.init : Tally P where
  relay := OutboxRelay.init Table.empty
  undelivered := fun _ => 0

/-- The tally only watches. -/
theorem Tally.step_eq_some {τ τ' : Tally P} {a : Act P} (h : Tally.step cfg τ a = some τ') :
    ∃ σ', OutboxRelay.step cfg τ.relay a = some σ' ∧ τ' = τ.record cfg a σ' := by
  obtain ⟨σ', hs, rfl⟩ := Option.map_eq_some_iff.mp h
  exact ⟨σ', hs, rfl⟩

/-- Every run of the relays can be watched. -/
theorem Tally.exists_run {σ : State P}
    (h : Run (OutboxRelay.step cfg) always (OutboxRelay.init Table.empty) σ) :
    ∃ τ, Run (Tally.step cfg) always Tally.init τ ∧ τ.relay = σ := by
  induction h with
  | refl => exact ⟨Tally.init, Run.refl _, rfl⟩
  | @tail σ σ' a hrun hok hs ih =>
    obtain ⟨τ, hτ, rfl⟩ := ih
    exact ⟨τ.record cfg a σ', hτ.tail trivial (by rw [Tally.step, hs]; rfl), rfl⟩

/-- A refusal only adds to the count of its event. -/
theorem le_countRefused (undelivered : Nat → Nat) (row : Option Nat) (i : Nat) :
    undelivered i ≤ countRefused undelivered row i := by
  cases row with
  | none => exact Nat.le_refl _
  | some j =>
    rw [countRefused, Function.update_apply]
    split
    · rename_i hij
      exact hij ▸ Nat.le_succ _
    · exact Nat.le_refl _

theorem countRefused_self (undelivered : Nat → Nat) (i : Nat) :
    countRefused undelivered (some i) i = undelivered i + 1 := by
  rw [countRefused, Function.update_self]

/-! ## The property and its condition -/

/-- Dead-lettered means undelivered. -/
structure DeadLettersUndelivered (cfg : Config P) (τ : Tally P) : Prop where
  /-- What `stats` counts as dead-lettered was never accepted by the broker. -/
  dead : ∀ e ∈ deadLetters cfg.maxAttempts τ.relay.table, ¬ Delivered τ.relay e.id
  /-- The number it reports is that of the unpublished, used-up rows that the broker never accepted. -/
  reported : (stats cfg.maxAttempts τ.relay.table).deadLettered =
    τ.relay.table.rows.countP fun e => e.publishedAt.isNone && deadLettered cfg.maxAttempts e &&
      !decide (Delivered τ.relay e.id)
  /-- No attempt is counted without a send that did not deliver. -/
  attempts : ∀ e ∈ τ.relay.table, e.attempts ≤ τ.undelivered e.id

/-- What the broker has accepted gets its mark: no `markPublished` fails, and no relay dies before
    it. -/
def MarksWhatItSent (τ : Tally P) : Act P → Prop
  | .mark r (some _) | .crash r => (τ.relay.loc r).unmarked = none
  | _ => True

/-- No relay claims a row that another one has in hand. -/
def ClaimsApart (τ : Tally P) : Act P → Prop
  | .claim r order => ∀ q, q ≠ r → ∀ e ∈ (τ.relay.loc q).held, e.id ∉ order
  | _ => True

/-- Sends may be refused, mark writes of failed sends may fail, relays may die holding what they have
    not sent. -/
def Orderly (τ : Tally P) (a : Act P) : Prop := MarksWhatItSent τ a ∧ ClaimsApart τ a

instance (τ : Tally P) : ∀ a, Decidable (MarksWhatItSent τ a)
  | .mark r (some _) | .crash r => inferInstanceAs (Decidable ((τ.relay.loc r).unmarked = none))
  | .mark _ none | .tick _ | .enqueue .. | .begin _ | .claim .. | .send .. => .isTrue trivial

variable {σ σ' : State P} {a : Act P}

/-! ## What a step does to the hands -/

/-- A step moves one relay at most. -/
theorem loc_of_step (hs : OutboxRelay.step cfg σ a = some σ') {q : Nat} (hq : q ∉ a.mover) :
    σ'.loc q = σ.loc q := by
  have hother : ∀ {r : Nat} {l : Loc P}, q ∉ some r → goto σ.loc r l q = σ.loc q :=
    fun hq => goto_ne _ _ fun h => hq (h ▸ rfl)
  cases effect_of_step hs with
  | tick | enqueue => rfl
  | begin | claim | accept | refuse | published | unpublished | failed | threw | crash =>
    exact hother hq

/-- A relay keeps events that it holds, or claims rows. -/
theorem held_of_step (hs : OutboxRelay.step cfg σ a = some σ') (r : Nat) :
    ∀ e ∈ (σ'.loc r).held, e ∈ (σ.loc r).held ∨ ∃ order, a = .claim r order ∧ e.id ∈ order := by
  have hmove : ∀ {q : Nat} {l : Loc P}, l.held ⊆ (σ.loc q).held →
      ∀ e ∈ (goto σ.loc q l r).held,
        e ∈ (σ.loc r).held ∨ ∃ order, a = .claim r order ∧ e.id ∈ order := by
    intro q l hsub
    exact forall_goto (P := fun p (l : Loc P) => ∀ e ∈ l.held,
      e ∈ (σ.loc p).held ∨ ∃ order, a = .claim p order ∧ e.id ∈ order)
      (fun e he => Or.inl (hsub he)) (fun p _ e he => Or.inl he) r
  cases effect_of_step hs with
  | tick => exact fun e he => Or.inl he
  | enqueue => exact fun e he => Or.inl he
  | begin => exact hmove (List.nil_subset _)
  | @claim q order stale events hloc hperm hevents =>
    subst hevents
    refine forall_goto (P := fun p (l : Loc P) => ∀ e ∈ l.held,
      e ∈ (σ.loc p).held ∨ ∃ ids, Act.claim q order = .claim p ids ∧ e.id ∈ ids) (fun e he => ?_)
      (fun p _ e he => Or.inl he) r
    rw [held_nextEvent] at he
    have hids : (order.filterMap (claimBatch order σ.now σ.table).get?).map OutboxEvent.id = order :=
      ids_events hperm
    have hid : e.id ∈ order := by
      rw [← hids]
      exact List.mem_map_of_mem he
    exact Or.inr ⟨order, rfl, hid⟩
  | accept hloc => exact hmove (by rw [hloc]; exact List.Subset.refl _)
  | refuse hloc =>
    refine hmove ?_
    rw [hloc]
    exact List.cons_subset_cons _ (List.nil_subset _)
  | published hloc =>
    refine hmove ?_
    rw [hloc, held_nextEvent]
    exact List.subset_cons_self _ _
  | unpublished hloc =>
    refine hmove ?_
    rw [hloc]
    exact List.cons_subset_cons _ (List.nil_subset _)
  | failed => exact hmove (List.nil_subset _)
  | threw => exact hmove (List.nil_subset _)
  | crash => exact hmove (List.nil_subset _)

/-- A row stays as it stands, unless a claim takes it or the relay that has it in hand marks it. -/
theorem mem_of_step (hs : OutboxRelay.step cfg σ a = some σ') {x : OutboxEvent P}
    (hx : x ∈ σ.table) : x ∈ σ'.table ∨ (∃ r order, a = .claim r order ∧ x.id ∈ order) ∨
      ∃ r ∈ a.mover, ∃ e ∈ (σ.loc r).held, e.id = x.id := by
  cases effect_of_step hs with
  | enqueue hnew => exact Or.inl (Table.mem_put.mpr (Or.inr ⟨hx, (hnew x hx).1⟩))
  | @claim r order =>
    by_cases hid : x.id ∈ order
    · exact Or.inr (Or.inl ⟨r, order, rfl, hid⟩)
    · exact Or.inl (mem_claimBatch.mpr ⟨x, hx, claimRow_of_not_mem hid⟩)
  | @published r since claimed published event rest hloc =>
    by_cases hid : x.id = event.id
    · refine Or.inr (Or.inr ⟨r, rfl, event, ?_, hid.symm⟩)
      rw [hloc]
      exact List.mem_cons_self
    · exact Or.inl (mem_markPublished.mpr ⟨x, hx, markPublishedRow_of_ne hid⟩)
  | @failed r since claimed published event failure hloc =>
    by_cases hid : x.id = event.id
    · refine Or.inr (Or.inr ⟨r, rfl, event, ?_, hid.symm⟩)
      rw [hloc]
      exact List.mem_cons_self
    · exact Or.inl (mem_markFailed.mpr ⟨x, hx, markFailedRow_of_ne hid⟩)
  | _ => exact Or.inl hx

/-! ## Each row is in one hand at most -/

/-- The events in the hands of the relays are live rows as they stand in the table, and no row is in
    two hands. -/
structure Parted (cfg : Config P) (σ : State P) : Prop where
  holding : ∀ r, Holding cfg σ.table (σ.loc r)
  apart : ∀ r q, r ≠ q → ∀ e ∈ (σ.loc r).held, ∀ f ∈ (σ.loc q).held, e.id ≠ f.id

theorem parted_init {t : OutboxTable P} : Parted cfg (OutboxRelay.init t) where
  holding := fun _ => Holding.of_nil rfl
  apart := fun _ _ _ _ he => absurd he List.not_mem_nil

/-- A relay that does not move goes on holding what it holds. -/
theorem Parted.holding_other (h : Parted cfg σ)
    (hclaim : ∀ r order, a = .claim r order → ∀ q, q ≠ r →
      ∀ e ∈ (σ.loc q).held, e.id ∉ order)
    (hs : OutboxRelay.step cfg σ a = some σ') {q : Nat} (hq : q ∉ a.mover) :
    Holding cfg σ'.table (σ'.loc q) := by
  rw [loc_of_step hs hq]
  refine (h.holding q).keep (List.Sublist.refl _) fun e he hrow => ?_
  rcases mem_of_step hs hrow with hstays | ⟨r, order, rfl, hid⟩ | ⟨r, hr, f, hf, hid⟩
  · exact hstays
  · exact absurd hid (hclaim r order rfl q (fun heq => hq (heq ▸ rfl)) e he)
  · have hne : r ≠ q := fun heq => hq (heq ▸ hr)
    exact absurd hid (h.apart r q hne f hf e he)

/-- **Step lemma.** Where no claim takes a row out of another relay's hands, they hold different
    rows. -/
theorem Parted.step (h : Parted cfg σ)
    (hclaim : ∀ r order, a = .claim r order → ∀ q, q ≠ r →
      ∀ e ∈ (σ.loc q).held, e.id ∉ order)
    (hs : OutboxRelay.step cfg σ a = some σ') : Parted cfg σ' where
  holding := by
    intro q
    by_cases hq : q ∈ a.mover
    · refine (h.holding q).step_mover (fun r hr => ?_) hs
      exact Option.some.inj (hr.symm.trans hq)
    · exact h.holding_other hclaim hs hq
  apart := by
    intro r q hne e he f hf hid
    rcases held_of_step hs r e he with he | ⟨order, rfl, hmem⟩
    · rcases held_of_step hs q f hf with hf | ⟨order, rfl, hmem⟩
      · exact h.apart r q hne e he f hf hid
      -- `q` claims a row that `r` has in hand
      · exact hclaim q order rfl r hne e he (hid ▸ hmem)
    · rcases held_of_step hs q f hf with hf | ⟨ids, hclaims, -⟩
      · exact hclaim r order rfl q hne.symm f hf (hid ▸ hmem)
      · exact hne (Act.claim.inj hclaims).1

/-! ## What the broker has accepted is accounted for -/

/-- An accepted event is published, or in the hand of the relay that is about to mark it. -/
def Accounted (σ : State P) : Prop :=
  ∀ i, Delivered σ i → (∃ x ∈ σ.table, x.id = i ∧ x.publishedAt.isSome) ∨
    ∃ r, ∃ e ∈ (σ.loc r).unmarked, e.id = i

theorem accounted_init {t : OutboxTable P} : Accounted (OutboxRelay.init t) := by
  rintro i ⟨m, hm, -⟩
  exact absurd hm List.not_mem_nil

/-- The broker accepts only what a relay is about to send. -/
theorem delivered_of_step (hs : OutboxRelay.step cfg σ a = some σ') {i : Nat}
    (h : Delivered σ' i) : Delivered σ i ∨ ∃ r, ∃ e ∈ (σ'.loc r).unmarked, e.id = i := by
  cases effect_of_step hs with
  | @accept r since claimed published event rest hloc hsize =>
    obtain ⟨m, hm, rfl⟩ := h
    rcases List.mem_append.mp hm with hm | hm
    · exact Or.inl ⟨m, hm, rfl⟩
    · obtain rfl := List.mem_singleton.mp hm
      exact Or.inr ⟨r, event, by simp only [goto_self]; rfl, rfl⟩
  | _ => exact Or.inl h

/-- A relay that is to mark an event still is after the step, or has marked it. -/
theorem Parted.unmarked_of_step (h : Parted cfg σ)
    (hmarks : ∀ r, (∃ error, a = .mark r (some error)) ∨ a = .crash r →
      (σ.loc r).unmarked = none)
    (hs : OutboxRelay.step cfg σ a = some σ') {r : Nat} {e : OutboxEvent P}
    (he : e ∈ (σ.loc r).unmarked) : e ∈ (σ'.loc r).unmarked ∨
      ∃ x ∈ σ'.table, x.id = e.id ∧ x.publishedAt.isSome := by
  by_cases hr : r ∈ a.mover
  · cases effect_of_step hs with
    | tick | enqueue => cases hr
    | begin hrest =>
      obtain rfl := Option.some.inj hr
      rw [(held_of_resting hrest).2.2.1] at he
      cases he
    | claim hloc | accept hloc | refuse hloc | failed hloc | threw hloc =>
      obtain rfl := Option.some.inj hr
      rw [hloc] at he
      cases he
    | @published q since claimed published event rest hloc =>
      obtain rfl := Option.some.inj hr
      have hrow : e ∈ σ.table := (h.holding _).row e (mem_held_of_unmarked he)
      rw [hloc] at he
      obtain rfl := Option.some.inj he
      refine Or.inr ⟨_, mem_markPublished.mpr ⟨event, hrow, rfl⟩, markPublishedRow_id, ?_⟩
      rw [markPublishedRow, if_pos rfl]
      rfl
    | unpublished hloc =>
      obtain rfl := Option.some.inj hr
      rw [hmarks _ (Or.inl ⟨_, rfl⟩)] at he
      cases he
    | crash =>
      obtain rfl := Option.some.inj hr
      rw [hmarks _ (Or.inr rfl)] at he
      cases he
  · rw [loc_of_step hs hr]
    exact Or.inl he

/-- **Step lemma.** What is accepted is marked, or about to be, unless the mark fails. -/
theorem Accounted.step (h : Accounted σ) (hparted : Parted cfg σ)
    (hmarks : ∀ r, (∃ error, a = .mark r (some error)) ∨ a = .crash r →
      (σ.loc r).unmarked = none)
    (hs : OutboxRelay.step cfg σ a = some σ') : Accounted σ' := by
  intro i hi
  rcases delivered_of_step hs hi with hold | hnow
  · rcases h i hold with ⟨x, hx, hid, hpub⟩ | ⟨r, e, he, hid⟩
    -- a published row stays published
    · obtain ⟨y, hy, hsame, hkeeps⟩ := persists_of_step hs x hx
      exact Or.inl ⟨y, hy, hsame.id.trans hid, hkeeps hpub⟩
    · rcases hparted.unmarked_of_step hmarks hs he with he | ⟨x, hx, hxid, hpub⟩
      · exact Or.inr ⟨r, e, he, hid⟩
      · exact Or.inl ⟨x, hx, hxid.trans hid, hpub⟩
  · exact Or.inr hnow

/-! ## Every attempt is an undelivered send -/

/-- What becomes of a row: a step counts an attempt of it, or none. -/
theorem attempts_of_step (hs : OutboxRelay.step cfg σ a = some σ') {x : OutboxEvent P}
    (hx : x ∈ σ'.table) : x.attempts = 0 ∨ (∃ y ∈ σ.table, y.id = x.id ∧ x.attempts = y.attempts) ∨
      ∃ r, ∃ e ∈ (σ.loc r).failing, ∃ y ∈ σ.table, y.id = e.id ∧ x.id = e.id ∧
        x.attempts = y.attempts + 1 := by
  cases effect_of_step hs with
  | enqueue hnew =>
    rcases Table.mem_put.mp hx with rfl | ⟨hx, -⟩
    · exact Or.inl rfl
    · exact Or.inr (Or.inl ⟨x, hx, rfl, rfl⟩)
  | claim =>
    obtain ⟨y, hy, rfl⟩ := mem_claimBatch.mp hx
    exact Or.inr (Or.inl ⟨y, hy, claimRow_id.symm, claimRow_attempts⟩)
  | published =>
    obtain ⟨y, hy, rfl⟩ := mem_markPublished.mp hx
    exact Or.inr (Or.inl ⟨y, hy, markPublishedRow_id.symm, markPublishedRow_attempts⟩)
  | @failed r since claimed published event failure hloc =>
    obtain ⟨y, hy, rfl⟩ := mem_markFailed.mp hx
    by_cases hid : y.id = event.id
    · refine Or.inr (Or.inr ⟨r, event, by rw [hloc]; rfl, y, hy, hid, ?_, ?_⟩)
      · exact markFailedRow_id.trans hid
      · rw [markFailedRow, if_pos hid]
    · exact Or.inr (Or.inl ⟨y, hy, markFailedRow_id.symm, by rw [markFailedRow_of_ne hid]⟩)
  | _ => exact Or.inr (Or.inl ⟨x, hx, rfl, rfl⟩)

/-- What a relay is about to mark failed is a send that the tally counts now, or counted before. -/
theorem failing_of_step
    (hmarks : ∀ r error, a = .mark r (some error) → (σ.loc r).unmarked = none)
    (hs : OutboxRelay.step cfg σ a = some σ') {r : Nat} {e : OutboxEvent P}
    (he : e ∈ (σ'.loc r).failing) : e ∈ (σ.loc r).failing ∨
      refusedRow cfg σ a = some e.id ∧ e ∈ (σ.loc r).held := by
  by_cases hr : r ∈ a.mover
  · cases effect_of_step hs with
    | tick | enqueue => cases hr
    | begin | accept | failed | threw | crash =>
      obtain rfl := Option.some.inj hr
      simp only [goto_self] at he
      cases he
    | claim | published =>
      obtain rfl := Option.some.inj hr
      simp only [goto_self, failing_nextEvent] at he
      cases he
    | @refuse q since claimed published event rest error failure hloc hwhy =>
      obtain rfl := Option.some.inj hr
      simp only [goto_self] at he
      obtain rfl := Option.some.inj he
      refine Or.inr ⟨?_, by rw [hloc]; exact List.mem_cons_self⟩
      rcases hwhy with ⟨hover, -⟩ | ⟨-, rfl⟩
      · simp [refusedRow, hloc, hover]
      · simp [refusedRow, hloc]
    | unpublished hloc =>
      have hnone := hmarks _ _ rfl
      rw [hloc] at hnone
      cases hnone
  · rw [loc_of_step hs hr] at he
    exact Or.inl he

/-! ## Runs -/

/-- What the condition keeps true: no hand overlaps another, no accepted event gets lost, and every
    attempt that has been counted, or is about to be, is a send that did not deliver. -/
structure TallyInv (cfg : Config P) (τ : Tally P) : Prop where
  parted : Parted cfg τ.relay
  accounted : Accounted τ.relay
  counted : ∀ x ∈ τ.relay.table, x.attempts ≤ τ.undelivered x.id
  owed : ∀ r, ∀ e ∈ (τ.relay.loc r).failing, e.attempts + 1 ≤ τ.undelivered e.id

theorem tallyInv_init : TallyInv cfg (Tally.init : Tally P) where
  parted := parted_init
  accounted := accounted_init
  counted := fun x hx => absurd hx (Table.not_mem_empty x)
  owed := fun _ _ he => by cases he

/-- **Step lemma.** -/
theorem TallyInv.step {τ τ' : Tally P} (h : TallyInv cfg τ) (hok : Orderly τ a)
    (hs : Tally.step cfg τ a = some τ') : TallyInv cfg τ' := by
  obtain ⟨σ', hmove, rfl⟩ := Tally.step_eq_some hs
  obtain ⟨hmarks, hclaims⟩ := hok
  have hparted : Parted cfg σ' := by
    refine h.parted.step ?_ hmove
    rintro r order rfl
    exact hclaims
  have haccounted : Accounted σ' := by
    refine h.accounted.step h.parted ?_ hmove
    rintro r (⟨error, rfl⟩ | rfl)
    · exact hmarks
    · exact hmarks
  have hle : ∀ i, τ.undelivered i ≤ (τ.record cfg a σ').undelivered i := le_countRefused _ _
  refine ⟨hparted, haccounted, fun x hx => ?_, fun r e he => ?_⟩
  · rcases attempts_of_step hmove hx with hzero | ⟨y, hy, hid, hsame⟩ |
      ⟨r, e, he, y, hy, hid, hxid, hmore⟩
    · rw [hzero]
      exact Nat.zero_le _
    · rw [hsame, ← hid]
      exact Nat.le_trans (h.counted y hy) (hle _)
    -- the row is the event in hand, whose send has been counted
    · obtain rfl : y = e :=
        Table.eq_of_key hy ((h.parted.holding r).row e (mem_held_of_failing he)) hid
      rw [hmore, hxid]
      exact Nat.le_trans (h.owed r y he) (hle _)
  · have hfailing := failing_of_step (r := r) (e := e) (a := a) ?_ hmove he
    · rcases hfailing with hbefore | ⟨hrefused, hheld⟩
      · exact Nat.le_trans (h.owed r e hbefore) (hle _)
      · have hnow : (τ.record cfg a σ').undelivered e.id = τ.undelivered e.id + 1 := by
          rw [Tally.record, hrefused]
          exact countRefused_self _ _
        rw [hnow]
        exact Nat.succ_le_succ (h.counted e ((h.parted.holding r).row e hheld))
    · rintro q error rfl
      exact hmarks

/-- An event without attempts left has been refused each time. -/
theorem TallyInv.not_delivered {τ : Tally P} (h : TallyInv cfg τ) {e : OutboxEvent P}
    (he : e ∈ deadLetters cfg.maxAttempts τ.relay.table) : ¬ Delivered τ.relay e.id := by
  obtain ⟨hrow, hpub, hdead⟩ := mem_deadLetters.mp he
  intro hdelivered
  rcases h.accounted _ hdelivered with ⟨x, hx, hid, hsome⟩ | ⟨r, f, hf, hid⟩
  · obtain rfl : x = e := Table.eq_of_key hx hrow hid
    rw [hpub] at hsome
    cases hsome
  -- in the hand of a relay, so it had attempts left when it was claimed
  · have hheld := mem_held_of_unmarked hf
    obtain rfl : f = e := Table.eq_of_key ((h.parted.holding r).row f hheld) hrow hid
    have halive := (h.parted.holding r).alive f hheld
    rw [deadLettered, decide_eq_false_iff_not] at halive
    exact halive hdead

/-- The invariant says more than the property. -/
theorem TallyInv.deadLettersUndelivered {τ : Tally P} (h : TallyInv cfg τ) :
    DeadLettersUndelivered cfg τ where
  dead := fun e he => h.not_delivered he
  reported := by
    rw [deadLettered_stats, deadLetters, List.filter_filter, ← List.countP_eq_length_filter]
    refine List.countP_congr fun e he => ?_
    simp only [Bool.and_eq_true, Bool.not_eq_true', decide_eq_false_iff_not]
    constructor
    · rintro ⟨hdead, hnone⟩
      refine ⟨⟨hnone, hdead⟩, h.not_delivered ?_⟩
      exact List.mem_filter.mpr ⟨List.mem_filter.mpr ⟨he, hnone⟩, hdead⟩
    · rintro ⟨⟨hnone, hdead⟩, -⟩
      exact ⟨hdead, hnone⟩
  attempts := h.counted

/-- **Dead-lettered means undelivered**, in every run in which what is sent gets marked and no claims
    overlap, whatever the broker refuses and whichever other writes fail. -/
theorem deadLetters_undelivered {τ : Tally P}
    (hrun : Run (Tally.step cfg) Orderly Tally.init τ) : DeadLettersUndelivered cfg τ :=
  (hrun.invariant (I := TallyInv cfg) (fun _ _ _ h hok hs => h.step hok hs)
    tallyInv_init).deadLettersUndelivered

/-- A relay that runs alone never claims a row that is in hand. -/
theorem orderly_of_alone {τ : Tally P}
    (hrun : Run (Tally.step cfg) (fun τ a => Alone a ∧ MarksWhatItSent τ a) Tally.init τ) :
    Run (Tally.step cfg) Orderly Tally.init τ := by
  refine hrun.mono_of_invariant (I := fun τ => ∀ r, r ≠ 0 → (τ.relay.loc r).held = [])
    (fun τ a τ' hidle hok hs => ?_) (fun τ a hidle hok => ⟨hok.2, ?_⟩) (fun _ _ => rfl)
  · obtain ⟨σ', hmove, rfl⟩ := Tally.step_eq_some hs
    intro r hr
    have hstays : σ'.loc r = τ.relay.loc r :=
      loc_of_step hmove fun hmover => hr (eq_zero_of_alone hok.1 r hmover)
    show (σ'.loc r).held = []
    rw [hstays]
    exact hidle r hr
  · cases a with
    | claim r order =>
      obtain rfl : r = 0 := hok.1
      intro q hq e he
      rw [hidle q hq] at he
      exact absurd he List.not_mem_nil
    | _ => trivial

/-! ## One attempt -/

/-- `OUTBOX_MAX_ATTEMPTS=1`. -/
def oneAttempt : Config String where
  batchSize := 50
  maxAttempts := 1
  patentEventsTopic := "patents.events"
  byteLength := fun _ _ => 100

/-- One event, claimed by relay 0. -/
def claimsOne : List (Act String) :=
  [.enqueue 1 "patent" 7 "PatentVersionUpserted" "v1", .begin 0, .claim 0 [1]]

/-- The broker does not answer. -/
def sendFails : List (Act String) := [.send 0 (some "Request timed out"), .mark 0 none]

/-- The broker accepts the record, and the database is away for a moment. -/
def markPublishedFails : List (Act String) :=
  [.send 0 none, .mark 0 (some "Connection reset"), .mark 0 none]

theorem sendFails_runs : (execOk (Tally.step oneAttempt) (fun τ a => Alone a ∧ MarksWhatItSent τ a)
    Tally.init (claimsOne ++ sendFails)).isSome = true := by
  decide

/-- The state in which the one event is a dead letter that the broker has never seen. -/
def afterSendFails : Tally String :=
  (execOk (Tally.step oneAttempt) (fun τ a => Alone a ∧ MarksWhatItSent τ a) Tally.init
    (claimsOne ++ sendFails)).get sendFails_runs

/-- The broker refuses the one attempt: one dead letter, and nothing delivered. -/
theorem deadLetters_undelivered_sendFails :
    stats 1 afterSendFails.relay.table = ⟨1, 1, 1⟩ ∧
      DeadLettersUndelivered oneAttempt afterSendFails :=
  ⟨by decide, deadLetters_undelivered
    (orderly_of_alone (Run.of_execOk (Option.some_get sendFails_runs).symm))⟩

theorem markPublishedFails_runs : (execOk (Tally.step oneAttempt) (fun _ a => Alone a) Tally.init
    (claimsOne ++ markPublishedFails)).isSome = true := by
  decide

/-- The only event is a dead letter, and the broker has it. -/
theorem not_deadLetters_undelivered :
    ¬ ∀ (cfg : Config String) (τ : Tally String),
      Run (Tally.step cfg) (fun _ a => Alone a) Tally.init τ → DeadLettersUndelivered cfg τ := by
  intro hall
  have htold := hall oneAttempt _ (Run.of_execOk (Option.some_get markPublishedFails_runs).symm)
  exact absurd htold.dead (by decide)

end SmartPatents.OutboxRelay
