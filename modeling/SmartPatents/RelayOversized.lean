/-
  Oversized events.

  `publishBatch` throws before it calls the broker when the payload is over `MAX_PAYLOAD_BYTES`, so
  an oversized event is never sent (`fits_of_run`).  The throw lands in the one `catch` of the loop,
  which counts ONE failure: the event is dead-lettered then only if that was its last attempt.  With
  attempts left it is claimed again, pass after pass, ahead of everything behind it
  (`not_attemptedOnce`).

  An event whose last attempt has been counted is out of reach for good: no statement lowers
  `attempts` (`Dead.step`).  So an oversized event is attempted once along every run in which it is
  down to its last attempt when a pass rejects it, and the write that says so succeeds
  (`attemptedOnce_of_run`).

  `Settled` is what the proof follows from the rejection on: the event is still in hand, with
  nothing left to do but the write that counts the failure, or it is dead.  The size of a payload
  is `byteLength` of the configuration, and no property of it is used.
-/
import SmartPatents.RelayDrain

namespace SmartPatents.OutboxRelay

open Runs Outbox

variable {P : Type} {cfg : Config P} {σ σ' τ : State P} {a : Act P}

/-! ## The property and its condition -/

/-- The oversized event that the pass has just rejected. -/
def Loc.rejected (cfg : Config P) : Loc P → Option (OutboxEvent P)
  | .markingFailed _ _ _ event _ => if oversized cfg event then some event else none
  | _ => none

/-- Of a state `σ` and a later one `τ`: what is rejected in `σ` is in no claim of `τ`, and nothing
    oversized has been accepted. -/
structure AttemptedOnce (cfg : Config P) (σ τ : State P) : Prop where
  notClaimed : ∀ e, (σ.loc 0).rejected cfg = some e → ∀ order,
    (step cfg τ (.claim 0 order)).isSome = true → e.id ∉ order
  notSent : ∀ m ∈ τ.accepted, cfg.byteLength m.payload m.sequence ≤ MAX_PAYLOAD_BYTES

/-- When an oversized event has been rejected, this was its last attempt and the write that counts
    it succeeds. -/
def LastAttempt (cfg : Config P) (σ : State P) : Act P → Prop
  | .mark r error =>
    ∀ e ∈ (σ.loc r).rejected cfg, error = none ∧ cfg.maxAttempts ≤ e.attempts + 1
  | .crash r => (σ.loc r).rejected cfg = none
  | _ => True

/-- The runs of the result: one relay, which has no attempt left for what it rejects. -/
def AloneLastAttempt (cfg : Config P) (σ : State P) (a : Act P) : Prop :=
  Alone a ∧ LastAttempt cfg σ a

instance [DecidableEq P] (σ : State P) : ∀ a, Decidable (LastAttempt cfg σ a)
  | .mark r error => inferInstanceAs (Decidable (∀ e ∈ (σ.loc r).rejected cfg,
      error = none ∧ cfg.maxAttempts ≤ e.attempts + 1))
  | .crash r => inferInstanceAs (Decidable ((σ.loc r).rejected cfg = none))
  | .tick _ | .enqueue .. | .begin _ | .claim .. | .send .. => .isTrue trivial

instance [DecidableEq P] (σ : State P) (a : Act P) : Decidable (AloneLastAttempt cfg σ a) :=
  inferInstanceAs (Decidable (Alone a ∧ LastAttempt cfg σ a))

/-! ## Nothing oversized is sent -/

/-- **No oversized message**, whatever any number of relays do. -/
theorem fits_of_step (h : ∀ m ∈ σ.accepted, cfg.byteLength m.payload m.sequence ≤ MAX_PAYLOAD_BYTES)
    (hs : step cfg σ a = some σ') :
    ∀ m ∈ σ'.accepted, cfg.byteLength m.payload m.sequence ≤ MAX_PAYLOAD_BYTES := by
  cases effect_of_step hs with
  | accept hloc hsize =>
    intro m hm
    rcases List.mem_append.mp hm with hm | hm
    · exact h m hm
    · obtain rfl := List.mem_singleton.mp hm
      -- the size check stands before the send
      exact Nat.not_lt.mp (of_decide_eq_false hsize)
  | _ => exact h

/-- Nothing oversized was ever accepted. -/
theorem fits_of_run {ok : State P → Act P → Prop} {t : OutboxTable P}
    (hrun : Run (step cfg) ok (init t) σ) :
    ∀ m ∈ σ.accepted, cfg.byteLength m.payload m.sequence ≤ MAX_PAYLOAD_BYTES :=
  hrun.invariant
    (I := fun σ => ∀ m ∈ σ.accepted, cfg.byteLength m.payload m.sequence ≤ MAX_PAYLOAD_BYTES)
    (fun _ _ _ h _ hs => fits_of_step h hs) fun _ hm => absurd hm List.not_mem_nil

/-! ## A dead letter stays dead -/

/-- The row with this id has used up its attempts. -/
def Dead (cfg : Config P) (t : OutboxTable P) (id : Nat) : Prop :=
  ∃ x ∈ t, x.id = id ∧ cfg.maxAttempts ≤ x.attempts

/-- A write that takes no attempt back leaves a dead letter dead. -/
theorem Dead.update {t t' : OutboxTable P} {id : Nat} {f : OutboxEvent P → OutboxEvent P}
    (h : Dead cfg t id) (ht : ∀ x, x ∈ t' ↔ ∃ e ∈ t, f e = x) (hid : ∀ e, (f e).id = e.id)
    (hle : ∀ e, e.attempts ≤ (f e).attempts) : Dead cfg t' id := by
  obtain ⟨x, hx, hxid, hdead⟩ := h
  exact ⟨f x, (ht _).mpr ⟨x, hx, rfl⟩, (hid x).trans hxid, Nat.le_trans hdead (hle x)⟩

/-- **Step lemma.** A dead letter stays dead. -/
theorem Dead.step {id : Nat} (h : Dead cfg σ.table id) (hs : step cfg σ a = some σ') :
    Dead cfg σ'.table id := by
  cases effect_of_step hs with
  | enqueue hnew =>
    obtain ⟨x, hx, hrest⟩ := h
    exact ⟨x, Table.mem_put.mpr (Or.inr ⟨hx, (hnew x hx).1⟩), hrest⟩
  | claim =>
    exact h.update (fun x => mem_claimBatch) (fun _ => claimRow_id)
      fun e => Nat.le_of_eq claimRow_attempts.symm
  | published =>
    exact h.update (fun x => mem_markPublished) (fun _ => markPublishedRow_id)
      fun e => Nat.le_of_eq markPublishedRow_attempts.symm
  | failed =>
    exact h.update (fun x => mem_markFailed) (fun _ => markFailedRow_id)
      fun e => le_markFailedRow_attempts
  | _ => exact h

/-- No claim returns it. -/
theorem Dead.not_claimed {id : Nat} (h : Dead cfg σ.table id) {r : Nat} {order : List Nat}
    (hs : OutboxRelay.step cfg σ (.claim r order) = some σ') : id ∉ order := by
  cases effect_of_step hs with
  | claim hloc hperm hevents =>
    intro hmem
    obtain ⟨x, hx, hxid, hdead⟩ := h
    obtain ⟨y, hy, hyid⟩ := of_mem_order hperm hmem
    obtain ⟨hyt, hclaim⟩ := of_mem_batch hy
    obtain rfl : x = y := Table.eq_of_key hx hyt (hxid.trans hyid.symm)
    simp only [claimable, deadLettered, Bool.and_eq_true, Bool.not_eq_true', decide_eq_false_iff_not]
      at hclaim
    exact hclaim.1.2 hdead

/-! ## What becomes of a rejected event -/

/-- A rejected event is about to be marked failed. -/
theorem rejected_eq_some {l : Loc P} {e : OutboxEvent P} (h : l.rejected cfg = some e) :
    ∃ since claimed published error, l = .markingFailed since claimed published e error := by
  cases l with
  | markingFailed since claimed published event error =>
    simp only [Loc.rejected] at h
    split at h
    · obtain rfl := Option.some.inj h
      exact ⟨since, claimed, published, error, rfl⟩
    · cases h
  | _ => cases h

/-- It is still in hand, or dead. -/
def Settled (cfg : Config P) (e : OutboxEvent P) (σ : State P) : Prop :=
  (σ.loc 0).rejected cfg = some e ∨ Dead cfg σ.table e.id

/-- **Step lemma.**  The only way on from a rejection is the write that counts it. -/
theorem Settled.step {e : OutboxEvent P} (h : Settled cfg e σ)
    (hhold : Holding cfg σ.table (σ.loc 0)) (hok : AloneLastAttempt cfg σ a)
    (hs : step cfg σ a = some σ') : Settled cfg e σ' := by
  rcases h with hrej | hdead
  · obtain ⟨since, claimed, published, failure, hloc⟩ := rejected_eq_some hrej
    obtain ⟨halone, hlast⟩ := hok
    cases effect_of_step hs with
    | tick hle => exact Or.inl hrej
    | enqueue hnew => exact Or.inl hrej
    | begin hrest =>
      obtain rfl := halone
      rw [hloc] at hrest
      cases hrest
    | claim hloc' hperm hevents =>
      obtain rfl := halone
      cases hloc.symm.trans hloc'
    | accept hloc' hsize =>
      obtain rfl := halone
      cases hloc.symm.trans hloc'
    | refuse hloc' hwhy =>
      obtain rfl := halone
      cases hloc.symm.trans hloc'
    | published hloc' =>
      obtain rfl := halone
      cases hloc.symm.trans hloc'
    | unpublished hloc' =>
      obtain rfl := halone
      cases hloc.symm.trans hloc'
    | failed hloc' =>
      obtain rfl := halone
      -- the write that counts the attempt takes the last one
      obtain ⟨-, -, -, rfl, -⟩ := Loc.markingFailed.inj (hloc.symm.trans hloc')
      have hmem : e ∈ (σ.loc 0).held := by
        rw [hloc]
        exact List.mem_cons_self
      refine Or.inr ⟨_, mem_markFailed.mpr ⟨e, hhold.row e hmem, rfl⟩, markFailedRow_id, ?_⟩
      rw [markFailedRow, if_pos rfl]
      exact (hlast e hrej).2
    | threw hloc' =>
      obtain rfl := halone
      -- the condition: that write does not fail
      cases (hlast e hrej).1
    | crash =>
      obtain rfl := halone
      -- nor does the relay die before it
      rw [LastAttempt, hrej] at hlast
      cases hlast
  · exact Or.inr (hdead.step hs)

/-- **Attempted once.**  In a run of one relay that has no attempt left for an oversized event it
    rejects, no later claim returns the event, and it is never sent. -/
theorem attemptedOnce_of_run {t : OutboxTable P}
    (hrun : Run (step cfg) (AloneLastAttempt cfg) (init t) σ)
    (hlater : Run (step cfg) (AloneLastAttempt cfg) σ τ) : AttemptedOnce cfg σ τ := by
  have hholding : ∀ υ, Run (step cfg) (AloneLastAttempt cfg) (init t) υ →
      Holding cfg υ.table (υ.loc 0) := fun υ hυ =>
    Holding.run (fun _ _ => And.left) (Holding.of_nil rfl) hυ
  refine ⟨fun e he order hclaim => ?_, fits_of_run (hrun.trans hlater)⟩
  have hsettled : Settled cfg e τ :=
    hlater.invariant_reached (I := Settled cfg e)
      (fun υ _ _ hυ h hok hs => h.step (hholding υ (hrun.trans hυ)) hok hs) (Or.inl he)
  obtain ⟨τ', hτ'⟩ := Option.isSome_iff_exists.mp hclaim
  -- a relay with the event still in hand does not claim, and a dead row is not claimed
  rcases hsettled with hrej | hdead
  · obtain ⟨since, claimed, published, failure, hloc⟩ := rejected_eq_some hrej
    cases effect_of_step hτ' with
    | claim hloc' => cases hloc.symm.trans hloc'
  · exact hdead.not_claimed hτ'

/-! ## An event over the limit -/

/-- Only the payload "huge" is over the limit. -/
def hugePayload (maxAttempts : Nat) : Config String where
  batchSize := 2
  maxAttempts := maxAttempts
  patentEventsTopic := "patents.events"
  byteLength := fun payload _ => if payload = "huge" then MAX_PAYLOAD_BYTES + 1 else 100

/-- An event that is too large, and a small one behind it. -/
def hugeThenSmall : OutboxTable String :=
  ⟨[enqueue 1 "patent" 7 "PatentVersionUpserted" "huge",
    enqueue 2 "patent" 8 "PatentVersionUpserted" "small"], by decide⟩

/-- The first pass rejects event 1. -/
def firstPass : List (Act String) := [.begin 0, .claim 0 [1, 2], .send 0 none]

/-- The next pass is about to claim. -/
def secondPass : List (Act String) := [.mark 0 none, .begin 0]

theorem firstPass_once : (execOk (step (hugePayload 1)) (AloneLastAttempt (hugePayload 1))
    (init hugeThenSmall) firstPass).isSome = true := by
  decide

/-- Event 1 is rejected, with a limit of one attempt. -/
def rejectedOnce : State String :=
  (execOk (step (hugePayload 1)) (AloneLastAttempt (hugePayload 1)) (init hugeThenSmall)
    firstPass).get firstPass_once

theorem secondPass_once : (execOk (step (hugePayload 1)) (AloneLastAttempt (hugePayload 1))
    rejectedOnce secondPass).isSome = true := by
  decide

/-- With a limit of one attempt, the first failure is the last. -/
theorem attemptedOnce_of_oneAttempt :
    AttemptedOnce (hugePayload 1) rejectedOnce ((execOk (step (hugePayload 1))
      (AloneLastAttempt (hugePayload 1)) rejectedOnce secondPass).get secondPass_once) :=
  attemptedOnce_of_run (Run.of_execOk (Option.some_get firstPass_once).symm)
    (Run.of_execOk (Option.some_get secondPass_once).symm)

theorem firstPass_often : (execOk (step (hugePayload 10)) (fun _ => Draining)
    (init hugeThenSmall) firstPass).isSome = true := by
  decide

/-- Event 1 is rejected, with a limit of ten attempts. -/
def rejectedFirst : State String :=
  (execOk (step (hugePayload 10)) (fun _ => Draining) (init hugeThenSmall) firstPass).get
    firstPass_often

theorem secondPass_often : (execOk (step (hugePayload 10)) (fun _ => Draining) rejectedFirst
    secondPass).isSome = true := by
  decide

/-- Then the second pass claims event 1 again, and event 2 waits behind it. -/
theorem not_attemptedOnce :
    ¬ ∀ (cfg : Config String) (t : OutboxTable String) (σ τ : State String),
      Run (step cfg) (fun _ => Draining) (init t) σ → Run (step cfg) (fun _ => Draining) σ τ →
      AttemptedOnce cfg σ τ := by
  intro hall
  have hone := hall (hugePayload 10) hugeThenSmall rejectedFirst _
    (Run.of_execOk (Option.some_get firstPass_often).symm)
    (Run.of_execOk (Option.some_get secondPass_often).symm)
  exact hone.notClaimed ⟨1, "patent", 7, "PatentVersionUpserted", "huge", none, some 0, 0, none⟩
    (by decide) [1] (by decide) List.mem_cons_self

end SmartPatents.OutboxRelay
