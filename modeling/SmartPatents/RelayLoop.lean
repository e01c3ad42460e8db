/-
  `start` of `src/workers/outboxRelay.js`: the loop that runs the passes.

  After a pass the loop sets a timer.  It does not sleep when the pass has `drained` a full batch, and
  sleeps `pollIntervalMs` otherwise:

    calling → passing → waiting → passing → …
      loop()    publishBatch  setTimeout

  The loop is modelled around the relay as it is (`OutboxRelay.step` for relay 0, whatever other
  relays, the broker and the database do), over every configuration that the boot check of
  `src/config/env.js` lets pass.

  What "the loop never spins" means is `NeverSpins`: a sleep is skipped only for an event that has been
  published, and after a pass that publishes nothing the timer runs for `pollIntervalMs`.  A drained
  pass has published `batchSize` events, which pays for the sleep it skips.  The boot check asks of
  the two settings only that they be integers, and so lets two kinds of spinning pass:

  1. `OUTBOX_BATCH_SIZE` may be zero.  Then `published === config.outbox.batchSize` holds of a pass
     that has published nothing, and the loop calls itself for ever (`not_neverSpins`).

  2. `OUTBOX_POLL_INTERVAL_MS` may be less than 1 or more than `TIMEOUT_MAX`.  `setTimeout` waits for
     1 millisecond then (`timeoutMs`), whatever the interval was meant to be.

  Every other environment that boots is fine, and `neverSpins_iff` says that these are all.
-/
import SmartPatents.Environment
import SmartPatents.OutboxRelay

namespace SmartPatents.RelayLoop

open Runs Outbox OutboxRelay

variable {P : Type}

/-! ## Timers -/

/-- The longest delay of a timer, 2³¹ − 1 milliseconds. -/
def TIMEOUT_MAX : Int := 2147483647

/-- How long a timer set for `delay` runs: `setTimeout` reads a delay that is less than 1 or more than
    `TIMEOUT_MAX` as 1. -/
def timeoutMs (delay : Int) : Int := if 1 ≤ delay ∧ delay ≤ TIMEOUT_MAX then delay else 1

theorem timeoutMs_eq_self {delay : Int} :
    timeoutMs delay = delay ↔ 1 ≤ delay ∧ delay ≤ TIMEOUT_MAX := by
  unfold timeoutMs
  split
  · rename_i hrange
    exact iff_of_true rfl hrange
  · rename_i hrange
    refine iff_of_false (fun heq => hrange ?_) hrange
    rw [← heq]
    exact ⟨Int.le_refl 1, by decide⟩

/-- A delay of 25 days. -/
example : timeoutMs (25 * 24 * 60 * 60 * 1000) = 1 := by decide

/-! ## The loop -/

/-- What the loop is doing. -/
inductive Phase
  /-- `loop()` is called. -/
  | calling
  /-- `publishBatch` is under way. -/
  | passing
  /-- The last pass published so many events, and the timer runs for so long. -/
  | waiting (published : Nat) (delay : Int)
  /-- `loop()` found that it is not `running`, or the timer was cleared. -/
  | ended
deriving DecidableEq

/-- The process, with what it has done so far. -/
structure Loop (P : Type) where
  /-- The loop runs the passes of relay 0. -/
  relay : State P
  running : Bool
  phase : Phase
  /-- How many passes have been scheduled with `drained`. -/
  immediate : Nat
  /-- How many events the passes have published. -/
  published : Nat

/-- What the loop and the world around it can do. -/
inductive Act (P : Type)
  /-- `loop()` runs: it was called, or the timer has fired. -/
  | call
  /-- A step of the pass, or of the world around it. -/
  | relay (a : OutboxRelay.Act P)
  /-- The query of `claimBatch` fails. -/
  | claimFails (error : String)
  /-- The pass is over, and the loop sets the timer. -/
  | schedule
  | stop

/-- What `publishBatch` needs of the configuration. -/
def relayConfig (c : Environment.Config) (byteLength : P → Nat → Nat) : OutboxRelay.Config P where
  batchSize := c.outbox.batchSize.toNat
  maxAttempts := c.outbox.maxAttempts.toNat
  patentEventsTopic := c.kafka.patentEventsTopic
  byteLength := byteLength

/-- The steps of the pass are those of relay 0, which only the loop begins.  A negative LIMIT is an
    error, so a claim with one does not succeed. -/
def allowed (c : Environment.Config) : OutboxRelay.Act P → Bool
  | .begin r | .crash r => r != 0
  | .claim r _ => r != 0 || 0 ≤ c.outbox.batchSize
  | .tick _ | .enqueue .. | .send .. | .mark .. => true

/-- `published += 1`. -/
def publishes (σ : State P) : OutboxRelay.Act P → Bool
  | .mark 0 none =>
    match σ.loc 0 with
    | .markingPublished .. => true
    | _ => false
  | _ => false

/-- The loop, step by step; between two of its steps anything may happen to the outbox. -/
def Loop.step (c : Environment.Config) (byteLength : P → Nat → Nat) (σ : Loop P) :
    Act P → Option (Loop P)
  | .call =>
    match σ.phase with
    | .calling | .waiting _ _ =>
      if σ.running then
        (OutboxRelay.step (relayConfig c byteLength) σ.relay (.begin 0)).map fun relay =>
          { σ with relay := relay, phase := .passing }
      else some { σ with phase := .ended }
    | .passing | .ended => none
  | .relay a =>
    if allowed c a then
      (OutboxRelay.step (relayConfig c byteLength) σ.relay a).map fun relay =>
        { σ with
          relay := relay
          published := if publishes σ.relay a then σ.published + 1 else σ.published }
    else none
  | .claimFails error =>
    match σ.phase, σ.relay.loc 0 with
    | .passing, .claiming _ =>
      some { σ with relay := { σ.relay with loc := goto σ.relay.loc 0 (.threw error) } }
    | _, _ => none
  | .schedule =>
    match σ.phase, σ.relay.loc 0 with
    | .passing, .returned _ published =>
      let drained := (published : Int) == c.outbox.batchSize
      some { σ with
        phase := .waiting published (timeoutMs (if drained then 0 else c.outbox.pollIntervalMs))
        immediate := if drained then σ.immediate + 1 else σ.immediate }
    | .passing, .threw _ =>
      some { σ with phase := .waiting 0 (timeoutMs c.outbox.pollIntervalMs) }
    | _, _ => none
  -- a pass under way goes on, and sets its timer when it is done
  | .stop =>
    match σ.phase with
    | .waiting _ _ => some { σ with running := false, phase := .ended }
    | _ => some { σ with running := false }

/-- `start()`, on any outbox. -/
def Loop.init (table : OutboxTable P) : Loop P where
  relay := OutboxRelay.init table
  running := true
  phase := .calling
  immediate := 0
  published := 0

/-- The loop skips a sleep only for an event that it has published, and after a pass without any its
    timer runs for the poll interval. -/
structure NeverSpins (c : Environment.Config) (σ : Loop P) : Prop where
  drained : σ.immediate ≤ σ.published
  waits : ∀ delay, σ.phase = .waiting 0 delay → delay = c.outbox.pollIntervalMs

/-! ## The invariant -/

/-- What the pass of relay 0 has published so far. -/
def progress : Loc P → Nat
  | .sending _ _ published _ _ | .markingPublished _ _ published _ _
  | .markingFailed _ _ published _ _ | .returned _ published => published
  | .idle | .claiming _ | .threw _ => 0

@[simp] theorem progress_nextEvent {since : Time} {claimed published : Nat}
    {events : List (OutboxEvent P)} :
    progress (nextEvent since claimed published events) = published := by
  cases events <;> rfl

/-- A pass counts one more event exactly when it marks one published. -/
theorem progress_of_step {cfg : OutboxRelay.Config P} {σ σ' : State P} {a : OutboxRelay.Act P}
    (hs : OutboxRelay.step cfg σ a = some σ') :
    progress (σ'.loc 0) ≤ progress (σ.loc 0) + if publishes σ a then 1 else 0 := by
  have hmove : ∀ {r : Nat} {l : Loc P}, (r = 0 → progress l ≤
      progress (σ.loc 0) + if publishes σ a then 1 else 0) →
      progress (goto σ.loc r l 0) ≤ progress (σ.loc 0) + if publishes σ a then 1 else 0 := by
    intro r l h
    by_cases hr : r = 0
    · subst hr
      rw [goto_self]
      exact h rfl
    · rw [goto_ne _ _ (Ne.symm hr)]
      exact Nat.le_add_right _ _
  cases effect_of_step hs with
  | tick => exact Nat.le_add_right _ _
  | enqueue => exact Nat.le_add_right _ _
  | begin => exact hmove fun _ => Nat.zero_le _
  | claim =>
    refine hmove fun _ => ?_
    rw [progress_nextEvent]
    exact Nat.zero_le _
  | accept hloc =>
    refine hmove ?_
    rintro rfl
    rw [hloc]
    exact Nat.le_add_right _ _
  | refuse hloc =>
    refine hmove ?_
    rintro rfl
    rw [hloc]
    exact Nat.le_add_right _ _
  | @published r since claimed published event rest hloc =>
    refine hmove ?_
    rintro rfl
    have hpublishes : publishes σ (.mark 0 none) = true := by simp only [publishes, hloc]
    rw [progress_nextEvent, hpublishes, hloc]
    exact Nat.le_refl _
  | unpublished hloc =>
    refine hmove ?_
    rintro rfl
    rw [hloc]
    exact Nat.le_add_right _ _
  | failed hloc =>
    refine hmove ?_
    rintro rfl
    rw [hloc]
    exact Nat.le_add_right _ _
  | threw => exact hmove fun _ => Nat.zero_le _
  | crash => exact hmove fun _ => Nat.zero_le _

/-- The sleeps that were skipped, and what the pass under way has published, are paid for. -/
structure LoopInv (c : Environment.Config) (σ : Loop P) : Prop where
  paid : σ.immediate ≤ σ.published
  passing : σ.phase = .passing → σ.immediate + progress (σ.relay.loc 0) ≤ σ.published
  waits : ∀ delay, σ.phase = .waiting 0 delay → delay = c.outbox.pollIntervalMs

variable {c : Environment.Config} {byteLength : P → Nat → Nat} {σ σ' : Loop P}

/-- The settings that keep the loop from spinning: a batch is not empty, and a timer can run for the
    interval. -/
def Sleeps (c : Environment.Config) : Prop :=
  c.outbox.batchSize ≠ 0 ∧ timeoutMs c.outbox.pollIntervalMs = c.outbox.pollIntervalMs

theorem loopInv_init (table : OutboxTable P) : LoopInv c (Loop.init table) where
  paid := Nat.le_refl 0
  passing := fun h => by cases h
  waits := fun _ h => by cases h

/-- The end of a pass. -/
theorem LoopInv.schedule (h : LoopInv c σ) (hsleeps : Sleeps c)
    (hs : Loop.step c byteLength σ .schedule = some σ') : LoopInv c σ' := by
  obtain ⟨hsize, hpoll⟩ := hsleeps
  simp only [Loop.step] at hs
  split at hs
  · rename_i claimed published hphase hloc
    obtain rfl := Option.some.inj hs
    have hpassing := h.passing hphase
    rw [hloc] at hpassing
    have hpassing : σ.immediate + published ≤ σ.published := hpassing
    by_cases hdrained : (published : Int) = c.outbox.batchSize
    -- a full batch is not empty, and it pays for the sleep
    · have hpos : published ≠ 0 := by omega
      refine ⟨?_, (fun hpass => by cases hpass), fun delay hwait => ?_⟩
      · simp only [hdrained, BEq.rfl, if_true]
        omega
      · exact absurd (Phase.waiting.inj hwait).1 hpos
    · have hfull : ((published : Int) == c.outbox.batchSize) = false := by simpa using hdrained
      refine ⟨?_, (fun hpass => by cases hpass), fun delay hwait => ?_⟩
      · simp only [hfull]
        exact h.paid
      · simp only [hfull, Bool.false_eq_true, if_false, hpoll] at hwait
        exact (Phase.waiting.inj hwait).2.symm
  · obtain rfl := Option.some.inj hs
    refine ⟨h.paid, (fun hpass => by cases hpass), fun delay hwait => ?_⟩
    rw [hpoll] at hwait
    exact (Phase.waiting.inj hwait).2.symm
  · cases hs

/-- **Step lemma.** -/
theorem LoopInv.step (h : LoopInv c σ) (hsleeps : Sleeps c) {a : Act P}
    (hs : Loop.step c byteLength σ a = some σ') : LoopInv c σ' := by
  cases a with
  | schedule => exact h.schedule hsleeps hs
  | call =>
    have hcall : ∀ {υ : Loop P}, (if σ.running then
        (OutboxRelay.step (relayConfig c byteLength) σ.relay (.begin 0)).map fun relay =>
          { σ with relay := relay, phase := .passing }
        else some { σ with phase := .ended }) = some υ → LoopInv c υ := by
      intro υ hs
      split at hs
      · obtain ⟨relay, hbegin, rfl⟩ := Option.map_eq_some_iff.mp hs
        refine ⟨h.paid, fun _ => ?_, fun _ hwait => by cases hwait⟩
        cases effect_of_step hbegin with
        | begin hrest =>
          simp only [goto_self]
          exact h.paid
      · obtain rfl := Option.some.inj hs
        exact ⟨h.paid, (fun hpass => by cases hpass), fun _ hwait => by cases hwait⟩
    simp only [Loop.step] at hs
    split at hs
    · exact hcall hs
    · exact hcall hs
    · cases hs
    · cases hs
  | relay a =>
    simp only [Loop.step] at hs
    split at hs
    · obtain ⟨relay, hmove, rfl⟩ := Option.map_eq_some_iff.mp hs
      have hprogress := progress_of_step hmove
      refine ⟨?_, fun hpass => ?_, h.waits⟩
      · have hpaid := h.paid
        dsimp only
        split <;> omega
      · have hpassing := h.passing hpass
        dsimp only
        by_cases hpublishes : publishes σ.relay a = true
        · rw [if_pos hpublishes] at hprogress ⊢
          omega
        · rw [if_neg hpublishes] at hprogress ⊢
          omega
    · cases hs
  | claimFails error =>
    simp only [Loop.step] at hs
    split at hs
    · obtain rfl := Option.some.inj hs
      refine ⟨h.paid, fun _ => ?_, h.waits⟩
      simp only [goto_self]
      exact h.paid
    · cases hs
  | stop =>
    simp only [Loop.step] at hs
    split at hs
    · obtain rfl := Option.some.inj hs
      exact ⟨h.paid, (fun hpass => by cases hpass), fun _ hwait => by cases hwait⟩
    · obtain rfl := Option.some.inj hs
      exact ⟨h.paid, h.passing, h.waits⟩

/-- The invariant says more than the property. -/
theorem LoopInv.neverSpins (h : LoopInv c σ) : NeverSpins c σ := ⟨h.paid, h.waits⟩

/-- With such settings no run spins. -/
theorem neverSpins_of_run (hsleeps : Sleeps c) {table : OutboxTable P}
    (hrun : Run (Loop.step c byteLength) always (Loop.init table) σ) : NeverSpins c σ :=
  (hrun.invariant (I := LoopInv c) (fun _ _ _ h _ hs => h.step hsleeps hs)
    (loopInv_init table)).neverSpins

/-! ## Other settings -/

/-- The first pass claims nothing, publishes nothing, and is drained. -/
theorem exists_spin (hsize : c.outbox.batchSize = 0) (table : OutboxTable P) :
    ∃ σ, Run (Loop.step c byteLength) always (Loop.init table) σ ∧ σ.immediate = 1 ∧
      σ.published = 0 := by
  have hnone : batchIds (relayConfig c byteLength) (staleBefore 0) table = [] := by
    simp [batchIds, batch, relayConfig, hsize]
  let begun : Loop P :=
    { Loop.init table with
      relay := { init table with loc := goto (fun _ => .idle) 0 (.claiming (staleBefore 0)) }
      phase := .passing }
  let returned : Loop P :=
    { begun with
      relay := { begun.relay with
        table := claimBatch [] 0 table
        loc := goto begun.relay.loc 0 (.returned 0 0) } }
  have hcall : Loop.step c byteLength (Loop.init table) .call = some begun := rfl
  have hclaim : Loop.step c byteLength begun (.relay (.claim 0 [])) = some returned := by
    have hallowed : allowed c (.claim 0 [] : OutboxRelay.Act P) = true := by
      simp [allowed, hsize]
    simp only [Loop.step, hallowed, if_true, OutboxRelay.step, begun, goto_self, init, hnone]
    rfl
  refine ⟨{ returned with phase := .waiting 0 (timeoutMs 0), immediate := 1 },
    ((Run.single trivial hcall).tail trivial hclaim).tail (a := .schedule) trivial ?_, rfl, rfl⟩
  simp only [Loop.step, returned, begun, goto_self, hsize]
  rfl

/-- The first pass fails at once, and the timer runs for what `setTimeout` makes of the interval. -/
theorem exists_wait (c : Environment.Config) (byteLength : P → Nat → Nat) (table : OutboxTable P) :
    ∃ σ, Run (Loop.step c byteLength) always (Loop.init table) σ ∧
      σ.phase = .waiting 0 (timeoutMs c.outbox.pollIntervalMs) := by
  let begun : Loop P :=
    { Loop.init table with
      relay := { init table with loc := goto (fun _ => .idle) 0 (.claiming (staleBefore 0)) }
      phase := .passing }
  let failed : Loop P :=
    { begun with relay := { begun.relay with loc := goto begun.relay.loc 0 (.threw "timeout") } }
  have hcall : Loop.step c byteLength (Loop.init table) .call = some begun := rfl
  have hfails : Loop.step c byteLength begun (.claimFails "timeout") = some failed := by
    simp only [Loop.step, begun, goto_self]
    rfl
  refine ⟨{ failed with phase := .waiting 0 (timeoutMs c.outbox.pollIntervalMs) },
    ((Run.single trivial hcall).tail trivial hfails).tail (a := .schedule) trivial ?_, rfl⟩
  simp only [Loop.step, failed, begun, goto_self]

/-- **The loop never spins** if and only if `OUTBOX_BATCH_SIZE` does not denote zero and
    `OUTBOX_POLL_INTERVAL_MS` denotes a delay that a timer can have. -/
theorem neverSpins_iff {env : Environment.Env} (hbuild : Environment.build env = .ok c)
    (byteLength : P → Nat → Nat) (table : OutboxTable P) :
    (∀ σ, Run (Loop.step c byteLength) always (Loop.init table) σ → NeverSpins c σ) ↔
      Environment.parseInteger (env "OUTBOX_BATCH_SIZE") 50 ≠ some 0 ∧
        ∃ ms, Environment.parseInteger (env "OUTBOX_POLL_INTERVAL_MS") 1000 = some ms ∧
          1 ≤ ms ∧ ms ≤ 2147483647 := by
  obtain ⟨hpoll, hbatch, -⟩ := Environment.outbox_of_build hbuild
  rw [hbatch, ne_eq, Option.some.injEq]
  constructor
  · intro hall
    refine ⟨fun hsize => ?_, c.outbox.pollIntervalMs, hpoll, ?_⟩
    · obtain ⟨σ, hrun, himmediate, hpublished⟩ : ∃ σ, Run (Loop.step c byteLength) always
          (Loop.init table) σ ∧ σ.immediate = 1 ∧ σ.published = 0 := exists_spin hsize table
      have hdrained := (hall σ hrun).drained
      omega
    · obtain ⟨σ, hrun, hwaits⟩ := exists_wait c byteLength table
      exact timeoutMs_eq_self.mp ((hall σ hrun).waits _ hwaits)
  · rintro ⟨hsize, ms, hms, hrange⟩ σ hrun
    obtain rfl := Option.some.inj (hpoll.symm.trans hms)
    exact neverSpins_of_run ⟨hsize, timeoutMs_eq_self.mpr hrange⟩ hrun

/-- `NODE_ENV=test` with a database, and `OUTBOX_BATCH_SIZE` as given. -/
def testEnv (batchSize : Option String) : Environment.Env := fun name =>
  if name = "NODE_ENV" then some "test"
  else if name = "DATABASE_URL" then some "postgresql://localhost/patents"
  else if name = "OUTBOX_BATCH_SIZE" then batchSize
  else none

/-- Both environments are accepted. -/
theorem build_testEnv :
    Environment.build (testEnv none) = .ok (Environment.config (testEnv none)) ∧
      Environment.build (testEnv (some "0")) = .ok (Environment.config (testEnv (some "0"))) :=
  ⟨if_pos (by decide +kernel), if_pos (by decide +kernel)⟩

/-- The default values keep the loop from spinning. -/
theorem neverSpins_iff_default :
    (∀ σ, Run (Loop.step (Environment.config (testEnv none)) fun (_ : String) _ => 100) always
        (Loop.init Table.empty) σ → NeverSpins (Environment.config (testEnv none)) σ) ↔
      Environment.parseInteger (testEnv none "OUTBOX_BATCH_SIZE") 50 ≠ some 0 ∧
        ∃ ms, Environment.parseInteger (testEnv none "OUTBOX_POLL_INTERVAL_MS") 1000 = some ms ∧
          1 ≤ ms ∧ ms ≤ 2147483647 :=
  neverSpins_iff build_testEnv.1 _ _

/-- With `OUTBOX_BATCH_SIZE=0` the process starts, and spins. -/
theorem not_neverSpins :
    ¬ ∀ (env : Environment.Env) (c : Environment.Config), Environment.build env = .ok c →
      ∀ σ : Loop String, Run (Loop.step c fun _ _ => 100) always (Loop.init Table.empty) σ →
        NeverSpins c σ := by
  intro hall
  let c := Environment.config (testEnv (some "0"))
  obtain ⟨σ, hrun, himmediate, hpublished⟩ : ∃ σ : Loop String, Run (Loop.step c fun _ _ => 100)
      always (Loop.init Table.empty) σ ∧ σ.immediate = 1 ∧ σ.published = 0 :=
    exists_spin (by decide +kernel) Table.empty
  have hdrained := (hall _ _ build_testEnv.2 σ hrun).drained
  omega

end SmartPatents.RelayLoop
