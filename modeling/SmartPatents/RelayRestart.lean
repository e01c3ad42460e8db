/-
  `start`, `stop` and the relay process (`src/workers/outboxRelay.js`, `src/relay.js`).

  The process runs passes in a loop.  On SIGTERM it calls `stop()`, which clears `running` and the
  timer and awaits `disconnectProducer`; once `stop()` resolves the process exits.  Nothing in
  `stop()` waits for the pass under way: the pass goes on while the producer disconnects, and the
  exit cuts it wherever it is.

    down → running → stopping → stopped → down
           start      stop()     producer   process.exit
                                 disconnected

  What a graceful restart ought to mean is `ExactlyOnce`: whatever the broker has accepted was new to
  it, whatever will not be claimed any more has been accepted, and an accepted event is marked before
  the process ends.  Two things go wrong without any failure of the broker or the database.

  1. Between the broker's answer and the commit of `markPublished` an event is accepted and not
     marked.  A process that exits there leaves it to be sent again (`not_exactlyOnce`).

  2. A send that `stop()` has cut off, by disconnecting the producer under it, is refused like any
     other, and `markFailed` counts it.  The last attempt of a row can go that way, or with a payload
     that is too large, and then the row is dead-lettered without ever having been accepted.

  `Careful` keeps both from happening.  As long as every step does, every event is accepted exactly
  once, and the first step that does not breaks it (`exactlyOnce_of_run`).  There is one relay, so
  what carries the proof is that the events in its hand are rows of the table as they stand there
  (`Holding`).
-/
import SmartPatents.RelayAlone

namespace SmartPatents.OutboxRelay

open Runs Outbox

variable {P : Type} {cfg : Config P}

/-! ## The process -/

/-- `stopped`: `stop()` has resolved, the process has not exited yet. -/
inductive Phase
  | down
  | running
  | stopping
  | stopped
deriving DecidableEq

/-- The producer is connected from `start` until `disconnectProducer` is through. -/
def Phase.connected : Phase → Bool
  | .running | .stopping => true
  | .down | .stopped => false

/-- The relay process, with the outbox and the broker around it. -/
structure Process (P : Type) where
  /-- The one relay of the process is relay 0. -/
  relay : State P
  phase : Phase

/-- What can happen to the process, and in it. -/
inductive Command (P : Type)
  | start
  /-- A step of the pass, or of the world around it. -/
  | relay (a : Act P)
  | stop
  /-- `disconnectProducer` resolves, and `stop()` with it. -/
  | disconnected
  | exit

/-- What may happen in a phase: `loop` starts a pass while `running` is set, a pass under way goes on
    until the process is gone, and a send reaches the broker while the producer is connected. -/
def Phase.allows (phase : Phase) : Act P → Bool
  | .tick _ | .enqueue .. => true
  | .begin r => r == 0 && phase == .running
  | .claim r _ | .mark r _ | .send r (some _) => r == 0 && phase != .down
  | .send r none => r == 0 && phase.connected
  | .crash _ => false

/-- One step; `none` where it is not possible. -/
def Process.step (cfg : Config P) (σ : Process P) : Command P → Option (Process P)
  | .start => if σ.phase = .down then some { σ with phase := .running } else none
  | .relay a =>
    if σ.phase.allows a then
      (OutboxRelay.step cfg σ.relay a).map fun relay => { σ with relay := relay }
    else none
  -- the pass under way is not waited for
  | .stop => if σ.phase = .running then some { σ with phase := .stopping } else none
  | .disconnected => if σ.phase = .stopping then some { σ with phase := .stopped } else none
  | .exit =>
    if σ.phase = .stopped then
      some
        { relay := { σ.relay with loc := goto σ.relay.loc 0 .idle }
          phase := .down }
    else none

/-- The process has not been started yet. -/
def Process.init (t : OutboxTable P) : Process P where
  relay := OutboxRelay.init t
  phase := .down

/-- Neither broker nor database fails; a send fails only because `stop()` is disconnecting the
    producer.  A send that the broker has accepted is answered: the producer waits for the requests
    that are under way before it disconnects, and refuses the others. -/
def NoFailure (σ : Process P) : Command P → Prop
  | .relay (.send _ (some _)) => σ.phase ≠ .running
  | .relay (.mark _ error) => error = none
  | _ => True

/-- The process exits when no accepted event is waiting for its mark, and no failed send uses up the
    last attempt of its row; a row that is enqueued has an attempt to use up. -/
def Careful (cfg : Config P) (σ : Process P) : Command P → Prop
  | .exit => (σ.relay.loc 0).unmarked = none
  | .relay (.mark r _) =>
    ∀ event ∈ (σ.relay.loc r).failing, event.attempts + 1 < cfg.maxAttempts
  | .relay (.enqueue ..) => 0 < cfg.maxAttempts
  | _ => True

instance (σ : Process P) : ∀ c, Decidable (NoFailure σ c)
  | .relay (.send _ (some _)) => inferInstanceAs (Decidable (σ.phase ≠ .running))
  | .relay (.mark _ error) => inferInstanceAs (Decidable (error = none))
  | .relay (.send _ none) | .relay (.tick _) | .relay (.enqueue ..) | .relay (.begin _)
  | .relay (.claim ..) | .relay (.crash _) | .start | .stop | .disconnected | .exit =>
    .isTrue trivial

/-- The row will not be claimed any more: it is published, or it has used up its attempts. -/
def Over (cfg : Config P) (x : OutboxEvent P) : Prop :=
  x.publishedAt.isSome ∨ deadLettered cfg.maxAttempts x = true

/-- The outbox has drained. -/
def Drained (cfg : Config P) (t : OutboxTable P) : Prop := ∀ x ∈ t, Over cfg x

/-- No event is accepted twice, every event that will not be claimed any more has been accepted, and
    every accepted one is published when the process is down. -/
structure ExactlyOnce (cfg : Config P) (σ : Process P) : Prop where
  once : (σ.relay.accepted.map Message.sequence).Nodup
  sent : ∀ x ∈ σ.relay.table, Over cfg x → ∃ m ∈ σ.relay.accepted, m.sequence = x.id
  /-- What was accepted before the process ended is marked. -/
  marked : σ.phase = .down → ∀ m ∈ σ.relay.accepted,
    ∃ x ∈ σ.relay.table, x.id = m.sequence ∧ x.publishedAt.isSome

variable {σ σ' : Process P} {c : Command P}

/-- Once the outbox has drained, every event has been accepted exactly once. -/
theorem ExactlyOnce.drained (h : ExactlyOnce cfg σ) (hdrained : Drained cfg σ.relay.table) :
    ∀ x ∈ σ.relay.table, (σ.relay.accepted.map Message.sequence).count x.id = 1 := by
  intro x hx
  obtain ⟨m, hm, hid⟩ := h.sent x hx (hdrained x hx)
  exact List.count_eq_one_of_mem h.once (hid ▸ List.mem_map_of_mem hm)

/-- What one command can do, said once. -/
inductive Process.Effect (cfg : Config P) (σ : Process P) : Command P → Process P → Prop
  | start (hphase : σ.phase = .down) : Effect cfg σ .start { σ with phase := .running }
  | relay {a relay'} (hallows : σ.phase.allows a = true)
      (hs : OutboxRelay.step cfg σ.relay a = some relay') :
      Effect cfg σ (.relay a) { σ with relay := relay' }
  | stop (hphase : σ.phase = .running) : Effect cfg σ .stop { σ with phase := .stopping }
  | disconnected (hphase : σ.phase = .stopping) :
      Effect cfg σ .disconnected { σ with phase := .stopped }
  | exit (hphase : σ.phase = .stopped) :
      Effect cfg σ .exit
        { relay := { σ.relay with loc := goto σ.relay.loc 0 .idle }
          phase := .down }

/-- **Inversion**: from here on no proof opens `step`. -/
theorem Process.effect_of_step (h : Process.step cfg σ c = some σ') :
    Process.Effect cfg σ c σ' := by
  cases c with
  | start =>
    simp only [Process.step] at h
    split at h
    · rename_i hphase
      exact Option.some.inj h ▸ .start hphase
    · cases h
  | relay a =>
    simp only [Process.step] at h
    split at h
    · rename_i hallows
      obtain ⟨relay', hs, rfl⟩ := Option.map_eq_some_iff.mp h
      exact .relay hallows hs
    · cases h
  | stop =>
    simp only [Process.step] at h
    split at h
    · rename_i hphase
      exact Option.some.inj h ▸ .stop hphase
    · cases h
  | disconnected =>
    simp only [Process.step] at h
    split at h
    · rename_i hphase
      exact Option.some.inj h ▸ .disconnected hphase
    · cases h
  | exit =>
    simp only [Process.step] at h
    split at h
    · rename_i hphase
      exact Option.some.inj h ▸ .exit hphase
    · cases h

/-- The process moves relay 0 only. -/
theorem alone_of_allows {phase : Phase} {a : Act P} (h : phase.allows a = true) : Alone a := by
  cases a with
  | tick now => trivial
  | enqueue => trivial
  | begin r =>
    simp only [Phase.allows, Bool.and_eq_true, beq_iff_eq] at h
    exact h.1
  | claim r order =>
    simp only [Phase.allows, Bool.and_eq_true, beq_iff_eq] at h
    exact h.1
  | send r error =>
    cases error <;> simp only [Phase.allows, Bool.and_eq_true, beq_iff_eq] at h <;> exact h.1
  | mark r error =>
    simp only [Phase.allows, Bool.and_eq_true, beq_iff_eq] at h
    exact h.1
  | crash r => cases h

/-! ## The invariant -/

/-- Of the table, what relay 0 is doing, and what the broker has accepted. -/
structure Once (t : OutboxTable P) (l : Loc P) (ms : List (Message P)) : Prop where
  sent : ∀ x ∈ t, x.publishedAt.isSome → ∃ m ∈ ms, m.sequence = x.id
  unmarked : ∀ e, l.unmarked = some e → ∃ m ∈ ms, m.sequence = e.id
  marked : ∀ m ∈ ms, (∃ x ∈ t, x.id = m.sequence ∧ x.publishedAt.isSome) ∨
    ∃ e, l.unmarked = some e ∧ e.id = m.sequence
  once : (ms.map Message.sequence).Nodup

variable {t t' : OutboxTable P} {l l' : Loc P} {ms : List (Message P)}

/-- Rows change, but not whether they are published; the relay moves between locations at which
    nothing is unmarked. -/
theorem Once.keep (h : Once t l ms) {f : OutboxEvent P → OutboxEvent P}
    (ht : ∀ x, x ∈ t' ↔ ∃ e ∈ t, f e = x) (hid : ∀ e, (f e).id = e.id)
    (hpub : ∀ e, (f e).publishedAt = e.publishedAt) (hl : l.unmarked = none)
    (hl' : l'.unmarked = none) : Once t' l' ms where
  sent := by
    intro x hx hsome
    obtain ⟨e, he, rfl⟩ := (ht x).mp hx
    rw [hpub] at hsome
    rw [hid]
    exact h.sent e he hsome
  unmarked := by
    intro e he
    rw [hl'] at he
    cases he
  marked := by
    intro m hm
    rcases h.marked m hm with ⟨x, hx, hxid, hsome⟩ | ⟨e, he, -⟩
    · exact Or.inl ⟨f x, (ht _).mpr ⟨x, hx, rfl⟩, (hid x).trans hxid, by rw [hpub]; exact hsome⟩
    · rw [hl] at he
      cases he
  once := h.once

/-- The relay moves, and writes nothing. -/
theorem Once.walk (h : Once t l ms) (hl : l.unmarked = none) (hl' : l'.unmarked = none) :
    Once t l' ms :=
  h.keep (f := id) (fun x => by simp) (fun _ => rfl) (fun _ => rfl) hl hl'

/-- A new event has not been accepted. -/
theorem Once.enqueue (h : Once t l ms) {row : OutboxEvent P} (hpub : row.publishedAt = none)
    (hnew : ∀ e ∈ t, e.id ≠ row.id) : Once (t.put row) l ms where
  sent := by
    intro x hx hsome
    rcases Table.mem_put.mp hx with rfl | ⟨hx, -⟩
    · rw [hpub] at hsome
      cases hsome
    · exact h.sent x hx hsome
  unmarked := h.unmarked
  marked := by
    intro m hm
    rcases h.marked m hm with ⟨x, hx, hrest⟩ | hmark
    · exact Or.inl ⟨x, Table.mem_put.mpr (Or.inr ⟨hx, hnew x hx⟩), hrest⟩
    · exact Or.inr hmark
  once := h.once

/-- The broker accepts an event that it has not seen: its row is unpublished. -/
theorem Once.accept {since : Time} {claimed published : Nat} {event : OutboxEvent P}
    {rest : List (OutboxEvent P)}
    (h : Once t (.sending since claimed published event rest) ms)
    (hhold : Holding cfg t (.sending since claimed published event rest)) :
    Once t (.markingPublished since claimed published event rest)
      (ms ++ [message cfg event]) where
  sent := by
    intro x hx hsome
    obtain ⟨m, hm, hid⟩ := h.sent x hx hsome
    exact ⟨m, List.mem_append_left _ hm, hid⟩
  unmarked := by
    intro e he
    obtain rfl := Option.some.inj he
    exact ⟨_, List.mem_append_right _ List.mem_cons_self, rfl⟩
  marked := by
    intro m hm
    rcases List.mem_append.mp hm with hm | hm
    · rcases h.marked m hm with hx | ⟨e, he, -⟩
      · exact Or.inl hx
      · cases he
    · obtain rfl := List.mem_singleton.mp hm
      exact Or.inr ⟨event, rfl, rfl⟩
  once := by
    have hevent : event ∈ (Loc.sending since claimed published event rest).held :=
      List.mem_cons_self
    rw [List.map_append, List.nodup_append]
    refine ⟨h.once, List.nodup_singleton _, ?_⟩
    intro i hi j hj hij
    obtain ⟨m, hm, rfl⟩ := List.mem_map.mp hi
    obtain rfl := List.mem_singleton.mp hj
    rcases h.marked m hm with ⟨x, hx, hxid, hsome⟩ | ⟨e, he, -⟩
    -- the row of the event would be published already
    · obtain rfl : x = event := Table.eq_of_key hx (hhold.row event hevent) (hxid.trans hij)
      rw [hhold.unpublished x hevent] at hsome
      cases hsome
    · cases he

/-- The accepted event is marked. -/
theorem Once.publish {since now : Time} {claimed published : Nat} {event : OutboxEvent P}
    {rest : List (OutboxEvent P)}
    (h : Once t (.markingPublished since claimed published event rest) ms)
    (hhold : Holding cfg t (.markingPublished since claimed published event rest)) :
    Once (markPublished event.id now t) (nextEvent since claimed (published + 1) rest) ms where
  sent := by
    intro x hx hsome
    obtain ⟨e, he, rfl⟩ := mem_markPublished.mp hx
    rw [markPublishedRow_id]
    by_cases hid : e.id = event.id
    -- the row just marked: its message is the one accepted last
    · obtain ⟨m, hm, hmid⟩ := h.unmarked event rfl
      exact ⟨m, hm, hmid.trans hid.symm⟩
    · rw [markPublishedRow_of_ne hid] at hsome
      exact h.sent e he hsome
  unmarked := by
    intro e he
    rw [unmarked_nextEvent] at he
    cases he
  marked := by
    intro m hm
    refine Or.inl ?_
    rcases h.marked m hm with ⟨x, hx, hxid, hsome⟩ | ⟨e, he, heid⟩
    · refine ⟨_, mem_markPublished.mpr ⟨x, hx, rfl⟩, markPublishedRow_id.trans hxid, ?_⟩
      unfold markPublishedRow
      split
      · rfl
      · exact hsome
    -- nothing is unmarked any more
    · obtain rfl := Option.some.inj he
      refine ⟨_, mem_markPublished.mpr ⟨event, hhold.row event List.mem_cons_self, rfl⟩,
        markPublishedRow_id.trans heid, ?_⟩
      rw [markPublishedRow, if_pos rfl]
      rfl
  once := h.once

/-- A step of the relay, when no mark write fails. -/
theorem Once.step {σ σ' : State P} {a : Act P} (h : Once σ.table (σ.loc 0) σ.accepted)
    (hhold : Holding cfg σ.table (σ.loc 0)) (halone : Alone a) (hcrash : ∀ r, a ≠ .crash r)
    (hmark : ∀ r error, a = .mark r error → error = none)
    (hs : OutboxRelay.step cfg σ a = some σ') : Once σ'.table (σ'.loc 0) σ'.accepted := by
  cases OutboxRelay.effect_of_step hs with
  | tick hle => exact h
  | enqueue hnew => exact h.enqueue rfl fun e he => (hnew e he).1
  | begin hrest =>
    obtain rfl := halone
    simp only [goto_self]
    exact h.walk (held_of_resting hrest).2.2.1 rfl
  | claim hloc hperm hevents =>
    obtain rfl := halone
    simp only [goto_self]
    exact h.keep (fun x => mem_claimBatch) (fun _ => claimRow_id) (fun _ => claimRow_publishedAt)
      (by rw [hloc]; rfl) unmarked_nextEvent
  | accept hloc hsize =>
    obtain rfl := halone
    simp only [goto_self]
    rw [hloc] at h hhold
    exact h.accept hhold
  | refuse hloc hwhy =>
    obtain rfl := halone
    simp only [goto_self]
    exact h.walk (by rw [hloc]; rfl) rfl
  | published hloc =>
    obtain rfl := halone
    simp only [goto_self]
    rw [hloc] at h hhold
    exact h.publish hhold
  | unpublished hloc => cases hmark _ _ rfl
  | failed hloc =>
    obtain rfl := halone
    simp only [goto_self]
    exact h.keep (fun x => mem_markFailed) (fun _ => markFailedRow_id)
      (fun _ => markFailedRow_publishedAt) (by rw [hloc]; rfl) rfl
  | threw hloc => cases hmark _ _ rfl
  | crash => exact absurd rfl (hcrash _)

/-! ## Rows that are still alive -/

/-- Every unpublished row has attempts left. -/
def Alive (cfg : Config P) (t : OutboxTable P) : Prop :=
  ∀ x ∈ t, x.publishedAt = none → deadLettered cfg.maxAttempts x = false

/-- A step of the relay that counts no last attempt. -/
theorem Alive.step {σ σ' : State P} {a : Act P} (h : Alive cfg σ.table)
    (hhold : Holding cfg σ.table (σ.loc 0)) (halone : Alone a)
    (henqueue : ∀ id aggregateType aggregateId eventType payload,
      a = .enqueue id aggregateType aggregateId eventType payload → 0 < cfg.maxAttempts)
    (hlast : ∀ r error, a = .mark r error → ∀ event ∈ (σ.loc r).failing,
      event.attempts + 1 < cfg.maxAttempts)
    (hs : OutboxRelay.step cfg σ a = some σ') : Alive cfg σ'.table := by
  cases OutboxRelay.effect_of_step hs with
  | enqueue hnew =>
    intro x hx hpub
    rcases Table.mem_put.mp hx with rfl | ⟨hx, -⟩
    · have hpos : 0 < cfg.maxAttempts := henqueue _ _ _ _ _ rfl
      exact decide_eq_false (Nat.not_le.mpr hpos)
    · exact h x hx hpub
  | claim hloc hperm hevents =>
    intro x hx hpub
    obtain ⟨e, he, rfl⟩ := mem_claimBatch.mp hx
    rw [claimRow_publishedAt] at hpub
    rw [deadLettered, claimRow_attempts]
    exact h e he hpub
  | @published r since claimed published event rest hloc =>
    intro x hx hpub
    obtain ⟨e, he, rfl⟩ := mem_markPublished.mp hx
    by_cases hid : e.id = event.id
    -- the row just marked is published
    · rw [markPublishedRow, if_pos hid] at hpub
      cases hpub
    · rw [markPublishedRow_of_ne hid] at hpub ⊢
      exact h e he hpub
  | @failed r since claimed published event failure hloc =>
    intro x hx hpub
    obtain rfl := halone
    obtain ⟨e, he, rfl⟩ := mem_markFailed.mp hx
    have hfailing : event ∈ (σ.loc 0).failing := by
      rw [hloc]
      rfl
    by_cases hid : e.id = event.id
    -- the row of the event in hand, which has attempts left
    · obtain rfl : e = event :=
        Table.eq_of_key he (hhold.row event (mem_held_of_failing hfailing)) hid
      have hleft : e.attempts + 1 < cfg.maxAttempts := hlast _ _ rfl e hfailing
      rw [markFailedRow, if_pos rfl]
      exact decide_eq_false (Nat.not_le.mpr hleft)
    · rw [markFailedRow_of_ne hid] at hpub ⊢
      exact h e he hpub
  | _ => exact h

/-! ## The runs of the process -/

/-- What holds at every step of a run, started and stopped as often as one likes. -/
structure ProcessInv (cfg : Config P) (σ : Process P) : Prop where
  holding : Holding cfg σ.relay.table (σ.relay.loc 0)
  once : Once σ.relay.table (σ.relay.loc 0) σ.relay.accepted
  alive : Alive cfg σ.relay.table
  /-- No pass is under way when the process is down. -/
  down : σ.phase = .down → σ.relay.loc 0 = .idle

/-- The invariant holds of a process that is down, over an outbox that has sent nothing. -/
theorem processInv_init {t : OutboxTable P} (hnew : ∀ x ∈ t, x.publishedAt = none)
    (halive : Alive cfg t) : ProcessInv cfg (Process.init t) where
  holding := Holding.of_nil rfl
  once :=
    { sent := fun x hx hsome => by rw [hnew x hx] at hsome; cases hsome
      unmarked := fun _ he => by cases he
      marked := fun _ hm => absurd hm List.not_mem_nil
      once := List.nodup_nil }
  alive := halive
  down := fun _ => rfl

/-- While the process is down only the world around it moves. -/
theorem loc_of_down {σ σ' : State P} {a : Act P} (h : Phase.down.allows a = true)
    (hs : OutboxRelay.step cfg σ a = some σ') : σ'.loc = σ.loc := by
  cases OutboxRelay.effect_of_step hs with
  | tick hle => rfl
  | enqueue hnew => rfl
  | begin hrest => simp [Phase.allows] at h
  | @refuse r since claimed published event rest error failure hloc hwhy =>
    cases error <;> simp [Phase.allows, Phase.connected] at h
  | _ => simp [Phase.allows, Phase.connected] at h

/-- **Step lemma.** -/
theorem ProcessInv.step (h : ProcessInv cfg σ) (hfail : NoFailure σ c) (hcareful : Careful cfg σ c)
    (hs : Process.step cfg σ c = some σ') : ProcessInv cfg σ' := by
  cases Process.effect_of_step hs with
  | start hphase => exact ⟨h.holding, h.once, h.alive, fun hdown => by cases hdown⟩
  | @relay a relay' hallows hmove =>
    have halone : Alone a := alone_of_allows hallows
    refine ⟨h.holding.step halone hmove, h.once.step h.holding halone ?_ ?_ hmove,
      h.alive.step h.holding halone ?_ ?_ hmove, ?_⟩
    · rintro r rfl
      cases hallows
    · rintro r error rfl
      exact hfail
    · rintro id aggregateType aggregateId eventType payload rfl
      exact hcareful
    · rintro r error rfl
      exact hcareful
    · intro hdown
      have hdown : σ.phase = .down := hdown
      rw [hdown] at hallows
      rw [loc_of_down hallows hmove]
      exact h.down hdown
  | stop hphase => exact ⟨h.holding, h.once, h.alive, fun hdown => by cases hdown⟩
  | disconnected hphase => exact ⟨h.holding, h.once, h.alive, fun hdown => by cases hdown⟩
  | exit hphase =>
    refine ⟨Holding.of_nil ?_, ?_, h.alive, fun _ => by simp only [goto_self]⟩
    · simp only [goto_self]
      rfl
    · simp only [goto_self]
      -- the exit drops the pass, which leaves nothing unmarked
      exact h.once.walk hcareful rfl

/-- The invariant says more than the property. -/
theorem ProcessInv.exactlyOnce (h : ProcessInv cfg σ) : ExactlyOnce cfg σ where
  once := h.once.once
  sent := by
    intro x hx hover
    cases hpub : x.publishedAt with
    | some at_ => exact h.once.sent x hx (by rw [hpub]; rfl)
    | none =>
      rcases hover with hsome | hdead
      · rw [hpub] at hsome
        cases hsome
      · rw [h.alive x hx hpub] at hdead
        cases hdead
  marked := by
    intro hdown m hm
    rcases h.once.marked m hm with hx | ⟨e, he, -⟩
    · exact hx
    · rw [h.down hdown] at he
      cases he

/-! ## The first careless step -/

/-- What the broker has accepted is the message of a row. -/
theorem ProcessInv.exists_row (h : ProcessInv cfg σ) {m : Message P} (hm : m ∈ σ.relay.accepted) :
    ∃ x ∈ σ.relay.table, x.id = m.sequence := by
  rcases h.once.marked m hm with ⟨x, hx, hid, -⟩ | ⟨e, he, hid⟩
  · exact ⟨x, hx, hid⟩
  · exact ⟨e, h.holding.row e (mem_held_of_unmarked he), hid⟩

/-- An exit that leaves an accepted event unmarked. -/
theorem ProcessInv.breaks_of_exit (h : ProcessInv cfg σ) (hs : Process.step cfg σ .exit = some σ')
    {e : OutboxEvent P} (hmark : (σ.relay.loc 0).unmarked = some e) : ¬ ExactlyOnce cfg σ' := by
  intro honce
  cases Process.effect_of_step hs with
  | exit hphase =>
    have hheld : e ∈ (σ.relay.loc 0).held := mem_held_of_unmarked hmark
    -- accepted, so it would have to be marked; in hand, so it is not
    obtain ⟨m, hm, hid⟩ := h.once.unmarked e hmark
    obtain ⟨x, hx, hxid, hsome⟩ := honce.marked rfl m hm
    obtain rfl : x = e := Table.eq_of_key hx (h.holding.row e hheld) (hxid.trans hid)
    rw [h.holding.unpublished x hheld] at hsome
    cases hsome

/-- A failed send that uses up the last attempt of its row, which nobody has accepted. -/
theorem ProcessInv.breaks_of_last (h : ProcessInv cfg σ) {e : OutboxEvent P}
    (hfailing : e ∈ (σ.relay.loc 0).failing) (hlast : cfg.maxAttempts ≤ e.attempts + 1)
    (hs : Process.step cfg σ (.relay (.mark 0 none)) = some σ') : ¬ ExactlyOnce cfg σ' := by
  intro honce
  have hheld : e ∈ (σ.relay.loc 0).held := mem_held_of_failing hfailing
  cases Process.effect_of_step hs with
  | @relay _ relay' hallows hmove =>
    cases OutboxRelay.effect_of_step hmove with
    | published hloc =>
      rw [hloc] at hfailing
      cases hfailing
    | @failed _ since claimed published event failure hloc =>
      rw [hloc] at hfailing
      obtain rfl := Option.some.inj hfailing
      have hdead : Over cfg (markFailedRow event.id failure event) := by
        refine Or.inr (decide_eq_true ?_)
        rw [markFailedRow, if_pos rfl]
        exact hlast
      obtain ⟨m, hm, hid⟩ := honce.sent _
        (mem_markFailed.mpr ⟨event, h.holding.row event hheld, rfl⟩) hdead
      rw [markFailedRow_id] at hid
      rcases h.once.marked m hm with ⟨x, hx, hxid, hsome⟩ | ⟨e, he, -⟩
      · obtain rfl : x = event :=
          Table.eq_of_key hx (h.holding.row event hheld) (hxid.trans hid)
        rw [h.holding.unpublished x hheld] at hsome
        cases hsome
      · rw [hloc] at he
        cases he

/-- A new row that has no attempts to begin with. -/
theorem ProcessInv.breaks_of_enqueue (h : ProcessInv cfg σ) (hzero : cfg.maxAttempts = 0) {id : Nat}
    {aggregateType : String} {aggregateId : Nat} {eventType : String} {payload : P}
    (hs : Process.step cfg σ (.relay (.enqueue id aggregateType aggregateId eventType payload)) =
      some σ') : ¬ ExactlyOnce cfg σ' := by
  intro honce
  cases Process.effect_of_step hs with
  | @relay _ relay' hallows hmove =>
    cases OutboxRelay.effect_of_step hmove with
    | enqueue hnew =>
      have hdead : Over cfg (enqueue id aggregateType aggregateId eventType payload) := by
        refine Or.inr (decide_eq_true ?_)
        rw [hzero]
        exact Nat.zero_le _
      obtain ⟨m, hm, hid⟩ := honce.sent _ (Table.mem_put.mpr (Or.inl rfl)) hdead
      obtain ⟨x, hx, hxid⟩ := h.exists_row hm
      exact (hnew x hx).1 (hxid.trans hid)

/-- Whatever breaks the property is a careless step. -/
theorem ProcessInv.careful (h : ProcessInv cfg σ) (hfail : NoFailure σ c)
    (hs : Process.step cfg σ c = some σ') (honce : ExactlyOnce cfg σ') : Careful cfg σ c := by
  cases c with
  | exit =>
    cases hmark : (σ.relay.loc 0).unmarked with
    | none => exact hmark
    | some e => exact absurd honce (h.breaks_of_exit hs hmark)
  | relay a =>
    cases a with
    | mark r error =>
      obtain rfl : error = none := hfail
      obtain rfl : r = 0 := by
        cases Process.effect_of_step hs with
        | relay hallows hmove => exact alone_of_allows hallows
      intro event hfailing
      by_contra hlast
      exact h.breaks_of_last hfailing (Nat.not_lt.mp hlast) hs honce
    | enqueue id aggregateType aggregateId eventType payload =>
      show 0 < cfg.maxAttempts
      by_contra hzero
      exact h.breaks_of_enqueue (Nat.eq_zero_of_not_pos hzero) hs honce
    | _ => trivial
  | _ => trivial

/-- The runs of the result. -/
def Graceful (cfg : Config P) (σ : Process P) (c : Command P) : Prop :=
  NoFailure σ c ∧ Careful cfg σ c

/-- **Graceful restarts.**  As long as every step is careful, every event is accepted exactly once,
    also when the outbox has drained; and the first step that is not careful breaks it. -/
theorem exactlyOnce_of_run {t : OutboxTable P} (hnew : ∀ x ∈ t, x.publishedAt = none)
    (halive : Alive cfg t)
    (hrun : Run (Process.step cfg) (Graceful cfg) (Process.init t) σ) :
    ExactlyOnce cfg σ ∧
      (Drained cfg σ.relay.table →
        ∀ x ∈ σ.relay.table, (σ.relay.accepted.map Message.sequence).count x.id = 1) ∧
      ∀ c σ', NoFailure σ c → Process.step cfg σ c = some σ' →
        (ExactlyOnce cfg σ' ↔ Careful cfg σ c) := by
  have h : ProcessInv cfg σ := hrun.invariant (I := ProcessInv cfg)
    (fun _ _ _ h hok hs => h.step hok.1 hok.2 hs) (processInv_init hnew halive)
  refine ⟨h.exactlyOnce, h.exactlyOnce.drained, ?_⟩
  intro c σ' hfail hs
  constructor
  · exact h.careful hfail hs
  · intro hcareful
    exact (h.step hfail hcareful hs).exactlyOnce

/-! ## An exit in the middle of a pass -/

/-- A relay that tries ten times. -/
def oneEvent : Config String where
  batchSize := 2
  maxAttempts := 10
  patentEventsTopic := "patents.events"
  byteLength := fun _ _ => 100

/-- One event that waits. -/
def pendingEvent : OutboxTable String :=
  ⟨[enqueue 1 "patent" 7 "PatentVersionUpserted" "v1"], by decide⟩

/-- The process is stopped while the broker's answer is on its way: the event has been accepted. -/
def stoppedMidway : List (Command String) :=
  [.start, .relay (.begin 0), .relay (.claim 0 [1]), .relay (.send 0 none), .stop, .disconnected]

/-- The mark is still committed before the exit. -/
def markedInTime : List (Command String) := [.relay (.mark 0 none), .exit, .start]

/-- The process exits first, is started again, and takes the event over after the claim timeout. -/
def exitsTooSoon : List (Command String) :=
  [.exit, .start, .relay (.tick 300001), .relay (.begin 0), .relay (.claim 0 [1]),
   .relay (.send 0 none), .relay (.mark 0 none)]

instance (σ : Process String) : ∀ c, Decidable (Careful oneEvent σ c)
  | .exit => inferInstanceAs (Decidable ((σ.relay.loc 0).unmarked = none))
  | .relay (.mark r _) => inferInstanceAs (Decidable
      (∀ event ∈ (σ.relay.loc r).failing, event.attempts + 1 < oneEvent.maxAttempts))
  | .relay (.enqueue ..) => inferInstanceAs (Decidable (0 < oneEvent.maxAttempts))
  | .relay (.tick _) | .relay (.begin _) | .relay (.claim ..) | .relay (.send ..)
  | .relay (.crash _) | .start | .stop | .disconnected => .isTrue trivial

instance (σ : Process String) (c : Command String) : Decidable (Graceful oneEvent σ c) :=
  inferInstanceAs (Decidable (NoFailure σ c ∧ Careful oneEvent σ c))

instance : Decidable (Alive oneEvent pendingEvent) :=
  inferInstanceAs (Decidable (∀ x ∈ pendingEvent, x.publishedAt = none →
    deadLettered oneEvent.maxAttempts x = false))

theorem markedInTime_runs : (execOk (Process.step oneEvent) (Graceful oneEvent)
    (Process.init pendingEvent) (stoppedMidway ++ markedInTime)).isSome = true := by
  decide

/-- The process has been stopped and started again, and the broker has its event once. -/
def afterMark : Process String :=
  (execOk (Process.step oneEvent) (Graceful oneEvent) (Process.init pendingEvent)
    (stoppedMidway ++ markedInTime)).get markedInTime_runs

theorem exactlyOnce_of_markedInTime :
    afterMark.relay.accepted.map Message.sequence = [1] ∧ ExactlyOnce oneEvent afterMark ∧
      ∀ x ∈ afterMark.relay.table,
        (afterMark.relay.accepted.map Message.sequence).count x.id = 1 := by
  have hrun : Run (Process.step oneEvent) (Graceful oneEvent) (Process.init pendingEvent) afterMark :=
    Run.of_execOk (Option.some_get markedInTime_runs).symm
  have hdrained : Drained oneEvent afterMark.relay.table := by
    intro x hx
    have hpub : ∀ x ∈ afterMark.relay.table, x.publishedAt.isSome := by decide
    exact Or.inl (hpub x hx)
  obtain ⟨honce, hcount, -⟩ := exactlyOnce_of_run (by decide) (by decide) hrun
  exact ⟨by decide, honce, hcount hdrained⟩

theorem exitsTooSoon_runs : (execOk (Process.step oneEvent) NoFailure (Process.init pendingEvent)
    (stoppedMidway ++ exitsTooSoon)).isSome = true := by
  decide

/-- Then the outbox has drained, and the broker has accepted its one event twice. -/
theorem not_exactlyOnce :
    ¬ ∀ (cfg : Config String) (t : OutboxTable String), (∀ x ∈ t, x.publishedAt = none) →
      Alive cfg t → ∀ σ, Run (Process.step cfg) NoFailure (Process.init t) σ →
        ExactlyOnce cfg σ := by
  intro hall
  have honce := hall oneEvent pendingEvent (by decide) (by decide) _
    (Run.of_execOk (Option.some_get exitsTooSoon_runs).symm)
  exact absurd honce.once (by decide)

end SmartPatents.OutboxRelay
