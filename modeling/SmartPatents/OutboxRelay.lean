/-
  `src/workers/outboxRelay.js`: passes of `publishBatch`, by any number of relays.

  A relay is at a `Loc`: what is left of its pass.  One pass computes `staleBefore`, claims a batch,
  and then for each event in turn sends it to the broker and marks it published; the first error
  marks the event failed and ends the pass, leaving the rest of the batch claimed.

    begin → claim → (send → mark published)* → returned
                     send or mark fails → mark failed → returned

  Everything outside the program is an action: time passes, an event is enqueued, the broker accepts
  or refuses, a database write fails, a relay dies.  `accepted` is what the broker has accepted, in
  order.  Restrictions ("single relay", "writes succeed") are side conditions on runs.

  `Effect` is the inversion of `step`, one case for each thing that can happen, with what was true
  before it; every proof about runs goes by cases on it.  What a relay holds (`Loc.held`), has
  still to send (`Loc.toSend`), has sent and not marked (`Loc.unmarked`) and is about to mark
  failed (`Loc.failing`) are functions of its location, and the invariants are stated with them.

  The mark of a failure lets go of its own row and uses up an attempt; the rest of the batch stays
  claimed until the claim times out.  A row whose attempts are used up is left alone for good,
  accepted or not.

  The properties: `RelayOrder` and `RelayReturning` (order within a patent), `RelayDurability` (no
  event is lost), `RelayOwnership` (who may send), `RelayDrain` (how long it takes),
  `RelayOversized` and `DeadLetters` (what is given up), `RelayRestart` (a process that stops and
  starts).
-/
import SmartPatents.Outbox
import SmartPatents.Lib.Runs

namespace SmartPatents.OutboxRelay

open Runs Outbox

/-- `MAX_PAYLOAD_BYTES`, below the broker's own limit for a message. -/
def MAX_PAYLOAD_BYTES : Nat := 900 * 1024

/-- `config.outbox` and `config.kafka`, and the UTF-8 length of a serialised payload with its
    `sequence`. -/
structure Config (P : Type) where
  batchSize : Nat
  maxAttempts : Nat
  patentEventsTopic : String
  byteLength : P → Nat → Nat

/-- One record on the topic.  `key` and `sequence` are rendered in decimal. -/
structure Message (P : Type) where
  topic : String
  key : Nat
  payload : P
  sequence : Nat
  eventType : String
  aggregateType : String
deriving DecidableEq

/-- Where a relay is: what is left of its pass. -/
inductive Loc (P : Type)
  /-- No pass has started. -/
  | idle
  | claiming (staleBefore : Time)
  /-- The pass claimed its batch at `since`; `event` is next, then `rest`. -/
  | sending (since : Time) (claimed published : Nat) (event : OutboxEvent P)
      (rest : List (OutboxEvent P))
  | markingPublished (since : Time) (claimed published : Nat) (event : OutboxEvent P)
      (rest : List (OutboxEvent P))
  | markingFailed (since : Time) (claimed published : Nat) (event : OutboxEvent P) (error : String)
  /-- `publishBatch` returned `{ claimed, published }`. -/
  | returned (claimed published : Nat)
  /-- `publishBatch` threw. -/
  | threw (error : String)
deriving DecidableEq

/-- The table, the clock, where every relay is, and what the broker has accepted so far. -/
structure State (P : Type) where
  table : OutboxTable P
  now : Time
  loc : Nat → Loc P
  accepted : List (Message P)

/-- What can happen next. A relay that dies leaves its claims in the table. -/
inductive Act (P : Type)
  | tick (now : Time)
  | enqueue (id : Nat) (aggregateType : String) (aggregateId : Nat) (eventType : String)
      (payload : P)
  | begin (r : Nat)
  /-- The order is that of the rows `UPDATE … RETURNING` gives back. -/
  | claim (r : Nat) (order : List Nat)
  /-- `error` is what the broker answers, if it refuses. -/
  | send (r : Nat) (error : Option String)
  /-- `error` is what the database answers, if the write fails. -/
  | mark (r : Nat) (error : Option String)
  | crash (r : Nat)

variable {P : Type}

/-- The head of the `for` loop. -/
def nextEvent (since : Time) (claimed published : Nat) : List (OutboxEvent P) → Loc P
  | [] => .returned claimed published
  | event :: rest => .sending since claimed published event rest

/-- The record sent for an event: the row id goes onto the payload as `sequence`. -/
def message (cfg : Config P) (event : OutboxEvent P) : Message P where
  topic := cfg.patentEventsTopic
  key := event.aggregateId
  payload := event.payload
  sequence := event.id
  eventType := event.eventType
  aggregateType := event.aggregateType

/-- `publishBatch`, the check of the length of a payload before it is sent. -/
def oversized (cfg : Config P) (event : OutboxEvent P) : Bool :=
  MAX_PAYLOAD_BYTES < cfg.byteLength event.payload event.id

/-- The error an oversized payload is marked failed with. -/
def oversizedError (cfg : Config P) (event : OutboxEvent P) : String :=
  "Event payload is " ++ toString (cfg.byteLength event.payload event.id) ++ " bytes, over the " ++
    toString MAX_PAYLOAD_BYTES ++ " limit"

/-- A pass can start where none is running. -/
def Loc.resting : Loc P → Bool
  | .idle | .returned _ _ | .threw _ => true
  | _ => false

/-- An enqueued event gets a new id; the transactions that write events of one aggregate take its
    row lock first, so their ids ascend. -/
def enqueueable (id aggregateId : Nat) (t : OutboxTable P) : Bool :=
  t.rows.all fun e => e.id != id && (e.aggregateId != aggregateId || e.id < id)

/-- The ids that a claim at `stale` selects. -/
def batchIds (cfg : Config P) (stale : Time) (t : OutboxTable P) : List Nat :=
  (batch cfg.maxAttempts cfg.batchSize stale t).map OutboxEvent.id

/-- One action; `none` where it is not possible. -/
def step (cfg : Config P) (σ : State P) : Act P → Option (State P)
  | .tick now => if σ.now ≤ now then some { σ with now := now } else none
  | .enqueue id aggregateType aggregateId eventType payload =>
    if enqueueable id aggregateId σ.table then
      some { σ with
        table := σ.table.put (enqueue id aggregateType aggregateId eventType payload) }
    else none
  | .begin r =>
    if (σ.loc r).resting then
      some { σ with loc := goto σ.loc r (.claiming (staleBefore σ.now)) }
    else none
  | .claim r order =>
    match σ.loc r with
    | .claiming stale =>
      if order.isPerm (batchIds cfg stale σ.table) then
        -- the rows come back in the order of the action, and the loop takes them as they come
        let table := claimBatch order σ.now σ.table
        let events := order.filterMap table.get?
        some { σ with
          table := table
          loc := goto σ.loc r (nextEvent σ.now events.length 0 events) }
      else none
    | _ => none
  | .send r error =>
    match σ.loc r with
    | .sending since claimed published event rest =>
      -- the size check throws into the same `catch` as a refusal
      if oversized cfg event then
        some { σ with
          loc := goto σ.loc r
            (.markingFailed since claimed published event (oversizedError cfg event)) }
      else
        match error with
        | none => some { σ with
            loc := goto σ.loc r (.markingPublished since claimed published event rest)
            accepted := σ.accepted ++ [message cfg event] }
        -- not `returned`: the failure of the send is still to be written
        | some error => some { σ with
            loc := goto σ.loc r (.markingFailed since claimed published event error) }
    | _ => none
  | .mark r error =>
    match σ.loc r with
    | .markingPublished since claimed published event rest =>
      match error with
      | none => some { σ with
          table := markPublished event.id σ.now σ.table
          loc := goto σ.loc r (nextEvent since claimed (published + 1) rest) }
      | some error => some { σ with
          loc := goto σ.loc r (.markingFailed since claimed published event error) }
    | .markingFailed _ claimed published event failure =>
      match error with
      | none => some { σ with
          table := markFailed event.id failure σ.table
          loc := goto σ.loc r (.returned claimed published) }
      -- nothing catches what `markFailed` throws
      | some error => some { σ with loc := goto σ.loc r (.threw error) }
    | _ => none
  | .crash r => some { σ with loc := goto σ.loc r .idle }

/-- No relay has run yet on the outbox `table`. -/
def init (table : OutboxTable P) : State P where
  table := table
  now := 0
  loc := fun _ => .idle
  accepted := []

/-! ## What one step can do -/

/-- Inversion of `step`, with the side conditions of each action. -/
inductive Effect (cfg : Config P) (σ : State P) : Act P → State P → Prop
  | tick {now} (hle : σ.now ≤ now) : Effect cfg σ (.tick now) { σ with now := now }
  | enqueue {id aggregateType aggregateId eventType payload}
      (hnew : ∀ e ∈ σ.table, e.id ≠ id ∧ (e.aggregateId = aggregateId → e.id < id)) :
      Effect cfg σ (.enqueue id aggregateType aggregateId eventType payload)
        { σ with table := σ.table.put (enqueue id aggregateType aggregateId eventType payload) }
  | begin {r} (hrest : (σ.loc r).resting = true) :
      Effect cfg σ (.begin r) { σ with loc := goto σ.loc r (.claiming (staleBefore σ.now)) }
  | claim {r order stale events} (hloc : σ.loc r = .claiming stale)
      (hperm : order.Perm (batchIds cfg stale σ.table))
      (hevents : events = order.filterMap (claimBatch order σ.now σ.table).get?) :
      Effect cfg σ (.claim r order)
        { σ with
          table := claimBatch order σ.now σ.table
          loc := goto σ.loc r (nextEvent σ.now events.length 0 events) }
  | accept {r since claimed published event rest}
      (hloc : σ.loc r = .sending since claimed published event rest)
      (hsize : oversized cfg event = false) :
      Effect cfg σ (.send r none)
        { σ with
          loc := goto σ.loc r (.markingPublished since claimed published event rest)
          accepted := σ.accepted ++ [message cfg event] }
  | refuse {r since claimed published event rest error failure}
      (hloc : σ.loc r = .sending since claimed published event rest)
      (hwhy : (oversized cfg event = true ∧ failure = oversizedError cfg event) ∨
        (oversized cfg event = false ∧ error = some failure)) :
      Effect cfg σ (.send r error)
        { σ with loc := goto σ.loc r (.markingFailed since claimed published event failure) }
  | published {r since claimed published event rest}
      (hloc : σ.loc r = .markingPublished since claimed published event rest) :
      Effect cfg σ (.mark r none)
        { σ with
          table := markPublished event.id σ.now σ.table
          loc := goto σ.loc r (nextEvent since claimed (published + 1) rest) }
  | unpublished {r since claimed published event rest error}
      (hloc : σ.loc r = .markingPublished since claimed published event rest) :
      Effect cfg σ (.mark r (some error))
        { σ with loc := goto σ.loc r (.markingFailed since claimed published event error) }
  | failed {r since claimed published event failure}
      (hloc : σ.loc r = .markingFailed since claimed published event failure) :
      Effect cfg σ (.mark r none)
        { σ with
          table := markFailed event.id failure σ.table
          loc := goto σ.loc r (.returned claimed published) }
  | threw {r since claimed published event failure error}
      (hloc : σ.loc r = .markingFailed since claimed published event failure) :
      Effect cfg σ (.mark r (some error)) { σ with loc := goto σ.loc r (.threw error) }
  | crash {r} : Effect cfg σ (.crash r) { σ with loc := goto σ.loc r .idle }

/-- An id is new, and beyond those of the same patent. -/
theorem enqueueable_iff {id aggregateId : Nat} {t : OutboxTable P} :
    enqueueable id aggregateId t = true ↔
      ∀ e ∈ t, e.id ≠ id ∧ (e.aggregateId = aggregateId → e.id < id) := by
  simp only [enqueueable, List.all_eq_true, Bool.and_eq_true, bne_iff_ne, Bool.or_eq_true,
    decide_eq_true_eq, Table.mem_def, ← imp_iff_not_or]

/-- **Inversion.** From here on no proof opens `step`. -/
theorem effect_of_step {cfg : Config P} {σ σ' : State P} {a : Act P}
    (h : step cfg σ a = some σ') : Effect cfg σ a σ' := by
  cases a with
  | tick now =>
    simp only [step] at h
    split at h
    · rename_i hle
      exact Option.some.inj h ▸ .tick hle
    · nomatch h
  | enqueue id aggregateType aggregateId eventType payload =>
    simp only [step] at h
    split at h
    · rename_i hnew
      exact Option.some.inj h ▸ .enqueue (enqueueable_iff.mp hnew)
    · nomatch h
  | begin r =>
    simp only [step] at h
    split at h
    · rename_i hrest
      exact Option.some.inj h ▸ .begin hrest
    · nomatch h
  | claim r order =>
    simp only [step] at h
    split at h
    · rename_i stale hloc
      split at h
      · rename_i hperm
        exact Option.some.inj h ▸ .claim hloc (List.isPerm_iff.mp hperm) rfl
      · nomatch h
    · nomatch h
  | send r error =>
    simp only [step] at h
    split at h
    · rename_i since claimed published event rest hloc
      split at h
      · rename_i hsize
        exact Option.some.inj h ▸ .refuse hloc (Or.inl ⟨hsize, rfl⟩)
      · rename_i hsize
        split at h
        · exact Option.some.inj h ▸ .accept hloc (by simpa using hsize)
        · exact Option.some.inj h ▸ .refuse hloc (Or.inr ⟨by simpa using hsize, rfl⟩)
    · nomatch h
  | mark r error =>
    simp only [step] at h
    split at h
    · rename_i since claimed published event rest hloc
      split at h
      · exact Option.some.inj h ▸ .published hloc
      · exact Option.some.inj h ▸ .unpublished hloc
    · rename_i since claimed published event failure hloc
      split at h
      · exact Option.some.inj h ▸ .failed hloc
      · exact Option.some.inj h ▸ .threw hloc
    · nomatch h
  | crash r =>
    simp only [step] at h
    exact Option.some.inj h ▸ .crash

/-! ## The events of a pass -/

/-- The events whose row is claimed by this pass and that it may still write to. -/
def Loc.held : Loc P → List (OutboxEvent P)
  | .sending _ _ _ event rest | .markingPublished _ _ _ event rest => event :: rest
  | .markingFailed _ _ _ event _ => [event]
  | _ => []

/-- The events that this pass may still send. -/
def Loc.toSend : Loc P → List (OutboxEvent P)
  | .sending _ _ _ event rest => event :: rest
  | .markingPublished _ _ _ _ rest => rest
  | _ => []

/-- The event that has been accepted and is not marked yet. -/
def Loc.unmarked : Loc P → Option (OutboxEvent P)
  | .markingPublished _ _ _ event _ => some event
  | _ => none

/-- The event that a relay is about to mark failed. -/
def Loc.failing : Loc P → Option (OutboxEvent P)
  | .markingFailed _ _ _ event _ => some event
  | _ => none

/-- When this pass claimed its batch. -/
def Loc.since : Loc P → Option Time
  | .sending since .. | .markingPublished since .. | .markingFailed since .. => some since
  | _ => none

section NextEvent

variable {since : Time} {claimed published : Nat} {events : List (OutboxEvent P)}

/-- A relay on its way to the next event holds all that are left. -/
@[simp] theorem held_nextEvent : (nextEvent since claimed published events).held = events := by
  cases events <;> rfl

@[simp] theorem toSend_nextEvent : (nextEvent since claimed published events).toSend = events := by
  cases events <;> rfl

@[simp] theorem unmarked_nextEvent :
    (nextEvent since claimed published events).unmarked = none := by
  cases events <;> rfl

@[simp] theorem failing_nextEvent :
    (nextEvent since claimed published events).failing = none := by
  cases events <;> rfl

/-- Under the claim it made at the start of its pass. -/
theorem since_nextEvent {s : Time}
    (h : (nextEvent since claimed published events).since = some s) : s = since := by
  cases events with
  | nil => nomatch h
  | cons e rest => exact (Option.some.inj h).symm

/-- It does not claim again. -/
theorem nextEvent_ne_claiming {stale : Time} :
    nextEvent since claimed published events ≠ .claiming stale := by
  cases events <;> exact fun h => nomatch h

end NextEvent

/-- An accepted event that is not marked yet is held by its relay. -/
theorem mem_held_of_unmarked {l : Loc P} {e : OutboxEvent P} (h : e ∈ l.unmarked) :
    e ∈ l.held := by
  cases l with
  | markingPublished since claimed published event rest =>
    obtain rfl := Option.some.inj h
    exact List.mem_cons_self
  | _ => cases h

/-- The event that a relay is about to mark failed is in its hand. -/
theorem mem_held_of_failing {l : Loc P} {e : OutboxEvent P} (h : e ∈ l.failing) : e ∈ l.held := by
  cases l with
  | markingFailed since claimed published event error =>
    obtain rfl := Option.some.inj h
    exact List.mem_cons_self
  | _ => cases h

/-- A resting relay holds nothing. -/
theorem held_of_resting {l : Loc P} (h : l.resting = true) :
    l.held = [] ∧ l.toSend = [] ∧ l.unmarked = none ∧ l.since = none := by
  cases l <;> first | exact ⟨rfl, rfl, rfl, rfl⟩ | nomatch h

/-! ## What a claim returns -/

section Claim

variable {cfg : Config P} {stale now : Time} {t : OutboxTable P} {order : List Nat}

/-- Every id of a claim is that of a selected row. -/
theorem of_mem_order (hperm : order.Perm (batchIds cfg stale t)) {i : Nat} (hi : i ∈ order) :
    ∃ y ∈ batch cfg.maxAttempts cfg.batchSize stale t, y.id = i :=
  List.mem_map.mp (hperm.mem_iff.mp hi)

/-- The rows come back in any order, and none is missing. -/
theorem mem_order (hperm : order.Perm (batchIds cfg stale t)) {y : OutboxEvent P}
    (hy : y ∈ batch cfg.maxAttempts cfg.batchSize stale t) : y.id ∈ order :=
  hperm.mem_iff.mpr (List.mem_map.mpr ⟨y, hy, rfl⟩)

/-- A claim returns the selected rows, claimed now. -/
theorem of_mem_events (hperm : order.Perm (batchIds cfg stale t)) {e : OutboxEvent P}
    (he : e ∈ order.filterMap (claimBatch order now t).get?) :
    ∃ y ∈ batch cfg.maxAttempts cfg.batchSize stale t, e = { y with claimedAt := some now } := by
  obtain ⟨i, hi, hget⟩ := List.mem_filterMap.mp he
  obtain ⟨hmem, hid⟩ := Table.get?_eq_some.mp hget
  obtain ⟨x, hx, rfl⟩ := mem_claimBatch.mp hmem
  obtain ⟨y, hy, rfl⟩ := of_mem_order hperm hi
  -- rows of one table with the same id are the same row
  obtain rfl : x = y := Table.eq_of_key hx (of_mem_batch hy).1 (by simpa using hid)
  exact ⟨x, hy, claimRow_of_mem hi⟩

/-- It returns them in the order of the action. -/
theorem ids_events (hperm : order.Perm (batchIds cfg stale t)) :
    (order.filterMap (claimBatch order now t).get?).map OutboxEvent.id = order := by
  refine Table.map_key_filterMap_get? _ order fun i hi => ?_
  obtain ⟨y, hy, rfl⟩ := of_mem_order hperm hi
  exact ⟨claimRow order now y, mem_claimBatch.mpr ⟨y, (of_mem_batch hy).1, rfl⟩, claimRow_id⟩

end Claim

end SmartPatents.OutboxRelay
