/-
  `src/services/outboxService.js`: the transactional outbox.

  An event is a row of OUTBOX_EVENT, written by `enqueue` in the transaction of the state change it
  describes.  A relay takes ownership of a batch of rows with `claimBatch`, one atomic
  `UPDATE … RETURNING`, and ends its work on a row with `markPublished` or `markFailed`.  Ownership
  is a timestamp: a claim older than `CLAIM_TIMEOUT_MS` may be taken over.

  Payloads are a type parameter.  `createdAt` is read by nothing modelled here and is left out.

  Each statement is a function of the table.  `claimBatch` is the UPDATE on the ids that its
  subquery has picked; which order the rows come back in is not for the table to say, and is
  chosen by the action in `OutboxRelay`.  `markPublished` and `markFailed` do not ask whose claim
  a row is under, which is what makes two relays with an expired claim interfere
  (`RelayOwnership`, `DeadLetters`).

  An event has used up its attempts when `attempts` reaches `maxAttempts`; it stays in the table,
  is never claimed again and is counted by `stats` as dead-lettered.  There is no separate mark
  for that.
-/
import SmartPatents.Errors
import SmartPatents.Lib.Table
import SmartPatents.Lib.Utf16
import Mathlib.Data.List.Sort

namespace SmartPatents.Outbox

/-- One row of OUTBOX_EVENT. `claimedAt` is set while a relay holds the row, and `publishedAt` for
    good. -/
structure OutboxEvent (P : Type) where
  id : Nat
  aggregateType : String
  aggregateId : Nat
  eventType : String
  payload : P
  publishedAt : Option Time
  claimedAt : Option Time
  attempts : Nat
  lastError : Option String
deriving DecidableEq

/-- The table OUTBOX_EVENT. -/
abbrev OutboxTable (P : Type) := Table (OutboxEvent P) OutboxEvent.id

variable {P : Type}

/-! ## The statements -/

/-- `enqueue`: the id comes from the table's sequence. -/
def enqueue (id : Nat) (aggregateType : String) (aggregateId : Nat) (eventType : String)
    (payload : P) : OutboxEvent P where
  id := id
  aggregateType := aggregateType
  aggregateId := aggregateId
  eventType := eventType
  payload := payload
  publishedAt := none
  claimedAt := none
  attempts := 0
  lastError := none

/-- `CLAIM_TIMEOUT_MS`: a claim older than this counts as left behind. -/
def CLAIM_TIMEOUT_MS : Nat := 5 * 60 * 1000

/-- `attempts >= maxAttempts`: the row is never claimed again. -/
def deadLettered (maxAttempts : Nat) (e : OutboxEvent P) : Bool := maxAttempts ≤ e.attempts

/-- The claim of the row, if any, has been abandoned. -/
def unclaimed (staleBefore : Time) (e : OutboxEvent P) : Bool :=
  match e.claimedAt with
  | none => true
  | some claimedAt => claimedAt < staleBefore

/-- The WHERE of the subquery of `claimBatch`. -/
def claimable (maxAttempts : Nat) (staleBefore : Time) (e : OutboxEvent P) : Bool :=
  e.publishedAt.isNone && !deadLettered maxAttempts e && unclaimed staleBefore e

/-- `Date.now() - CLAIM_TIMEOUT_MS`.  No row was claimed before time 0, so truncation at 0 makes no
    difference. -/
def staleBefore (now : Time) : Time := now - CLAIM_TIMEOUT_MS

/-- The rows that the subquery selects: the oldest claimable ones. -/
def batch (maxAttempts batchSize : Nat) (staleBefore : Time) (t : OutboxTable P) :
    List (OutboxEvent P) :=
  -- the ORDER BY and the LIMIT of the subquery
  ((t.rows.filter (claimable maxAttempts staleBefore)).insertionSort (·.id ≤ ·.id)).take batchSize

/-- `SET claimed_at = NOW() WHERE id IN ids`. -/
def claimRow (ids : List Nat) (now : Time) (e : OutboxEvent P) : OutboxEvent P :=
  if e.id ∈ ids then { e with claimedAt := some now } else e

/-- `claimBatch`, the UPDATE, on the ids its subquery picked. -/
def claimBatch (ids : List Nat) (now : Time) (t : OutboxTable P) : OutboxTable P :=
  t.update (claimRow ids now) fun e => by unfold claimRow; split <;> rfl

/-- `markPublished` on one row: the error of an earlier attempt goes with the claim. -/
def markPublishedRow (id : Nat) (now : Time) (e : OutboxEvent P) : OutboxEvent P :=
  if e.id = id then { e with publishedAt := some now, lastError := none, claimedAt := none } else e

/-- `markPublished`, which asks nobody whose claim the row is under. -/
def markPublished (id : Nat) (now : Time) (t : OutboxTable P) : OutboxTable P :=
  t.update (markPublishedRow id now) fun e => by unfold markPublishedRow; split <;> rfl

/-- `String(error).slice(0, 2000)`: the cut counts UTF-16 code units. -/
def errorText (error : String) : String :=
  String.ofList (Utf16.chars ((Utf16.ofString error).take 2000))

/-- `markFailed` on one row: an attempt is used up and the claim let go. -/
def markFailedRow (id : Nat) (error : String) (e : OutboxEvent P) : OutboxEvent P :=
  if e.id = id then
    { e with
      attempts := e.attempts + 1
      lastError := some (errorText error)
      claimedAt := none }
  else e

/-- `markFailed`: releases the claim, whoever holds it, and counts the attempt. -/
def markFailed (id : Nat) (error : String) (t : OutboxTable P) : OutboxTable P :=
  t.update (markFailedRow id error) fun e => by unfold markFailedRow; split <;> rfl

/-! ## What the statements do to a row -/

section Rows

variable {ids : List Nat} {id : Nat} {now : Time} {error : String} {t : OutboxTable P}
  {e x : OutboxEvent P}

@[simp] theorem claimRow_id : (claimRow ids now e).id = e.id := by
  unfold claimRow; split <;> rfl

@[simp] theorem claimRow_aggregateId : (claimRow ids now e).aggregateId = e.aggregateId := by
  unfold claimRow; split <;> rfl

/-- A claim publishes nothing. -/
@[simp] theorem claimRow_publishedAt : (claimRow ids now e).publishedAt = e.publishedAt := by
  unfold claimRow; split <;> rfl

@[simp] theorem claimRow_attempts : (claimRow ids now e).attempts = e.attempts := by
  unfold claimRow; split <;> rfl

/-- A row of the batch is claimed. -/
theorem claimRow_of_mem (h : e.id ∈ ids) : claimRow ids now e = { e with claimedAt := some now } :=
  if_pos h

/-- The others stay. -/
theorem claimRow_of_not_mem (h : e.id ∉ ids) : claimRow ids now e = e := if_neg h

@[simp] theorem markPublishedRow_id : (markPublishedRow id now e).id = e.id := by
  unfold markPublishedRow; split <;> rfl

@[simp] theorem markPublishedRow_aggregateId :
    (markPublishedRow id now e).aggregateId = e.aggregateId := by
  unfold markPublishedRow; split <;> rfl

@[simp] theorem markPublishedRow_attempts : (markPublishedRow id now e).attempts = e.attempts := by
  unfold markPublishedRow; split <;> rfl

/-- The mark is on one row only. -/
theorem markPublishedRow_of_ne (h : e.id ≠ id) : markPublishedRow id now e = e := if_neg h

@[simp] theorem markFailedRow_id : (markFailedRow id error e).id = e.id := by
  unfold markFailedRow; split <;> rfl

@[simp] theorem markFailedRow_aggregateId :
    (markFailedRow id error e).aggregateId = e.aggregateId := by
  unfold markFailedRow; split <;> rfl

/-- A failure publishes nothing. -/
@[simp] theorem markFailedRow_publishedAt :
    (markFailedRow id error e).publishedAt = e.publishedAt := by
  unfold markFailedRow; split <;> rfl

theorem markFailedRow_of_ne (h : e.id ≠ id) : markFailedRow id error e = e := if_neg h

/-- Attempts are never given back. -/
theorem le_markFailedRow_attempts : e.attempts ≤ (markFailedRow id error e).attempts := by
  unfold markFailedRow; split
  · exact Nat.le_succ _
  · exact Nat.le_refl _

/-- The table after a claim, row by row. -/
theorem mem_claimBatch : x ∈ claimBatch ids now t ↔ ∃ e ∈ t, claimRow ids now e = x :=
  Table.mem_update

/-- After the mark of a success. -/
theorem mem_markPublished : x ∈ markPublished id now t ↔ ∃ e ∈ t, markPublishedRow id now e = x :=
  Table.mem_update

/-- After the mark of a failure. -/
theorem mem_markFailed : x ∈ markFailed id error t ↔ ∃ e ∈ t, markFailedRow id error e = x :=
  Table.mem_update

end Rows

/-! ## What `claimBatch` selects -/

section Batch

variable {maxAttempts batchSize : Nat} {stale : Time} {t : OutboxTable P} {e x : OutboxEvent P}

/-- The claimable rows in the order of their ids. -/
theorem mem_sorted :
    e ∈ (t.rows.filter (claimable maxAttempts stale)).insertionSort (·.id ≤ ·.id) ↔
      e ∈ t ∧ claimable maxAttempts stale e = true := by
  rw [List.mem_insertionSort, List.mem_filter, Table.mem_def]

/-- A batch is made of claimable rows. -/
theorem of_mem_batch (h : e ∈ batch maxAttempts batchSize stale t) :
    e ∈ t ∧ claimable maxAttempts stale e = true :=
  mem_sorted.mp (List.mem_of_mem_take h)

/-- The claimable rows are sorted by their ids, which are distinct. -/
theorem sorted_lt :
    ((t.rows.filter (claimable maxAttempts stale)).insertionSort (·.id ≤ ·.id)).Pairwise
      (·.id < ·.id) := by
  have : Std.Total fun a b : OutboxEvent P => a.id ≤ b.id := ⟨fun a b => Nat.le_total _ _⟩
  have : IsTrans (OutboxEvent P) fun a b => a.id ≤ b.id := ⟨fun _ _ _ => Nat.le_trans⟩
  have hle := List.pairwise_insertionSort (fun a b : OutboxEvent P => a.id ≤ b.id)
    (t.rows.filter (claimable maxAttempts stale))
  have hperm := List.perm_insertionSort (fun a b : OutboxEvent P => a.id ≤ b.id)
    (t.rows.filter (claimable maxAttempts stale))
  have hne : ((t.rows.filter (claimable maxAttempts stale)).insertionSort (·.id ≤ ·.id)).Pairwise
      (·.id ≠ ·.id) := by
    rw [hperm.pairwise_iff fun h => h.symm]
    exact (List.pairwise_map.mp t.nodup).sublist List.filter_sublist
  exact (hle.and hne).imp fun h => Nat.lt_of_le_of_ne h.1 h.2

/-- The batch is in ascending id. -/
theorem batch_sorted : (batch maxAttempts batchSize stale t).Pairwise (·.id < ·.id) :=
  sorted_lt.sublist (List.take_sublist _ _)

/-- A claimable row that is older than a selected one is selected. -/
theorem mem_batch_of_older (he : e ∈ batch maxAttempts batchSize stale t) (hx : x ∈ t)
    (hclaim : claimable maxAttempts stale x = true) (hlt : x.id < e.id) :
    x ∈ batch maxAttempts batchSize stale t := by
  have hmem := mem_sorted.mpr ⟨hx, hclaim⟩
  have hsorted := @sorted_lt P maxAttempts stale t
  unfold batch at he ⊢
  rw [← List.take_append_drop batchSize (List.insertionSort _ _)] at hmem hsorted
  rcases List.mem_append.mp hmem with hx | hx
  · exact hx
  · have hge := (List.pairwise_append.mp hsorted).2.2 e he x hx
    omega

/-- A claimable row with fewer than `batchSize` older ones is selected. -/
theorem mem_batch_of_few (hx : x ∈ t) (hclaim : claimable maxAttempts stale x = true)
    (hfew : ((t.rows.filter (claimable maxAttempts stale)).filter fun y => y.id < x.id).length <
      batchSize) : x ∈ batch maxAttempts batchSize stale t := by
  have hmem := mem_sorted.mpr ⟨hx, hclaim⟩
  have hsorted := @sorted_lt P maxAttempts stale t
  have hperm := List.perm_insertionSort (fun a b : OutboxEvent P => a.id ≤ b.id)
    (t.rows.filter (claimable maxAttempts stale))
  rw [← (hperm.filter _).length_eq] at hfew
  unfold batch
  generalize List.insertionSort (fun a b : OutboxEvent P => a.id ≤ b.id)
    (t.rows.filter (claimable maxAttempts stale)) = sorted at hmem hsorted hfew ⊢
  rw [← List.take_append_drop batchSize sorted] at hmem hsorted
  rcases List.mem_append.mp hmem with hx | hx
  · exact hx
  · -- otherwise the whole batch is older than `x`
    have hfull : (sorted.take batchSize).length = batchSize := by
      have hpos := List.length_pos_of_mem hx
      rw [List.length_drop] at hpos
      rw [List.length_take]
      omega
    have holder : ∀ y ∈ sorted.take batchSize, decide (y.id < x.id) = true :=
      fun y hy => decide_eq_true ((List.pairwise_append.mp hsorted).2.2 y hy x hx)
    have hsub := ((List.take_sublist batchSize sorted).filter fun y => y.id < x.id).length_le
    rw [List.filter_eq_self.mpr holder] at hsub
    omega

end Batch

end SmartPatents.Outbox
