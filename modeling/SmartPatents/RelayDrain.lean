/-
  The queue drains.

  One relay, no new events, any broker failures, mark writes succeed (`Draining`).  A pass can
  publish some of its rows, fail one and strand the rest as claimed, so neither the pending nor the
  claimed rows decrease from pass to pass.  What does decrease is the `budget`: the attempts that
  the unpublished rows have left.  A pass that claims anything marks its first event, published or
  failed, and either way the budget falls; until then it owes that one unit (`owed`).

    passes that claim a row + budget - owed   never increases        (`step_budget`)
    sends left in a pass, moves left in a pass                       (`step_sends`, `step_moves`)

  A row that has more failures than `maxAttempts` when the relay starts (the limit was lowered) is
  as dead as one that reaches the limit, and keeps its count (`Overdue`).

  What `Drains` says of a run, in four parts:

  * `passes`: at most `maxAttempts` passes claim something for each row that was unpublished at
    the start;
  * `pass`: within a pass there are at most `batchSize` sends, and a bounded number of steps;
  * `goesOn`: a pass that is not over has a step to make, so that no relay hangs;
  * `drained`: once nothing can be claimed any more, however long one waits, every row is
    published or is a dead letter.

  The run may start in any state in which the relay is between two passes (`drains_of_exec`),
  whatever table it finds there.
-/
import SmartPatents.RelayAlone
import Mathlib.Algebra.Order.BigOperators.Group.List
import Mathlib.Algebra.Order.Ring.Nat

namespace SmartPatents.OutboxRelay

open Runs Outbox

variable {P : Type} {cfg : Config P} {σ σ' τ : State P} {a : Act P} {as : List (Act P)}

/-! ## The property -/

/-- Relay 0 alone, no enqueues, no crash; the broker may refuse, a mark write succeeds. -/
def Draining : Act P → Prop
  | .begin r | .claim r _ | .send r _ => r = 0
  | .mark r error => r = 0 ∧ error = none
  | .tick _ => True
  | .enqueue .. | .crash _ => False

instance : DecidablePred (Draining : Act P → Prop)
  | .begin r | .claim r _ | .send r _ => inferInstanceAs (Decidable (r = 0))
  | .mark r error => inferInstanceAs (Decidable (r = 0 ∧ error = none))
  | .tick _ => .isTrue trivial
  | .enqueue .. | .crash _ => .isFalse id

/-- `claimBatch` returns at least one row. -/
def Act.claims : Act P → Bool
  | .claim _ order => !order.isEmpty
  | _ => false

/-- A pass begins. -/
def Act.begins : Act P → Bool
  | .begin _ => true
  | _ => false

/-- A send is answered. -/
def Act.sends : Act P → Bool
  | .send .. => true
  | _ => false

/-- A step of a pass. -/
def Act.moves : Act P → Bool
  | .claim .. | .send .. | .mark .. => true
  | _ => false

/-- The rows that are still to go out. -/
def unpublished (t : OutboxTable P) : List (OutboxEvent P) :=
  t.rows.filter fun e => e.publishedAt.isNone

/-- At `later` every claim has timed out. -/
def TimedOut (t : OutboxTable P) (later : Time) : Prop :=
  ∀ e ∈ t, ∀ claimedAt, e.claimedAt = some claimedAt → claimedAt + CLAIM_TIMEOUT_MS < later

/-- No row is claimable, however long one waits. -/
def Exhausted (cfg : Config P) (t : OutboxTable P) : Prop :=
  ∀ later, TimedOut t later → batch cfg.maxAttempts cfg.batchSize (staleBefore later) t = []

/-- The row had failed more often than `maxAttempts` when the relay started. -/
def Overdue (cfg : Config P) (t₀ : OutboxTable P) (x : OutboxEvent P) : Prop :=
  ∃ y ∈ t₀, y.id = x.id ∧ y.attempts = x.attempts ∧ cfg.maxAttempts < y.attempts

/-- What is said of the run `as` from `σ` to `τ`; `Dead` says which rows may stay unpublished. -/
structure Drains (cfg : Config P) (σ : State P) (as : List (Act P)) (τ : State P)
    (Dead : OutboxEvent P → Prop) : Prop where
  passes : as.countP Act.claims ≤ (unpublished σ.table).length * cfg.maxAttempts
  /-- Within a pass there are at most `batchSize` sends, and a bounded number of steps in all. -/
  pass : ∀ before stretch after, as = before ++ (stretch ++ after) →
    (∀ a ∈ stretch, a.begins = false) →
    stretch.countP Act.sends ≤ cfg.batchSize ∧
    stretch.countP Act.moves ≤ 2 * cfg.batchSize + 1
  /-- A pass that is not over can go on. -/
  goesOn : (τ.loc 0).resting = true ∨
    ∃ a, Draining a ∧ a.moves = true ∧ (step cfg τ a).isSome = true
  drained : Exhausted cfg τ.table → ∀ x ∈ τ.table, x.publishedAt.isSome ∨ Dead x

/-! ## The budget -/

/-- The attempts a row has left. -/
def attemptsLeft (maxAttempts : Nat) (e : OutboxEvent P) : Nat :=
  if e.publishedAt.isNone then maxAttempts - e.attempts else 0

/-- How often the relay can still fail, over the whole table. -/
def budget (cfg : Config P) (t : OutboxTable P) : Nat :=
  (t.rows.map (attemptsLeft cfg.maxAttempts)).sum

/-- A pass that has claimed rows and not marked one yet owes an attempt. -/
def Loc.owed : Loc P → Nat
  | .sending _ _ published _ _ | .markingPublished _ _ published _ _
  | .markingFailed _ _ published _ _ => if published = 0 then 1 else 0
  | _ => 0

/-- A pass owes one failure at most. -/
theorem owed_le_one (l : Loc P) : l.owed ≤ 1 := by
  unfold Loc.owed
  split
  case h_4 => exact Nat.zero_le 1
  all_goals split <;> omega

theorem owed_of_resting {l : Loc P} (h : l.resting = true) : l.owed = 0 := by
  cases l with
  | idle => rfl
  | returned => rfl
  | threw => rfl
  | _ => cases h

/-- What is owed is owed for an event in hand. -/
theorem held_of_owed {l : Loc P} (h : 0 < l.owed) : ∃ e, e ∈ l.held := by
  cases l with
  | sending since claimed published event rest => exact ⟨event, List.mem_cons_self⟩
  | markingPublished since claimed published event rest => exact ⟨event, List.mem_cons_self⟩
  | markingFailed since claimed published event error => exact ⟨event, List.mem_cons_self⟩
  | _ => cases h

/-- The budget is bounded by the attempts of the rows that wait. -/
theorem budget_le (cfg : Config P) (t : OutboxTable P) :
    budget cfg t ≤ (unpublished t).length * cfg.maxAttempts := by
  unfold budget unpublished
  induction t.rows with
  | nil => exact Nat.zero_le _
  -- only an unpublished row counts, and for `maxAttempts` at most
  | cons e rows ih =>
    rw [List.map_cons, List.sum_cons]
    by_cases hpub : e.publishedAt.isNone = true
    · have hleft : attemptsLeft cfg.maxAttempts e ≤ cfg.maxAttempts := by
        rw [attemptsLeft, if_pos hpub]
        exact Nat.sub_le _ _
      rw [List.filter_cons, if_pos hpub, List.length_cons, Nat.succ_mul]
      omega
    · have hleft : attemptsLeft cfg.maxAttempts e = 0 := if_neg hpub
      rw [List.filter_cons, if_neg hpub]
      omega

/-- A live row has an attempt left. -/
theorem attemptsLeft_pos {e : OutboxEvent P} (hpub : e.publishedAt = none)
    (halive : deadLettered cfg.maxAttempts e = false) : 0 < attemptsLeft cfg.maxAttempts e := by
  have hlt : e.attempts < cfg.maxAttempts := by simpa [deadLettered] using halive
  rw [attemptsLeft, if_pos (by rw [hpub]; rfl)]
  omega

/-- A relay that holds an event has budget left. -/
theorem budget_pos {t : OutboxTable P} {l : Loc P} (h : Holding cfg t l) {e : OutboxEvent P}
    (he : e ∈ l.held) : 0 < budget cfg t := by
  have hpos : 0 < attemptsLeft cfg.maxAttempts e :=
    attemptsLeft_pos (h.unpublished e he) (h.alive e he)
  have hle := List.single_le_sum (l := t.rows.map (attemptsLeft cfg.maxAttempts))
    (fun _ _ => Nat.zero_le _) _ (List.mem_map.mpr ⟨e, h.row e he, rfl⟩)
  exact Nat.lt_of_lt_of_le hpos hle

/-- A claim costs no attempts. -/
theorem budget_claimBatch {ids : List Nat} {now : Time} {t : OutboxTable P} :
    budget cfg (claimBatch ids now t) = budget cfg t := by
  unfold budget claimBatch Table.update
  rw [List.map_map]
  exact congrArg List.sum (List.map_congr_left fun e _ => by simp [attemptsLeft])

/-- An update of the rows that takes an attempt from a live row, and gives none to any. -/
theorem budget_update_lt {t : OutboxTable P} {f : OutboxEvent P → OutboxEvent P}
    {hid : ∀ e, (f e).id = e.id} {event : OutboxEvent P} (hmem : event ∈ t)
    (hle : ∀ e ∈ t, attemptsLeft cfg.maxAttempts (f e) ≤ attemptsLeft cfg.maxAttempts e)
    (hlt : attemptsLeft cfg.maxAttempts (f event) < attemptsLeft cfg.maxAttempts event) :
    budget cfg (t.update f hid) < budget cfg t := by
  unfold budget Table.update
  rw [List.map_map]
  exact List.sum_lt_sum _ _ hle ⟨event, hmem, hlt⟩

/-- A success lowers the budget. -/
theorem budget_markPublished {t : OutboxTable P} {event : OutboxEvent P} {now : Time}
    (hmem : event ∈ t) (hpub : event.publishedAt = none)
    (halive : deadLettered cfg.maxAttempts event = false) :
    budget cfg (markPublished event.id now t) < budget cfg t := by
  refine budget_update_lt hmem (fun e _ => ?_) ?_
  -- the other rows keep what they have
  · by_cases hid : e.id = event.id
    · simp [attemptsLeft, markPublishedRow, hid]
    · rw [markPublishedRow_of_ne hid]
  · have hpos : 0 < attemptsLeft cfg.maxAttempts event := attemptsLeft_pos hpub halive
    simpa [attemptsLeft, markPublishedRow] using hpos

theorem budget_markFailed {t : OutboxTable P} {event : OutboxEvent P} {error : String}
    (hmem : event ∈ t) (hpub : event.publishedAt = none)
    (halive : deadLettered cfg.maxAttempts event = false) :
    budget cfg (markFailed event.id error t) < budget cfg t := by
  refine budget_update_lt hmem (fun e _ => ?_) ?_
  · have hle : e.attempts ≤ (markFailedRow event.id error e).attempts :=
      le_markFailedRow_attempts
    unfold attemptsLeft
    rw [markFailedRow_publishedAt]
    split <;> omega
  · have hlt : event.attempts < cfg.maxAttempts := by simpa [deadLettered] using halive
    simp only [attemptsLeft, markFailedRow, hpub, Option.isNone_none, if_true]
    omega

/-! ## What a step costs -/

/-- A draining relay is alone. -/
theorem Draining.alone (h : Draining a) : Alone a := by
  cases a with
  | mark r error => exact h.1
  | enqueue => exact h.elim
  | crash => exact h.elim
  | _ => exact h

/-- **The budget pays for the claims.**  A claim borrows an attempt, the first mark pays it back. -/
theorem step_budget (hhold : Holding cfg σ.table (σ.loc 0)) (ha : Draining a)
    (hs : step cfg σ a = some σ') :
    (if a.claims then 1 else 0) + budget cfg σ'.table + (σ.loc 0).owed ≤
      budget cfg σ.table + (σ'.loc 0).owed := by
  cases effect_of_step hs with
  | tick hle => simp [Act.claims]
  | enqueue hnew => exact ha.elim
  | begin hrest =>
    obtain rfl := ha
    rw [owed_of_resting hrest]
    simp [Act.claims]
  | @claim r order stale events hloc hperm hevents =>
    obtain rfl := ha
    have hids : events.map OutboxEvent.id = order := hevents ▸ ids_events hperm
    -- the pass owes for its claim exactly if it returned a row
    have howed : (nextEvent σ.now events.length 0 events).owed =
        if (Act.claim (P := P) 0 order).claims then 1 else 0 := by
      subst hids
      cases events <;> rfl
    have hnone : (σ.loc 0).owed = 0 := by rw [hloc]; rfl
    simp only [goto_self]
    rw [budget_claimBatch, howed, hnone]
    omega
  | @accept r since claimed published event rest hloc hsize =>
    obtain rfl := ha
    rw [hloc]
    simp [Act.claims, Loc.owed]
  | @refuse r since claimed published event rest error failure hloc hwhy =>
    obtain rfl := ha
    rw [hloc]
    simp [Act.claims, Loc.owed]
  | @published r since claimed published event rest hloc =>
    obtain ⟨rfl, -⟩ := ha
    rw [hloc] at hhold
    have hmem : event ∈ (Loc.markingPublished since claimed published event rest).held :=
      List.mem_cons_self
    -- the budget falls; what was owed, if anything, is paid
    have hlt : budget cfg (markPublished event.id σ.now σ.table) < budget cfg σ.table :=
      budget_markPublished (hhold.row event hmem) (hhold.unpublished event hmem)
        (hhold.alive event hmem)
    have howed := owed_le_one (σ.loc 0)
    simp only [Act.claims, Bool.false_eq_true, if_false]
    omega
  | unpublished hloc => cases ha.2
  | @failed r since claimed published event failure hloc =>
    obtain ⟨rfl, -⟩ := ha
    rw [hloc] at hhold
    have hmem : event ∈ (Loc.markingFailed since claimed published event failure).held :=
      List.mem_cons_self
    -- a failure costs an attempt as well
    have hlt : budget cfg (markFailed event.id failure σ.table) < budget cfg σ.table :=
      budget_markFailed (hhold.row event hmem) (hhold.unpublished event hmem)
        (hhold.alive event hmem)
    have howed := owed_le_one (σ.loc 0)
    simp only [Act.claims, Bool.false_eq_true, if_false]
    omega
  | threw hloc => cases ha.2
  | crash => exact ha.elim

/-- The sends a pass has left. -/
def Loc.sendsLeft (cfg : Config P) : Loc P → Nat
  | .claiming _ => cfg.batchSize
  | .sending _ _ _ _ rest => rest.length + 1
  | .markingPublished _ _ _ _ rest => rest.length
  | _ => 0

/-- The steps a pass has left. -/
def Loc.movesLeft (cfg : Config P) : Loc P → Nat
  | .claiming _ => 2 * cfg.batchSize + 1
  | .sending _ _ _ _ rest => 2 * (rest.length + 1)
  | .markingPublished _ _ _ _ rest => 2 * rest.length + 1
  | .markingFailed .. => 1
  | _ => 0

section NextEvent

variable {since : Time} {claimed published : Nat} {events : List (OutboxEvent P)}

@[simp] theorem sendsLeft_nextEvent :
    (nextEvent since claimed published events).sendsLeft cfg = events.length := by
  cases events <;> rfl

@[simp] theorem movesLeft_nextEvent :
    (nextEvent since claimed published events).movesLeft cfg = 2 * events.length := by
  cases events <;> rfl

end NextEvent

/-- A claim returns at most `batchSize` rows. -/
theorem length_events_le {t : OutboxTable P} {order : List Nat} {stale : Time} (now : Time)
    (hperm : order.Perm (batchIds cfg stale t)) :
    (order.filterMap (claimBatch order now t).get?).length ≤ cfg.batchSize := by
  have hids : (order.filterMap (claimBatch order now t).get?).map OutboxEvent.id = order :=
    ids_events hperm
  have hlength := congrArg List.length hids
  rw [List.length_map, hperm.length_eq, batchIds, List.length_map] at hlength
  have htake : (batch cfg.maxAttempts cfg.batchSize stale t).length ≤ cfg.batchSize :=
    List.length_take_le _ _
  omega

/-- A pass uses up its sends. -/
theorem step_sends (ha : Draining a) (hbegin : a.begins = false)
    (hs : step cfg σ a = some σ') :
    (if a.sends then 1 else 0) + (σ'.loc 0).sendsLeft cfg ≤ (σ.loc 0).sendsLeft cfg := by
  cases effect_of_step hs with
  | tick hle => simp [Act.sends]
  | enqueue hnew => exact ha.elim
  | begin hrest => cases hbegin
  | claim hloc hperm hevents =>
    obtain rfl := ha
    have hlength := length_events_le σ.now hperm
    subst hevents
    simp only [Act.sends, goto_self, sendsLeft_nextEvent, Bool.false_eq_true, if_false]
    rw [hloc]
    show 0 + _ ≤ cfg.batchSize
    omega
  | accept hloc hsize =>
    obtain rfl := ha
    simp [Act.sends, hloc, Loc.sendsLeft, Nat.add_comm]
  | refuse hloc hwhy =>
    obtain rfl := ha
    simp [Act.sends, hloc, Loc.sendsLeft]
  | @published r since claimed published event rest hloc =>
    obtain ⟨rfl, -⟩ := ha
    simp only [Act.sends, goto_self, sendsLeft_nextEvent, Bool.false_eq_true, if_false]
    rw [hloc]
    show 0 + rest.length ≤ rest.length
    omega
  | unpublished hloc => cases ha.2
  | failed hloc =>
    obtain ⟨rfl, -⟩ := ha
    simp [Act.sends, hloc, Loc.sendsLeft]
  | threw hloc => cases ha.2
  | crash => exact ha.elim

/-- Every step of a pass brings it nearer to its end. -/
theorem step_moves (ha : Draining a) (hbegin : a.begins = false)
    (hs : step cfg σ a = some σ') :
    (if a.moves then 1 else 0) + (σ'.loc 0).movesLeft cfg ≤ (σ.loc 0).movesLeft cfg := by
  cases effect_of_step hs with
  | tick hle => simp [Act.moves]
  | enqueue hnew => exact ha.elim
  | begin hrest => cases hbegin
  | claim hloc hperm hevents =>
    obtain rfl := ha
    have hlength := length_events_le σ.now hperm
    subst hevents
    simp only [Act.moves, goto_self, movesLeft_nextEvent, if_true]
    rw [hloc]
    show 1 + _ ≤ 2 * cfg.batchSize + 1
    omega
  | accept hloc hsize =>
    obtain rfl := ha
    simp only [Act.moves, goto_self, hloc, Loc.movesLeft, if_true]
    omega
  | refuse hloc hwhy =>
    obtain rfl := ha
    simp only [Act.moves, goto_self, hloc, Loc.movesLeft, if_true]
    omega
  | @published r since claimed published event rest hloc =>
    obtain ⟨rfl, -⟩ := ha
    simp only [Act.moves, goto_self, movesLeft_nextEvent, if_true]
    rw [hloc]
    show 1 + 2 * rest.length ≤ 2 * rest.length + 1
    omega
  | unpublished hloc => cases ha.2
  | failed hloc =>
    obtain ⟨rfl, -⟩ := ha
    simp [Act.moves, hloc, Loc.movesLeft]
  | threw hloc => cases ha.2
  | crash => exact ha.elim

/-! ## The failures of a row -/

/-- No row has more failures than `maxAttempts`, unless it had them at the start. -/
def Counted (cfg : Config P) (t₀ t : OutboxTable P) : Prop :=
  ∀ x ∈ t, x.attempts ≤ cfg.maxAttempts ∨ Overdue cfg t₀ x

/-- Nothing has been counted yet. -/
theorem counted_self (t : OutboxTable P) : Counted cfg t t := by
  intro x hx
  by_cases hle : x.attempts ≤ cfg.maxAttempts
  · exact Or.inl hle
  · exact Or.inr ⟨x, hx, rfl, rfl, by omega⟩

/-- A write that adds to attempts, up to the maximum, is counted. -/
theorem Counted.update {t₀ t t' : OutboxTable P} {f : OutboxEvent P → OutboxEvent P}
    (h : Counted cfg t₀ t) (ht : ∀ x, x ∈ t' ↔ ∃ e ∈ t, f e = x) (hid : ∀ e, (f e).id = e.id)
    (hattempts : ∀ e ∈ t, (f e).attempts = e.attempts ∨ (f e).attempts ≤ cfg.maxAttempts) :
    Counted cfg t₀ t' := by
  intro x hx
  obtain ⟨e, he, rfl⟩ := (ht x).mp hx
  rcases hattempts e he with heq | hle
  · rcases h e he with hle | ⟨y, hy, hyid, hyattempts, hover⟩
    · exact Or.inl (heq ▸ hle)
    · exact Or.inr ⟨y, hy, hyid.trans (hid e).symm, hyattempts.trans heq.symm, hover⟩
  · exact Or.inl hle

/-- Only a live row is counted up. -/
theorem Counted.markFailed {t₀ t : OutboxTable P} {event : OutboxEvent P} {error : String}
    (h : Counted cfg t₀ t) (hmem : event ∈ t)
    (halive : deadLettered cfg.maxAttempts event = false) :
    Counted cfg t₀ (markFailed event.id error t) := by
  refine h.update (fun x => mem_markFailed) (fun _ => markFailedRow_id) fun e he => ?_
  by_cases hid : e.id = event.id
  · obtain rfl : e = event := Table.eq_of_key he hmem hid
    have hlt : e.attempts < cfg.maxAttempts := by simpa [deadLettered] using halive
    refine Or.inr ?_
    simp only [markFailedRow, if_true]
    omega
  · exact Or.inl (by rw [markFailedRow_of_ne hid])

/-! ## The invariant of the run -/

/-- What is left of a pass and of the attempts, as a run goes on. -/
structure DrainInv (cfg : Config P) (t₀ : OutboxTable P) (σ : State P) : Prop where
  holding : Holding cfg σ.table (σ.loc 0)
  counted : Counted cfg t₀ σ.table
  sends : (σ.loc 0).sendsLeft cfg ≤ cfg.batchSize
  moves : (σ.loc 0).movesLeft cfg ≤ 2 * cfg.batchSize + 1

theorem drainInv_init (hrest : (σ.loc 0).resting = true) : DrainInv cfg σ.table σ where
  holding := Holding.of_nil (held_of_resting hrest).1
  counted := counted_self σ.table
  sends := by
    cases hloc : σ.loc 0 <;> rw [hloc] at hrest <;> first | exact Nat.zero_le _ | cases hrest
  moves := by
    cases hloc : σ.loc 0 <;> rw [hloc] at hrest <;> first | exact Nat.zero_le _ | cases hrest

/-- **Step lemma** of the counts. -/
theorem Counted.step {t₀ : OutboxTable P} (h : Counted cfg t₀ σ.table)
    (hhold : Holding cfg σ.table (σ.loc 0)) (ha : Draining a) (hs : step cfg σ a = some σ') :
    Counted cfg t₀ σ'.table := by
  cases effect_of_step hs with
  | enqueue hnew => exact ha.elim
  | claim hloc hperm hevents =>
    exact h.update (fun x => mem_claimBatch) (fun _ => claimRow_id)
      fun e _ => Or.inl claimRow_attempts
  | published hloc =>
    exact h.update (fun x => mem_markPublished) (fun _ => markPublishedRow_id)
      fun e _ => Or.inl markPublishedRow_attempts
  | @failed r since claimed published event failure hloc =>
    obtain ⟨rfl, -⟩ := ha
    rw [hloc] at hhold
    exact h.markFailed (hhold.row event List.mem_cons_self)
      (hhold.alive event List.mem_cons_self)
  | threw hloc => cases ha.2
  | crash => exact ha.elim
  | _ => exact h

/-- **Step lemma.** -/
theorem DrainInv.step {t₀ : OutboxTable P} (h : DrainInv cfg t₀ σ) (ha : Draining a)
    (hs : step cfg σ a = some σ') : DrainInv cfg t₀ σ' := by
  refine ⟨h.holding.step ha.alone hs, h.counted.step h.holding ha hs, ?_, ?_⟩
  -- only the begin of a pass adds sends
  · by_cases hbegin : a.begins = false
    · have hless := step_sends ha hbegin hs
      have hle := h.sends
      omega
    · cases effect_of_step hs with
      | begin hrest =>
        obtain rfl := ha
        simp only [goto_self]
        exact Nat.le_refl _
      | _ => exact absurd rfl hbegin
  · by_cases hbegin : a.begins = false
    · have hless := step_moves ha hbegin hs
      have hle := h.moves
      omega
    · cases effect_of_step hs with
      | begin hrest =>
        obtain rfl := ha
        simp only [goto_self]
        exact Nat.le_refl _
      | _ => exact absurd rfl hbegin

/-! ## Claims, passes and what is left -/

/-- What a pass owes is in the budget. -/
theorem DrainInv.owed_le {t₀ : OutboxTable P} (h : DrainInv cfg t₀ σ) :
    (σ.loc 0).owed ≤ budget cfg σ.table := by
  by_cases howed : 0 < (σ.loc 0).owed
  · obtain ⟨e, he⟩ := held_of_owed howed
    have hpos := budget_pos h.holding he
    have hone := owed_le_one (σ.loc 0)
    omega
  · omega

/-- The claims of a run are paid for by the budget it starts with. -/
theorem DrainInv.countP_claims {t₀ : OutboxTable P} (h : DrainInv cfg t₀ σ)
    (hrest : (σ.loc 0).resting = true) (has : ∀ a ∈ as, Draining a)
    (hexec : exec (OutboxRelay.step cfg) σ as = some τ) :
    DrainInv cfg t₀ τ ∧ as.countP Act.claims ≤ budget cfg σ.table := by
  have hcost := countP_add_le_of_exec (DrainInv cfg t₀) Draining Act.claims
    (fun σ => budget cfg σ.table - (σ.loc 0).owed)
    (fun s a t hI ha hs => ?_) has h hexec
  · have hnone := owed_of_resting hrest
    refine ⟨hcost.1, ?_⟩
    omega
  -- the measure is what the budget has beyond the debt; the debt is never above it
  · have hI' := hI.step ha hs
    have hpaid := step_budget hI.holding ha hs
    have howed := hI.owed_le
    have howed' := hI'.owed_le
    refine ⟨hI', ?_⟩
    show _ + (budget cfg t.table - (t.loc 0).owed) ≤ budget cfg s.table - (s.loc 0).owed
    omega

/-- A stretch of steps in which no pass begins. -/
theorem DrainInv.stretch {t₀ : OutboxTable P} (h : DrainInv cfg t₀ σ)
    (has : ∀ a ∈ as, Draining a ∧ a.begins = false)
    (hexec : exec (OutboxRelay.step cfg) σ as = some τ) :
    as.countP Act.sends ≤ cfg.batchSize ∧ as.countP Act.moves ≤ 2 * cfg.batchSize + 1 := by
  have hsends := countP_add_le_of_exec (fun _ => True)
    (fun a : Act P => Draining a ∧ a.begins = false) Act.sends (fun σ => (σ.loc 0).sendsLeft cfg)
    (fun s a t _ ha hs => ⟨trivial, step_sends ha.1 ha.2 hs⟩) has trivial hexec
  have hmoves := countP_add_le_of_exec (fun _ => True)
    (fun a : Act P => Draining a ∧ a.begins = false) Act.moves (fun σ => (σ.loc 0).movesLeft cfg)
    (fun s a t _ ha hs => ⟨trivial, step_moves ha.1 ha.2 hs⟩) has trivial hexec
  have hle := h.sends
  have hle' := h.moves
  constructor <;> omega

/-- A pass that is not over has a next step. -/
theorem resting_or_moves (σ : State P) : (σ.loc 0).resting = true ∨
    ∃ a, Draining a ∧ a.moves = true ∧ (step cfg σ a).isSome = true := by
  cases hloc : σ.loc 0 with
  | claiming stale =>
    refine Or.inr ⟨.claim 0 (batchIds cfg stale σ.table), rfl, rfl, ?_⟩
    simp only [step, hloc]
    rw [if_pos (List.isPerm_iff.mpr (List.Perm.refl _))]
    rfl
  | sending since claimed published event rest =>
    refine Or.inr ⟨.send 0 none, rfl, rfl, ?_⟩
    simp only [step, hloc]
    split <;> rfl
  | markingPublished since claimed published event rest =>
    exact Or.inr ⟨.mark 0 none, ⟨rfl, rfl⟩, rfl, by simp only [step, hloc]; rfl⟩
  | markingFailed since claimed published event error =>
    exact Or.inr ⟨.mark 0 none, ⟨rfl, rfl⟩, rfl, by simp only [step, hloc]; rfl⟩
  | _ => exact Or.inl rfl

/-- There is a time at which every claim has timed out. -/
theorem exists_timedOut (t : OutboxTable P) : ∃ later, TimedOut t later := by
  -- later than all claims together
  refine ⟨(t.rows.map fun e => e.claimedAt.getD 0).sum + CLAIM_TIMEOUT_MS + 1, ?_⟩
  intro e he claimedAt hclaimed
  have hle := List.single_le_sum (l := t.rows.map fun e => e.claimedAt.getD 0)
    (fun _ _ => Nat.zero_le _) _ (List.mem_map.mpr ⟨e, he, rfl⟩)
  rw [hclaimed, Option.getD_some] at hle
  exact Nat.lt_succ_of_le (Nat.add_le_add_right hle _)

/-- Behind the claim timeout every row can be claimed. -/
theorem unclaimed_of_timedOut {t : OutboxTable P} {later : Time} (h : TimedOut t later)
    {e : OutboxEvent P} (he : e ∈ t) : unclaimed (staleBefore later) e = true := by
  unfold unclaimed
  split
  · rfl
  · rename_i claimedAt hclaimed
    exact decide_eq_true (Nat.lt_sub_of_add_lt (h e he claimedAt hclaimed))

/-- An unpublished row of an exhausted queue is dead-lettered. -/
theorem dead_of_exhausted {t : OutboxTable P} (hbatch : 1 ≤ cfg.batchSize)
    (hex : Exhausted cfg t) {x : OutboxEvent P} (hx : x ∈ t) (hpub : x.publishedAt = none) :
    deadLettered cfg.maxAttempts x = true := by
  obtain ⟨later, hlater⟩ := exists_timedOut t
  by_contra hdead
  have halive : deadLettered cfg.maxAttempts x = false := by simpa using hdead
  -- after the timeout a live row would be claimable
  have hclaim : claimable cfg.maxAttempts (staleBefore later) x = true := by
    simp [claimable, hpub, halive, unclaimed_of_timedOut hlater hx]
  have hempty := hex later hlater
  rw [batch, List.take_eq_nil_iff] at hempty
  rcases hempty with hzero | hnil
  · omega
  · have hmem := mem_sorted.mpr ⟨hx, hclaim⟩
    rw [hnil] at hmem
    exact List.not_mem_nil hmem

/-- **The queue drains**, whatever the broker refuses and however long the passes take. -/
theorem drains_of_exec (hbatch : 1 ≤ cfg.batchSize) (hrest : (σ.loc 0).resting = true)
    (has : ∀ a ∈ as, Draining a) (hexec : exec (step cfg) σ as = some τ) :
    Drains cfg σ as τ fun x => x.attempts = cfg.maxAttempts ∨ Overdue cfg σ.table x := by
  have hinit : DrainInv cfg σ.table σ := drainInv_init hrest
  obtain ⟨hτ, hclaims⟩ := hinit.countP_claims hrest has hexec
  constructor
  case passes => exact Nat.le_trans hclaims (budget_le cfg σ.table)
  case pass =>
    rintro before stretch after rfl hbegin
    obtain ⟨υ, hυ, hrest'⟩ := exec_append hexec
    obtain ⟨ω, hω, -⟩ := exec_append hrest'
    have hmem : ∀ a ∈ before, Draining a := fun a ha => has a (List.mem_append_left _ ha)
    have hmem' : ∀ a ∈ stretch, Draining a ∧ a.begins = false := fun a ha =>
      ⟨has a (List.mem_append_right _ (List.mem_append_left _ ha)), hbegin a ha⟩
    exact (hinit.countP_claims hrest hmem hυ).1.stretch hmem' hω
  case goesOn => exact resting_or_moves τ
  case drained =>
    intro hex x hx
    by_cases hpub : x.publishedAt = none
    · have hdead := dead_of_exhausted hbatch hex hx hpub
      have hge : cfg.maxAttempts ≤ x.attempts := by simpa [deadLettered] using hdead
      rcases hτ.counted x hx with hle | hover
      · exact Or.inr (Or.inl (by omega))
      · exact Or.inr (Or.inr hover)
    · exact Or.inl (Option.isSome_iff_ne_none.mpr hpub)

/-! ## An event that is never accepted -/

/-- A relay that gives up after two attempts. -/
def twoAttempts : Config String where
  batchSize := 2
  maxAttempts := 2
  patentEventsTopic := "patents.events"
  byteLength := fun _ _ => 100

/-- Two events of different patents. -/
def twoEvents : OutboxTable String :=
  ⟨[enqueue 1 "patent" 7 "PatentVersionUpserted" "v1",
    enqueue 2 "patent" 8 "PatentVersionUpserted" "v1"], by decide⟩

/-- Event 1 fails twice and is dead-lettered; event 2, stranded by the first pass, is delivered by
    the third. -/
def poisonousHead : List (Act String) :=
  [.begin 0, .claim 0 [1, 2], .send 0 (some "timeout"), .mark 0 none,
   .begin 0, .claim 0 [1], .send 0 (some "timeout"), .mark 0 none,
   .tick 300001, .begin 0, .claim 0 [2], .send 0 none, .mark 0 none]

theorem poisonousHead_runs :
    (exec (step twoAttempts) (init twoEvents) poisonousHead).isSome = true := by
  decide

/-- The first event fails twice, and the second goes out. -/
theorem drains_of_poisonousHead :
    Drains twoAttempts (init twoEvents) poisonousHead
      ((exec (step twoAttempts) (init twoEvents) poisonousHead).get poisonousHead_runs)
      fun x => x.attempts = 2 ∨ Overdue twoAttempts twoEvents x :=
  drains_of_exec (by decide) rfl (by decide) (Option.some_get poisonousHead_runs).symm

/-- A row with three failures, from before the limit was lowered to two. -/
def overdueEvent : OutboxTable String :=
  ⟨[⟨1, "patent", 7, "PatentVersionUpserted", "v1", none, none, 3, some "timeout"⟩], by decide⟩

/-- It stays unpublished with three failures, not with two. -/
theorem not_drains_exactly :
    ¬ ∀ (cfg : Config String) (σ τ : State String) (as : List (Act String)),
      1 ≤ cfg.batchSize → 1 ≤ cfg.maxAttempts → (σ.loc 0).resting = true →
      (∀ a ∈ as, Draining a) → exec (step cfg) σ as = some τ →
      Drains cfg σ as τ fun x => x.attempts = cfg.maxAttempts := by
  intro hall
  have hdrains := hall twoAttempts (init overdueEvent) (init overdueEvent) [] (by decide)
    (by decide) rfl (fun _ ha => absurd ha List.not_mem_nil) rfl
  have hex : Exhausted twoAttempts overdueEvent := fun later _ => by
    simp [batch, overdueEvent, claimable, deadLettered, twoAttempts]
  rcases hdrains.drained hex _ List.mem_cons_self with hpub | hattempts
  · cases hpub
  · cases hattempts

end SmartPatents.OutboxRelay
