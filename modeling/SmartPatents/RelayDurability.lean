/-
  The outbox never loses an event.

  Any number of relays, whatever fails and whoever dies in between: no statement deletes a row or
  touches its payload (`Persists`), a row is published only after the broker has accepted it
  (`Sent`), and a claim lies in the past (`Claimed`), so that it runs out.  Once no relay has moved
  for longer than `CLAIM_TIMEOUT_MS`, the next pass of any relay takes the row over (`Recovers`).

  `claimBatch` wants a claim to be OLDER than the timeout (`claimed_at < staleBefore`): exactly
  `CLAIM_TIMEOUT_MS` after the claim the row is still out of reach (`not_recovers_on_time`).

  `Recovers` says which pass takes the row: any that begins after the timeout while fewer than
  `batchSize` older rows are up for a claim.  With more of them the event waits for its turn, and
  how a single relay gets there is in `RelayDrain`.

  A relay that dies loses what it holds (`crash`), and the timestamp in the table is all that is
  left of its claim.  So the timeout has to do the work, and its boundary matters.

  The steps: every write of a row keeps the event (`sameEvent_claimRow` and its kind), so every
  step keeps all rows (`persists_of_step`); `Durable` adds that a published event has been
  accepted and that a relay holds rows of the table; and `Durable.recovers` is about the claim
  that comes after the timeout.
-/
import SmartPatents.OutboxRelay

namespace SmartPatents.OutboxRelay

open Runs Outbox

variable {P : Type} {cfg : Config P} {σ σ' τ : State P} {a : Act P}

/-! ## What stays of a row -/

/-- Two states of one event: everything but its delivery is the same. -/
structure SameEvent (x e : OutboxEvent P) : Prop where
  id : x.id = e.id
  aggregateType : x.aggregateType = e.aggregateType
  aggregateId : x.aggregateId = e.aggregateId
  eventType : x.eventType = e.eventType
  payload : x.payload = e.payload

/-- Every row is still there, with its payload, and a published one is still published. -/
def Persists (t t' : OutboxTable P) : Prop :=
  ∀ e ∈ t, ∃ x ∈ t', SameEvent x e ∧ (e.publishedAt.isSome → x.publishedAt.isSome)

/-- Only what the broker has accepted is published. -/
def Sent (cfg : Config P) (σ : State P) : Prop :=
  ∀ e ∈ σ.table, e.publishedAt.isSome → message cfg e ∈ σ.accepted

/-- A row that is still to be delivered is unclaimed, or was claimed in the past. -/
def Claimed (cfg : Config P) (σ : State P) : Prop :=
  ∀ e ∈ σ.table, e.publishedAt = none → e.attempts < cfg.maxAttempts →
    e.claimedAt = none ∨ ∃ claimedAt, e.claimedAt = some claimedAt ∧ claimedAt ≤ σ.now

/-- No relay does anything: time passes, events are enqueued, relays die. -/
def Inactive (_ : State P) : Act P → Prop
  | .tick _ | .enqueue .. | .crash _ => True
  | _ => False

/-- The claimable rows before `e`. -/
def older (cfg : Config P) (τ : State P) (e : OutboxEvent P) : List (OutboxEvent P) :=
  (τ.table.rows.filter (claimable cfg.maxAttempts (staleBefore τ.now))).filter fun x => x.id < e.id

/-- A pass that begins in `τ` takes over the event `e`. -/
def TakesOver (cfg : Config P) (τ : State P) (e : OutboxEvent P) : Prop :=
  ∀ r τ₁ order τ₂, step cfg τ (.begin r) = some τ₁ → step cfg τ₁ (.claim r order) = some τ₂ →
    ∃ event ∈ (τ₂.loc r).held, SameEvent event e

/-- Whatever is still to be delivered is taken over once no relay has moved for `wait`. -/
def Recovers (cfg : Config P) (wait : Nat) (σ : State P) : Prop :=
  ∀ e ∈ σ.table, e.publishedAt = none → e.attempts < cfg.maxAttempts →
    ∀ τ, Run (step cfg) Inactive σ τ → σ.now + wait ≤ τ.now →
      (older cfg τ e).length < cfg.batchSize → TakesOver cfg τ e

section Rows

variable {e f x : OutboxEvent P} {ids : List Nat} {id : Nat} {now : Time} {error : String}

/-- A row is the same event as itself. -/
theorem SameEvent.refl (e : OutboxEvent P) : SameEvent e e := ⟨rfl, rfl, rfl, rfl, rfl⟩

/-- What a relay carries along is the same event through every write. -/
theorem SameEvent.trans (h : SameEvent x e) (h' : SameEvent e f) : SameEvent x f where
  id := h.id.trans h'.id
  aggregateType := h.aggregateType.trans h'.aggregateType
  aggregateId := h.aggregateId.trans h'.aggregateId
  eventType := h.eventType.trans h'.eventType
  payload := h.payload.trans h'.payload

/-- They go to the broker as the same record. -/
theorem SameEvent.message (h : SameEvent x e) : message cfg x = message cfg e := by
  simp only [OutboxRelay.message, h.id, h.aggregateType, h.aggregateId, h.eventType, h.payload]

/-- A claim keeps the event. -/
theorem sameEvent_claimRow (e : OutboxEvent P) : SameEvent (claimRow ids now e) e := by
  unfold claimRow
  split <;> exact ⟨rfl, rfl, rfl, rfl, rfl⟩

theorem sameEvent_markPublishedRow (e : OutboxEvent P) :
    SameEvent (markPublishedRow id now e) e := by
  unfold markPublishedRow
  split <;> exact ⟨rfl, rfl, rfl, rfl, rfl⟩

theorem sameEvent_markFailedRow (e : OutboxEvent P) : SameEvent (markFailedRow id error e) e := by
  unfold markFailedRow
  split <;> exact ⟨rfl, rfl, rfl, rfl, rfl⟩

/-- A published event stays published. -/
theorem isSome_markPublishedRow (h : e.publishedAt.isSome) :
    (markPublishedRow id now e).publishedAt.isSome := by
  unfold markPublishedRow
  split
  · rfl
  · exact h

end Rows

/-- Nothing is lost in no time. -/
theorem Persists.refl (t : OutboxTable P) : Persists t t :=
  fun e he => ⟨e, he, SameEvent.refl e, id⟩

theorem Persists.trans {t t' t'' : OutboxTable P} (h : Persists t t') (h' : Persists t' t'') :
    Persists t t'' := by
  intro e he
  obtain ⟨x, hx, hsame, hpub⟩ := h e he
  obtain ⟨y, hy, hsame', hpub'⟩ := h' x hx
  exact ⟨y, hy, hsame'.trans hsame, fun h => hpub' (hpub h)⟩

/-- A write that keeps events and their publication loses nothing. -/
theorem persists_update {t t' : OutboxTable P} {f : OutboxEvent P → OutboxEvent P}
    (ht : ∀ x, x ∈ t' ↔ ∃ e ∈ t, f e = x) (hsame : ∀ e, SameEvent (f e) e)
    (hpub : ∀ e, e.publishedAt.isSome → (f e).publishedAt.isSome) : Persists t t' :=
  fun e he => ⟨f e, (ht _).mpr ⟨e, he, rfl⟩, hsame e, hpub e⟩

/-! ## The invariant -/

/-- A published event has been accepted, and what a relay holds is an event of the table. -/
structure Durable (cfg : Config P) (σ : State P) : Prop where
  sent : Sent cfg σ
  clock : ∀ e ∈ σ.table, ∀ claimedAt, e.claimedAt = some claimedAt → claimedAt ≤ σ.now
  /-- What a relay has claimed is an event of the table. -/
  held : ∀ r, ∀ e ∈ (σ.loc r).held, ∃ x ∈ σ.table, SameEvent x e
  unmarked : ∀ r e, (σ.loc r).unmarked = some e → message cfg e ∈ σ.accepted

/-- A relay writes to rows by `f` and goes on with events that it held before. -/
theorem Durable.move (h : Durable cfg σ) {r : Nat} {l : Loc P} {f : OutboxEvent P → OutboxEvent P}
    {t : OutboxTable P} (ht : ∀ x, x ∈ t ↔ ∃ e ∈ σ.table, f e = x)
    (hsame : ∀ e, SameEvent (f e) e)
    (hsent : ∀ e ∈ σ.table, (f e).publishedAt.isSome → message cfg e ∈ σ.accepted)
    (hclock : ∀ e ∈ σ.table, (f e).claimedAt = e.claimedAt ∨ (f e).claimedAt = none ∨
      (f e).claimedAt = some σ.now)
    (hheld : ∀ e ∈ l.held, ∃ x ∈ σ.table, SameEvent x e) (hmark : l.unmarked = none) :
    Durable cfg { σ with table := t, loc := goto σ.loc r l } := by
  have hkept : ∀ e, (∃ x ∈ σ.table, SameEvent x e) → ∃ x ∈ t, SameEvent x e := by
    rintro e ⟨x, hx, hxe⟩
    exact ⟨f x, (ht _).mpr ⟨x, hx, rfl⟩, (hsame x).trans hxe⟩
  constructor
  case sent =>
    intro x hx hpub
    obtain ⟨e, he, rfl⟩ := (ht x).mp hx
    rw [(hsame e).message]
    exact hsent e he hpub
  case clock =>
    intro x hx claimedAt hclaimed
    obtain ⟨e, he, rfl⟩ := (ht x).mp hx
    rcases hclock e he with hsame | hnone | hnow
    · exact h.clock e he claimedAt (hsame ▸ hclaimed)
    · rw [hnone] at hclaimed
      nomatch hclaimed
    · obtain rfl := Option.some.inj (hnow.symm.trans hclaimed)
      exact Nat.le_refl _
  case held =>
    exact forall_goto (P := fun _ (l : Loc P) => ∀ e ∈ l.held, ∃ x ∈ t, SameEvent x e)
      (fun e he => hkept e (hheld e he)) fun q _ e he => hkept e (h.held q e he)
  case unmarked =>
    refine forall_goto
      (P := fun _ (l : Loc P) => ∀ e, l.unmarked = some e → message cfg e ∈ σ.accepted)
      (fun e he => ?_) fun q _ => h.unmarked q
    rw [hmark] at he
    nomatch he

/-- A relay only moves. -/
theorem Durable.walk (h : Durable cfg σ) {r : Nat} {l : Loc P} (hheld : l.held ⊆ (σ.loc r).held)
    (hmark : l.unmarked = none) : Durable cfg { σ with loc := goto σ.loc r l } :=
  h.move (f := id) (fun x => by simp) SameEvent.refl h.sent (fun _ _ => Or.inl rfl)
    (fun e he => h.held r e (hheld he)) hmark

/-- A new event is neither claimed nor published. -/
theorem Durable.enqueue (h : Durable cfg σ) {row : OutboxEvent P} (hpub : row.publishedAt = none)
    (hclaimed : row.claimedAt = none) (hnew : ∀ e ∈ σ.table, e.id ≠ row.id) :
    Durable cfg { σ with table := σ.table.put row } where
  sent := by
    intro e he hsome
    rcases Table.mem_put.mp he with rfl | ⟨he, -⟩
    · rw [hpub] at hsome
      nomatch hsome
    · exact h.sent e he hsome
  clock := by
    intro e he claimedAt hsome
    rcases Table.mem_put.mp he with rfl | ⟨he, -⟩
    · rw [hclaimed] at hsome
      nomatch hsome
    · exact h.clock e he claimedAt hsome
  held := by
    intro r e he
    obtain ⟨x, hx, hsame⟩ := h.held r e he
    exact ⟨x, Table.mem_put.mpr (Or.inr ⟨hx, hnew x hx⟩), hsame⟩
  unmarked := h.unmarked

/-- A claim puts rows of the table into a relay's hands. -/
theorem Durable.claim (h : Durable cfg σ) {r : Nat} {order : List Nat} {stale : Time} {n : Nat}
    (hperm : order.Perm (batchIds cfg stale σ.table)) :
    Durable cfg { σ with
      table := claimBatch order σ.now σ.table
      loc := goto σ.loc r (nextEvent σ.now n 0
        (order.filterMap (claimBatch order σ.now σ.table).get?)) } := by
  refine h.move (f := claimRow order σ.now) (fun x => mem_claimBatch) sameEvent_claimRow
    (fun e he hpub => h.sent e he (by simpa using hpub)) (fun e _ => ?_) (fun e he => ?_)
    unmarked_nextEvent
  · by_cases hmem : e.id ∈ order
    · rw [claimRow_of_mem hmem]
      exact Or.inr (Or.inr rfl)
    · rw [claimRow_of_not_mem hmem]
      exact Or.inl rfl
  · rw [held_nextEvent] at he
    obtain ⟨y, hy, rfl⟩ := of_mem_events hperm he
    exact ⟨y, (of_mem_batch hy).1, ⟨rfl, rfl, rfl, rfl, rfl⟩⟩

/-- The row that is marked published is the event that was accepted. -/
theorem Durable.publish (h : Durable cfg σ) {r : Nat} {since : Time} {claimed published : Nat}
    {event : OutboxEvent P} {rest : List (OutboxEvent P)}
    (hloc : σ.loc r = .markingPublished since claimed published event rest) :
    Durable cfg { σ with
      table := markPublished event.id σ.now σ.table
      loc := goto σ.loc r (nextEvent since claimed (published + 1) rest) } := by
  have hheld := h.held r
  have haccepted := h.unmarked r event (by rw [hloc]; rfl)
  rw [hloc] at hheld
  refine h.move (f := markPublishedRow event.id σ.now) (fun x => mem_markPublished)
    sameEvent_markPublishedRow (fun e he hpub => ?_) (fun e _ => ?_) (fun e he => ?_)
    unmarked_nextEvent
  · by_cases hid : e.id = event.id
    · obtain ⟨x, hx, hsame⟩ := hheld event List.mem_cons_self
      obtain rfl : x = e := Table.eq_of_key hx he (hsame.id.trans hid.symm)
      rw [hsame.message]
      exact haccepted
    · rw [markPublishedRow_of_ne hid] at hpub
      exact h.sent e he hpub
  · unfold markPublishedRow
    split
    · exact Or.inr (Or.inl rfl)
    · exact Or.inl rfl
  · rw [held_nextEvent] at he
    exact hheld e (List.mem_cons_of_mem event he)

/-- **Step lemma.** -/
theorem Durable.step (h : Durable cfg σ) (hs : step cfg σ a = some σ') : Durable cfg σ' := by
  cases effect_of_step hs with
  | tick hle =>
    exact ⟨h.sent, fun e he c hc => Nat.le_trans (h.clock e he c hc) hle, h.held, h.unmarked⟩
  | enqueue hnew => exact h.enqueue rfl rfl fun e he => (hnew e he).1
  | begin => exact h.walk (List.nil_subset _) rfl
  | claim hloc hperm hevents =>
    subst hevents
    exact h.claim hperm
  | @accept r since claimed published event rest hloc hsize =>
    refine ⟨fun e he hpub => List.mem_append_left _ (h.sent e he hpub), h.clock, ?_, ?_⟩
    · refine forall_goto (P := fun _ (l : Loc P) => ∀ e ∈ l.held, ∃ x ∈ σ.table, SameEvent x e) ?_
        fun q _ => h.held q
      have hheld := h.held r
      rw [hloc] at hheld
      exact hheld
    · refine forall_goto (P := fun _ (l : Loc P) => ∀ e, l.unmarked = some e →
        message cfg e ∈ σ.accepted ++ [message cfg event]) (fun e he => ?_)
        fun q _ e he => List.mem_append_left _ (h.unmarked q e he)
      obtain rfl := Option.some.inj he
      exact List.mem_append_right _ List.mem_cons_self
  | refuse hloc =>
    refine h.walk ?_ rfl
    rw [hloc]
    exact List.cons_subset_cons _ (List.nil_subset _)
  | published hloc => exact h.publish hloc
  | unpublished hloc =>
    refine h.walk ?_ rfl
    rw [hloc]
    exact List.cons_subset_cons _ (List.nil_subset _)
  | @failed r since claimed published event failure hloc =>
    refine h.move (f := markFailedRow event.id failure) (fun x => mem_markFailed)
      sameEvent_markFailedRow (fun e he hpub => h.sent e he (by simpa using hpub)) (fun e _ => ?_)
      (fun e he => (List.not_mem_nil he).elim) rfl
    unfold markFailedRow
    split
    · exact Or.inr (Or.inl rfl)
    · exact Or.inl rfl
  | threw => exact h.walk (List.nil_subset _) rfl
  | crash => exact h.walk (List.nil_subset _) rfl

/-- No step loses a row. -/
theorem persists_of_step (hs : step cfg σ a = some σ') : Persists σ.table σ'.table := by
  cases effect_of_step hs with
  | enqueue hnew =>
    exact fun e he => ⟨e, Table.mem_put.mpr (Or.inr ⟨he, (hnew e he).1⟩), SameEvent.refl e, id⟩
  | claim =>
    exact persists_update (fun x => mem_claimBatch) sameEvent_claimRow fun e h => by simpa using h
  | published =>
    exact persists_update (fun x => mem_markPublished) sameEvent_markPublishedRow
      fun _ => isSome_markPublishedRow
  | failed =>
    exact persists_update (fun x => mem_markFailed) sameEvent_markFailedRow
      fun e h => by simpa using h
  | _ => exact Persists.refl _

/-- No run loses an event, or its publication. -/
theorem persists_of_run {ok : State P → Act P → Prop} (h : Run (step cfg) ok σ τ) :
    Persists σ.table τ.table :=
  h.invariant (I := fun υ => Persists σ.table υ.table)
    (fun _ _ _ hp _ hs => hp.trans (persists_of_step hs)) (Persists.refl _)

/-! ## Recovery -/

/-- While no relay moves, the rows stay as they are. -/
theorem mem_of_inactive (h : Run (step cfg) Inactive σ τ) {e : OutboxEvent P} (he : e ∈ σ.table) :
    e ∈ τ.table := by
  refine h.invariant (I := fun υ => e ∈ υ.table) (fun υ a υ' hmem hok hs => ?_) he
  cases effect_of_step hs with
  | enqueue hnew => exact Table.mem_put.mpr (Or.inr ⟨hmem, (hnew e hmem).1⟩)
  | tick => exact hmem
  | crash => exact hmem
  | _ => exact hok.elim

/-- A pass claims what is claimable when it begins, if it is not too far behind. -/
theorem takesOver_of_claimable {e : OutboxEvent P} (he : e ∈ τ.table)
    (hclaim : claimable cfg.maxAttempts (staleBefore τ.now) e = true)
    (hfew : (older cfg τ e).length < cfg.batchSize) : TakesOver cfg τ e := by
  intro r τ₁ order τ₂ hbegin hstep
  cases effect_of_step hbegin with
  | begin =>
    cases effect_of_step hstep with
    | @claim _ _ stale events hloc hperm hevents =>
      obtain rfl : staleBefore τ.now = stale := Loc.claiming.inj ((goto_self _ _ _).symm.trans hloc)
      subst hevents
      have hid := mem_order hperm (mem_batch_of_few he hclaim hfew)
      have hrow : claimRow order τ.now e ∈ claimBatch order τ.now τ.table :=
        mem_claimBatch.mpr ⟨e, he, rfl⟩
      refine ⟨claimRow order τ.now e, ?_, sameEvent_claimRow e⟩
      dsimp only
      rw [goto_self, held_nextEvent]
      exact List.mem_filterMap.mpr ⟨e.id, hid, Table.get?_eq_some.mpr ⟨hrow, claimRow_id⟩⟩

/-- A claim of the past is older than `timeout` when more than `timeout` has gone by. -/
theorem is_stale {claimedAt now timeout wait later : Nat} (hpast : claimedAt ≤ now)
    (hwait : timeout < wait) (hlate : now + wait ≤ later) : claimedAt < later - timeout := by
  omega

/-- Behind the claim timeout an event that was left behind can be claimed again. -/
theorem Durable.recovers (h : Durable cfg σ) {wait : Nat} (hwait : CLAIM_TIMEOUT_MS < wait) :
    Recovers cfg wait σ := by
  intro e he hpub hlive τ hinactive hlate hfew
  refine takesOver_of_claimable (mem_of_inactive hinactive he) ?_ hfew
  have hstale : unclaimed (staleBefore τ.now) e = true := by
    unfold unclaimed
    split
    · rfl
    · rename_i claimedAt hclaimed
      exact decide_eq_true (is_stale (h.clock e he claimedAt hclaimed) hwait hlate)
  simp [claimable, deadLettered, hpub, hlive, hstale]

theorem durable_init : Durable cfg (init (Table.empty : OutboxTable P)) where
  sent := fun _ he => absurd he (Table.not_mem_empty _)
  clock := fun _ he => absurd he (Table.not_mem_empty _)
  held := fun _ _ he => (List.not_mem_nil he).elim
  unmarked := fun _ _ he => nomatch he

/-- **No event is lost**, whatever relays do and however they fail. -/
theorem durable_of_run (hrun : Run (step cfg) always (init Table.empty) σ)
    (hlater : Run (step cfg) always σ τ) :
    Persists σ.table τ.table ∧ Sent cfg τ ∧ Claimed cfg τ ∧
      ∀ wait, CLAIM_TIMEOUT_MS < wait → Recovers cfg wait τ := by
  have h : Durable cfg τ :=
    (hrun.trans hlater).invariant (fun _ _ _ h _ hs => h.step hs) durable_init
  refine ⟨persists_of_run hlater, h.sent, fun e he _ _ => ?_, fun wait hwait => h.recovers hwait⟩
  cases hclaimed : e.claimedAt with
  | none => exact Or.inl rfl
  | some claimedAt => exact Or.inr ⟨claimedAt, rfl, h.clock e he claimedAt hclaimed⟩

/-! ## A relay dies with its claim -/

/-- A relay that gives up after five attempts. -/
def fewAtATime : Config String where
  batchSize := 2
  maxAttempts := 5
  patentEventsTopic := "patents.events"
  byteLength := fun _ _ => 100

/-- A relay claims an event at time 0 and dies. -/
def abandoned : List (Act String) :=
  [.enqueue 1 "patent" 7 "PatentVersionUpserted" "v1", .begin 0, .claim 0 [1], .crash 0]

/-- After the timeout another relay claims the event and delivers it. -/
def delivered : List (Act String) :=
  [.tick 300001, .begin 1, .claim 1 [1], .send 1 none, .mark 1 none]

theorem abandoned_runs : (exec (step fewAtATime) (init Table.empty) abandoned).isSome = true := by
  decide

/-- The state in which the first relay has died. -/
def stranded : State String :=
  (exec (step fewAtATime) (init Table.empty) abandoned).get abandoned_runs

theorem delivered_runs : (exec (step fewAtATime) stranded delivered).isSome = true := by
  decide

/-- A relay dies with an event in hand, and another one delivers it. -/
theorem durable_of_abandoned :
    let τ := (exec (step fewAtATime) stranded delivered).get delivered_runs
    Persists stranded.table τ.table ∧ Sent fewAtATime τ ∧ Claimed fewAtATime τ ∧
      ∀ wait, CLAIM_TIMEOUT_MS < wait → Recovers fewAtATime wait τ :=
  durable_of_run (Run.exec_get abandoned_runs) (Run.exec_get delivered_runs)

theorem tick_runs : (exec (step fewAtATime) stranded [.tick 300000]).isSome = true := by decide

/-- Exactly `CLAIM_TIMEOUT_MS` after the claim. -/
def onTime : State String := (exec (step fewAtATime) stranded [.tick 300000]).get tick_runs

theorem onTime_begins : (step fewAtATime onTime (.begin 1)).isSome = true := by decide

theorem onTime_claims :
    (step fewAtATime ((step fewAtATime onTime (.begin 1)).get onTime_begins)
      (.claim 1 [])).isSome = true := by
  decide

/-- A pass that begins then still leaves the event alone. -/
theorem not_recovers_on_time :
    ¬ ∀ (cfg : Config String) (σ τ : State String),
      Run (step cfg) always (init Table.empty) σ → Run (step cfg) always σ τ →
      Persists σ.table τ.table ∧ Sent cfg τ ∧ Claimed cfg τ ∧ Recovers cfg CLAIM_TIMEOUT_MS τ := by
  intro hall
  obtain ⟨-, -, -, hrecovers⟩ :=
    hall fewAtATime _ stranded (Run.exec_get abandoned_runs) (Run.refl _)
  obtain ⟨event, hheld, -⟩ := hrecovers
    ⟨1, "patent", 7, "PatentVersionUpserted", "v1", none, some 0, 0, none⟩ (by decide) rfl
    (by decide) onTime
    (Run.of_exec_ok (fun a ha _ => by rw [List.mem_singleton.mp ha]; trivial)
      (Option.some_get tick_runs).symm)
    (by decide) (by decide) 1 _ [] _ (Option.some_get onTime_begins).symm
    (Option.some_get onTime_claims).symm
  revert event
  decide

end SmartPatents.OutboxRelay
