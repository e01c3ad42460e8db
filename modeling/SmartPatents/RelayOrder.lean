/-
  Per-patent delivery order, with a single relay.

  `publishBatch` stops at the first failure so that no event of a patent overtakes an earlier one.
  The failed row is released, but the rows BEHIND it in the batch stay claimed until the claim
  times out, and the next pass claims the failed row and any newer ones.  A newer event of the same
  patent is then delivered before the stranded one (`not_inOrder`).

  The order holds along every run in which no claim passes over a stranded row (`NothingStranded`):
  when a batch is claimed, no older event of the same patent is unpublished, alive and still claimed
  (`inOrder_of_run`).  The invariant `OrderInv` says of the events still to be sent that they are in
  ascending order, and that every older event of the same patent is delivered, dead-lettered or
  among them.

  The broker refuses what it likes.  The relay does not die, the mark writes succeed, and the rows
  of a claim come back in ascending id (`SingleRelay`); what happens where they do not is the
  subject of `RelayReturning`.

  The stranding needs no slow relay: it takes one refusal in the middle of a batch, and a claim
  that comes before those of the rows behind it have timed out.
-/
import SmartPatents.OutboxRelay

namespace SmartPatents.OutboxRelay

open Runs Outbox

variable {P : Type} {cfg : Config P} {σ σ' : State P} {a : Act P}

/-! ## The property and its conditions -/

/-- The event with this id has been accepted. -/
def Delivered (σ : State P) (id : Nat) : Prop := ∃ m ∈ σ.accepted, m.sequence = id

/-- The deliveries of one patent are in increasing id, and skip dead-lettered events only. -/
structure InOrder (cfg : Config P) (σ : State P) : Prop where
  ascending : ∀ key, ((σ.accepted.filter fun m => m.key == key).map Message.sequence).Pairwise (· < ·)
  settled : ∀ m ∈ σ.accepted, ∀ x ∈ σ.table, x.aggregateId = m.key → x.id < m.sequence →
    Delivered σ x.id ∨ deadLettered cfg.maxAttempts x = true

/-- Relay 0 alone, `claimBatch` returns its rows in ascending id, writes succeed. -/
def SingleRelay : Act P → Prop
  | .begin r | .send r _ => r = 0
  | .claim r order => r = 0 ∧ order.Pairwise (· < ·)
  | .mark r error => r = 0 ∧ error = none
  | .crash _ => False
  | .tick _ | .enqueue .. => True

/-- A claim at `stale` passes over no older event of the same patent that is unpublished, alive and
    still claimed. -/
def NothingStranded (cfg : Config P) (t : OutboxTable P) : Loc P → Prop
  | .claiming stale => ∀ y ∈ batch cfg.maxAttempts cfg.batchSize stale t, ∀ x ∈ t.rows,
      x.aggregateId = y.aggregateId → x.id < y.id → x.publishedAt = none →
      deadLettered cfg.maxAttempts x = false → unclaimed stale x = true
  | _ => True

/-- The condition of the result: nothing is stranded at any claim. -/
def Unstranded (cfg : Config P) (σ : State P) : Act P → Prop
  | .claim r _ => NothingStranded cfg σ.table (σ.loc r)
  | _ => True

instance (t : OutboxTable P) : ∀ l, Decidable (NothingStranded cfg t l)
  | .claiming stale => inferInstanceAs (Decidable (∀ y ∈ batch cfg.maxAttempts cfg.batchSize stale t,
      ∀ x ∈ t.rows, x.aggregateId = y.aggregateId → x.id < y.id → x.publishedAt = none →
      deadLettered cfg.maxAttempts x = false → unclaimed stale x = true))
  | .idle | .sending .. | .markingPublished .. | .markingFailed .. | .returned .. | .threw _ =>
    .isTrue trivial

instance : DecidablePred (SingleRelay : Act P → Prop)
  | .begin r | .send r _ => inferInstanceAs (Decidable (r = 0))
  | .claim r order => inferInstanceAs (Decidable (r = 0 ∧ order.Pairwise (· < ·)))
  | .mark r error => inferInstanceAs (Decidable (r = 0 ∧ error = none))
  | .crash _ => .isFalse id
  | .tick _ | .enqueue .. => .isTrue trivial

instance (σ : State P) : ∀ a, Decidable (Unstranded cfg σ a)
  | .claim r _ => inferInstanceAs (Decidable (NothingStranded cfg σ.table (σ.loc r)))
  | .tick _ | .enqueue .. | .begin _ | .send .. | .mark .. | .crash _ => .isTrue trivial

/-! ## The invariant -/

/-- What the single relay still has to send comes after everything it has delivered, patent by
    patent. -/
structure OrderInv (cfg : Config P) (σ : State P) : Prop where
  /-- Only relay 0 has ever moved. -/
  single : ∀ r, r ≠ 0 → σ.loc r = .idle
  published : ∀ x ∈ σ.table, x.publishedAt.isSome → Delivered σ x.id
  done : ∀ m ∈ σ.accepted, (∃ x ∈ σ.table, x.id = m.sequence ∧ x.publishedAt.isSome) ∨
    ∃ e, (σ.loc 0).unmarked = some e ∧ e.id = m.sequence
  unmarked : ∀ e, (σ.loc 0).unmarked = some e → Delivered σ e.id
  row : ∀ m ∈ σ.accepted, ∃ x ∈ σ.table, x.id = m.sequence ∧ x.aggregateId = m.key
  pending : ∀ e ∈ (σ.loc 0).toSend, ¬ Delivered σ e.id ∧ ∃ x ∈ σ.table, x.id = e.id ∧
    x.aggregateId = e.aggregateId ∧ deadLettered cfg.maxAttempts x = false
  sorted : (σ.loc 0).toSend.Pairwise (·.id < ·.id)
  older : ∀ e ∈ (σ.loc 0).toSend, ∀ x ∈ σ.table, x.aggregateId = e.aggregateId → x.id < e.id →
    Delivered σ x.id ∨ deadLettered cfg.maxAttempts x = true ∨ ∃ f ∈ (σ.loc 0).toSend, f.id = x.id
  inOrder : InOrder cfg σ

theorem orderInv_init : OrderInv cfg (init (Table.empty : OutboxTable P)) where
  single := fun _ _ => rfl
  published := fun x hx => absurd hx (Table.not_mem_empty x)
  done := fun _ hm => nomatch hm
  unmarked := fun _ he => nomatch he
  row := fun _ hm => nomatch hm
  pending := fun _ he => nomatch he
  sorted := List.Pairwise.nil
  older := fun _ he => nomatch he
  inOrder := ⟨fun _ => List.Pairwise.nil, fun _ hm => nomatch hm⟩

/-- A write to the rows by `f`, which keeps ids and patents and revives no dead letter, together with
    a move of relay 0 that drops the head of what it has to send, or all of it. -/
theorem OrderInv.move (h : OrderInv cfg σ) {l : Loc P} {f : OutboxEvent P → OutboxEvent P}
    {t : OutboxTable P} (ht : ∀ x, x ∈ t ↔ ∃ e ∈ σ.table, f e = x) (hid : ∀ e, (f e).id = e.id)
    (hagg : ∀ e, (f e).aggregateId = e.aggregateId)
    (hdead : ∀ e, deadLettered cfg.maxAttempts e = true →
      deadLettered cfg.maxAttempts (f e) = true)
    (halive : ∀ e, deadLettered cfg.maxAttempts e = false → e.id ∈ l.toSend.map OutboxEvent.id →
      deadLettered cfg.maxAttempts (f e) = false)
    (hpub : ∀ e ∈ σ.table, (f e).publishedAt.isSome → Delivered σ e.id)
    (hkeep : ∀ e, e.publishedAt.isSome → (f e).publishedAt.isSome)
    (hmark : l.unmarked = none)
    (hdone : ∀ e, (σ.loc 0).unmarked = some e → ∃ x ∈ t, x.id = e.id ∧ x.publishedAt.isSome)
    (hsend : l.toSend = (σ.loc 0).toSend ∨ l.toSend = []) :
    OrderInv cfg { σ with table := t, loc := goto σ.loc 0 l } := by
  have hsub : l.toSend ⊆ (σ.loc 0).toSend := by
    rcases hsend with hs | hs
    · rw [hs]; exact List.Subset.refl _
    · rw [hs]; exact List.nil_subset _
  constructor
  case single => exact fun r hr => (goto_ne _ _ hr).trans (h.single r hr)
  case published =>
    intro x hx hxpub
    obtain ⟨e, he, rfl⟩ := (ht x).mp hx
    rw [hid]
    exact hpub e he hxpub
  case done =>
    intro m hm
    rcases h.done m hm with ⟨x, hx, hxid, hxpub⟩ | ⟨e, he, heid⟩
    · exact Or.inl ⟨f x, (ht _).mpr ⟨x, hx, rfl⟩, (hid x).trans hxid, hkeep x hxpub⟩
    · obtain ⟨x, hx, hxid, hxpub⟩ := hdone e he
      exact Or.inl ⟨x, hx, hxid.trans heid, hxpub⟩
  case unmarked =>
    intro e he
    simp only [goto_self, hmark] at he
    nomatch he
  case row =>
    intro m hm
    obtain ⟨x, hx, hxid, hxagg⟩ := h.row m hm
    exact ⟨f x, (ht _).mpr ⟨x, hx, rfl⟩, (hid x).trans hxid, (hagg x).trans hxagg⟩
  case pending =>
    intro e he
    simp only [goto_self] at he
    obtain ⟨hnot, x, hx, hxid, hxagg, hxdead⟩ := h.pending e (hsub he)
    exact ⟨hnot, f x, (ht _).mpr ⟨x, hx, rfl⟩, (hid x).trans hxid, (hagg x).trans hxagg,
      halive x hxdead (hxid ▸ List.mem_map.mpr ⟨e, he, rfl⟩)⟩
  case sorted =>
    simp only [goto_self]
    rcases hsend with hs | hs
    · rw [hs]; exact h.sorted
    · rw [hs]; exact List.Pairwise.nil
  case older =>
    intro e he x hx hxagg hlt
    simp only [goto_self] at he ⊢
    rcases hsend with hs | hs
    · obtain ⟨y, hy, rfl⟩ := (ht x).mp hx
      rw [hid] at hlt ⊢
      rcases h.older e (hs ▸ he) y hy ((hagg y).symm.trans hxagg) hlt with hd | hd | hf
      · exact Or.inl hd
      · exact Or.inr (Or.inl (hdead y hd))
      · exact Or.inr (Or.inr (hs ▸ hf))
    · rw [hs] at he
      nomatch he
  case inOrder =>
    refine ⟨h.inOrder.ascending, fun m hm x hx hxagg hlt => ?_⟩
    obtain ⟨y, hy, rfl⟩ := (ht x).mp hx
    rw [hid] at hlt ⊢
    exact (h.inOrder.settled m hm y hy ((hagg y).symm.trans hxagg) hlt).imp_right (hdead y)

/-- Relay 0 moves without writing, and gives up what it had to send or keeps it. -/
theorem OrderInv.walk (h : OrderInv cfg σ) {l : Loc P} (hmark : l.unmarked = none)
    (hnone : (σ.loc 0).unmarked = none) (hsend : l.toSend = (σ.loc 0).toSend ∨ l.toSend = []) :
    OrderInv cfg { σ with loc := goto σ.loc 0 l } := by
  refine h.move (f := fun e => e) (fun x => ?_) (fun _ => rfl) (fun _ => rfl) (fun _ hd => hd)
    (fun _ hd _ => hd) (fun x hx hp => h.published x hx hp) (fun _ hp => hp) hmark (fun e he => ?_)
    hsend
  · exact ⟨fun hx => ⟨x, hx, rfl⟩, fun ⟨e, he, hex⟩ => hex ▸ he⟩
  · rw [hnone] at he
    nomatch he

/-- A new event is younger than every event of its patent. -/
theorem OrderInv.enqueue (h : OrderInv cfg σ) {row : OutboxEvent P} (hpub : row.publishedAt = none)
    (hnew : ∀ e ∈ σ.table, e.id ≠ row.id ∧ (e.aggregateId = row.aggregateId → e.id < row.id)) :
    OrderInv cfg { σ with table := σ.table.put row } := by
  have hold : ∀ x ∈ σ.table, x ∈ σ.table.put row :=
    fun x hx => Table.mem_put.mpr (Or.inr ⟨hx, (hnew x hx).1⟩)
  have hcases : ∀ x ∈ σ.table.put row, x = row ∨ x ∈ σ.table := by
    intro x hx
    rcases Table.mem_put.mp hx with hx | ⟨hx, -⟩
    · exact Or.inl hx
    · exact Or.inr hx
  constructor
  case single => exact h.single
  case published =>
    intro x hx hxpub
    rcases hcases x hx with rfl | hx
    · rw [hpub] at hxpub
      nomatch hxpub
    · exact h.published x hx hxpub
  case done =>
    intro m hm
    rcases h.done m hm with ⟨x, hx, hrest⟩ | hmark
    · exact Or.inl ⟨x, hold x hx, hrest⟩
    · exact Or.inr hmark
  case unmarked => exact h.unmarked
  case row =>
    intro m hm
    obtain ⟨x, hx, hrest⟩ := h.row m hm
    exact ⟨x, hold x hx, hrest⟩
  case pending =>
    intro e he
    obtain ⟨hnot, x, hx, hrest⟩ := h.pending e he
    exact ⟨hnot, x, hold x hx, hrest⟩
  case sorted => exact h.sorted
  case older =>
    intro e he x hx hagg hlt
    rcases hcases x hx with rfl | hx
    · -- the new event is not older than `e`
      obtain ⟨-, y, hy, hyid, hyagg, -⟩ := h.pending e he
      have hgt := (hnew y hy).2 (hyagg.trans hagg.symm)
      omega
    · exact h.older e he x hx hagg hlt
  case inOrder =>
    refine ⟨h.inOrder.ascending, fun m hm x hx hagg hlt => ?_⟩
    rcases hcases x hx with rfl | hx
    · obtain ⟨y, hy, hyid, hyagg⟩ := h.row m hm
      have hgt := (hnew y hy).2 (hyagg.trans hagg.symm)
      omega
    · exact h.inOrder.settled m hm x hx hagg hlt

/-- A claim, when nothing is stranded. -/
theorem OrderInv.claim (h : OrderInv cfg σ) {order : List Nat} {stale : Time}
    {events : List (OutboxEvent P)} (hloc : σ.loc 0 = .claiming stale)
    (hperm : order.Perm (batchIds cfg stale σ.table)) (hasc : order.Pairwise (· < ·))
    (hnone : NothingStranded cfg σ.table (σ.loc 0))
    (hevents : events = order.filterMap (claimBatch order σ.now σ.table).get?) :
    OrderInv cfg { σ with
      table := claimBatch order σ.now σ.table
      loc := goto σ.loc 0 (nextEvent σ.now events.length 0 events) } := by
  have hdead : ∀ e : OutboxEvent P, deadLettered cfg.maxAttempts (claimRow order σ.now e)
      = deadLettered cfg.maxAttempts e := fun e => by simp [deadLettered]
  have hunmarked : (σ.loc 0).unmarked = none := by rw [hloc]; rfl
  have hids : events.map OutboxEvent.id = order := hevents ▸ ids_events hperm
  have hnew : ∀ e ∈ events, ∃ y ∈ batch cfg.maxAttempts cfg.batchSize stale σ.table,
      e = { y with claimedAt := some σ.now } :=
    fun e he => of_mem_events hperm (hevents ▸ he)
  rw [hloc] at hnone
  -- as if the rows were claimed first, with nothing in hand
  have hrows : OrderInv cfg { σ with
      table := claimBatch order σ.now σ.table, loc := goto σ.loc 0 .idle } :=
    h.move (fun x => mem_claimBatch) (fun _ => claimRow_id) (fun _ => claimRow_aggregateId)
      (fun e hd => (hdead e).trans hd) (fun e hd _ => (hdead e).trans hd)
      (fun e he hp => h.published e he (by simpa using hp)) (fun e hp => by simpa using hp) rfl
      (fun e he => by rw [hunmarked] at he; nomatch he) (Or.inr rfl)
  constructor
  case single => exact fun r hr => (goto_ne _ _ hr).trans (h.single r hr)
  case published => exact hrows.published
  case done =>
    intro m hm
    rcases hrows.done m hm with hx | ⟨e, he, -⟩
    · exact Or.inl hx
    · simp only [goto_self] at he
      nomatch he
  case unmarked =>
    intro e he
    simp only [goto_self, unmarked_nextEvent] at he
    nomatch he
  case row => exact hrows.row
  case pending =>
    intro e he
    simp only [goto_self, toSend_nextEvent] at he
    obtain ⟨y, hy, rfl⟩ := hnew e he
    obtain ⟨hyt, hyc⟩ := of_mem_batch hy
    simp only [claimable, Bool.and_eq_true, Option.isNone_iff_eq_none, Bool.not_eq_true'] at hyc
    refine ⟨?_, claimRow order σ.now y, mem_claimBatch.mpr ⟨y, hyt, rfl⟩, claimRow_id,
      claimRow_aggregateId, (hdead y).trans hyc.1.2⟩
    -- a delivered event is published when no mark is due, and this one is not
    rintro ⟨m, hm, hmid⟩
    rcases h.done m hm with ⟨x, hx, hxid, hxpub⟩ | ⟨e, he, -⟩
    · obtain rfl : x = y := Table.eq_of_key hx hyt (hxid.trans hmid)
      rw [hyc.1.1] at hxpub
      nomatch hxpub
    · rw [hunmarked] at he
      nomatch he
  case sorted =>
    simp only [goto_self, toSend_nextEvent]
    rw [← hids] at hasc
    exact List.pairwise_map.mp hasc
  case older =>
    intro e he x hx hagg hlt
    simp only [goto_self, toSend_nextEvent] at he ⊢
    obtain ⟨y, hy, rfl⟩ := hnew e he
    obtain ⟨z, hz, rfl⟩ := mem_claimBatch.mp hx
    rw [claimRow_id] at hlt ⊢
    rw [claimRow_aggregateId] at hagg
    rw [hdead]
    by_cases hpub : z.publishedAt = none
    · by_cases hd : deadLettered cfg.maxAttempts z = true
      · exact Or.inr (Or.inl hd)
      · have hd' : deadLettered cfg.maxAttempts z = false := by simpa using hd
        have hfree := hnone y hy z hz hagg hlt hpub hd'
        have hz' := mem_batch_of_older hy hz (by simp [claimable, hpub, hd', hfree]) hlt
        have hmem : z.id ∈ events.map OutboxEvent.id := hids ▸ mem_order hperm hz'
        obtain ⟨f, hf, hfid⟩ := List.mem_map.mp hmem
        exact Or.inr (Or.inr ⟨f, hf, hfid⟩)
    · exact Or.inl (h.published z hz (Option.isSome_iff_ne_none.mpr hpub))
  case inOrder => exact ⟨hrows.inOrder.ascending, hrows.inOrder.settled⟩

/-- The broker accepts the next event: every older one of its patent is settled. -/
theorem OrderInv.accept (h : OrderInv cfg σ) {since : Time} {claimed published : Nat}
    {event : OutboxEvent P} {rest : List (OutboxEvent P)}
    (hloc : σ.loc 0 = .sending since claimed published event rest) :
    OrderInv cfg { σ with
      loc := goto σ.loc 0 (.markingPublished since claimed published event rest)
      accepted := σ.accepted ++ [message cfg event] } := by
  have hsend : (σ.loc 0).toSend = event :: rest := by rw [hloc]; rfl
  have hunmarked : (σ.loc 0).unmarked = none := by rw [hloc]; rfl
  have hmem : event ∈ (σ.loc 0).toSend := hsend ▸ List.mem_cons_self
  have hrest : ∀ e ∈ rest, e ∈ (σ.loc 0).toSend := fun e he => hsend ▸ List.mem_cons_of_mem _ he
  have hsorted := h.sorted
  rw [hsend, List.pairwise_cons] at hsorted
  obtain ⟨hnot, x₀, hx₀, hx₀id, hx₀agg, hx₀dead⟩ := h.pending event hmem
  have hnow : ∀ {i}, Delivered { σ with
        loc := goto σ.loc 0 (.markingPublished since claimed published event rest)
        accepted := σ.accepted ++ [message cfg event] } i ↔ Delivered σ i ∨ i = event.id := by
    intro i
    simp only [Delivered, List.mem_append, List.mem_singleton]
    constructor
    · rintro ⟨m, hm | rfl, hid⟩
      · exact Or.inl ⟨m, hm, hid⟩
      · exact Or.inr hid.symm
    · rintro (⟨m, hm, hid⟩ | rfl)
      · exact ⟨m, Or.inl hm, hid⟩
      · exact ⟨_, Or.inr rfl, rfl⟩
  -- an older event of the patent that is still to be sent would come before `event`
  have hsettled : ∀ x ∈ σ.table, x.aggregateId = event.aggregateId → x.id < event.id →
      Delivered σ x.id ∨ deadLettered cfg.maxAttempts x = true := by
    intro x hx hagg hlt
    rcases h.older event hmem x hx hagg hlt with hd | hd | ⟨f, hf, hfid⟩
    · exact Or.inl hd
    · exact Or.inr hd
    · rw [hsend] at hf
      rcases List.mem_cons.mp hf with rfl | hf
      · omega
      · have := hsorted.1 f hf
        omega
  -- what was delivered of the patent is older than `event`
  have holder : ∀ m ∈ σ.accepted, m.key = event.aggregateId → m.sequence < event.id := by
    intro m hm hkey
    rcases Nat.lt_trichotomy m.sequence event.id with hlt | heq | hgt
    · exact hlt
    · exact absurd ⟨m, hm, heq⟩ hnot
    · rcases h.inOrder.settled m hm x₀ hx₀ (hx₀agg.trans hkey.symm) (by omega) with hd | hd
      · exact absurd (hx₀id ▸ hd) hnot
      · rw [hx₀dead] at hd
        nomatch hd
  constructor
  case single => exact fun r hr => (goto_ne _ _ hr).trans (h.single r hr)
  case published => exact fun x hx hp => hnow.mpr (Or.inl (h.published x hx hp))
  case done =>
    intro m hm
    rcases List.mem_append.mp hm with hm | hm
    · rcases h.done m hm with hx | ⟨e, he, -⟩
      · exact Or.inl hx
      · rw [hunmarked] at he
        nomatch he
    · obtain rfl := List.mem_singleton.mp hm
      exact Or.inr ⟨event, by simp only [goto_self]; rfl, rfl⟩
  case unmarked =>
    intro e he
    simp only [goto_self] at he
    obtain rfl := Option.some.inj he
    exact hnow.mpr (Or.inr rfl)
  case row =>
    intro m hm
    rcases List.mem_append.mp hm with hm | hm
    · exact h.row m hm
    · obtain rfl := List.mem_singleton.mp hm
      exact ⟨x₀, hx₀, hx₀id, hx₀agg⟩
  case pending =>
    intro e he
    simp only [goto_self] at he
    obtain ⟨hnot', hx⟩ := h.pending e (hrest e he)
    refine ⟨fun hd => ?_, hx⟩
    rcases hnow.mp hd with hd | hid
    · exact hnot' hd
    · have := hsorted.1 e he
      omega
  case sorted =>
    simp only [goto_self]
    exact hsorted.2
  case older =>
    intro e he x hx hagg hlt
    simp only [goto_self] at he ⊢
    rcases h.older e (hrest e he) x hx hagg hlt with hd | hd | ⟨f, hf, hfid⟩
    · exact Or.inl (hnow.mpr (Or.inl hd))
    · exact Or.inr (Or.inl hd)
    · rw [hsend] at hf
      rcases List.mem_cons.mp hf with rfl | hf
      · exact Or.inl (hnow.mpr (Or.inr hfid.symm))
      · exact Or.inr (Or.inr ⟨f, hf, hfid⟩)
  case inOrder =>
    refine ⟨fun key => ?_, fun m hm x hx hagg hlt => ?_⟩
    · rw [List.filter_append, List.map_append, List.pairwise_append]
      refine ⟨h.inOrder.ascending key, List.Pairwise.map _ (fun _ _ h => h)
        (List.Pairwise.sublist List.filter_sublist (List.pairwise_singleton _ _)), ?_⟩
      intro i hi j hj
      obtain ⟨m, hm, rfl⟩ := List.mem_map.mp hi
      obtain ⟨n, hn, rfl⟩ := List.mem_map.mp hj
      obtain ⟨hm, hmkey⟩ := List.mem_filter.mp hm
      obtain ⟨hn, hnkey⟩ := List.mem_filter.mp hn
      obtain rfl := List.mem_singleton.mp hn
      exact holder m hm ((eq_of_beq hmkey).trans (eq_of_beq hnkey).symm)
    · rcases List.mem_append.mp hm with hm | hm
      · rcases h.inOrder.settled m hm x hx hagg hlt with hd | hd
        · exact Or.inl (hnow.mpr (Or.inl hd))
        · exact Or.inr hd
      · obtain rfl := List.mem_singleton.mp hm
        exact (hsettled x hx hagg hlt).imp_left fun hd => hnow.mpr (Or.inl hd)

/-- The relay marks what it sent as published. -/
theorem OrderInv.publish (h : OrderInv cfg σ) {since : Time} {claimed published : Nat}
    {event : OutboxEvent P} {rest : List (OutboxEvent P)}
    (hloc : σ.loc 0 = .markingPublished since claimed published event rest) :
    OrderInv cfg { σ with
      table := markPublished event.id σ.now σ.table
      loc := goto σ.loc 0 (nextEvent since claimed (published + 1) rest) } := by
  have hmarked : (σ.loc 0).unmarked = some event := by rw [hloc]; rfl
  refine h.move (fun x => mem_markPublished) (fun _ => markPublishedRow_id)
    (fun _ => markPublishedRow_aggregateId) (fun e hd => ?_) (fun e hd _ => ?_) (fun e he hp => ?_)
    (fun e hp => ?_) unmarked_nextEvent (fun e he => ?_) (Or.inl ?_)
  · simpa [deadLettered] using hd
  · simpa [deadLettered] using hd
  · by_cases hid : e.id = event.id
    · exact hid ▸ h.unmarked event hmarked
    · rw [markPublishedRow_of_ne hid] at hp
      exact h.published e he hp
  · by_cases hid : e.id = event.id
    · simp [markPublishedRow, hid]
    · rwa [markPublishedRow_of_ne hid]
  · obtain rfl := Option.some.inj (hmarked.symm.trans he)
    obtain ⟨m, hm, hmid⟩ := h.unmarked event hmarked
    obtain ⟨x, hx, hxid, -⟩ := h.row m hm
    exact ⟨_, mem_markPublished.mpr ⟨x, hx, rfl⟩, markPublishedRow_id.trans (hxid.trans hmid),
      by simp [markPublishedRow, hxid.trans hmid]⟩
  · rw [toSend_nextEvent, hloc]
    rfl

/-- The relay counts the attempt and gives up the rest of its batch. -/
theorem OrderInv.fail (h : OrderInv cfg σ) {since : Time} {claimed published : Nat}
    {event : OutboxEvent P} {failure : String}
    (hloc : σ.loc 0 = .markingFailed since claimed published event failure) :
    OrderInv cfg { σ with
      table := markFailed event.id failure σ.table
      loc := goto σ.loc 0 (.returned claimed published) } := by
  refine h.move (fun x => mem_markFailed) (fun _ => markFailedRow_id)
    (fun _ => markFailedRow_aggregateId) (fun e hd => ?_) (fun e _ hmem => nomatch hmem)
    (fun e he hp => h.published e he (by simpa using hp)) (fun e hp => by simpa using hp) rfl
    (fun e he => ?_) (Or.inr rfl)
  · have hle := @le_markFailedRow_attempts P event.id failure e
    simp only [deadLettered, decide_eq_true_eq] at hd ⊢
    omega
  · rw [hloc] at he
    nomatch he

/-- **Step lemma.** -/
theorem OrderInv.step (h : OrderInv cfg σ) (hone : SingleRelay a) (hok : Unstranded cfg σ a)
    (hs : step cfg σ a = some σ') : OrderInv cfg σ' := by
  cases effect_of_step hs with
  | tick hle =>
    exact ⟨h.single, h.published, h.done, h.unmarked, h.row, h.pending, h.sorted, h.older,
      h.inOrder.ascending, h.inOrder.settled⟩
  | enqueue hnew => exact h.enqueue rfl hnew
  | begin hrest =>
    obtain rfl := hone
    obtain ⟨-, -, hnone, -⟩ := held_of_resting hrest
    exact h.walk rfl hnone (Or.inr rfl)
  | claim hloc hperm hevents =>
    obtain ⟨rfl, hasc⟩ := hone
    exact h.claim hloc hperm hasc hok hevents
  | accept hloc hsize =>
    obtain rfl := hone
    exact h.accept hloc
  | refuse hloc hwhy =>
    obtain rfl := hone
    exact h.walk rfl (by rw [hloc]; rfl) (Or.inr rfl)
  | published hloc =>
    obtain ⟨rfl, -⟩ := hone
    exact h.publish hloc
  | unpublished hloc => nomatch hone.2
  | failed hloc =>
    obtain ⟨rfl, -⟩ := hone
    exact h.fail hloc
  | threw hloc => nomatch hone.2
  | crash => exact hone.elim

/-- **Per-patent order.**  Along every run of a single relay in which no claim passes over a
    stranded row, the deliveries of every patent are in order. -/
theorem inOrder_of_run
    (hrun : Run (step cfg) (fun σ a => SingleRelay a ∧ Unstranded cfg σ a)
      (init (Table.empty : OutboxTable P)) σ) : InOrder cfg σ :=
  (hrun.invariant (fun _ _ _ h hok hs => h.step hok.1 hok.2 hs) orderInv_init).inOrder

/-! ## A stranded event -/

/-- A relay with three events in a batch. -/
def batchesOfThree : Config String where
  batchSize := 3
  maxAttempts := 10
  patentEventsTopic := "patents.events"
  byteLength := fun _ _ => 100

/-- Three events of patent 7 are claimed; the first is delivered, the second is refused. -/
def secondRefused : List (Act String) :=
  [.enqueue 1 "patent" 7 "PatentVersionUpserted" "v1",
   .enqueue 2 "patent" 7 "PatentVersionWithdrawn" "v1",
   .enqueue 3 "patent" 7 "PatentVersionUpserted" "v2",
   .begin 0, .claim 0 [1, 2, 3], .send 0 none, .mark 0 none, .send 0 (some "timeout"),
   .mark 0 none]

/-- The next pass, after one more event: it claims events 2 and 4. -/
def nextPass : List (Act String) :=
  [.enqueue 4 "patent" 7 "PatentVersionWithdrawn" "v2", .begin 0, .claim 0 [2, 4], .send 0 none,
   .mark 0 none, .send 0 none]

/-- The next pass after the claim timeout: it claims events 2 and 3. -/
def laterPass : List (Act String) :=
  [.tick 300001, .begin 0, .claim 0 [2, 3], .send 0 none, .mark 0 none, .send 0 none, .mark 0 none]

theorem secondRefused_laterPass :
    (execOk (step batchesOfThree) (fun σ a => SingleRelay a ∧ Unstranded batchesOfThree σ a)
      (init Table.empty) (secondRefused ++ laterPass)).isSome = true := by
  decide

/-- When the next pass comes after the timeout, nothing is stranded and all three are in order. -/
theorem inOrder_of_laterPass :
    InOrder batchesOfThree ((execOk (step batchesOfThree)
      (fun σ a => SingleRelay a ∧ Unstranded batchesOfThree σ a) (init Table.empty)
      (secondRefused ++ laterPass)).get secondRefused_laterPass) :=
  inOrder_of_run (Run.of_execOk (Option.some_get secondRefused_laterPass).symm)

theorem secondRefused_nextPass :
    (execOk (step batchesOfThree) (fun _ a => SingleRelay a) (init Table.empty)
      (secondRefused ++ nextPass)).isSome = true := by
  decide

/-- Event 4 is delivered while event 3 of the same patent is neither delivered nor dead. -/
theorem not_inOrder :
    ¬ ∀ σ, Run (step batchesOfThree) (fun _ a => SingleRelay a) (init Table.empty) σ →
      InOrder batchesOfThree σ := by
  intro hall
  have hinOrder := hall _ (Run.of_execOk (Option.some_get secondRefused_nextPass).symm)
  rcases hinOrder.settled ⟨"patents.events", 7, "v2", 4, "PatentVersionWithdrawn", "patent"⟩
    (by decide)
    ⟨3, "patent", 7, "PatentVersionUpserted", "v2", none, some 0, 0, none⟩ (by decide) rfl
    (by decide) with ⟨m, hm, hid⟩ | hdead
  · revert m
    decide
  · exact absurd hdead (by decide)

end SmartPatents.OutboxRelay
