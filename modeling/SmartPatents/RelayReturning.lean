/-
  The order of `UPDATE … RETURNING`.

  `claimBatch` has its ORDER BY in the subquery that picks the rows.  What the UPDATE returns is a
  set: any order of the picked rows is a possible answer, and `publishBatch` sends them as they come.
  So even in a run without any failure (`Smooth`) two events of a patent that are claimed in one
  batch can be sent newest first (`not_increasing`).

  Everything else keeps the order.  The subquery takes the OLDEST rows, a pass without failures
  publishes its whole batch, and a new event is younger than all of its patent.  So the messages
  accepted so far, followed by those of the events in hand, are in order (`SmoothInv.increasing`) if
  and only if every claim returned the rows of each patent in order.

  The converse is about states in which the relay is between two passes: a batch that was returned
  out of order shows in the messages only once it has been sent.  The invariant also says that no
  attempt has been counted and that every claimed row is in hand, as a stranded row would be
  claimed out of turn.

  The steps: one lemma for each thing that happens in a smooth run (`SmoothInv.begin`,
  `SmoothInv.enqueue`, `SmoothInv.claim`, `SmoothInv.accept`, `SmoothInv.publish`), put together
  in `SmoothInv.step`; then `sentOrInHand_of_step`, by which only a claim changes the sequence
  that is to be in order.
-/
import SmartPatents.RelayAlone

namespace SmartPatents.OutboxRelay

open Runs Outbox

variable {P : Type} {cfg : Config P} {σ σ' : State P} {a : Act P}

/-! ## The property and its conditions -/

/-- The messages of each patent are in strictly increasing `sequence`. -/
def Increasing (ms : List (Message P)) : Prop :=
  ms.Pairwise fun m n => m.key = n.key → m.sequence < n.sequence

/-- The event about to be sent is small enough. -/
def Loc.fits (cfg : Config P) : Loc P → Prop
  | .sending _ _ _ event _ => oversized cfg event = false
  | _ => True

/-- Relay 0 alone, and nothing fails: the broker accepts, writes succeed, nobody dies, no event is
    oversized.  A claim may return its rows in any order. -/
def Smooth (cfg : Config P) (σ : State P) : Act P → Prop
  | .begin r | .claim r _ => r = 0
  | .send r error => r = 0 ∧ error = none ∧ (σ.loc r).fits cfg
  | .mark r error => r = 0 ∧ error = none
  | .crash _ => False
  | .tick _ | .enqueue .. => True

/-- What a claim returns has the rows of each patent in ascending id. -/
def ReturnsInOrder (σ : State P) : Act P → Prop
  | .claim _ order => (order.filterMap (claimBatch order σ.now σ.table).get?).Pairwise
      fun e f => e.aggregateId = f.aggregateId → e.id < f.id
  | _ => True

instance : ∀ l : Loc P, Decidable (l.fits cfg)
  | .sending _ _ _ event _ => inferInstanceAs (Decidable (oversized cfg event = false))
  | .idle | .claiming _ | .markingPublished .. | .markingFailed .. | .returned .. | .threw _ =>
    .isTrue trivial

instance (σ : State P) : ∀ a, Decidable (Smooth cfg σ a)
  | .begin r | .claim r _ => inferInstanceAs (Decidable (r = 0))
  | .send r error =>
    inferInstanceAs (Decidable (r = 0 ∧ error = none ∧ (σ.loc r).fits cfg))
  | .mark r error => inferInstanceAs (Decidable (r = 0 ∧ error = none))
  | .crash _ => .isFalse id
  | .tick _ | .enqueue .. => .isTrue trivial

instance (σ : State P) : ∀ a, Decidable (ReturnsInOrder σ a)
  | .claim _ order => inferInstanceAs (Decidable ((order.filterMap
      (claimBatch order σ.now σ.table).get?).Pairwise
      fun e f => e.aggregateId = f.aggregateId → e.id < f.id))
  | .tick _ | .enqueue .. | .begin _ | .send .. | .mark .. | .crash _ => .isTrue trivial

/-- What has been sent, and what the pass under way is going to send. -/
def sentOrInHand (cfg : Config P) (σ : State P) : List (Message P) :=
  σ.accepted ++ (σ.loc 0).toSend.map (message cfg)

/-! ## The invariant -/

/-- No event has failed. -/
def Loc.smooth : Loc P → Prop
  | .markingFailed .. => False
  | _ => True

/-- While nothing fails, what waits is younger than what is in hand, and that younger than what was
    sent. -/
structure SmoothInv (cfg : Config P) (t : OutboxTable P) (l : Loc P) (ms : List (Message P)) :
    Prop where
  holding : Holding cfg t l
  attempts : ∀ x ∈ t, x.attempts = 0
  /-- A claimed row is in hand. -/
  claimed : ∀ x ∈ t, x.publishedAt = none → x.claimedAt = none ∨ x ∈ l.held
  row : ∀ m ∈ ms, ∃ x ∈ t, x.id = m.sequence ∧ x.aggregateId = m.key
  /-- What has not been sent is younger than what has. -/
  sent : ∀ m ∈ ms, ∀ x ∈ t, x.aggregateId = m.key → x.publishedAt = none →
    l.unmarked ≠ some x → m.sequence < x.id
  /-- What is not in hand is younger than what is. -/
  inHand : ∀ e ∈ l.held, ∀ x ∈ t, x.aggregateId = e.aggregateId → x.publishedAt = none →
    x ∉ l.held → e.id < x.id

variable {t : OutboxTable P} {l : Loc P} {ms : List (Message P)}

theorem smoothInv_init : SmoothInv cfg (Table.empty : OutboxTable P) .idle [] where
  holding := Holding.of_nil rfl
  attempts := fun x hx => absurd hx (Table.not_mem_empty x)
  claimed := fun x hx => absurd hx (Table.not_mem_empty x)
  row := fun _ hm => absurd hm List.not_mem_nil
  sent := fun _ hm => absurd hm List.not_mem_nil
  inHand := fun _ he => absurd he List.not_mem_nil

/-- A resting relay starts a pass. -/
theorem SmoothInv.begin (h : SmoothInv cfg t l ms) (hrest : l.resting = true) {stale : Time} :
    SmoothInv cfg t (.claiming stale) ms := by
  obtain ⟨hheld, -, hunmarked, -⟩ := held_of_resting hrest
  constructor
  case holding => exact Holding.of_nil rfl
  case attempts => exact h.attempts
  case claimed =>
    intro x hx hpub
    have hcl := h.claimed x hx hpub
    rw [hheld] at hcl
    exact hcl
  case row => exact h.row
  case sent =>
    intro m hm x hx hkey hpub _
    refine h.sent m hm x hx hkey hpub ?_
    rw [hunmarked]
    exact fun hsome => by cases hsome
  case inHand => exact fun _ he => absurd he List.not_mem_nil

/-- A new event is younger than everything of its patent. -/
theorem SmoothInv.enqueue (h : SmoothInv cfg t l ms) {row : OutboxEvent P}
    (hattempts : row.attempts = 0) (hclaimed : row.claimedAt = none)
    (hnew : ∀ e ∈ t, e.id ≠ row.id ∧ (e.aggregateId = row.aggregateId → e.id < row.id)) :
    SmoothInv cfg (t.put row) l ms := by
  have hold : ∀ x ∈ t, x ∈ t.put row :=
    fun x hx => Table.mem_put.mpr (Or.inr ⟨hx, (hnew x hx).1⟩)
  have hcases : ∀ x ∈ t.put row, x = row ∨ x ∈ t := by
    intro x hx
    rcases Table.mem_put.mp hx with hx | ⟨hx, -⟩
    · exact Or.inl hx
    · exact Or.inr hx
  constructor
  case holding => exact h.holding.keep (List.Sublist.refl _) fun e _ he => hold e he
  case attempts =>
    intro x hx
    rcases hcases x hx with rfl | hx
    · exact hattempts
    · exact h.attempts x hx
  case claimed =>
    intro x hx hpub
    rcases hcases x hx with rfl | hx
    · exact Or.inl hclaimed
    · exact h.claimed x hx hpub
  case row =>
    intro m hm
    obtain ⟨x, hx, hrest⟩ := h.row m hm
    exact ⟨x, hold x hx, hrest⟩
  case sent =>
    intro m hm x hx hkey hpub hmark
    rcases hcases x hx with rfl | hx
    -- the new row is younger than the row of any message of its patent
    · obtain ⟨y, hy, hyid, hykey⟩ := h.row m hm
      have hlt := (hnew y hy).2 (hykey.trans hkey.symm)
      omega
    · exact h.sent m hm x hx hkey hpub hmark
  case inHand =>
    intro e he x hx hagg hpub hnot
    rcases hcases x hx with rfl | hx
    · exact (hnew e (h.holding.row e he)).2 hagg.symm
    · exact h.inHand e he x hx hagg hpub hnot

/-- A claim takes the oldest rows, and there is none that it has to leave behind. -/
theorem SmoothInv.claim {stale now : Time} {order : List Nat} {n : Nat}
    (h : SmoothInv cfg t (.claiming stale) ms) (hperm : order.Perm (batchIds cfg stale t)) :
    SmoothInv cfg (claimBatch order now t)
      (nextEvent now n 0 (order.filterMap (claimBatch order now t).get?)) ms := by
  have hfree : ∀ x ∈ t, x.publishedAt = none → x.claimedAt = none := by
    intro x hx hpub
    rcases h.claimed x hx hpub with hnone | hmem
    · exact hnone
    · exact absurd hmem List.not_mem_nil
  have hmem : ∀ x ∈ t, x.id ∈ order → claimRow order now x ∈
      order.filterMap (claimBatch order now t).get? := fun x hx hid =>
    List.mem_filterMap.mpr ⟨x.id, hid,
      Table.get?_eq_some.mpr ⟨mem_claimBatch.mpr ⟨x, hx, rfl⟩, claimRow_id⟩⟩
  constructor
  case holding => exact Holding.claim hperm
  case attempts =>
    intro x hx
    obtain ⟨y, hy, rfl⟩ := mem_claimBatch.mp hx
    rw [claimRow_attempts]
    exact h.attempts y hy
  case claimed =>
    intro x hx hpub
    obtain ⟨y, hy, rfl⟩ := mem_claimBatch.mp hx
    rw [claimRow_publishedAt] at hpub
    rw [held_nextEvent]
    by_cases hid : y.id ∈ order
    · exact Or.inr (hmem y hy hid)
    -- nothing was claimed before the claim
    · rw [claimRow_of_not_mem hid]
      exact Or.inl (hfree y hy hpub)
  case row =>
    intro m hm
    obtain ⟨x, hx, hid, hkey⟩ := h.row m hm
    exact ⟨claimRow order now x, mem_claimBatch.mpr ⟨x, hx, rfl⟩, claimRow_id.trans hid,
      claimRow_aggregateId.trans hkey⟩
  case sent =>
    intro m hm x hx hkey hpub _
    obtain ⟨y, hy, rfl⟩ := mem_claimBatch.mp hx
    rw [claimRow_aggregateId] at hkey
    rw [claimRow_publishedAt] at hpub
    rw [claimRow_id]
    exact h.sent m hm y hy hkey hpub fun hsome => by cases hsome
  case inHand =>
    intro e he x hx hagg hpub hnot
    rw [held_nextEvent] at he hnot
    obtain ⟨y, hy, rfl⟩ := of_mem_events hperm he
    obtain ⟨z, hz, rfl⟩ := mem_claimBatch.mp hx
    rw [claimRow_publishedAt] at hpub
    rw [claimRow_id]
    have hid : z.id ∉ order := fun hid => hnot (hmem z hz hid)
    obtain ⟨hyt, hyclaim⟩ := of_mem_batch hy
    simp only [claimable, Bool.and_eq_true, Bool.not_eq_true'] at hyclaim
    -- the row left behind is as claimable as `y`, so it is not older
    have hzclaim : claimable cfg.maxAttempts stale z = true := by
      have hdead : deadLettered cfg.maxAttempts z = false := by
        rw [deadLettered, h.attempts z hz, ← h.attempts y hyt]
        exact hyclaim.1.2
      simp [claimable, hpub, hdead, unclaimed, hfree z hz hpub]
    rcases Nat.lt_trichotomy y.id z.id with hlt | heq | hgt
    · exact hlt
    · exact absurd (heq ▸ mem_order hperm hy) hid
    · exact absurd (mem_order hperm (mem_batch_of_older hy hz hzclaim hgt)) hid

/-- The rest of the batch is younger than its head, if what is in hand is in order. -/
theorem younger_of_increasing {event : OutboxEvent P} {rest : List (OutboxEvent P)}
    (hinc : Increasing (ms ++ (event :: rest).map (message cfg))) :
    ∀ e ∈ rest, event.aggregateId = e.aggregateId → event.id < e.id := by
  intro e he hagg
  have htail := (List.pairwise_append.mp hinc).2.1
  rw [List.map_cons, List.pairwise_cons] at htail
  exact htail.1 (message cfg e) (List.mem_map.mpr ⟨e, he, rfl⟩) hagg

/-- The broker accepts the head of the batch. -/
theorem SmoothInv.accept {since : Time} {claimed published : Nat} {event : OutboxEvent P}
    {rest : List (OutboxEvent P)} (h : SmoothInv cfg t (.sending since claimed published event rest) ms)
    (hinc : Increasing (ms ++ (event :: rest).map (message cfg))) :
    SmoothInv cfg t (.markingPublished since claimed published event rest)
      (ms ++ [message cfg event]) := by
  have hevent : event ∈ (Loc.sending since claimed published event rest).held :=
    List.mem_cons_self
  constructor
  case holding => exact h.holding.keep (List.Sublist.refl _) fun e _ he => he
  case attempts => exact h.attempts
  case claimed => exact h.claimed
  case row =>
    intro m hm
    rcases List.mem_append.mp hm with hm | hm
    · exact h.row m hm
    · obtain rfl := List.mem_singleton.mp hm
      exact ⟨event, h.holding.row event hevent, rfl, rfl⟩
  case sent =>
    intro m hm x hx hkey hpub hmark
    rcases List.mem_append.mp hm with hm | hm
    · exact h.sent m hm x hx hkey hpub fun hsome => by cases hsome
    · obtain rfl := List.mem_singleton.mp hm
      have hne : x ≠ event := fun heq => hmark (heq ▸ rfl)
      show event.id < x.id
      -- what follows in the batch, and what is not in the batch
      by_cases hrest : x ∈ rest
      · exact younger_of_increasing hinc x hrest hkey.symm
      · exact h.inHand event hevent x hx hkey hpub
          fun hx => hrest ((List.mem_cons.mp hx).resolve_left hne)
  case inHand => exact h.inHand

/-- The relay marks what it has sent. -/
theorem SmoothInv.publish {since now : Time} {claimed published : Nat} {event : OutboxEvent P}
    {rest : List (OutboxEvent P)}
    (h : SmoothInv cfg t (.markingPublished since claimed published event rest) ms) :
    SmoothInv cfg (markPublished event.id now t)
      (nextEvent since claimed (published + 1) rest) ms := by
  have hevent : event ∈ t := h.holding.row event List.mem_cons_self
  have hrest : ∀ e ∈ rest, e.id ≠ event.id := h.holding.head_ne rfl
  -- an unpublished row of the new table is an old one, and not the one just marked
  have hback : ∀ x ∈ markPublished event.id now t, x.publishedAt = none → x ∈ t ∧ x ≠ event := by
    intro x hx hpub
    obtain ⟨y, hy, rfl⟩ := mem_markPublished.mp hx
    by_cases hid : y.id = event.id
    · rw [markPublishedRow, if_pos hid] at hpub
      cases hpub
    · rw [markPublishedRow_of_ne hid]
      exact ⟨hy, fun heq => hid (heq ▸ rfl)⟩
  constructor
  case holding =>
    refine h.holding.keep ?_ fun e he het => mem_markPublished.mpr ⟨e, het, ?_⟩
    · rw [held_nextEvent]
      exact List.sublist_cons_self event rest
    · rw [held_nextEvent] at he
      exact markPublishedRow_of_ne (hrest e he)
  case attempts =>
    intro x hx
    obtain ⟨y, hy, rfl⟩ := mem_markPublished.mp hx
    rw [markPublishedRow_attempts]
    exact h.attempts y hy
  case claimed =>
    intro x hx hpub
    obtain ⟨hxt, hne⟩ := hback x hx hpub
    rw [held_nextEvent]
    rcases h.claimed x hxt hpub with hnone | hheld
    · exact Or.inl hnone
    · exact Or.inr ((List.mem_cons.mp hheld).resolve_left hne)
  case row =>
    intro m hm
    obtain ⟨x, hx, hid, hkey⟩ := h.row m hm
    exact ⟨_, mem_markPublished.mpr ⟨x, hx, rfl⟩, markPublishedRow_id.trans hid,
      markPublishedRow_aggregateId.trans hkey⟩
  case sent =>
    intro m hm x hx hkey hpub _
    obtain ⟨hxt, hne⟩ := hback x hx hpub
    exact h.sent m hm x hxt hkey hpub fun hsome => hne (Option.some.inj hsome).symm
  case inHand =>
    intro e he x hx hagg hpub hnot
    rw [held_nextEvent] at he hnot
    obtain ⟨hxt, hne⟩ := hback x hx hpub
    exact h.inHand e (List.mem_cons_of_mem event he) x hxt hagg hpub
      fun hx => hnot ((List.mem_cons.mp hx).resolve_left hne)

/-! ## One step, and a run -/

/-- What a smooth step does to the messages that are sent or in hand: a claim appends what it
    returns, and every other step leaves them as they are. -/
theorem sentOrInHand_of_step (hno : (σ.loc 0).smooth) (hsmooth : Smooth cfg σ a)
    (hs : step cfg σ a = some σ') :
    (sentOrInHand cfg σ' = sentOrInHand cfg σ ∧ ReturnsInOrder σ a) ∨
      ∃ order, a = .claim 0 order ∧ sentOrInHand cfg σ = σ.accepted ∧
        sentOrInHand cfg σ' = σ.accepted ++
          (order.filterMap (claimBatch order σ.now σ.table).get?).map (message cfg) := by
  cases effect_of_step hs with
  | tick hle => exact Or.inl ⟨rfl, trivial⟩
  | enqueue hnew => exact Or.inl ⟨rfl, trivial⟩
  | begin hrest =>
    obtain rfl := hsmooth
    refine Or.inl ⟨?_, trivial⟩
    simp only [sentOrInHand, goto_self, (held_of_resting hrest).2.1]
    rfl
  | @claim r order stale events hloc hperm hevents =>
    obtain rfl := hsmooth
    subst hevents
    refine Or.inr ⟨order, rfl, ?_, ?_⟩
    · simp only [sentOrInHand, hloc, Loc.toSend, List.map_nil, List.append_nil]
    · simp only [sentOrInHand, goto_self, toSend_nextEvent]
  | accept hloc hsize =>
    obtain ⟨rfl, -, -⟩ := hsmooth
    refine Or.inl ⟨?_, trivial⟩
    simp only [sentOrInHand, goto_self, hloc, Loc.toSend, List.map_cons, List.append_assoc,
      List.singleton_append]
  | refuse hloc hwhy =>
    obtain ⟨rfl, rfl, hfits⟩ := hsmooth
    rw [hloc] at hfits
    rcases hwhy with ⟨hover, -⟩ | ⟨-, hnone⟩
    · rw [Loc.fits, hover] at hfits
      cases hfits
    · cases hnone
  | published hloc =>
    obtain ⟨rfl, -⟩ := hsmooth
    refine Or.inl ⟨?_, trivial⟩
    simp only [sentOrInHand, goto_self, toSend_nextEvent]
    rw [hloc]
    rfl
  | unpublished hloc => cases hsmooth.2
  | failed hloc =>
    obtain ⟨rfl, -⟩ := hsmooth
    rw [hloc] at hno
    exact hno.elim
  | threw hloc => cases hsmooth.2
  | crash => exact hsmooth.elim

/-- **Step lemma.** -/
theorem SmoothInv.step (h : SmoothInv cfg σ.table (σ.loc 0) σ.accepted) (hno : (σ.loc 0).smooth)
    (hinc : Increasing (sentOrInHand cfg σ)) (hsmooth : Smooth cfg σ a)
    (hs : step cfg σ a = some σ') : SmoothInv cfg σ'.table (σ'.loc 0) σ'.accepted := by
  cases effect_of_step hs with
  | tick hle => exact h
  | enqueue hnew => exact h.enqueue rfl rfl hnew
  | begin hrest =>
    obtain rfl := hsmooth
    simp only [goto_self]
    exact h.begin hrest
  | claim hloc hperm hevents =>
    obtain rfl := hsmooth
    subst hevents
    simp only [goto_self]
    rw [hloc] at h
    exact h.claim hperm
  | accept hloc hsize =>
    obtain ⟨rfl, -, -⟩ := hsmooth
    simp only [goto_self]
    rw [sentOrInHand, hloc] at hinc
    rw [hloc] at h
    exact h.accept hinc
  | refuse hloc hwhy =>
    obtain ⟨rfl, rfl, hfits⟩ := hsmooth
    rw [hloc] at hfits
    rcases hwhy with ⟨hover, -⟩ | ⟨-, hnone⟩
    · rw [Loc.fits, hover] at hfits
      cases hfits
    · cases hnone
  | published hloc =>
    obtain ⟨rfl, -⟩ := hsmooth
    simp only [goto_self]
    rw [hloc] at h
    exact h.publish
  | unpublished hloc => cases hsmooth.2
  | failed hloc =>
    obtain ⟨rfl, -⟩ := hsmooth
    rw [hloc] at hno
    exact hno.elim
  | threw hloc => cases hsmooth.2
  | crash => exact hsmooth.elim

/-- What a claim returns is younger than all that was sent of its patent. -/
theorem SmoothInv.sent_lt (h : SmoothInv cfg σ.table (σ.loc 0) σ.accepted) {order : List Nat}
    (hs : OutboxRelay.step cfg σ (.claim 0 order) = some σ') : ∀ m ∈ σ.accepted,
      ∀ e ∈ order.filterMap (claimBatch order σ.now σ.table).get?,
      m.key = e.aggregateId → m.sequence < e.id := by
  cases effect_of_step hs with
  | claim hloc hperm hevents =>
    intro m hm e he hkey
    obtain ⟨y, hy, rfl⟩ := of_mem_events hperm he
    obtain ⟨hyt, hyclaim⟩ := of_mem_batch hy
    simp only [claimable, Bool.and_eq_true, Option.isNone_iff_eq_none] at hyclaim
    refine h.sent m hm y hyt hkey.symm hyclaim.1.1 ?_
    rw [hloc]
    exact fun hsome => by cases hsome

/-- Messages that are in order now were in order before, and the step was no claim that returned
    rows out of order. -/
theorem increasing_back (hno : (σ.loc 0).smooth) (hsmooth : Smooth cfg σ a)
    (hs : step cfg σ a = some σ') (hinc : Increasing (sentOrInHand cfg σ')) :
    Increasing (sentOrInHand cfg σ) ∧ ReturnsInOrder σ a := by
  rcases sentOrInHand_of_step hno hsmooth hs with ⟨heq, hret⟩ | ⟨order, rfl, hold, hnew⟩
  · rw [heq] at hinc
    exact ⟨hinc, hret⟩
  · rw [hnew, Increasing, List.pairwise_append, List.pairwise_map] at hinc
    rw [hold]
    exact ⟨hinc.1, hinc.2.1⟩

/-- A claim that returns its rows in order keeps the messages in order, and so does any other
    step. -/
theorem SmoothInv.increasing (h : SmoothInv cfg σ.table (σ.loc 0) σ.accepted)
    (hno : (σ.loc 0).smooth) (hinc : Increasing (sentOrInHand cfg σ)) (hsmooth : Smooth cfg σ a)
    (hret : ReturnsInOrder σ a) (hs : OutboxRelay.step cfg σ a = some σ') :
    Increasing (sentOrInHand cfg σ') := by
  rcases sentOrInHand_of_step hno hsmooth hs with ⟨heq, -⟩ | ⟨order, rfl, hold, hnew⟩
  · rw [heq]
    exact hinc
  · rw [hold] at hinc
    rw [hnew, Increasing, List.pairwise_append, List.pairwise_map]
    refine ⟨hinc, hret, fun m hm n hn hkey => ?_⟩
    obtain ⟨e, he, rfl⟩ := List.mem_map.mp hn
    exact h.sent_lt hs m hm e he hkey

/-- No event ever fails. -/
theorem smooth_of_step (hno : (σ.loc 0).smooth) (hsmooth : Smooth cfg σ a)
    (hs : step cfg σ a = some σ') : (σ'.loc 0).smooth := by
  cases effect_of_step hs with
  | tick hle => exact hno
  | enqueue hnew => exact hno
  | begin hrest =>
    obtain rfl := hsmooth
    simp only [goto_self]
    trivial
  | @claim r order stale events hloc hperm hevents =>
    obtain rfl := hsmooth
    simp only [goto_self]
    cases events <;> trivial
  | accept hloc hsize =>
    obtain ⟨rfl, -, -⟩ := hsmooth
    simp only [goto_self]
    trivial
  | refuse hloc hwhy =>
    obtain ⟨rfl, rfl, hfits⟩ := hsmooth
    rw [hloc] at hfits
    rcases hwhy with ⟨hover, -⟩ | ⟨-, hnone⟩
    · rw [Loc.fits, hover] at hfits
      cases hfits
    · cases hnone
  | @published r since claimed published event rest hloc =>
    obtain ⟨rfl, -⟩ := hsmooth
    simp only [goto_self]
    cases rest <;> trivial
  | unpublished hloc => cases hsmooth.2
  | failed hloc =>
    obtain ⟨rfl, -⟩ := hsmooth
    simp only [goto_self]
    trivial
  | threw hloc => cases hsmooth.2
  | crash => exact hsmooth.elim

/-- In a smooth run the relay has no failure to write. -/
theorem smooth_of_run (hrun : Run (step cfg) (Smooth cfg) (init Table.empty) σ) :
    (σ.loc 0).smooth :=
  hrun.invariant (I := fun σ => (σ.loc 0).smooth)
    (fun _ _ _ hno hsmooth hs => smooth_of_step hno hsmooth hs) trivial

/-- The good runs: no failure, and every claim returns the rows of each patent in order. -/
def SmoothInOrder (cfg : Config P) (σ : State P) (a : Act P) : Prop :=
  Smooth cfg σ a ∧ ReturnsInOrder σ a

instance (σ : State P) (a : Act P) : Decidable (SmoothInOrder cfg σ a) :=
  inferInstanceAs (Decidable (Smooth cfg σ a ∧ ReturnsInOrder σ a))

/-- Batches in order of their ids make an increasing log. -/
theorem increasing_of_inOrder
    (hrun : Run (step cfg) (SmoothInOrder cfg) (init Table.empty) σ) :
    Increasing (sentOrInHand cfg σ) := by
  have hinv := hrun.invariant
    (I := fun σ => (σ.loc 0).smooth ∧ SmoothInv cfg σ.table (σ.loc 0) σ.accepted ∧
      Increasing (sentOrInHand cfg σ))
    (fun _ _ _ ⟨hno, h, hinc⟩ ⟨hsmooth, hret⟩ hs => ⟨smooth_of_step hno hsmooth hs,
      h.step hno hinc hsmooth hs, h.increasing hno hinc hsmooth hret hs⟩)
    ⟨trivial, smoothInv_init, List.Pairwise.nil⟩
  exact hinv.2.2

/-- Messages in order have only orderly claims behind them. -/
theorem inOrder_of_increasing (hrun : Run (step cfg) (Smooth cfg) (init Table.empty) σ)
    (hinc : Increasing (sentOrInHand cfg σ)) :
    Run (step cfg) (SmoothInOrder cfg) (init Table.empty) σ := by
  induction hrun with
  | refl => exact Run.refl _
  | tail hrun hsmooth hs ih =>
    obtain ⟨hbefore, hret⟩ := increasing_back (smooth_of_run hrun) hsmooth hs hinc
    exact (ih hbefore).tail ⟨hsmooth, hret⟩ hs

/-- **Row order.**  In a run without failures the messages of every patent are sent in order if
    every claim returns the rows of each patent in order, and, seen between two passes, only then. -/
theorem increasing_iff_of_run (hrun : Run (step cfg) (Smooth cfg) (init Table.empty) σ) :
    (Run (step cfg) (SmoothInOrder cfg) (init Table.empty) σ → Increasing σ.accepted) ∧
    ((σ.loc 0).resting = true → Increasing σ.accepted →
      Run (step cfg) (SmoothInOrder cfg) (init Table.empty) σ) := by
  constructor
  · intro hgood
    exact (List.pairwise_append.mp (increasing_of_inOrder hgood)).1
  · intro hrest hinc
    refine inOrder_of_increasing hrun ?_
    rw [sentOrInHand, (held_of_resting hrest).2.1, List.map_nil, List.append_nil]
    exact hinc

/-! ## Two events in one batch -/

/-- A relay with two events in a batch. -/
def batchesOfTwo : Config String where
  batchSize := 2
  maxAttempts := 10
  patentEventsTopic := "patents.events"
  byteLength := fun _ _ => 100

/-- Both events of patent 7 are claimed at once, and the UPDATE returns them in `order`. -/
def oneBatch (order : List Nat) : List (Act String) :=
  [.enqueue 1 "patent" 7 "PatentVersionUpserted" "v1",
   .enqueue 2 "patent" 7 "PatentVersionWithdrawn" "v1",
   .begin 0, .claim 0 order, .send 0 none, .mark 0 none, .send 0 none, .mark 0 none]

theorem oneBatch_ascending :
    (execOk (step batchesOfTwo) (SmoothInOrder batchesOfTwo) (init Table.empty)
      (oneBatch [1, 2])).isSome = true := by
  decide

theorem increasing_of_oneBatch :
    Increasing ((execOk (step batchesOfTwo) (SmoothInOrder batchesOfTwo) (init Table.empty)
      (oneBatch [1, 2])).get oneBatch_ascending).accepted :=
  (increasing_iff_of_run ((Run.of_execOk (Option.some_get oneBatch_ascending).symm).mono
    fun _ _ => And.left)).1 (Run.of_execOk (Option.some_get oneBatch_ascending).symm)

theorem oneBatch_descending :
    (execOk (step batchesOfTwo) (Smooth batchesOfTwo) (init Table.empty)
      (oneBatch [2, 1])).isSome = true := by
  decide

/-- Returned newest first, event 2 of the patent is sent before event 1. -/
theorem not_increasing :
    ¬ ∀ σ, Run (step batchesOfTwo) (Smooth batchesOfTwo) (init Table.empty) σ →
      Increasing σ.accepted := by
  intro hall
  have hinc := hall _ (Run.of_execOk (Option.some_get oneBatch_descending).symm)
  have hhead := (List.pairwise_cons.mp hinc).1 _ List.mem_cons_self rfl
  exact absurd hhead (by decide)

end SmartPatents.OutboxRelay
