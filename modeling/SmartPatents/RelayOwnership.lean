/-
  No event is delivered twice.

  Any number of relays, as long as every pass ends within `CLAIM_TIMEOUT_MS` of its own claim, no
  relay dies and the mark writes succeed (`Punctual`).  Ownership is nothing but a timestamp, so the
  invariant (`Owned`) ties it to the relays: every row that a pass may still write to is unpublished
  and carries the time of that pass's claim, no row is held by two passes, and whatever the broker
  has accepted is published or about to be marked by the relay that sent it.

  A claim can then only take rows that nobody holds: a held row was claimed at most
  `CLAIM_TIMEOUT_MS` ago, and `claimBatch` wants it to be older.

  The statements of the relays interleave in any way, and time moves between any two of them.
  What `Punctual` asks is local: it looks at one state and one action, and no relay is asked to
  know of another one.

  A duplicate can come about in three ways: a pass that takes too long, a relay that dies between
  the send and the mark, and a mark that fails.  Each is excluded by one clause of `Punctual`; a
  refused send is allowed for.
-/
import SmartPatents.OutboxRelay

namespace SmartPatents.OutboxRelay

open Runs Outbox

variable {P : Type} {cfg : Config P} {σ σ' : State P} {a : Act P}

/-! ## The side condition -/

/-- Time does not run past the timeout of a pass, no relay dies, no mark write fails. -/
def Punctual (σ : State P) : Act P → Prop
  | .tick now => ∀ r since, (σ.loc r).since = some since → now ≤ since + CLAIM_TIMEOUT_MS
  | .mark _ error => error = none
  | .crash _ => False
  | _ => True

/-! ## The invariant -/

/-- A row in hand is under the claim of the relay that holds it, and no other relay holds it. -/
structure Owned (σ : State P) : Prop where
  holds : ∀ r since, (σ.loc r).since = some since → ∀ e ∈ (σ.loc r).held,
    ∃ x ∈ σ.table, x.id = e.id ∧ x.publishedAt = none ∧ x.claimedAt = some since
  distinct : ∀ r, ((σ.loc r).held.map OutboxEvent.id).Nodup
  apart : ∀ r q, r ≠ q → ∀ e ∈ (σ.loc r).held, ∀ f ∈ (σ.loc q).held, e.id ≠ f.id
  inTime : ∀ r since, (σ.loc r).since = some since →
    since ≤ σ.now ∧ σ.now ≤ since + CLAIM_TIMEOUT_MS
  stale : ∀ r stale, σ.loc r = .claiming stale → stale ≤ σ.now - CLAIM_TIMEOUT_MS
  done : ∀ m ∈ σ.accepted, (∃ x ∈ σ.table, x.id = m.sequence ∧ x.publishedAt.isSome) ∨
    ∃ r e, (σ.loc r).unmarked = some e ∧ e.id = m.sequence
  once : (σ.accepted.map Message.sequence).Nodup

/-- A relay that holds something has a claim. -/
theorem since_of_held {l : Loc P} {e : OutboxEvent P} (he : e ∈ l.held) :
    ∃ since, l.since = some since := by
  cases l <;> first | exact ⟨_, rfl⟩ | nomatch he

/-- A claim made at most `timeout` ago is not older than `timeout`. -/
theorem not_stale {since stale now timeout : Nat} (hnow : now ≤ since + timeout)
    (hstale : stale ≤ now - timeout) : ¬ since < stale := by
  omega

/-- Held rows are not up for a claim. -/
theorem Owned.not_claimable (h : Owned σ) {r q : Nat} {stale : Time}
    (hclaim : σ.loc q = .claiming stale) {e y : OutboxEvent P} (he : e ∈ (σ.loc r).held)
    (hy : y ∈ batch cfg.maxAttempts cfg.batchSize stale σ.table) : e.id ≠ y.id := by
  intro hid
  obtain ⟨since, hsince⟩ := since_of_held he
  obtain ⟨x, hx, hxid, -, hclaimed⟩ := h.holds r since hsince e he
  obtain ⟨hyt, hyc⟩ := of_mem_batch hy
  obtain rfl : x = y := Table.eq_of_key hx hyt (hxid.trans hid)
  have hold : since < stale := by
    simp only [claimable, unclaimed, hclaimed, Bool.and_eq_true, decide_eq_true_eq] at hyc
    exact hyc.2
  exact not_stale (h.inTime r since hsince).2 (h.stale q stale hclaim) hold

/-- A sent event is new to the broker: it is not published, and nobody else is marking it. -/
theorem Owned.not_accepted (h : Owned σ) {r : Nat} {since : Time} {claimed published : Nat}
    {event : OutboxEvent P} {rest : List (OutboxEvent P)}
    (hloc : σ.loc r = .sending since claimed published event rest) :
    ∀ m ∈ σ.accepted, m.sequence ≠ event.id := by
  have hheld : event ∈ (σ.loc r).held := by rw [hloc]; exact List.mem_cons_self
  intro m hm hid
  rcases h.done m hm with ⟨x, hx, hxid, hpub⟩ | ⟨q, e, hq, heid⟩
  · obtain ⟨y, hy, hyid, hypub, -⟩ := h.holds r since (by rw [hloc]; rfl) event hheld
    obtain rfl : x = y := Table.eq_of_key hx hy (hxid.trans (hid.trans hyid.symm))
    rw [hypub] at hpub
    nomatch hpub
  · by_cases hqr : q = r
    · subst hqr
      rw [hloc] at hq
      nomatch hq
    · exact h.apart q r hqr e (mem_held_of_unmarked hq) event hheld (heid.trans hid)

/-! ## The step lemma, one case per action -/

/-- Relay `r` writes to rows by `f`, which spares every row that is held afterwards, and moves to a
    location that holds no more than before, under the same claim. -/
theorem Owned.move (h : Owned σ) {r : Nat} {l : Loc P} {f : OutboxEvent P → OutboxEvent P}
    {t : OutboxTable P} (ht : ∀ x, x ∈ t ↔ ∃ e ∈ σ.table, f e = x) (hid : ∀ e, (f e).id = e.id)
    (hpub : ∀ e, e.publishedAt.isSome → (f e).publishedAt.isSome)
    (hfree : ∀ q, ∀ e ∈ (goto σ.loc r l q).held, ∀ x ∈ σ.table, x.id = e.id → f x = x)
    (hheld : l.held.Sublist (σ.loc r).held) (hsince : l.since = (σ.loc r).since ∨ l.since = none)
    (hstale : ∀ stale, l = .claiming stale → stale ≤ σ.now - CLAIM_TIMEOUT_MS)
    (hdone : ∀ e, (σ.loc r).unmarked = some e → ∃ x ∈ t, x.id = e.id ∧ x.publishedAt.isSome) :
    Owned { σ with table := t, loc := goto σ.loc r l } := by
  have hsub : ∀ q, (goto σ.loc r l q).held ⊆ (σ.loc q).held :=
    forall_goto (P := fun q (l : Loc P) => l.held ⊆ (σ.loc q).held) hheld.subset
      fun q _ => List.Subset.refl _
  have hclock : ∀ q since, (goto σ.loc r l q).since = some since →
      (σ.loc q).since = some since := by
    refine forall_goto (P := fun q (l : Loc P) => ∀ since, l.since = some since →
      (σ.loc q).since = some since) (fun since hl => ?_) fun q _ since hq => hq
    rcases hsince with hs | hs
    · exact hs ▸ hl
    · rw [hs] at hl
      nomatch hl
  constructor
  case holds =>
    intro q since hq e he
    obtain ⟨x, hx, hxid, hxrest⟩ := h.holds q since (hclock q since hq) e (hsub q he)
    exact ⟨x, (ht x).mpr ⟨x, hx, hfree q e he x hx hxid⟩, hxid, hxrest⟩
  case distinct =>
    exact forall_goto (P := fun _ (l : Loc P) => (l.held.map OutboxEvent.id).Nodup)
      ((h.distinct r).sublist (hheld.map _)) fun q _ => h.distinct q
  case apart => exact fun q q' hne e he f hf => h.apart q q' hne e (hsub q he) f (hsub q' hf)
  case inTime => exact fun q since hq => h.inTime q since (hclock q since hq)
  case stale =>
    exact forall_goto (P := fun _ (l : Loc P) => ∀ stale, l = .claiming stale →
      stale ≤ σ.now - CLAIM_TIMEOUT_MS) hstale fun q _ => h.stale q
  case done =>
    intro m hm
    rcases h.done m hm with ⟨x, hx, hxid, hxpub⟩ | ⟨q, e, hq, heid⟩
    · exact Or.inl ⟨f x, (ht _).mpr ⟨x, hx, rfl⟩, (hid x).trans hxid, hpub x hxpub⟩
    · by_cases hqr : q = r
      · subst hqr
        obtain ⟨x, hx, hxid, hxpub⟩ := hdone e hq
        exact Or.inl ⟨x, hx, hxid.trans heid, hxpub⟩
      · exact Or.inr ⟨q, e, by simpa only [goto_ne _ _ hqr] using hq, heid⟩
  case once => exact h.once

/-- Relay `r` moves without writing. -/
theorem Owned.shrink (h : Owned σ) {r : Nat} {l : Loc P}
    (hheld : l.held.Sublist (σ.loc r).held) (hsince : l.since = (σ.loc r).since ∨ l.since = none)
    (hstale : ∀ stale, l = .claiming stale → stale ≤ σ.now - CLAIM_TIMEOUT_MS)
    (hmarked : (σ.loc r).unmarked = none) :
    Owned { σ with loc := goto σ.loc r l } := by
  refine h.move (f := fun e => e) (fun x => ?_) (fun e => rfl) (fun e hp => hp)
    (fun q e _ x _ _ => rfl) hheld hsince hstale fun e he => ?_
  · exact ⟨fun hx => ⟨x, hx, rfl⟩, fun ⟨e, he, hex⟩ => hex ▸ he⟩
  · rw [hmarked] at he
    nomatch he

/-- A pass starts: it has no claim yet. -/
theorem Owned.begin (h : Owned σ) {r : Nat} (hrest : (σ.loc r).resting = true) :
    Owned { σ with loc := goto σ.loc r (.claiming (staleBefore σ.now)) } := by
  obtain ⟨-, -, hmarked, -⟩ := held_of_resting hrest
  refine h.shrink (List.nil_sublist _) (Or.inr rfl) (fun stale hc => ?_) hmarked
  exact Loc.claiming.inj hc ▸ Nat.le_refl _

/-- A write to rows that no pass holds, which keeps every published row published. -/
theorem Owned.write (h : Owned σ) {f : OutboxEvent P → OutboxEvent P} {t : OutboxTable P}
    (ht : ∀ x, x ∈ t ↔ ∃ e ∈ σ.table, f e = x) (hid : ∀ e, (f e).id = e.id)
    (hpub : ∀ e, e.publishedAt.isSome → (f e).publishedAt.isSome)
    (hfree : ∀ r, ∀ e ∈ (σ.loc r).held, ∀ x ∈ σ.table, x.id = e.id → f x = x) :
    Owned { σ with table := t } where
  holds := by
    intro r since hr e he
    obtain ⟨x, hx, hxid, hxpub, hxc⟩ := h.holds r since hr e he
    refine ⟨x, (ht x).mpr ⟨x, hx, hfree r e he x hx hxid⟩, hxid, hxpub, hxc⟩
  distinct := h.distinct
  apart := h.apart
  inTime := h.inTime
  stale := h.stale
  done := by
    intro m hm
    rcases h.done m hm with ⟨x, hx, hxid, hxpub⟩ | hmark
    · exact Or.inl ⟨f x, (ht _).mpr ⟨x, hx, rfl⟩, (hid x).trans hxid, hpub x hxpub⟩
    · exact Or.inr hmark
  once := h.once

/-- Time passes, and no pass runs over. -/
theorem Owned.tick (h : Owned σ) {now : Time} (hle : σ.now ≤ now)
    (hok : ∀ r since, (σ.loc r).since = some since → now ≤ since + CLAIM_TIMEOUT_MS) :
    Owned { σ with now := now } where
  holds := h.holds
  distinct := h.distinct
  apart := h.apart
  inTime := fun r since hr => ⟨Nat.le_trans (h.inTime r since hr).1 hle, hok r since hr⟩
  stale := fun r stale hr => Nat.le_trans (h.stale r stale hr) (Nat.sub_le_sub_right hle _)
  done := h.done
  once := h.once

/-- A new row touches no other. -/
theorem Owned.enqueue (h : Owned σ) {row : OutboxEvent P}
    (hnew : ∀ e ∈ σ.table, e.id ≠ row.id) : Owned { σ with table := σ.table.put row } where
  holds := by
    intro r since hr e he
    obtain ⟨x, hx, hrest⟩ := h.holds r since hr e he
    exact ⟨x, Table.mem_put.mpr (Or.inr ⟨hx, hnew x hx⟩), hrest⟩
  distinct := h.distinct
  apart := h.apart
  inTime := h.inTime
  stale := h.stale
  done := by
    intro m hm
    rcases h.done m hm with ⟨x, hx, hrest⟩ | hmark
    · exact Or.inl ⟨x, Table.mem_put.mpr (Or.inr ⟨hx, hnew x hx⟩), hrest⟩
    · exact Or.inr hmark
  once := h.once

/-- A claim takes rows that nobody holds. -/
theorem Owned.claim (h : Owned σ) {r : Nat} {order : List Nat} {stale : Time}
    {events : List (OutboxEvent P)} (hloc : σ.loc r = .claiming stale)
    (hperm : order.Perm (batchIds cfg stale σ.table))
    (hevents : events = order.filterMap (claimBatch order σ.now σ.table).get?) :
    Owned { σ with
      table := claimBatch order σ.now σ.table
      loc := goto σ.loc r (nextEvent σ.now events.length 0 events) } := by
  have hfree : ∀ q, ∀ e ∈ (σ.loc q).held, e.id ∉ order := by
    intro q e he hmem
    obtain ⟨y, hy, hid⟩ := of_mem_order hperm hmem
    exact h.not_claimable hloc he hy hid.symm
  have hclaimed : Owned { σ with table := claimBatch order σ.now σ.table } := by
    refine h.write (fun x => mem_claimBatch) (fun e => claimRow_id) (fun e hp => by simpa using hp)
      fun q e he x _ hid => claimRow_of_not_mem ?_
    rw [hid]
    exact hfree q e he
  have hnew : ∀ e ∈ events, ∃ y ∈ batch cfg.maxAttempts cfg.batchSize stale σ.table,
      e = { y with claimedAt := some σ.now } := by
    intro e he
    exact of_mem_events hperm (hevents ▸ he)
  have hids : events.map OutboxEvent.id = order := hevents ▸ ids_events hperm
  have horder : ∀ e ∈ events, e.id ∈ order :=
    fun e he => hids ▸ List.mem_map.mpr ⟨e, he, rfl⟩
  have hunmarked : (σ.loc r).unmarked = none := by rw [hloc]; rfl
  constructor
  case holds =>
    refine forall_goto (P := fun _ (l : Loc P) => ∀ since, l.since = some since → ∀ e ∈ l.held,
      ∃ x ∈ claimBatch order σ.now σ.table,
        x.id = e.id ∧ x.publishedAt = none ∧ x.claimedAt = some since)
      (fun since hl e he => ?_) fun q _ => hclaimed.holds q
    rw [held_nextEvent] at he
    obtain rfl := since_nextEvent hl
    have hmem := horder e he
    obtain ⟨y, hy, rfl⟩ := hnew e he
    obtain ⟨hyt, hyc⟩ := of_mem_batch hy
    refine ⟨_, mem_claimBatch.mpr ⟨y, hyt, claimRow_of_mem hmem⟩, rfl, ?_, rfl⟩
    simp only [claimable, Bool.and_eq_true, Option.isNone_iff_eq_none] at hyc
    exact hyc.1.1
  case distinct =>
    refine forall_goto (P := fun _ (l : Loc P) => (l.held.map OutboxEvent.id).Nodup) ?_
      fun q _ => h.distinct q
    rw [held_nextEvent, hids]
    have hsorted := @batch_sorted P cfg.maxAttempts cfg.batchSize stale σ.table
    refine hperm.nodup_iff.mpr (List.pairwise_map.mpr (hsorted.imp fun hlt => ?_))
    exact Nat.ne_of_lt hlt
  case apart =>
    intro q q' hne e he f hf hid
    by_cases hqr : q = r
    · subst hqr
      simp only [goto_self, held_nextEvent, goto_ne _ _ hne.symm] at he hf
      exact hfree q' f hf (hid ▸ horder e he)
    · by_cases hqr' : q' = r
      · subst hqr'
        simp only [goto_self, held_nextEvent, goto_ne _ _ hqr] at he hf
        exact hfree q e he (hid ▸ horder f hf)
      · simp only [goto_ne _ _ hqr, goto_ne _ _ hqr'] at he hf
        exact h.apart q q' hne e he f hf hid
  case inTime =>
    refine forall_goto (P := fun _ (l : Loc P) => ∀ since, l.since = some since →
      since ≤ σ.now ∧ σ.now ≤ since + CLAIM_TIMEOUT_MS) (fun since hl => ?_) fun q _ => h.inTime q
    obtain rfl := since_nextEvent hl
    exact ⟨Nat.le_refl _, Nat.le_add_right _ _⟩
  case stale =>
    exact forall_goto (P := fun _ (l : Loc P) => ∀ stale, l = .claiming stale →
      stale ≤ σ.now - CLAIM_TIMEOUT_MS) (fun _ hl => absurd hl nextEvent_ne_claiming)
      fun q _ => h.stale q
  case done =>
    intro m hm
    rcases hclaimed.done m hm with hx | ⟨q, e, hq, hid⟩
    · exact Or.inl hx
    · have hqr : q ≠ r := fun he => by rw [he, hunmarked] at hq; nomatch hq
      exact Or.inr ⟨q, e, by simpa only [goto_ne _ _ hqr] using hq, hid⟩
  case once => exact h.once

/-- The broker accepts an event it has not seen. -/
theorem Owned.accept (h : Owned σ) {r : Nat} {since : Time} {claimed published : Nat}
    {event : OutboxEvent P} {rest : List (OutboxEvent P)}
    (hloc : σ.loc r = .sending since claimed published event rest) :
    Owned { σ with
      loc := goto σ.loc r (.markingPublished since claimed published event rest)
      accepted := σ.accepted ++ [message cfg event] } := by
  have hmoved : Owned { σ with
      loc := goto σ.loc r (.markingPublished since claimed published event rest) } :=
    h.shrink (by rw [hloc]; exact List.Sublist.refl _) (Or.inl (by rw [hloc]; rfl))
      (fun _ hc => nomatch hc) (by rw [hloc]; rfl)
  refine ⟨hmoved.holds, hmoved.distinct, hmoved.apart, hmoved.inTime, hmoved.stale, ?_, ?_⟩
  · intro m hm
    rcases List.mem_append.mp hm with hm | hm
    · exact hmoved.done m hm
    · obtain rfl := List.mem_singleton.mp hm
      exact Or.inr ⟨r, event, by simp only [goto_self]; rfl, rfl⟩
  · rw [List.map_append, List.nodup_append]
    refine ⟨h.once, List.nodup_singleton _, fun i hi j hj => ?_⟩
    obtain ⟨m, hm, rfl⟩ := List.mem_map.mp hi
    obtain rfl : j = event.id := List.mem_singleton.mp hj
    exact h.not_accepted hloc m hm

/-- A write to the row of the event in hand, by a pass that then lets go of it, leaves alone
    every row that is held afterwards. -/
theorem Owned.spares (h : Owned σ) {r : Nat} {l : Loc P} {event : OutboxEvent P}
    {f : OutboxEvent P → OutboxEvent P} (hne : ∀ e, e.id ≠ event.id → f e = e)
    (hevent : event ∈ (σ.loc r).held) (hrest : ∀ e ∈ l.held, e.id ≠ event.id) :
    ∀ q, ∀ e ∈ (goto σ.loc r l q).held, ∀ x ∈ σ.table, x.id = e.id → f x = x := by
  have hother : ∀ q, ∀ e ∈ (goto σ.loc r l q).held, e.id ≠ event.id :=
    forall_goto (P := fun _ (l : Loc P) => ∀ e ∈ l.held, e.id ≠ event.id) hrest
      fun q hqr e he => h.apart q r hqr e he event hevent
  intro q e he x _ hid
  refine hne x ?_
  rw [hid]
  exact hother q e he

/-- The relay marks what it sent as published. -/
theorem Owned.published (h : Owned σ) {r : Nat} {since : Time} {claimed published : Nat}
    {event : OutboxEvent P} {rest : List (OutboxEvent P)}
    (hloc : σ.loc r = .markingPublished since claimed published event rest) :
    Owned { σ with
      table := markPublished event.id σ.now σ.table
      loc := goto σ.loc r (nextEvent since claimed (published + 1) rest) } := by
  have hheld : (σ.loc r).held = event :: rest := by rw [hloc]; rfl
  have hmem : event ∈ (σ.loc r).held := hheld ▸ List.mem_cons_self
  have hdistinct : ∀ e ∈ rest, e.id ≠ event.id := by
    intro e he hid
    have hnodup := h.distinct r
    rw [hheld, List.map_cons, List.nodup_cons] at hnodup
    exact hnodup.1 (hid ▸ List.mem_map.mpr ⟨e, he, rfl⟩)
  refine h.move (fun x => mem_markPublished) (fun e => markPublishedRow_id) ?_
    (h.spares (fun e hne => markPublishedRow_of_ne hne) hmem ?_) ?_ ?_
    (fun _ hc => absurd hc nextEvent_ne_claiming) ?_
  · intro e hp
    by_cases hid : e.id = event.id
    · simp [markPublishedRow, hid]
    · rwa [markPublishedRow_of_ne hid]
  · rw [held_nextEvent]
    exact hdistinct
  · rw [held_nextEvent, hheld]
    exact List.sublist_cons_self _ _
  · cases rest with
    | nil => exact Or.inr rfl
    | cons e rest => exact Or.inl (by rw [hloc]; rfl)
  · intro e he
    rw [hloc] at he
    obtain rfl := Option.some.inj he
    obtain ⟨x, hx, hid, -⟩ := h.holds r since (by rw [hloc]; rfl) event hmem
    exact ⟨_, mem_markPublished.mpr ⟨x, hx, rfl⟩, markPublishedRow_id.trans hid,
      by simp [markPublishedRow, hid]⟩

/-- The relay releases the event it could not send. -/
theorem Owned.failed (h : Owned σ) {r : Nat} {since : Time} {claimed published : Nat}
    {event : OutboxEvent P} {failure : String}
    (hloc : σ.loc r = .markingFailed since claimed published event failure) :
    Owned { σ with
      table := markFailed event.id failure σ.table
      loc := goto σ.loc r (.returned claimed published) } := by
  have hmem : event ∈ (σ.loc r).held := by rw [hloc]; exact List.mem_cons_self
  refine h.move (fun x => mem_markFailed) (fun e => markFailedRow_id)
    (fun e hp => by simpa using hp)
    (h.spares (fun e hne => markFailedRow_of_ne hne) hmem fun e he => nomatch he)
    (List.nil_sublist _) (Or.inr rfl) (fun _ hc => nomatch hc) fun e he => ?_
  rw [hloc] at he
  nomatch he

/-- **Step lemma.** -/
theorem Owned.step (h : Owned σ) (hok : Punctual σ a) (hs : step cfg σ a = some σ') :
    Owned σ' := by
  cases effect_of_step hs with
  | tick hle => exact h.tick hle hok
  | enqueue hnew => exact h.enqueue fun e he => (hnew e he).1
  | begin hrest => exact h.begin hrest
  | claim hloc hperm hevents => exact h.claim hloc hperm hevents
  | accept hloc hsize => exact h.accept hloc
  | refuse hloc hwhy =>
    refine h.shrink ?_ (Or.inl (by rw [hloc]; rfl)) (fun _ hc => nomatch hc) (by rw [hloc]; rfl)
    rw [hloc]
    exact List.singleton_sublist.mpr List.mem_cons_self
  | published hloc => exact h.published hloc
  | unpublished hloc => nomatch hok
  | failed hloc => exact h.failed hloc
  | threw hloc => nomatch hok
  | crash => exact hok.elim

theorem owned_init {t : OutboxTable P} : Owned (init t) where
  holds := fun _ _ hr => nomatch hr
  distinct := fun _ => List.nodup_nil
  apart := fun _ _ _ _ he => nomatch he
  inTime := fun _ _ hr => nomatch hr
  stale := fun _ _ hr => nomatch hr
  done := fun _ hm => nomatch hm
  once := List.nodup_nil

/-- **No duplicate delivery.**  Along every run of any number of relays whose passes end within the
    claim timeout, the broker accepts every event at most once. -/
theorem accepted_once {t : OutboxTable P} (hrun : Run (step cfg) Punctual (init t) σ) :
    (σ.accepted.map Message.sequence).Nodup :=
  (hrun.invariant (fun _ _ _ h hok hs => h.step hok hs) owned_init).once

/-! ## Two relays -/

/-- Relays with two events in a batch. -/
def smallBatches : Config String where
  batchSize := 2
  maxAttempts := 5
  patentEventsTopic := "patents.events"
  byteLength := fun _ _ => 100

/-- The first relay sends event 1, is refused event 2 and lets go of it; the second relay sends
    event 2 and, with event 3 enqueued meanwhile, the first relay's next pass sends that one. -/
def twoRelays : List (Act String) :=
  [.enqueue 1 "patent" 7 "PatentVersionUpserted" "v1",
   .enqueue 2 "patent" 8 "PatentVersionUpserted" "v1",
   .begin 0, .begin 1, .claim 0 [1, 2], .send 0 none, .mark 0 none, .send 0 (some "timeout"),
   .mark 0 none, .claim 1 [2], .enqueue 3 "patent" 7 "PatentVersionWithdrawn" "v1", .begin 0,
   .claim 0 [3], .send 0 none, .send 1 none, .mark 1 none, .mark 0 none]

theorem twoRelays_runs :
    (exec (step smallBatches) (init Table.empty) twoRelays).isSome = true := by
  decide

theorem accepted_once_twoRelays :
    (((exec (step smallBatches) (init Table.empty) twoRelays).get twoRelays_runs).accepted.map
      Message.sequence).Nodup := by
  refine accepted_once (Run.of_exec_ok (fun a ha σ => ?_) (Option.some_get twoRelays_runs).symm)
  simp only [twoRelays, List.mem_cons, List.not_mem_nil, or_false] at ha
  rcases ha with rfl | rfl | rfl | rfl | rfl | rfl | rfl | rfl | rfl | rfl | rfl | rfl | rfl | rfl |
    rfl | rfl | rfl <;> trivial

end SmartPatents.OutboxRelay
