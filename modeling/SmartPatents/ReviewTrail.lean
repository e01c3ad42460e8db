/-
  The review trail of a patent is complete and cannot be erased.

  "A review trail its subject can erase is not a review trail": only drafts are deleted, and a
  patent that has been reviewed never becomes a draft again, so the delete that cascades to the
  reviews of a patent finds none.  The reviews of a patent record exactly the decisions that
  committed, in commit order, and between two approvals the patent was submitted again.

  All of it holds in every run (`trail_of_run`): the guards of the writes are enough, whatever the
  reads before them have seen.

  The parts of `Trail`: a patent with a review or an event is still there and is no draft; its
  reviews are the decisions of the log, in order; there are as many approvals as Upserted events;
  and between two approvals comes a submit.  That no later step takes a review away is
  `mem_reviews_of_run`.

  `TrailInv` adds to `Trail` what its induction needs: which transaction inserted a review, and
  that a pending patent was submitted after all of its approvals.  The step goes by cases on
  `PatentEffect`; the effects that write no review share one lemma (`TrailInv.quiet`), and a
  decision has its own (`TrailInv.decide`).
-/
import SmartPatents.PatentHistory

namespace SmartPatents.ReviewTrail

open ReadCommitted Runs Access Lifecycle Storage PatentEvents PatentService

/-! ## Decisions -/

/-- The decision that a request takes on patent `id` when it commits. -/
def decided (id : Nat) : Request → Option ReviewDecision
  | .approvePatent _ id' _ => if id' = id then some .pass else none
  | .declinePatent _ id' _ => if id' = id then some .fail else none
  | _ => none

/-- The committed approvals and declines of patent `id`, in commit order. -/
def decisions (reqs : Nat → Request) (log : List (Nat × List Write)) (id : Nat) :
    List ReviewDecision :=
  log.filterMap fun e => decided id (reqs e.1)

/-- The request submits this patent. -/
def Submits (r : Request) (id : Nat) : Prop := ∃ user, r = .submitForReview user id

/-- Review `r`, then a submit of patent `id`, then review `s`. -/
def SubmittedBetween (reqs : Nat → Request) (log : List (Nat × List Write)) (id : Nat)
    (r s : PatentReview) : Prop :=
  ∃ e₁ e e₂, [e₁, e, e₂].Sublist log ∧ Write.insertReview r ∈ e₁.2 ∧ Submits (reqs e.1) id ∧
    Write.insertReview s ∈ e₂.2

/-- The review is an approval. -/
def Passed (r : PatentReview) : Prop := r.decision = some .pass

instance (r : PatentReview) : Decidable (Passed r) :=
  inferInstanceAs (Decidable (r.decision = some .pass))

/-- The review trail of patent `id` is complete. -/
structure Trail (reqs : Nat → Request) (d : Db) (log : List (Nat × List Write)) (id : Nat) :
    Prop where
  retained : reviewsOf d id ≠ [] ∨ eventsOf d id ≠ [] →
    ∃ p, d.patents.get? id = some p ∧ p.status ≠ .draft
  decisions : (reviewsOf d id).map PatentReview.decision = (decisions reqs log id).map some
  passes : (reviewsOf d id).countP (Passed ·) = (eventTypes d id).count UPSERTED
  between : ∀ r ∈ reviewsOf d id, ∀ s ∈ reviewsOf d id, Passed r → Passed s → r.id < s.id →
    SubmittedBetween reqs log id r s

/-- What the invariant adds: every review was inserted by the log, and a pending patent was
    submitted after all of its approvals. -/
structure TrailInv (reqs : Nat → Request) (d : Db) (log : List (Nat × List Write)) (id : Nat) :
    Prop extends Trail reqs d log id where
  inserted : ∀ r ∈ reviewsOf d id, ∃ e ∈ log, Write.insertReview r ∈ e.2
  pending : ∀ p, d.patents.get? id = some p → p.status = .pendingAdmin →
    ∀ r ∈ reviewsOf d id, Passed r →
      ∃ e₁ e, [e₁, e].Sublist log ∧ Write.insertReview r ∈ e₁.2 ∧ Submits (reqs e.1) id

/-! ## What one transaction does -/

section Step

variable {J : Nat → Loc → Patent → Prop} {reqs : Nat → Request} {p : Nat} {d : Db}
  {log : List (Nat × List Write)} {ws : List Write} {id : Nat}

/-- The decisions of a log, after one more commit. -/
theorem decisions_concat :
    decisions reqs (log ++ [(p, ws)]) id = decisions reqs log id ++ (decided id (reqs p)).toList := by
  rw [decisions, decisions, List.filterMap_append]
  cases h : decided id (reqs p) <;> simp [h]

/-- A request about another patent decides nothing here. -/
theorem decided_of_subject {r : Request} (h : r.subject ≠ some id) : decided id r = none := by
  cases r with
  | approvePatent admin id' comments => exact if_neg fun he => h (congrArg some he)
  | declinePatent admin id' comments => exact if_neg fun he => h (congrArg some he)
  | _ => rfl

/-- A review decides what it says. -/
theorem decided_of_reviews {r : Request} {action : Action} {admin : Caller}
    {comments : Option String} (h : Reviews r action admin id comments) :
    decided id r = some (decisionOf action) := by
  cases h <;> exact if_pos rfl

/-- The trail is in the order of its ids. -/
theorem reviewsOf_sorted : (reviewsOf d id).Pairwise fun r s => r.id ≤ s.id :=
  List.pairwise_insertionSort _ _

/-- A submission between two reviews stays between them. -/
theorem SubmittedBetween.concat {r s : PatentReview} (h : SubmittedBetween reqs log id r s) :
    SubmittedBetween reqs (log ++ [(p, ws)]) id r s := by
  obtain ⟨e₁, e, e₂, hsub, hrest⟩ := h
  exact ⟨e₁, e, e₂, hsub.trans (List.sublist_append_left _ _), hrest⟩

/-- A transaction that is no decision: the patent stays, and only a submit makes it pending. -/
theorem TrailInv.quiet (h : TrailInv reqs d log id)
    (hreviews : reviewsOf (after d ws) id = reviewsOf d id)
    (hevents : eventsOf (after d ws) id = eventsOf d id) (hnone : decided id (reqs p) = none)
    (hkeep : ∀ old, d.patents.get? id = some old → old.status ≠ .draft →
      ∃ new, (after d ws).patents.get? id = some new ∧ new.status ≠ .draft)
    (hpending : ∀ new, (after d ws).patents.get? id = some new → new.status = .pendingAdmin →
      (∃ old, d.patents.get? id = some old ∧ old.status = .pendingAdmin) ∨ Submits (reqs p) id) :
    TrailInv reqs (after d ws) (log ++ [(p, ws)]) id := by
  have htypes : eventTypes (after d ws) id = eventTypes d id := by rw [eventTypes, hevents]; rfl
  refine ⟨⟨fun hne => ?_, ?_, ?_, fun r hr s hs hpr hps hlt => ?_⟩, fun r hr => ?_,
    fun new hnew hstatus r hr hpass => ?_⟩
  · rw [hreviews, hevents] at hne
    obtain ⟨old, hold, hnd⟩ := h.retained hne
    exact hkeep old hold hnd
  · rw [hreviews, decisions_concat, hnone, Option.toList_none, List.append_nil, h.decisions]
  · rw [hreviews, htypes, h.passes]
  · rw [hreviews] at hr hs
    exact (h.between r hr s hs hpr hps hlt).concat
  · rw [hreviews] at hr
    obtain ⟨e, he, hmem⟩ := h.inserted r hr
    exact ⟨e, List.mem_append_left _ he, hmem⟩
  · rw [hreviews] at hr
    rcases hpending new hnew hstatus with ⟨old, hold, hwas⟩ | hsubmit
    · obtain ⟨e₁, e, hsub, hrest⟩ := h.pending old hold hwas r hr hpass
      exact ⟨e₁, e, hsub.trans (List.sublist_append_left _ _), hrest⟩
    · -- every review was there before this submit
      obtain ⟨e₁, he₁, hmem⟩ := h.inserted r hr
      refine ⟨e₁, (p, ws), ?_, hmem, hsubmit⟩
      exact (List.singleton_sublist.mpr he₁).append (List.Sublist.refl [(p, ws)])

/-- A decision on a patent that was not a draft and is not pending afterwards. -/
theorem TrailInv.decide (h : TrailInv reqs d log id) {action : Action} {row : PatentReview}
    {old new : Patent} {events : List (Outbox.OutboxEvent PatentEvent)}
    (hold : d.patents.get? id = some old)
    (happrove : action = .approve → old.status = .pendingAdmin)
    (hdecided : decided id (reqs p) = some (decisionOf action))
    (hrow : row.decision = some (decisionOf action)) (hmem : Write.insertReview row ∈ ws)
    (hnew : (after d ws).patents.get? id = some new) (hdraft : new.status ≠ .draft)
    (hout : new.status ≠ .pendingAdmin)
    (hreviews : reviewsOf (after d ws) id = reviewsOf d id ++ [row])
    (hevents : eventsOf (after d ws) id = eventsOf d id ++ events)
    (hcount : (events.map Outbox.OutboxEvent.eventType).count UPSERTED =
      if decisionOf action = .pass then 1 else 0) :
    TrailInv reqs (after d ws) (log ++ [(p, ws)]) id := by
  have hsorted : (reviewsOf (after d ws) id).Pairwise fun r s => r.id ≤ s.id := reviewsOf_sorted
  rw [hreviews, List.pairwise_append] at hsorted
  refine ⟨⟨fun _ => ⟨new, hnew, hdraft⟩, ?_, ?_, fun r hr s hs hpr hps hlt => ?_⟩, fun r hr => ?_,
    fun q hq hstatus => ?_⟩
  · rw [hreviews, decisions_concat, List.map_append, h.decisions, hdecided, List.map_append,
      List.map_singleton, hrow]
    rfl
  · have htypes : eventTypes (after d ws) id =
        eventTypes d id ++ events.map Outbox.OutboxEvent.eventType := by
      rw [eventTypes, hevents, List.map_append]
      rfl
    rw [hreviews, htypes, List.countP_append, List.count_append, h.passes, hcount,
      List.countP_singleton]
    simp [Passed, hrow]
  · rw [hreviews] at hr hs
    rcases List.mem_append.mp hr with hr' | hr'
    · rcases List.mem_append.mp hs with hs' | hs'
      · exact (h.between r hr' s hs' hpr hps hlt).concat
      · -- the new approval lands on a pending patent
        obtain rfl := List.mem_singleton.mp hs'
        have hpass : decisionOf action = .pass := Option.some.inj (hrow.symm.trans hps)
        have hact : action = .approve := by
          cases action with
          | approve => rfl
          | _ => nomatch hpass
        obtain ⟨e₁, e, hsub, hmem₁, hsubmit⟩ := h.pending old hold (happrove hact) r hr' hpr
        exact ⟨e₁, e, (p, ws), hsub.append (List.Sublist.refl [(p, ws)]), hmem₁, hsubmit, hmem⟩
    · -- no other review has a larger id than the new one
      obtain rfl := List.mem_singleton.mp hr'
      rcases List.mem_append.mp hs with hs' | hs'
      · have hle := hsorted.2.2 s hs' r (List.mem_singleton.mpr rfl)
        omega
      · rw [List.mem_singleton.mp hs'] at hlt
        exact absurd hlt (Nat.lt_irrefl _)
  · rw [hreviews] at hr
    rcases List.mem_append.mp hr with hr | hr
    · obtain ⟨e, he, hmem⟩ := h.inserted r hr
      exact ⟨e, List.mem_append_left _ he, hmem⟩
    · exact ⟨(p, ws), by simp, List.mem_singleton.mp hr ▸ hmem⟩
  · obtain rfl := Option.some.inj (hnew.symm.trans hq)
    exact absurd hstatus hout

/-- An approval announces the patent, a decline never does. -/
theorem count_upserted {action : Action} {record : PatentRecord} {before : PatentStatus}
    {o : Oracle} {m : Nat} :
    ((((buildEvent action record before o).map (eventRow id m)).toList).map
      Outbox.OutboxEvent.eventType).count UPSERTED =
        if decisionOf action = .pass then 1 else 0 := by
  cases action with
  | submit => rfl
  | approve => rfl
  | decline =>
    by_cases hbefore : before = .approved
    · rw [buildEvent, if_pos hbefore]
      rfl
    · rw [buildEvent, if_neg hbefore]
      rfl

/-- **Step lemma.** -/
theorem TrailInv.effect (h : TrailInv reqs d log id) (heff : PatentEffect J reqs p d log ws id) :
    TrailInv reqs (after d ws) (log ++ [(p, ws)]) id := by
  cases heff with
  | other hreq hrow hreviews hevents =>
    refine h.quiet hreviews hevents (decided_of_subject hreq) (fun old hold hnd => ?_)
      fun new hnew hpending => Or.inl ?_
    · exact ⟨old, hrow.trans hold, hnd⟩
    · exact ⟨new, hrow.symm.trans hnew, hpending⟩
  | create hreq hunused hmem hold hrow hreviews hevents =>
    refine h.quiet hreviews hevents (by rw [hreq]; rfl) (fun old hold' _ => ?_)
      fun new hnew hpending => ?_
    · rw [hold] at hold'
      nomatch hold'
    · obtain rfl := Option.some.inj (hrow.symm.trans hnew)
      nomatch hpending
  | @update user updates links ids now patent old hreq hold hstatus hknown hrow hreviews hevents =>
    refine h.quiet hreviews hevents (by rw [hreq]; rfl) (fun old' hold' hnd => ?_)
      fun new hnew hpending => Or.inl ?_
    · obtain rfl := Option.some.inj (hold.symm.trans hold')
      exact ⟨_, hrow, hnd⟩
    · obtain rfl := Option.some.inj (hrow.symm.trans hnew)
      exact ⟨old, hold, hpending⟩
  | @submit user now old hreq hold hstatus hrow hreviews hevents =>
    exact h.quiet hreviews hevents (by rw [hreq]; rfl) (fun _ _ _ => ⟨_, hrow, nofun⟩)
      fun _ _ _ => Or.inr ⟨user, hreq⟩
  | @review action admin comments before now record n now' o m old hreq hold hstatus hknown hrecord
      hmem hrow hreviews hevents =>
    have hdecides : action = .approve ∨ action = .decline := by
      generalize reqs p = r at hreq
      cases hreq with
      | approve => exact Or.inl rfl
      | decline => exact Or.inr rfl
    refine h.decide hold (fun hact => ?_) (decided_of_reviews hreq) rfl hmem hrow
      (to_ne_draft action) ?_ hreviews hevents count_upserted
    · subst hact
      exact mem_approve.mp hstatus
    · rcases hdecides with rfl | rfl <;> nofun
  | delete hreq hold hstatus hrow hreviews hevents =>
    -- a draft has neither reviews nor events
    have hnone : reviewsOf d id = [] ∧ eventsOf d id = [] := by
      by_contra hsome
      obtain ⟨q, hq, hnd⟩ := h.retained (by tauto)
      obtain rfl := Option.some.inj (hold.symm.trans hq)
      exact hnd hstatus
    have hsame : reviewsOf (after d ws) id = reviewsOf d id := hreviews.trans hnone.1.symm
    refine ⟨⟨fun hne => ?_, ?_, ?_, fun r hr => ?_⟩, fun r hr => ?_, fun q hq => ?_⟩
    · rw [hreviews, hevents, hnone.2] at hne
      simp at hne
    · rw [hsame, decisions_concat, hreq, h.decisions]
      simp [decided]
    · rw [hsame, h.passes, eventTypes, eventTypes, hevents]
    · rw [hreviews] at hr
      nomatch hr
    · rw [hreviews] at hr
      nomatch hr
    · rw [hrow] at hq
      nomatch hq

end Step

/-! ## Every run -/

section Runs

variable {cfg : Config} {reqs : Nat → Request} {users : Table User User.id}
  {inventors : Table Inventor Inventor.id} {categories : Table Category Category.id}
  {σ σ' : State Db Ext Write Loc}

theorem trailInv_init (id : Nat) :
    TrailInv reqs (init users inventors categories).base.db [] id := by
  have hnone : reviewsOf (init users inventors categories).base.db id = [] := rfl
  have hnoRow : (init users inventors categories).base.db.patents.get? id = none := rfl
  refine ⟨⟨fun h => ?_, rfl, rfl, fun r hr => ?_⟩, fun r hr => ?_, fun p hp => ?_⟩
  · rcases h with h | h
    · exact absurd hnone h
    · exact absurd rfl h
  · rw [hnone] at hr
    exact (List.not_mem_nil hr).elim
  · rw [hnone] at hr
    exact (List.not_mem_nil hr).elim
  · cases hnoRow.symm.trans hp

/-- In every run the trail is that of the decisions. -/
theorem trailInv_of_run
    (hrun : Run (patents cfg reqs).step always (init users inventors categories) σ) (id : Nat) :
    TrailInv reqs σ.base.db σ.base.log id :=
  history id (fun d log => TrailInv reqs d log id) (trailInv_init id)
    (fun h heff => h.effect heff) (landing_of_always hrun)

/-- **Append-only.**  No later transaction changes or removes a review. -/
theorem mem_reviews_of_run
    (hrun : Run (patents cfg reqs).step always (init users inventors categories) σ)
    (hlater : Run (patents cfg reqs).step always σ σ') {r : PatentReview}
    (hr : r ∈ σ.base.db.reviews) : r ∈ σ'.base.db.reviews := by
  refine (history_after r.patentId
    (fun d log => TrailInv reqs d log r.patentId ∧ r ∈ d.reviews) ?_ (landing_of_always hrun)
    (landing_of_always hlater) ⟨trailInv_of_run hrun _, hr⟩).2
  intro d log p ws ⟨hinv, hr⟩ heff
  refine ⟨hinv.effect heff, ?_⟩
  have hmem : r ∈ reviewsOf d r.patentId := mem_reviewsOf.mpr ⟨hr, rfl⟩
  suffices r ∈ reviewsOf (after d ws) r.patentId from (mem_reviewsOf.mp this).1
  cases heff with
  | review hreq hold hstatus hknown hrecord hins hrow hreviews =>
    rw [hreviews]
    exact List.mem_append_left _ hmem
  | delete hreq hold hstatus =>
    obtain ⟨q, hq, hnd⟩ := hinv.retained (Or.inl (List.ne_nil_of_mem hmem))
    obtain rfl := Option.some.inj (hold.symm.trans hq)
    exact absurd hstatus hnd
  | other hreq hrow hreviews => exact hreviews ▸ hmem
  | create hreq hunused hins hold hrow hreviews => exact hreviews ▸ hmem
  | update hreq hold hstatus hknown hrow hreviews => exact hreviews ▸ hmem
  | submit hreq hold hstatus hrow hreviews => exact hreviews ▸ hmem

/-- **The review trail** of every patent is complete in every state, and never erased. -/
theorem trail_of_run
    (hrun : Run (patents cfg reqs).step always (init users inventors categories) σ)
    (hlater : Run (patents cfg reqs).step always σ σ') (id : Nat) :
    (∀ r ∈ σ.base.db.reviews, r ∈ σ'.base.db.reviews) ∧ Trail reqs σ.base.db σ.base.log id :=
  ⟨fun _ hr => mem_reviews_of_run hrun hlater hr, (trailInv_of_run hrun id).toTrail⟩

end Runs

/-! ## Approved twice -/

/-- Approved, declined by an administrator, submitted again and approved again. -/
def approvedTwice : List (Act Oracle Upload) :=
  submitted ++ steps 3 7 ++ steps 4 7 ++ steps 5 4 ++ steps 6 7

theorem approvedTwice_runs :
    (exec (patents pdfOnly oneLife).step blank approvedTwice).isSome = true := by
  decide

/-- Two approvals and a decline between them. -/
theorem trail_of_approvedTwice :
    Trail oneLife ((exec (patents pdfOnly oneLife).step blank approvedTwice).get
      approvedTwice_runs).base.db
      ((exec (patents pdfOnly oneLife).step blank approvedTwice).get approvedTwice_runs).base.log 1 :=
  (trail_of_run (Run.exec_get approvedTwice_runs) (Run.refl _) 1).2

end SmartPatents.ReviewTrail
