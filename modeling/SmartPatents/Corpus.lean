/-
  Does the outbox tell the Search Service what the corpus is?

  A patent is in the corpus while it is approved.  `approvePatent` announces it, `declinePatent`
  withdraws it if it was approved before, so in id order the events of a patent should alternate,
  and the last one should say whether it is approved now.

  `declinePatent` takes "was approved before" from a read at the start of its transaction, and its
  guarded UPDATE accepts a pending patent as well as an approved one.  An approval that commits in
  between makes the answer wrong: the approved patent is declined and never withdrawn
  (`not_agrees`).  `agrees_of_run` shows that nothing else can go wrong, whatever the interleaving.

  The invariant (`Parity`) ties the number of events to the status: odd while the patent is
  approved, even otherwise, alternating from the first.  A submit and an edit change neither; an
  approval adds one event, and a decline adds one if and only if it has read that the patent is
  approved.

  `ReadRight` is asked at the guarded UPDATE of a decline and nowhere else.  It compares what was
  read with the row that the UPDATE finds.
-/
import SmartPatents.PatentHistory

namespace SmartPatents.Corpus

open ReadCommitted Runs Access Lifecycle Storage PatentEvents PatentService

/-! ## What the events say -/

/-- Upserted, Withdrawn, Upserted, … -/
def Alternate (types : List String) : Prop :=
  ∀ i t, types[i]? = some t → t = if i % 2 = 0 then UPSERTED else WITHDRAWN

/-- The patent is in the corpus. -/
def Approved (d : Db) (id : Nat) : Prop := ∃ p ∈ d.patents, p.id = id ∧ p.status = .approved

/-- An approval of the patent has committed. -/
def EverApproved (reqs : Nat → Request) (log : List (Nat × List Write)) (id : Nat) : Prop :=
  ∃ e ∈ log, ∃ admin comments, reqs e.1 = .approvePatent admin id comments

/-- The events of a patent agree with its status. -/
structure Agrees (reqs : Nat → Request) (d : Db) (log : List (Nat × List Write)) (id : Nat) :
    Prop where
  alternate : Alternate (eventTypes d id)
  last : (eventTypes d id).getLast? = some UPSERTED ↔ Approved d id
  never : ¬ EverApproved reqs log id → eventTypes d id = []

section Alternation

variable {types : List String} {t : String}

/-- No event alternates with itself. -/
theorem alternate_nil : Alternate [] := fun _ _ h => nomatch h

/-- The length says what comes next. -/
theorem alternate_concat :
    Alternate (types ++ [t]) ↔
      Alternate types ∧ t = if types.length % 2 = 0 then UPSERTED else WITHDRAWN := by
  constructor
  · intro h
    refine ⟨fun i u hu => h i u ?_, h types.length t (by simp)⟩
    obtain ⟨hi, -⟩ := List.getElem?_eq_some_iff.mp hu
    rwa [List.getElem?_append_left hi]
  · rintro ⟨h, ht⟩ i u hu
    rcases Nat.lt_trichotomy i types.length with hi | rfl | hi
    · rw [List.getElem?_append_left hi] at hu
      exact h i u hu
    · have htu : t = u := by simpa using hu
      exact htu ▸ ht
    · have hlen : (types ++ [t]).length ≤ i := by simp; omega
      rw [List.getElem?_eq_none hlen] at hu
      cases hu

/-- The last event is an Upserted one iff there is an odd number of them. -/
theorem getLast?_iff_odd (h : Alternate types) :
    types.getLast? = some UPSERTED ↔ types.length % 2 = 1 := by
  rcases List.eq_nil_or_concat types with rfl | ⟨l, t, rfl⟩
  · simp
  · rw [List.concat_eq_append] at h ⊢
    obtain ⟨-, rfl⟩ := alternate_concat.mp h
    have hlen : (l ++ [if l.length % 2 = 0 then UPSERTED else WITHDRAWN]).length = l.length + 1 := by
      simp
    rw [List.getLast?_concat, hlen]
    by_cases heven : l.length % 2 = 0
    · rw [if_pos heven]
      exact ⟨fun _ => by omega, fun _ => rfl⟩
    · rw [if_neg heven]
      exact ⟨fun ht => absurd (Option.some.inj ht) (by decide), fun hodd => by omega⟩

end Alternation

/-! ## What one transaction does -/

/-- What the invariant keeps: parity is the status. -/
structure Parity (reqs : Nat → Request) (d : Db) (log : List (Nat × List Write)) (id : Nat) :
    Prop where
  alternate : Alternate (eventTypes d id)
  odd : (eventTypes d id).length % 2 = 1 ↔ (d.patents.get? id).map Patent.status = some .approved
  never : ¬ EverApproved reqs log id → eventTypes d id = []

/-- A decline has read that the patent is approved if and only if it is. -/
def ReadRight (reqs : Nat → Request) (p : Nat) (l : Loc) (row : Patent) : Prop :=
  match reqs p, l with
  | .declinePatent _ _ _, .review (.write before) =>
      before = some .approved ↔ row.status = .approved
  | _, _ => True

section Step

variable {reqs : Nat → Request} {p : Nat} {d : Db} {log : List (Nat × List Write)}
  {ws : List Write} {id : Nat}

/-- What was approved once was approved once. -/
theorem everApproved_concat (h : EverApproved reqs log id) :
    EverApproved reqs (log ++ [(p, ws)]) id := by
  obtain ⟨e, he, happ⟩ := h
  exact ⟨e, List.mem_append_left _ he, happ⟩

/-- A transaction that enqueues nothing and does not enter or leave `approved`. -/
theorem Parity.quiet (h : Parity reqs d log id) (hevents : eventsOf (after d ws) id = eventsOf d id)
    (hrow : ((after d ws).patents.get? id).map Patent.status = some .approved ↔
      (d.patents.get? id).map Patent.status = some .approved) :
    Parity reqs (after d ws) (log ++ [(p, ws)]) id := by
  have htypes : eventTypes (after d ws) id = eventTypes d id := by rw [eventTypes, hevents]; rfl
  refine ⟨htypes ▸ h.alternate, ?_, fun hnever => ?_⟩
  · rw [htypes, hrow]
    exact h.odd
  · rw [htypes]
    exact h.never fun happ => hnever (everApproved_concat happ)

/-- A transaction that announces the change it makes. -/
theorem Parity.announce (h : Parity reqs d log id) {m : Nat} {event : PatentEvent}
    (hevents : eventsOf (after d ws) id = eventsOf d id ++ [eventRow id m event])
    (htype : event.eventType =
      if (d.patents.get? id).map Patent.status = some .approved then WITHDRAWN else UPSERTED)
    (hrow : ((after d ws).patents.get? id).map Patent.status = some .approved ↔
      ¬ (d.patents.get? id).map Patent.status = some .approved)
    (hever : EverApproved reqs (log ++ [(p, ws)]) id) :
    Parity reqs (after d ws) (log ++ [(p, ws)]) id := by
  have htypes : eventTypes (after d ws) id = eventTypes d id ++ [event.eventType] := by
    rw [eventTypes, hevents, List.map_append]
    rfl
  have hodd := h.odd
  refine ⟨?_, ?_, fun hnever => absurd hever hnever⟩
  · rw [htypes, alternate_concat]
    refine ⟨h.alternate, ?_⟩
    rw [htype]
    by_cases happ : (d.patents.get? id).map Patent.status = some .approved
    · have hlen := hodd.mpr happ
      rw [if_pos happ, if_neg (by omega)]
    · have hlen : (eventTypes d id).length % 2 = 0 := by
        have hnot : ¬ (eventTypes d id).length % 2 = 1 := fun h => happ (hodd.mp h)
        omega
      rw [if_neg happ, if_pos hlen]
  · rw [htypes, hrow, ← hodd, List.length_append, List.length_singleton]
    omega

/-- A row that is not approved. -/
theorem status_ne_of_get? {old : Patent} (hold : d.patents.get? id = some old)
    (hne : old.status ≠ .approved) : ¬ (d.patents.get? id).map Patent.status = some .approved := by
  rw [hold]
  exact fun h => hne (Option.some.inj h)

/-- **Step lemma.**  If a decline knows whether the patent it declines is approved, the events of
    every patent agree with its status afterwards. -/
theorem Parity.effect (h : Parity reqs d log id)
    (heff : PatentEffect (ReadRight reqs) reqs p d log ws id) :
    Parity reqs (after d ws) (log ++ [(p, ws)]) id := by
  cases heff with
  | other hreq hrow hreviews hevents => exact h.quiet hevents (by rw [hrow])
  | create hreq hunused hmem hold hrow hreviews hevents =>
    refine h.quiet hevents ?_
    rw [hold, hrow]
    exact iff_of_false nofun nofun
  | update hreq hold hstatus hknown hrow hreviews hevents =>
    refine h.quiet hevents ?_
    rw [hold, hrow]
    exact Iff.rfl
  | @submit user now old hreq hold hstatus hrow hreviews hevents =>
    refine h.quiet hevents (iff_of_false ?_ (status_ne_of_get? hold ?_))
    · exact status_ne_of_get? hrow nofun
    · rcases mem_submit.mp hstatus with hs | hs <;> rw [hs] <;> decide
  | @review action admin comments before now record n now' o m old hreq hold hstatus hknown hrecord
      hmem hrow hreviews hevents =>
    generalize hr : reqs p = r at hreq
    cases hreq with
    | approve =>
      have hpending : old.status = .pendingAdmin := mem_approve.mp hstatus
      have hne := status_ne_of_get? hold (by rw [hpending]; decide)
      refine h.announce hevents ?_ ?_ ?_
      · rw [if_neg hne]
        rfl
      · rw [hrow]
        exact iff_of_true rfl hne
      · exact ⟨(p, ws), by simp, admin, comments, hr⟩
    | decline =>
      have hread : some before = some .approved ↔ old.status = .approved := by
        simpa only [ReadRight, hr] using hknown
      have hout := status_ne_of_get? hrow (by decide : PatentStatus.declined ≠ .approved)
      by_cases happ : old.status = .approved
      · -- an approved patent is withdrawn
        have hbefore : before = .approved := Option.some.inj (hread.mpr happ)
        rw [buildEvent, if_pos hbefore] at hevents
        have hin : (d.patents.get? id).map Patent.status = some .approved := by
          rw [hold, Option.map_some, happ]
        have hever : EverApproved reqs log id := by
          by_contra hnot
          have hodd := h.odd.mpr hin
          rw [h.never hnot] at hodd
          exact absurd hodd (by decide)
        refine h.announce hevents ?_ (iff_of_false hout (not_not_intro hin))
          (everApproved_concat hever)
        rw [if_pos hin]
        rfl
      · -- a pending patent was not in the corpus
        have hbefore : before ≠ .approved := fun hb => happ (hread.mp (congrArg some hb))
        rw [buildEvent, if_neg hbefore, Option.map_none, Option.toList_none,
          List.append_nil] at hevents
        exact h.quiet hevents (iff_of_false hout (status_ne_of_get? hold happ))
  | delete hreq hold hstatus hrow hreviews hevents =>
    refine h.quiet hevents (iff_of_false ?_ (status_ne_of_get? hold ?_))
    · rw [hrow]
      nofun
    · rw [hstatus]
      decide

end Step

/-! ## Every run -/

section Runs

variable {cfg : Config} {reqs : Nat → Request} {users : Table User User.id}
  {inventors : Table Inventor Inventor.id} {categories : Table Category Category.id}
  {σ : State Db Ext Write Loc}

theorem parity_init (id : Nat) : Parity reqs (init users inventors categories).base.db [] id :=
  ⟨alternate_nil, iff_of_false nofun nofun, fun _ => rfl⟩

/-- Whether a patent is approved is a matter of its row. -/
theorem approved_iff {d : Db} {id : Nat} :
    Approved d id ↔ (d.patents.get? id).map Patent.status = some .approved := by
  simp only [Approved, Option.map_eq_some_iff, Table.get?_eq_some, and_assoc]

/-- **Corpus agreement.**  In a run whose declines all know whether the patent they decline is
    approved, the events of every patent agree with its status in every state. -/
theorem agrees_of_run
    (hrun : Run (patents cfg reqs).step (Machine.localOk (Landing (ReadRight reqs) reqs))
      (init users inventors categories) σ) (id : Nat) :
    Agrees reqs σ.base.db σ.base.log id := by
  have h : Parity reqs σ.base.db σ.base.log id :=
    history id (fun d log => Parity reqs d log id) (parity_init id)
      (fun hP heff => hP.effect heff) hrun
  exact ⟨h.alternate, by rw [getLast?_iff_odd h.alternate, h.odd, approved_iff], h.never⟩

end Runs

/-! ## An approval and a decline -/

instance (reqs : Nat → Request) (p : Nat) (l : Loc) (row : Patent) :
    Decidable (ReadRight reqs p l row) := by
  unfold ReadRight
  split <;> infer_instance

/-- The decline starts after the approval. -/
def declineAfter : List (Act Oracle Upload) := submitted ++ steps 3 7 ++ steps 4 7

/-- The approval commits between the two reads of the decline. -/
def declineAround : List (Act Oracle Upload) := submitted ++ steps 4 2 ++ steps 3 7 ++ steps 4 4

theorem declineAfter_runs :
    (execOk (patents pdfOnly oneLife).step
      (Machine.localOk (Landing (ReadRight oneLife) oneLife)) blank declineAfter).isSome = true := by
  decide

/-- A decline that starts after the approval: events and status agree. -/
theorem agrees_of_declineAfter :
    ∃ σ, execOk (patents pdfOnly oneLife).step
        (Machine.localOk (Landing (ReadRight oneLife) oneLife)) blank declineAfter = some σ ∧
      Agrees oneLife σ.base.db σ.base.log 1 := by
  obtain ⟨σ, hσ⟩ := Option.isSome_iff_exists.mp declineAfter_runs
  exact ⟨σ, hσ, agrees_of_run (Run.of_execOk hσ) 1⟩

theorem declineAround_runs :
    (exec (patents pdfOnly oneLife).step blank declineAround).isSome = true := by
  decide

/-- The patent is declined and its last event says that it is in the corpus. -/
theorem not_agrees :
    ¬ ∀ (cfg : Config) (reqs : Nat → Request) (users : Table User User.id)
      (inventors : Table Inventor Inventor.id) (categories : Table Category Category.id)
      (σ : State Db Ext Write Loc),
      Run (patents cfg reqs).step always (init users inventors categories) σ →
      ∀ id, Agrees reqs σ.base.db σ.base.log id := by
  intro hall
  have hagrees := hall pdfOnly oneLife accounts Table.empty Table.empty _
    (Run.exec_get declineAround_runs) 1
  have hlast := approved_iff.mp (hagrees.last.mp (by decide))
  exact absurd hlast (by decide)

end SmartPatents.Corpus
