/-
  Does the version of a patent identify its content?

  `version` is half of the downstream idempotency key: an event with a version that a consumer has
  seen before is taken to carry the same text.  `updatePatent` bumps it in the same guarded UPDATE
  that writes the supplied fields, but WHETHER it does was decided on a copy of the patent read
  before the transaction.

  Where the copy is stale, an edit can put an older text back under the number of the newer one:
  the supplied text equals the copy, so nothing seems to change, and differs from the row
  (`not_versionIdentifies`).  `versionIdentifies_of_run` shows that this is the only way, across
  every later step of the patent's life.

  The content is the four fields that bump the version, and `Follows` the order on numbered
  contents: equal, or under a larger number.  The invariant says that the row of a patent follows
  every one of its events, and each step extends that.

  `SeesChange` is about an edit that is about to write: a change of the row it lands on is also
  one of the copy on which the bump was decided.  An edit that supplies no content, or finds the
  row as it read it, meets it.
-/
import SmartPatents.PatentHistory

namespace SmartPatents.VersionContent

open ReadCommitted Runs Access Lifecycle Storage PatentEvents PatentService

/-! ## Snapshots -/

/-- The fields of `CONTENT_FIELDS`. -/
structure Content where
  title : String
  abstract : String
  specification : String
  documentKey : Option String
deriving DecidableEq

/-- A content and the number it goes by. -/
@[ext]
structure Snapshot where
  version : Nat
  content : Content

/-- `b` is `a`, or goes by a larger number. -/
def Snapshot.Follows (a b : Snapshot) : Prop := a.version < b.version ∨ a = b

/-- The version and the content of a row. -/
def snapshot (p : Patent) : Snapshot :=
  ⟨p.version, ⟨p.title, p.abstract, p.specification, p.documentKey⟩⟩

/-- What an event tells the Search Service. -/
def announced (u : Upserted) : Snapshot :=
  ⟨u.version, ⟨u.title, u.abstract, u.specification, u.documentKey⟩⟩

/-- Between a state and a later one, and between two events, the version identifies the content. -/
structure VersionIdentifies (d d' : Db) : Prop where
  states : ∀ p ∈ d.patents, ∀ q ∈ d'.patents, p.id = q.id → p.version = q.version →
    (snapshot p).content = (snapshot q).content
  events : ∀ e ∈ d'.outbox, ∀ f ∈ d'.outbox, ∀ u v, e.payload = .upserted u →
    f.payload = .upserted v → u.patentId = v.patentId → u.version = v.version →
    (announced u).content = (announced v).content

namespace Snapshot

/-- A content follows itself. -/
theorem Follows.refl (a : Snapshot) : a.Follows a := Or.inr rfl

theorem Follows.trans {a b c : Snapshot} (hab : a.Follows b) (hbc : b.Follows c) : a.Follows c := by
  rcases hab with hab | rfl
  · rcases hbc with hbc | rfl
    · exact Or.inl (Nat.lt_trans hab hbc)
    · exact Or.inl hab
  · exact hbc

/-- With the same version, the content is the same. -/
theorem Follows.content_eq {a b : Snapshot} (h : a.Follows b) (hv : a.version = b.version) :
    a.content = b.content := by
  rcases h with hlt | rfl
  · omega
  · rfl

end Snapshot

/-! ## What one transaction does -/

/-- An edit that changes the row it lands on also changes the copy it was decided on. -/
def SeesChange (reqs : Nat → Request) (p : Nat) (l : Loc) (row : Patent) : Prop :=
  match reqs p, l with
  | .updatePatent _ _ updates, .update (.write patent _ _) =>
      contentChanged updates row = true → contentChanged updates patent.toPatent = true
  | _, _ => True

section Edit

variable {updates : Updates} {patent row : Patent} {now : Time}

/-- Supplied fields that do not differ change nothing. -/
theorem content_scalar (h : contentChanged updates row = false) :
    (snapshot (scalar updates row)).content = (snapshot row).content := by
  have hfield : ∀ {v : Option String} {old : String}, v.any (· != old) = false →
      v.getD old = old := by
    intro v old hv
    cases v <;> simp_all
  simp only [contentChanged, Bool.or_eq_false_iff] at h
  obtain ⟨⟨⟨htitle, habstract⟩, hspecification⟩, hkey⟩ := h
  have hdocument : updates.documentKey.or row.documentKey = row.documentKey := by
    cases hk : updates.documentKey <;> simp_all
  simp only [snapshot, scalar, hfield htitle, hfield habstract, hfield hspecification, hdocument]

/-- An edit that sees the change it makes gives it a new number. -/
theorem follows_edited
    (h : contentChanged updates row = true → contentChanged updates patent = true) :
    (snapshot row).Follows (snapshot (edited updates patent row now)) := by
  by_cases hchanged : contentChanged updates patent = true
  · refine Or.inl ?_
    have hversion : (edited updates patent row now).version = row.version + 1 := if_pos hchanged
    simp only [snapshot, hversion]
    omega
  · have hversion : (edited updates patent row now).version = row.version := if_neg hchanged
    have hsame := content_scalar (Bool.eq_false_iff.mpr fun hrow => hchanged (h hrow))
    exact Or.inr (Snapshot.ext hversion.symm hsame.symm)

end Edit

/-- Ids are told apart by their texts. -/
theorem toString_injective {m n : Nat} (h : toString m = toString n) : m = n := by
  rw [Nat.toString_eq_ofList_toDigits, Nat.toString_eq_ofList_toDigits] at h
  have hdigits : Nat.toDigits 10 m = Nat.toDigits 10 n := String.ofList_injective h
  rw [← Nat.ofDigitChars_ten_toDigits (n := m), hdigits, Nat.ofDigitChars_ten_toDigits]

/-- The invariant of a patent: its row follows all of its events, and the id was inserted once. -/
structure VersionInv (d : Db) (log : List (Nat × List Write)) (id : Nat) : Prop where
  used : d.patents.get? id ≠ none ∨ eventsOf d id ≠ [] → ¬ Unused log id
  row : ∀ e ∈ eventsOf d id, ∀ u, e.payload = .upserted u → u.patentId = toString id ∧
    ∀ q, d.patents.get? id = some q → (announced u).Follows (snapshot q)
  events : ∀ e ∈ eventsOf d id, ∀ f ∈ eventsOf d id, ∀ u v, e.payload = .upserted u →
    f.payload = .upserted v → u.version = v.version → (announced u).content = (announced v).content

section Step

variable {reqs : Nat → Request} {p : Nat} {d : Db} {log : List (Nat × List Write)}
  {ws : List Write} {id : Nat}

/-- The row of a patent before and after a transaction, if it exists afterwards. -/
theorem follows_of_effect (heff : PatentEffect (SeesChange reqs) reqs p d log ws id) {new : Patent}
    (hnew : (after d ws).patents.get? id = some new) :
    (d.patents.get? id = none ∧ Unused log id) ∨
      ∃ old, d.patents.get? id = some old ∧ (snapshot old).Follows (snapshot new) := by
  cases heff with
  | other hreq hrow => exact Or.inr ⟨new, hrow.symm.trans hnew, .refl _⟩
  | create hreq hunused hmem hold => exact Or.inl ⟨hold, hunused⟩
  | @update user updates links ids now patent old hreq hold hstatus hknown hrow =>
    obtain rfl := Option.some.inj (hrow.symm.trans hnew)
    refine Or.inr ⟨old, hold, follows_edited ?_⟩
    simpa only [SeesChange, hreq] using hknown
  | submit hreq hold hstatus hrow =>
    obtain rfl := Option.some.inj (hrow.symm.trans hnew)
    exact Or.inr ⟨_, hold, .refl _⟩
  | review hreq hold hstatus hknown hrecord hmem hrow =>
    obtain rfl := Option.some.inj (hrow.symm.trans hnew)
    exact Or.inr ⟨_, hold, .refl _⟩
  | delete hreq hold hstatus hrow =>
    rw [hrow] at hnew
    nomatch hnew

/-- A used id stays used, and a transaction leaves no row under an unused one. -/
theorem used_of_effect (heff : PatentEffect (SeesChange reqs) reqs p d log ws id)
    (hused : d.patents.get? id ≠ none ∨ eventsOf d id ≠ [] → ¬ Unused log id)
    (h : (after d ws).patents.get? id ≠ none ∨ eventsOf (after d ws) id ≠ []) :
    ¬ Unused (log ++ [(p, ws)]) id := by
  cases heff with
  | create hreq hunused hmem =>
    exact fun hall => hall (p, ws) (by simp) _ hmem rfl
  | other hreq hrow hreviews hevents =>
    rw [hrow, hevents] at h
    exact not_unused_concat (hused h)
  | update hreq hold => exact not_unused_concat (hused (Or.inl (by simp [hold])))
  | submit hreq hold => exact not_unused_concat (hused (Or.inl (by simp [hold])))
  | review hreq hold => exact not_unused_concat (hused (Or.inl (by simp [hold])))
  | delete hreq hold => exact not_unused_concat (hused (Or.inl (by simp [hold])))

/-- A transaction that enqueues nothing. -/
theorem VersionInv.quiet (h : VersionInv d log id)
    (heff : PatentEffect (SeesChange reqs) reqs p d log ws id)
    (hevents : eventsOf (after d ws) id = eventsOf d id) :
    VersionInv (after d ws) (log ++ [(p, ws)]) id := by
  refine ⟨used_of_effect heff h.used, fun e he u hu => ?_, hevents ▸ h.events⟩
  rw [hevents] at he
  obtain ⟨hid, hfollows⟩ := h.row e he u hu
  refine ⟨hid, fun new hnew => ?_⟩
  rcases follows_of_effect heff hnew with ⟨-, hunused⟩ | ⟨old, hold, hstep⟩
  · exact absurd hunused (h.used (Or.inr (List.ne_nil_of_mem he)))
  · exact (hfollows old hold).trans hstep

/-- A transaction that announces the row it writes. -/
theorem VersionInv.announce (h : VersionInv d log id)
    (heff : PatentEffect (SeesChange reqs) reqs p d log ws id) {old new : Patent}
    {row : Outbox.OutboxEvent PatentEvent} (hold : d.patents.get? id = some old)
    (hnew : (after d ws).patents.get? id = some new)
    (hevents : eventsOf (after d ws) id = eventsOf d id ++ [row])
    (hrow : ∀ u, row.payload = .upserted u → u.patentId = toString id ∧ announced u = snapshot new)
    (hsame : snapshot new = snapshot old) : VersionInv (after d ws) (log ++ [(p, ws)]) id := by
  -- every event of the patent, the new one included, is followed by the row
  have hfollows : ∀ e ∈ eventsOf (after d ws) id, ∀ u, e.payload = .upserted u →
      u.patentId = toString id ∧ (announced u).Follows (snapshot new) := by
    intro e he u hu
    rw [hevents] at he
    rcases List.mem_append.mp he with he | he
    · obtain ⟨hid, hfollows⟩ := h.row e he u hu
      exact ⟨hid, hsame ▸ hfollows old hold⟩
    · obtain ⟨hid, heq⟩ := hrow u (List.mem_singleton.mp he ▸ hu)
      exact ⟨hid, heq ▸ .refl _⟩
  refine ⟨used_of_effect heff h.used, fun e he u hu => ?_, fun e he f hf u v hu hv hver => ?_⟩
  · obtain ⟨hid, hto⟩ := hfollows e he u hu
    refine ⟨hid, fun q hq => ?_⟩
    obtain rfl := Option.some.inj (hnew.symm.trans hq)
    exact hto
  · have hue := (hfollows e he u hu).2
    have hvf := (hfollows f hf v hv).2
    rw [hevents] at he hf
    rcases List.mem_append.mp he with he | he
    · rcases List.mem_append.mp hf with hf | hf
      · exact h.events e he f hf u v hu hv hver
      · have heq := (hrow v (List.mem_singleton.mp hf ▸ hv)).2
        rw [← heq] at hue
        exact hue.content_eq hver
    · have heq := (hrow u (List.mem_singleton.mp he ▸ hu)).2
      rw [← heq] at hvf
      exact (hvf.content_eq hver.symm).symm

/-- **Step lemma.** -/
theorem VersionInv.effect (h : VersionInv d log id)
    (heff : PatentEffect (SeesChange reqs) reqs p d log ws id) :
    VersionInv (after d ws) (log ++ [(p, ws)]) id := by
  cases heff with
  | other hreq hrow hreviews hevents => exact h.quiet (.other hreq hrow hreviews hevents) hevents
  | create hreq hunused hmem hold hrow hreviews hevents =>
    exact h.quiet (.create hreq hunused hmem hold hrow hreviews hevents) hevents
  | update hreq hold hstatus hknown hrow hreviews hevents =>
    exact h.quiet (.update hreq hold hstatus hknown hrow hreviews hevents) hevents
  | submit hreq hold hstatus hrow hreviews hevents =>
    exact h.quiet (.submit hreq hold hstatus hrow hreviews hevents) hevents
  | delete hreq hold hstatus hrow hreviews hevents =>
    exact h.quiet (.delete hreq hold hstatus hrow hreviews hevents) hevents
  -- only a review enqueues an event
  | @review action admin comments before now record n now' o m old hreq hold hstatus hknown hrecord
      hmem hrow hreviews hevents =>
    have heff : PatentEffect (SeesChange reqs) reqs p d log ws id :=
      .review hreq hold hstatus hknown hrecord hmem hrow hreviews hevents
    cases hbuild : buildEvent action record before o with
    | none =>
      rw [hbuild, Option.map_none, Option.toList_none, List.append_nil] at hevents
      exact h.quiet heff hevents
    | some event =>
      rw [hbuild, Option.map_some, Option.toList_some] at hevents
      refine h.announce heff hold hrow hevents (fun u hu => ?_) rfl
      have hid : record.toPatent.id = id := by
        rw [hrecord]
        exact (Table.get?_eq_some.mp hold).2
      obtain rfl : event = .upserted u := hu
      obtain rfl := PatentEvent.upserted.inj (upserted_of_buildEvent hbuild)
      exact ⟨congrArg toString hid, congrArg snapshot hrecord⟩

end Step

/-! ## Every run -/

section Runs

variable {cfg : Config} {reqs : Nat → Request} {users : Table User User.id}
  {inventors : Table Inventor Inventor.id} {categories : Table Category Category.id}
  {σ σ' : State Db Ext Write Loc}

theorem versionInv_init (id : Nat) :
    VersionInv (init users inventors categories).base.db [] id := by
  have hnone : eventsOf (init users inventors categories).base.db id = [] := rfl
  have hnoRow : (init users inventors categories).base.db.patents.get? id = none := rfl
  refine ⟨fun h => ?_, fun e he => ?_, fun e he => ?_⟩
  · rcases h with h | h
    · exact absurd hnoRow h
    · exact absurd hnone h
  · rw [hnone] at he
    exact (List.not_mem_nil he).elim
  · rw [hnone] at he
    exact (List.not_mem_nil he).elim

/-- In every run in which edits see what they change, versions grow with the content. -/
theorem versionInv_of_run
    (hrun : Run (patents cfg reqs).step (Machine.localOk (Landing (SeesChange reqs) reqs))
      (init users inventors categories) σ) (id : Nat) : VersionInv σ.base.db σ.base.log id :=
  history id (fun d log => VersionInv d log id) (versionInv_init id) (fun h heff => h.effect heff)
    hrun

/-- Every later row of a patent follows the one it has now. -/
theorem follows_of_run
    (hrun : Run (patents cfg reqs).step (Machine.localOk (Landing (SeesChange reqs) reqs))
      (init users inventors categories) σ)
    (hlater : Run (patents cfg reqs).step (Machine.localOk (Landing (SeesChange reqs) reqs)) σ σ')
    {p q : Patent} (hp : p ∈ σ.base.db.patents) (hq : q ∈ σ'.base.db.patents) (hid : q.id = p.id) :
    (snapshot p).Follows (snapshot q) := by
  have hget : σ.base.db.patents.get? p.id = some p := Table.get?_of_mem hp
  have hused := (versionInv_of_run hrun p.id).used (Or.inl (by simp [hget]))
  refine (history_after p.id (fun d log => ¬ Unused log p.id ∧
    ∀ q, d.patents.get? p.id = some q → (snapshot p).Follows (snapshot q)) ?_ hrun hlater
    ⟨hused, fun q hq => ?_⟩).2 q (Table.get?_eq_some.mpr ⟨hq, hid⟩)
  · rintro d log r ws ⟨hused, hfollows⟩ heff
    refine ⟨not_unused_concat hused, fun new hnew => ?_⟩
    rcases follows_of_effect heff hnew with ⟨-, hunused⟩ | ⟨old, hold, hstep⟩
    · exact absurd hunused hused
    · exact (hfollows old hold).trans hstep
  · obtain rfl := Option.some.inj (hget.symm.trans hq)
    exact .refl _

/-- **Version identifies content** in every run whose edits see the changes they make: between any
    two states, and between any two events. -/
theorem versionIdentifies_of_run
    (hrun : Run (patents cfg reqs).step (Machine.localOk (Landing (SeesChange reqs) reqs))
      (init users inventors categories) σ)
    (hlater : Run (patents cfg reqs).step (Machine.localOk (Landing (SeesChange reqs) reqs)) σ σ') :
    VersionIdentifies σ.base.db σ'.base.db := by
  have hrun' := hrun.trans hlater
  refine ⟨fun p hp q hq hid hver => ?_, fun e he f hf u v hu hv hpatent hver => ?_⟩
  · exact (follows_of_run hrun hlater hp hq hid.symm).content_eq hver
  · have heid := ((versionInv_of_run hrun' e.aggregateId).row e
      (mem_eventsOf_of_run hrun' he) u hu).1
    have hfid := ((versionInv_of_run hrun' f.aggregateId).row f
      (mem_eventsOf_of_run hrun' hf) v hv).1
    have hagg : f.aggregateId = e.aggregateId :=
      toString_injective (hfid.symm.trans (hpatent.symm.trans heid))
    have hfmem := mem_eventsOf_of_run hrun' hf
    rw [hagg] at hfmem
    exact (versionInv_of_run hrun' e.aggregateId).events e (mem_eventsOf_of_run hrun' he) f hfmem
      u v hu hv hver

end Runs

/-! ## An edit with a stale copy -/

instance (reqs : Nat → Request) (p : Nat) (l : Loc) (row : Patent) :
    Decidable (SeesChange reqs p l row) :=
  decidable_of_iff
    ((match reqs p, l with
      | .updatePatent _ _ updates, .update (.write patent _ _) =>
          !contentChanged updates row || contentChanged updates patent.toPatent
      | _, _ => true) = true)
    (by
      unfold SeesChange
      split
      · simp [imp_iff_not_or]
      · simp)

/-- An edit of the title. -/
def retitle (title : String) : Updates := ⟨some title, none, none, none, none, none, none, none⟩

/-- Edit 2 keeps the first title, edit 3 changes it. -/
def twoEdits : Nat → Request
  | 0 => .requestUpload ada "a.pdf" "application/pdf"
  | 1 => .createPatent ada firstInput
  | 2 => .updatePatent ada 1 (retitle "Kettle")
  | 3 => .updatePatent ada 1 (retitle "Pot")
  | 4 => .submitForReview ada 1
  | 5 => .approvePatent root 1 none
  | 6 => .declinePatent root 1 (some "no")
  | 7 => .submitForReview ada 1
  | _ => .approvePatent root 1 none

/-- The titles that the Upserted events give to the versions of the patents. -/
def announcedTitles (d : Db) : List (String × Nat × String) :=
  d.outbox.rows.filterMap fun e =>
    match e.payload with
    | .upserted u => some (u.patentId, u.version, u.title)
    | .withdrawn _ => none

/-- One edit after the other. -/
def editsApart : List (Act Oracle Upload) := drafted ++ steps 2 7 ++ steps 3 7

/-- The patent is approved, declined, and approved again. -/
def approvedTwice : List (Act Oracle Upload) :=
  steps 4 4 ++ steps 5 7 ++ steps 6 7 ++ steps 7 4 ++ steps 8 7

/-- Edit 2 reads the draft, and writes when the patent has been retitled, approved and declined. -/
def editsAcross : List (Act Oracle Upload) :=
  drafted ++ steps 2 4 ++ steps 3 7 ++ steps 4 4 ++ steps 5 7 ++ steps 6 7 ++ steps 2 3 ++
    steps 7 4 ++ steps 8 7

theorem editsApart_runs :
    (execOk (patents pdfOnly twoEdits).step
      (Machine.localOk (Landing (SeesChange twoEdits) twoEdits)) blank editsApart).isSome = true := by
  decide

/-- The state after the edits. -/
def edited : State Db Ext Write Loc :=
  (execOk (patents pdfOnly twoEdits).step
    (Machine.localOk (Landing (SeesChange twoEdits) twoEdits)) blank editsApart).get editsApart_runs

theorem approvedTwice_runs :
    (execOk (patents pdfOnly twoEdits).step
      (Machine.localOk (Landing (SeesChange twoEdits) twoEdits)) edited approvedTwice).isSome = true := by
  decide

/-- The state after the second approval. -/
def reapproved : State Db Ext Write Loc :=
  (execOk (patents pdfOnly twoEdits).step
    (Machine.localOk (Landing (SeesChange twoEdits) twoEdits)) edited approvedTwice).get
    approvedTwice_runs

/-- Both approvals announce version 2 with one title. -/
theorem versionIdentifies_of_editsApart :
    announcedTitles reapproved.base.db = [("1", 2, "Pot"), ("1", 2, "Pot")] ∧
      VersionIdentifies edited.base.db reapproved.base.db :=
  ⟨by decide, versionIdentifies_of_run (Run.of_execOk (Option.some_get editsApart_runs).symm)
    (Run.of_execOk (Option.some_get approvedTwice_runs).symm)⟩

theorem editsAcross_runs :
    (exec (patents pdfOnly twoEdits).step blank editsAcross).isSome = true := by
  decide

theorem title_unique {d d' : Db} (h : VersionIdentifies d d') {i s t : String} {n : Nat}
    (hs : (i, n, s) ∈ announcedTitles d') (ht : (i, n, t) ∈ announcedTitles d') : s = t := by
  obtain ⟨e, he, heq⟩ := List.mem_filterMap.mp hs
  obtain ⟨f, hf, hfq⟩ := List.mem_filterMap.mp ht
  cases hu : e.payload with
  | withdrawn w =>
    rw [hu] at heq
    nomatch heq
  | upserted u =>
    cases hv : f.payload with
    | withdrawn w =>
      rw [hv] at hfq
      nomatch hfq
    | upserted v =>
      simp only [hu, Option.some.injEq, Prod.mk.injEq] at heq
      simp only [hv, Option.some.injEq, Prod.mk.injEq] at hfq
      obtain ⟨heid, hever, rfl⟩ := heq
      obtain ⟨hfid, hfver, rfl⟩ := hfq
      have hcontent := h.events e he f hf u v hu hv (heid.trans hfid.symm) (hever.trans hfver.symm)
      exact congrArg Content.title hcontent

/-- Version 2 of the patent is announced as "Pot" and later as "Kettle". -/
theorem not_versionIdentifies :
    ¬ ∀ (cfg : Config) (reqs : Nat → Request) (users : Table User User.id)
      (inventors : Table Inventor Inventor.id) (categories : Table Category Category.id)
      (σ σ' : State Db Ext Write Loc),
      Run (patents cfg reqs).step always (init users inventors categories) σ →
      Run (patents cfg reqs).step always σ σ' → VersionIdentifies σ.base.db σ'.base.db := by
  intro hall
  have hsame := hall pdfOnly twoEdits accounts Table.empty Table.empty _ _
    (Run.exec_get editsAcross_runs) (Run.refl _)
  have htitles : announcedTitles ((exec (patents pdfOnly twoEdits).step blank editsAcross).get
      editsAcross_runs).base.db = [("1", 2, "Pot"), ("1", 2, "Kettle")] := by decide
  have heq : "Pot" = "Kettle" := title_unique hsame (i := "1") (n := 2)
    (htitles ▸ by simp) (htitles ▸ by simp)
  exact absurd heq (by decide)

end SmartPatents.VersionContent
