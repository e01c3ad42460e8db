/-
  Concurrent edits of one patent.

  An edit writes the supplied columns and then replaces the supplied link sets, from lists that it
  resolved before its transaction and a copy of the row that may be stale.  The outcome of any
  number of concurrent edits is nevertheless that of the committed ones, one after another in
  commit order (`serial_of_run`): a column is only written where it was supplied, and the link sets
  of two edits never mix.

  `applyEdit` is the other side of the comparison, written from what it means to supply a field: a
  column gets the field if it was supplied and keeps its value otherwise, and a list that was
  supplied takes the place of the links.

  `version` is left out of the comparison.  Whether it goes up is decided on the copy, and what
  follows from that is the subject of `VersionContent`.

  The proof is one step and an induction.  `Serialised.tx` says what one committed transaction
  does to the sheet: an edit of the patent applies itself, and any other transaction leaves it as
  it is, because nothing but edits commits on the patent in these runs.
-/
import SmartPatents.PatentLinks

namespace SmartPatents.ConcurrentEdits

open ReadCommitted Runs Access Lifecycle Relations Storage PatentEvents PatentService

/-! ## Edits of a patent that is left alone -/

/-- The columns of a patent, its version left out (0), its category links and its credits. -/
structure Sheet where
  columns : Patent
  categories : List PatentCategory
  credits : List PatentInventor

/-- What a reader finds of a patent: its columns except `version`, and its links. -/
def sheet (d : Db) (row : Patent) : Sheet where
  columns := { row with version := 0 }
  categories := d.categoryLinksOf row.id
  credits := d.creditsOf row.id

/-- What the supplied fields and lists of an edit, written at `now`, make of a patent. -/
def applyEdit (s : Sheet) (edit : Updates × Time) : Sheet where
  columns :=
    { s.columns with
      title := edit.1.title.getD s.columns.title
      abstract := edit.1.abstract.getD s.columns.abstract
      specification := edit.1.specification.getD s.columns.specification
      documentKey := edit.1.documentKey.or s.columns.documentKey
      publicationNumber := edit.1.publicationNumber.getD s.columns.publicationNumber
      jurisdiction := edit.1.jurisdiction.getD s.columns.jurisdiction
      updatedAt := edit.2 }
  categories :=
    match edit.1.categoryIds with
    | none => s.categories
    | some ids => categoryRows s.columns.id (ids.map bigInt)
  credits :=
    match edit.1.inventors with
    | none => s.credits
    | some inventors => (creditRows s.columns.id (requestedLinks inventors)).insertionSort
        fun a b => a.inventorOrder ≤ b.inventorOrder

/-- The edit of patent `id` that a request asks for. -/
def editOf (r : Request) (id : Nat) : Option Updates :=
  match r with
  | .updatePatent _ id' updates => if id' = id then some updates else none
  | _ => none

/-- The committed edits of patent `id`, in commit order. -/
def editsOf (reqs : Nat → Request) (id : Nat) (log : List (Nat × List Write)) : List Updates :=
  log.filterMap fun e => editOf (reqs e.1) id

/-! ## One transaction -/

section Step

variable {reqs : Nat → Request} {p : Nat} {d : Db} {log : List (Nat × List Write)}
  {ws : List Write} {id : Nat} {row : Patent}

/-- A request about something else edits nothing here. -/
theorem editOf_eq_none {r : Request} (h : r.subject ≠ some id) : editOf r id = none := by
  cases r with
  | updatePatent user id' updates => exact if_neg fun he => h (congrArg some he)
  | _ => rfl

/-- A transaction of another request leaves the sheet of a patent alone. -/
theorem sheet_other (hlinks : LinkEffect (reqs p) d ws id) (hreq : (reqs p).subject ≠ some id)
    (hold : d.patents.get? id = some row) : sheet (after d ws) row = sheet d row := by
  obtain ⟨-, hid⟩ := Table.get?_eq_some.mp hold
  obtain rfl : row.id = id := hid
  obtain ⟨hcategories, hcredits⟩ := hlinks.other_kept hreq hold
  simp only [sheet, hcategories, hcredits]

/-- An edit that commits does what it would do to the patent if it were alone. -/
theorem sheet_update {user : Caller} {updates : Updates} {patent : Patent} {now : Time}
    (hlinks : LinkEffect (reqs p) d ws row.id) (hreq : reqs p = .updatePatent user row.id updates) :
    sheet (after d ws) (edited updates patent row now) = applyEdit (sheet d row) (updates, now) := by
  rw [hreq] at hlinks
  cases hlinks with
  | other hsubject => exact absurd rfl hsubject
  | delete hreq' => nomatch hreq'
  | writes _ hcategories hcredits =>
    have hcols : { edited updates patent row now with version := 0 } =
        { scalar updates { row with version := 0 } with updatedAt := now } := rfl
    have hcats : (after d ws).categoryLinksOf row.id =
        (applyEdit (sheet d row) (updates, now)).categories := by
      rw [← ofPatent_categoryLinks, hcategories]
      cases hids : updates.categoryIds <;> simp only [setsCategories, applyEdit, hids] <;> rfl
    have hcreds : (after d ws).creditsOf row.id =
        (applyEdit (sheet d row) (updates, now)).credits := by
      rw [creditsOf_eq, hcredits]
      cases hinv : updates.inventors <;> simp only [setsCredits, applyEdit, hinv] <;> rfl
    have hsheet : sheet (after d ws) (edited updates patent row now) =
        ⟨{ edited updates patent row now with version := 0 }, (after d ws).categoryLinksOf row.id,
          (after d ws).creditsOf row.id⟩ := rfl
    rw [hsheet, hcols, hcats, hcreds]
    rfl

end Step

/-! ## Every run -/

section Runs

variable {cfg : Config} {reqs : Nat → Request} {users : Table User User.id}
  {inventors : Table Inventor Inventor.id} {categories : Table Category Category.id}
  {σ σ' : State Db Ext Write Loc} {id : Nat} {row : Patent} {more : List (Nat × List Write)}

/-- Patent `id` is what the edits among `more`, one after another, make of `s`. -/
def Serialised (reqs : Nat → Request) (id : Nat) (s : Sheet) (d : Db)
    (more : List (Nat × List Write)) : Prop :=
  ∃ row times, d.patents.get? id = some row ∧ times.length = (editsOf reqs id more).length ∧
    sheet d row = ((editsOf reqs id more).zip times).foldl applyEdit s

/-- **Step lemma.** -/
theorem Serialised.tx {d : Db} {log : List (Nat × List Write)} {p : Nat} {ws : List Write}
    {s : Sheet} (h : Serialised reqs id s d more)
    (htx : PatentTx (fun _ _ _ => True) reqs p d log ws) (hlinks : LinkTx (reqs p) d ws)
    (honly : (reqs p).subject = some id → ∃ user updates, reqs p = .updatePatent user id updates) :
    Serialised reqs id s (after d ws) (more ++ [(p, ws)]) := by
  obtain ⟨row, times, hrow, hlength, hsheet⟩ := h
  have hlinks := htx.links hlinks id
  have hedits : editsOf reqs id (more ++ [(p, ws)]) =
      editsOf reqs id more ++ (editOf (reqs p) id).toList := by
    rw [editsOf, List.filterMap_append]
    cases he : editOf (reqs p) id <;> simp [he, editsOf]
  have hnotOnly : ∀ {r : Request}, reqs p = r → (∀ user updates, r ≠ .updatePatent user id updates) →
      r.subject = some id → False := by
    rintro r rfl hne hsubject
    obtain ⟨user, updates, hreq⟩ := honly hsubject
    exact hne user updates hreq
  cases htx.effect id with
  | other hreq hsame =>
    rw [Serialised, hedits, editOf_eq_none hreq, Option.toList_none, List.append_nil]
    exact ⟨row, times, hsame.trans hrow, hlength, (sheet_other hlinks hreq hrow).trans hsheet⟩
  | create hreq hunused hmem hold =>
    rw [hrow] at hold
    nomatch hold
  -- the edit that commits comes last in the order
  | @update user updates links ids now patent old hreq hold hstatus hknown hnew =>
    obtain rfl := Option.some.inj (hold.symm.trans hrow)
    obtain ⟨-, hid⟩ := Table.get?_eq_some.mp hold
    obtain rfl : old.id = id := hid
    have hedit : editOf (reqs p) old.id = some updates := by
      rw [hreq]
      exact if_pos rfl
    refine ⟨_, times ++ [now], hnew, ?_, ?_⟩
    · rw [hedits, hedit, List.length_append, List.length_append, hlength]
      rfl
    · rw [sheet_update hlinks hreq, hsheet, hedits, hedit, Option.toList_some,
        List.zip_append hlength.symm, List.foldl_append]
      rfl
  | submit hreq => exact (hnotOnly hreq (fun _ _ he => Request.noConfusion he) rfl).elim
  | review hreq =>
    refine (hnotOnly rfl (fun user updates he => ?_) hreq.subject).elim
    rw [he] at hreq
    nomatch hreq
  | delete hreq => exact (hnotOnly hreq (fun _ _ he => Request.noConfusion he) rfl).elim

/-- **Concurrent edits are serial.**  While only edits commit on a patent, its columns and its link
    sets are those that the committed edits give it, one after another in commit order. -/
theorem serial_of_run (hrun : Run (patents cfg reqs).step always (init users inventors categories) σ)
    (hlater : Run (patents cfg reqs).step always σ σ') (hlog : σ'.base.log = σ.base.log ++ more)
    (honly : ∀ e ∈ more, (reqs e.1).subject = some id →
      ∃ user updates, reqs e.1 = .updatePatent user id updates)
    (hrow : σ.base.db.patents.get? id = some row) :
    Serialised reqs id (sheet σ.base.db row) σ'.base.db more := by
  have hrun := landing_of_always hrun
  have hlater := landing_of_always hlater
  refine since (fun d more' => (∀ e ∈ more', (reqs e.1).subject = some id →
      ∃ user updates, reqs e.1 = .updatePatent user id updates) →
    Serialised reqs id (sheet σ.base.db row) d more')
    (linked_of_run (hrun.trans hlater)) hrun hlater hlog (fun hP htx honly => ?_)
    (fun _ => ⟨row, [], hrow, rfl, rfl⟩) honly
  refine (hP fun e he => honly e (List.mem_append_left _ he)).tx htx.1 htx.2 ?_
  exact honly _ (List.mem_append_right _ List.mem_cons_self)

/-! ## Two overlapping edits -/

/-- One edit: a title and a category. -/
def renamed : Updates := ⟨some "Pot", none, none, none, none, none, some ["1"], none⟩

/-- Another one: an abstract and another category. -/
def rewritten : Updates := ⟨none, some "It sings.", none, none, none, none, some ["2"], none⟩

/-- Both edits set the categories of the draft; one renames it, one replaces its abstract. -/
def overlapping : Nat → Request
  | 0 => .requestUpload ada "a.pdf" "application/pdf"
  | 1 => .createPatent ada firstInput
  | 2 => .updatePatent ada 1 renamed
  | _ => .updatePatent ada 1 rewritten

/-- The requests about the patent of the run are edits. -/
theorem overlapping_edits (p : Nat) (h : (overlapping p).subject = some 1) :
    ∃ user updates, overlapping p = .updatePatent user 1 updates := by
  match p with
  | 0 => nomatch h
  | 1 => nomatch h
  | 2 => exact ⟨ada, renamed, rfl⟩
  | n + 3 => exact ⟨ada, rewritten, rfl⟩

/-- Two categories and no patent yet. -/
def kitchen : State Db Ext Write Loc :=
  init accounts Table.empty ⟨[⟨1, "Kitchen"⟩, ⟨2, "Music"⟩], by decide⟩

/-- Both edits read the draft; edit 3 commits first. -/
def overlap : List (Act Oracle Upload) := steps 2 4 ++ steps 3 4 ++ steps 3 5 ++ steps 2 5

theorem overlapping_drafted : ((exec (patents pdfOnly overlapping).step kitchen drafted).bind
    fun σ => σ.base.db.patents.get? 1).isSome = true := by
  decide

theorem overlapping_runs : ((exec (patents pdfOnly overlapping).step kitchen drafted).bind
    fun σ => exec (patents pdfOnly overlapping).step σ overlap).isSome = true := by
  decide

/-- Two edits overlap, and the sheet is what one after the other would give. -/
theorem serial_of_overlap : ∃ σ σ' more row,
    exec (patents pdfOnly overlapping).step kitchen drafted = some σ ∧
    exec (patents pdfOnly overlapping).step σ overlap = some σ' ∧
    σ'.base.log = σ.base.log ++ more ∧
    Serialised overlapping 1 (sheet σ.base.db row) σ'.base.db more := by
  obtain ⟨σ', hσ'⟩ := Option.isSome_iff_exists.mp overlapping_runs
  obtain ⟨row, hrow⟩ := Option.isSome_iff_exists.mp overlapping_drafted
  obtain ⟨σ, hσ, hσ'⟩ := Option.bind_eq_some_iff.mp hσ'
  rw [hσ] at hrow
  have hlater : Run (patents pdfOnly overlapping).step always σ σ' := Run.of_exec hσ'
  obtain ⟨more, hmore⟩ := Machine.log_of_run _ hlater
  refine ⟨σ, σ', more, row, hσ, hσ', hmore.symm,
    serial_of_run (Run.of_exec hσ) hlater hmore.symm (fun e _ => overlapping_edits e.1) hrow⟩

end Runs

end SmartPatents.ConcurrentEdits
