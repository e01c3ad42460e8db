/-
  GET /users and GET /inventors (`listUsers` of `src/services/userService.js`, `listInventors` of
  `src/services/inventorService.js`).

  Both page through a sorted query, and both sort by a column that is not unique: `createdAt` of an
  account, `fullName` of an inventor.  `listPatents` breaks ties by id, and says why: rows that share
  a timestamp can otherwise appear on two pages or on neither.  The two listings here do not.

  So the pages of a listing are its rows, each once, if and only if no group of ties crosses a page
  boundary (`directory_exact_iff`).  Two accounts of one moment, one to a page, are enough to break it.

  `Answers` is what the database may answer to a page: any arrangement of the rows that the sort
  key allows, cut at `skip` and `take`.  Two queries may arrange ties differently, so the pages
  are quantified over all answers, one for each page.

  `listUsers` and `listInventors` below are one such answer each, and `answers_listUsers`,
  `answers_listInventors` say so.  The general fact about sorting with ties, that slices of two
  arrangements agree exactly where no tie group is cut, is `Lib.Ties`; here it is read for both
  listings (`pagesExact_iff`).
-/
import SmartPatents.Lib.Ties
import SmartPatents.Listing

namespace SmartPatents.Directory

open Paging Access Reads

/-! ## The two listings -/

/-- The columns of an account that `listUsers` reads. -/
structure Account extends User where
  createdAt : Time
deriving DecidableEq

/-- Accounts are kept under their id. -/
def Account.key (a : Account) : Nat := a.id

/-- The query of `GET /users`. -/
structure UserFilters where
  role : Option Role
  search : Option String

/-- The `where` of `listUsers`. -/
def userWhere (contains : String → String → Bool) (f : UserFilters) (u : Account) : Bool :=
  given f.role (u.role == ·) &&
    given (truthy f.search) fun search => contains u.name search || contains u.email search

/-- The `where` of `listInventors`. -/
def inventorWhere (contains : String → String → Bool) (search : Option String) (i : Inventor) :
    Bool :=
  given (truthy search) fun search =>
    contains i.fullName search || contains i.email search || i.organization.any (contains · search)

/-- `orderBy: { createdAt: 'desc' }`. -/
def newestUser : SortKey Account where
  le a b := b.createdAt ≤ a.createdAt
  total a b := by
    simp only [decide_eq_true_eq]
    exact Nat.le_total _ _
  trans hab hbc := by
    simp only [decide_eq_true_eq] at *
    exact Nat.le_trans hbc hab

/-- `orderBy: { fullName: 'asc' }`, in the collation of the database. -/
def byFullName (collation : SortKey String) : SortKey Inventor where
  le a b := collation.le a.fullName b.fullName
  total _ _ := collation.total _ _
  trans := collation.trans

/-- The USER table, as `listUsers` sees it. -/
abbrev Accounts := Table Account Account.key

/-- The INVENTOR table. -/
abbrev Inventors := Table Inventor Inventor.id

/-- The accounts that the `where` of `listUsers` lets through, in table order. -/
def matchingUsers (contains : String → String → Bool) (f : UserFilters) (users : Accounts) :
    List Account :=
  users.rows.filter (userWhere contains f)

/-- The inventors that the `where` of `listInventors` lets through, in table order. -/
def matchingInventors (contains : String → String → Bool) (search : Option String)
    (inventors : Inventors) : List Inventor :=
  inventors.rows.filter (inventorWhere contains search)

/-- One possible answer to `findMany` with `skip` and `take`: ties stand in any order. -/
def Answers {R : Type} (o : SortKey R) (rows : List R) (page limit : Nat) (answer : Page R) : Prop :=
  ∃ sorted, Arrangement o rows sorted ∧ answer = paginate page limit sorted

/-- `listUsers`, where rows of one moment come in table order. -/
def listUsers (contains : String → String → Bool) (f : UserFilters) (page limit : Nat)
    (users : Accounts) : Page Account :=
  paginate page limit (newestUser.sort (matchingUsers contains f users))

/-- `listInventors`, where rows of one name come in table order. -/
def listInventors (contains : String → String → Bool) (collation : SortKey String)
    (search : Option String) (page limit : Nat) (inventors : Inventors) : Page Inventor :=
  paginate page limit ((byFullName collation).sort (matchingInventors contains search inventors))

/-- The pages 1 to `totalPages`, one after the other. -/
def allPages {R : Type} (answers : Nat → Page R) : List R :=
  (List.range (answers 1).totalPages).flatMap fun i => (answers (i + 1)).items

/-- `listUsers` answers a page of the matching rows, newest first. -/
theorem answers_listUsers (contains : String → String → Bool) (f : UserFilters) (page limit : Nat)
    (users : Accounts) : Answers newestUser (matchingUsers contains f users) page limit
      (listUsers contains f page limit users) :=
  ⟨_, newestUser.arrangement_sort _, rfl⟩

/-- `listInventors` answers a page of them in the order of the collation. -/
theorem answers_listInventors (contains : String → String → Bool) (collation : SortKey String)
    (search : Option String) (page limit : Nat) (inventors : Inventors) :
    Answers (byFullName collation) (matchingInventors contains search inventors) page limit
      (listInventors contains collation search page limit inventors) :=
  ⟨_, (byFullName collation).arrangement_sort _, rfl⟩

/-! ## When the pages fit together -/

section Exact

variable {R : Type} {o : SortKey R} {rows : List R} {limit : Nat}

/-- Whatever each query answers, the pages are the rows, each once. -/
def PagesExact (o : SortKey R) (rows : List R) (limit : Nat) : Prop :=
  ∀ answers : Nat → Page R, (∀ page, Answers o rows page limit (answers page)) →
    (allPages answers).Perm rows

/-- The pages of answers are pages of arrangements. -/
theorem allPages_eq {answers : Nat → Page R} {sorted : Nat → List R}
    (hsorted : ∀ page, Arrangement o rows (sorted page))
    (hanswers : ∀ page, answers page = paginate page limit (sorted page)) :
    allPages answers = pages limit (totalPages rows.length limit) fun i => sorted (i + 1) := by
  have htotal : (answers 1).totalPages = totalPages rows.length limit := by
    rw [hanswers, ← (hsorted 1).perm.length_eq]
    rfl
  rw [allPages, htotal, pages]
  refine congrArg (fun f => (List.range (totalPages rows.length limit)).flatMap f) (funext fun i => ?_)
  rw [hanswers]
  rfl

/-- The pages are exact when ties do not reach across a page. -/
theorem pagesExact_iff (hnodup : rows.Nodup) (hlimit : 1 ≤ limit) :
    PagesExact o rows limit ↔ TiesWithinPages o limit rows := by
  have hfit := pages_perm_iff (o := o) hnodup hlimit (Listing.le_totalPages hlimit rows.length)
  rw [← hfit]
  constructor
  · intro h sorted hsorted
    have hperm := h (fun page => paginate page limit (sorted (page - 1)))
      fun page => ⟨_, hsorted _, rfl⟩
    rw [allPages_eq (fun page => hsorted (page - 1)) fun _ => rfl] at hperm
    exact hperm
  · intro h answers hanswers
    choose sorted hsorted heq using hanswers
    rw [allPages_eq hsorted heq]
    exact h _ fun i => hsorted (i + 1)

end Exact

/-- A filter doubles no row. -/
theorem nodup_matchingUsers (contains : String → String → Bool) (f : UserFilters)
    (users : Accounts) : (matchingUsers contains f users).Nodup :=
  (List.Nodup.of_map _ users.nodup).sublist List.filter_sublist

theorem nodup_matchingInventors (contains : String → String → Bool) (search : Option String)
    (inventors : Inventors) : (matchingInventors contains search inventors).Nodup :=
  (List.Nodup.of_map _ inventors.nodup).sublist List.filter_sublist

/-- **Users and inventors page without loss** if and only if no group of ties crosses a page
    boundary. -/
theorem directory_exact_iff {contains : String → String → Bool} {collation : SortKey String}
    {f : UserFilters} {search : Option String} {users : Accounts} {inventors : Inventors}
    {limit : Nat} (hlimit : 1 ≤ limit) :
    (PagesExact newestUser (matchingUsers contains f users) limit ↔
        TiesWithinPages newestUser limit (matchingUsers contains f users)) ∧
      (PagesExact (byFullName collation) (matchingInventors contains search inventors) limit ↔
        TiesWithinPages (byFullName collation) limit
          (matchingInventors contains search inventors)) :=
  ⟨pagesExact_iff (nodup_matchingUsers contains f users) hlimit,
    pagesExact_iff (nodup_matchingInventors contains search inventors) hlimit⟩

/-! ## Two accounts of one moment -/

/-- An account that differs from others in its id and the moment of its creation only. -/
def account (id : Nat) (createdAt : Time) : Account :=
  { id := id, name := "Ada", email := toString id, passwordHash := "", role := .user,
    createdAt := createdAt }

/-- One of several inventors of one name. -/
def inventor (id : Nat) : Inventor := ⟨id, none, "John Smith", toString id, none, 5⟩

/-- Two accounts of one moment. -/
def twoAccounts : Accounts := ⟨[account 1 5, account 2 5], by decide⟩

/-- Two inventors of one name. -/
def twoInventors : Inventors := ⟨[inventor 1, inventor 2], by decide⟩

/-- Texts sorted by their length: a sort key with ties of its own. -/
def byLength : SortKey String where
  le a b := a.length ≤ b.length
  total a b := by
    simp only [decide_eq_true_eq]
    exact Nat.le_total _ _
  trans hab hbc := by
    simp only [decide_eq_true_eq] at *
    exact Nat.le_trans hab hbc

/-- Both on one page. -/
theorem directory_exact_iff_two :
    (PagesExact newestUser (matchingUsers (· == ·) ⟨none, none⟩ twoAccounts) 2 ↔
        TiesWithinPages newestUser 2 (matchingUsers (· == ·) ⟨none, none⟩ twoAccounts)) ∧
      (PagesExact (byFullName byLength) (matchingInventors (· == ·) none twoInventors) 2 ↔
        TiesWithinPages (byFullName byLength) 2
          (matchingInventors (· == ·) none twoInventors)) :=
  directory_exact_iff (by decide)

/-- One to a page: an account can be on both pages, and the other one on neither; and so can an
    inventor. -/
theorem not_directory_exact :
    (¬ ∀ (contains : String → String → Bool) (f : UserFilters) (users : Accounts) (limit : Nat),
      1 ≤ limit → PagesExact newestUser (matchingUsers contains f users) limit) ∧
    ¬ ∀ (contains : String → String → Bool) (collation : SortKey String) (search : Option String)
      (inventors : Inventors) (limit : Nat), 1 ≤ limit →
        PagesExact (byFullName collation) (matchingInventors contains search inventors) limit := by
  constructor
  · intro hall
    have hexact := hall (· == ·) ⟨none, none⟩ twoAccounts 1 (by decide)
    have hties := (pagesExact_iff (nodup_matchingUsers _ _ _) (by decide)).mp hexact
    exact absurd (hties (account 1 5) (by decide)) (by decide)
  · intro hall
    have hexact := hall (· == ·) byLength none twoInventors 1 (by decide)
    have hties := (pagesExact_iff (nodup_matchingInventors _ _ _) (by decide)).mp hexact
    exact absurd (hties (inventor 1) (by decide)) (by decide)

end SmartPatents.Directory
