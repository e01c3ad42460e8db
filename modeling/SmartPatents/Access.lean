/-
  `src/services/patents/access.js`: who may see and touch which patents.

  The gatekeepers of the patent endpoints.  `visibilityWhere` is a WHERE clause in the source and
  a predicate on rows here, since the database evaluates it row by row.

  `findVisiblePatent` answers 404 for what the caller may not see, and so tells nobody whether it
  exists.  `findOwnedPatent` tells a patent of somebody else (403) from none (404); `ReadPrivacy`
  says what follows where a read uses it.

  What `contains` and `mode: 'insensitive'` match is the database's, and a parameter (`Sql`).
-/
import SmartPatents.Database

namespace SmartPatents.Access

/-- `visibilityWhere`: admins see everything, everyone else their own patents and approved ones. -/
def visible (user : Caller) (p : Patent) : Bool :=
  user.isAdmin || p.submittedBy == user.userId || p.status == .approved

/-- The query string of a listing.  An empty string counts as absent, as in the source. -/
structure Filters where
  status : Option PatentStatus
  categoryId : Option Nat
  submittedBy : Option Nat
  jurisdiction : Option String
  search : Option String

/-- A filter that was not given holds of every row. -/
def given {α : Type} (f : Option α) (p : α → Bool) : Bool :=
  match f with
  | none => true
  | some a => p a

/-- `f ? … : …` on a string of the query. -/
def truthy (f : Option String) : Option String := f.filter fun s => s != ""

/-- `contains s search` is the database's case-insensitive match. -/
def matchesSearch (contains : String → String → Bool) (p : Patent) (search : String) : Bool :=
  contains p.title search || contains p.abstract search ||
    p.publicationNumber.any fun n => contains n search

/-- `buildListFilter`: visibility AND every filter given. -/
def listFilter (contains : String → String → Bool) (f : Filters) (user : Caller) (d : Db)
    (p : Patent) : Bool :=
  visible user p
  && given f.status (fun s => p.status == s)
  && given (truthy f.jurisdiction) (fun j => p.jurisdiction == some j)
  && given f.submittedBy (fun u => p.submittedBy == u)
  && given f.categoryId (fun c => (d.categoryLinksOf p.id).any fun l => l.categoryId == c)
  && given (truthy f.search) (matchesSearch contains p)

/-- `findVisiblePatent`: 404 for a patent that exists but is invisible. -/
def findVisiblePatent (id : Nat) (user : Caller) (d : Db) : Except AppError PatentRecord :=
  match d.patents.get? id with
  | none => .error (notFound "Patent not found")
  | some p =>
    if visible user p then .ok (d.patentInclude p) else .error (notFound "Patent not found")

/-- `findOwnedPatent`: 403 for somebody else's patent. -/
def findOwnedPatent (id : Nat) (user : Caller) (d : Db) : Except AppError PatentRecord :=
  match d.patents.get? id with
  | none => .error (notFound "Patent not found")
  | some p =>
    if p.submittedBy != user.userId && !user.isAdmin then
      .error (forbidden "You can only modify patents you submitted")
    else .ok (d.patentInclude p)

/-- The record is read from the row with the id. -/
theorem row_of_findOwnedPatent {id : Nat} {user : Caller} {d : Db} {patent : PatentRecord}
    (h : findOwnedPatent id user d = .ok patent) :
    ∃ row ∈ d.patents, row.id = id ∧ patent.toPatent = row := by
  unfold findOwnedPatent at h
  split at h
  · nomatch h
  · rename_i row hrow
    split at h
    · nomatch h
    · obtain ⟨hmem, hid⟩ := Table.get?_eq_some.mp hrow
      obtain rfl := Except.ok.inj h
      exact ⟨row, hmem, hid, rfl⟩

end SmartPatents.Access
