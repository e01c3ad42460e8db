/-
  The patents database: its tables, and the queries that several services share.

  A foreign key that is followed by an `include` is a lookup by primary key.  Where a query has no
  `orderBy`, rows come in table order.

  Each table is a `Table` with its primary key, so that two rows of one key cannot be built;
  REFRESH_TOKEN and IDEMPOTENCY_KEY are with the modules that use them (`UserService`,
  `Idempotency`).  Other unique columns and the foreign keys are no invariants of the type: the
  statements of the services check them and fail, as the database does, and that they hold in
  every run is proved where it matters (`Taxonomy`, `Profiles`, `CatalogueOutline`).

  The records that the queries return (`patentInclude`, `inventorInclude`, `reviewInclude`) are
  computed from the tables when a statement reads them.  A DTO made of one later shows the rows of
  that moment, also where the response goes out after another request has changed them.
-/
import SmartPatents.Outbox
import SmartPatents.PatentEvents

namespace SmartPatents

/-- The tables that the patent, inventor and category services share. -/
structure Db where
  users : Table User User.id
  patents : Table Patent Patent.id
  reviews : Table PatentReview PatentReview.id
  inventors : Table Inventor Inventor.id
  categories : Table Category Category.id
  patentInventors : Table PatentInventor PatentInventor.key
  patentCategories : Table PatentCategory PatentCategory.key
  outbox : Outbox.OutboxTable PatentEvents.PatentEvent

namespace Db

/-- `findUnique({ where: { documentKey } })`; the column is unique, so at most one row has the key.
    -/
def patentByDocumentKey (d : Db) (documentKey : String) : Option Patent :=
  d.patents.find? fun p => p.documentKey == some documentKey

/-- `findUnique({ where: { publicationNumber } })`, a unique column as well. -/
def patentByPublicationNumber (d : Db) (publicationNumber : String) : Option Patent :=
  d.patents.find? fun p => p.publicationNumber == some publicationNumber

/-- What a query that includes an account selects of it. -/
def party? (d : Db) (userId : Nat) : Option Party := (d.users.get? userId).map User.party

/-- The credits of a patent, `orderBy: { inventorOrder: 'asc' }`. -/
def creditsOf (d : Db) (patentId : Nat) : List PatentInventor :=
  (d.patentInventors.rows.filter fun l => l.patentId == patentId).insertionSort
    fun a b => a.inventorOrder ≤ b.inventorOrder

/-- The category links of a patent. -/
def categoryLinksOf (d : Db) (patentId : Nat) : List PatentCategory :=
  d.patentCategories.rows.filter fun l => l.patentId == patentId

/-- A credit with its inventor. -/
def credited (d : Db) (l : PatentInventor) : Option (PatentInventor × Inventor) :=
  (d.inventors.get? l.inventorId).map fun i => (l, i)

/-- `include: PATENT_INCLUDE`. -/
def patentInclude (d : Db) (p : Patent) : PatentRecord where
  toPatent := p
  submitter := d.party? p.submittedBy
  categories := (d.categoryLinksOf p.id).filterMap fun l => d.categories.get? l.categoryId
  inventors := (d.creditsOf p.id).filterMap d.credited

/-- `include: INVENTOR_INCLUDE`. -/
def inventorInclude (d : Db) (i : Inventor) : InventorRecord where
  toInventor := i
  user := i.userId.bind d.party?

/-- `include: { reviewer: { select: … } }`. -/
def reviewInclude (d : Db) (r : PatentReview) : ReviewRecord where
  toPatentReview := r
  reviewer := r.reviewerId.bind d.party?

end Db

end SmartPatents
