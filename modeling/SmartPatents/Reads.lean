/-
  The read endpoints: GET /patents, /patents/:id, /patents/:id/document, /patents/:id/reviews,
  /inventors, /inventors/:id.

  Each is the controller of `src/controllers` over its service function, up to the fixed envelope
  of `sendSuccess`: `.ok` is the `data` of a 200, `.error` what `sendError` describes.  `req.user`
  is present on every route (`requireUser`), and page and limit have passed validation.

  A read is a function of one database: what a property says about a read it says about the tables
  of one moment.  The order of rows that ORDER BY does not separate is left to a parameter
  (`Sql.tie`), and so are collation and case-insensitive matching.

  Who may read what: `listPatents`, `getPatentById` and `getDocumentUrl` go by `visible`, so a
  patent that the caller may not see is left out or is a 404; `listReviews` goes by ownership, and
  refuses with a 403.  `Listing`, `ReadPrivacy` and `EmailPrivacy` are about these functions.
-/
import SmartPatents.Access
import SmartPatents.Dto

namespace SmartPatents.Reads

open Dto

/-! ## What the database decides -/

/-- Collation, case-insensitive matching, and the order of rows that ORDER BY does not separate
    (a position for every id). -/
structure Sql where
  collate : String → String → Bool
  contains : String → String → Bool
  tie : Nat → Nat

/-- `orderBy: [{ createdAt: 'desc' }, { id: 'desc' }]`. -/
def newestPatent (a b : Patent) : Bool :=
  b.createdAt < a.createdAt || (a.createdAt == b.createdAt && b.id ≤ a.id)

/-- `orderBy: { createdAt: 'desc' }`. -/
def newestReview (sql : Sql) (a b : PatentReview) : Bool :=
  b.createdAt < a.createdAt || (a.createdAt == b.createdAt && sql.tie a.id ≤ sql.tie b.id)

/-- `orderBy: { fullName: 'asc' }`. -/
def alphabetic (sql : Sql) (a b : Inventor) : Bool :=
  if sql.collate a.fullName b.fullName && sql.collate b.fullName a.fullName then
    sql.tie a.id ≤ sql.tie b.id
  else sql.collate a.fullName b.fullName

/-- `skip: (page - 1) * limit, take: limit`. -/
def slice {α : Type} (page limit : Nat) (rows : List α) : List α :=
  (rows.drop ((page - 1) * limit)).take limit

/-- A page of results with its `pagination` object. -/
structure Page (α : Type) where
  items : List α
  total : Nat
  page : Nat
  limit : Nat
  totalPages : Nat
deriving DecidableEq

/-- `Math.ceil(total / limit) || 1`. -/
def totalPages (total limit : Nat) : Nat :=
  let pages := (total + limit - 1) / limit
  if pages = 0 then 1 else pages

/-- The object every listing answers with, over the rows that match. -/
def paginate {α : Type} (page limit : Nat) (rows : List α) : Page α where
  items := slice page limit rows
  total := rows.length
  page := page
  limit := limit
  totalPages := totalPages rows.length limit

/-- A page with each item made presentable. -/
def Page.map {α β : Type} (f : α → β) (p : Page α) : Page β :=
  { p with items := p.items.map f }

/-! ## Patents -/

/-- GET /patents. -/
def listPatents (sql : Sql) (f : Access.Filters) (page limit : Nat) (user : Caller) (d : Db) :
    Page PatentDto :=
  let rows := (d.patents.rows.filter (Access.listFilter sql.contains f user d)).insertionSort
    (newestPatent · ·)
  (paginate page limit rows).map fun p => toPatentDto (d.patentInclude p) (some user)

/-- GET /patents/:id. -/
def getPatentById (id : Nat) (user : Caller) (d : Db) : Except AppError PatentDetailDto :=
  (Access.findVisiblePatent id user d).map fun p => toPatentDetailDto p (some user)

/-- GET /patents/:id/reviews: owner or admin. -/
def listReviews (sql : Sql) (id : Nat) (user : Caller) (d : Db) :
    Except AppError (List PatentReviewDto) :=
  (Access.findOwnedPatent id user d).map fun _ =>
    ((d.reviews.rows.filter fun r => r.patentId == id).insertionSort
      (newestReview sql · ·)).map fun r => toPatentReviewDto (d.reviewInclude r) (some user)

/-- What signs a download: the SDK's presigner with `downloadUrlTtlSeconds`, and the clock. -/
structure Signer where
  sign : String → String
  downloadUrlTtlSeconds : Nat
  now : Time

/-- The answer of `getDownloadUrl`. -/
structure DocumentUrl where
  downloadUrl : String
  expiresAt : Time
deriving DecidableEq

/-- `presignDownload` of `patents/documents.js`. -/
def presignDownload (signer : Signer) (patent : PatentRecord) : Except AppError DocumentUrl :=
  match Access.truthy patent.documentKey with
  | none => .error (notFound "This patent has no attached document")
  | some key => .ok ⟨signer.sign key, signer.now + signer.downloadUrlTtlSeconds * 1000⟩

/-- GET /patents/:id/document. -/
def getDocumentUrl (signer : Signer) (id : Nat) (user : Caller) (d : Db) :
    Except AppError DocumentUrl :=
  (Access.findVisiblePatent id user d).bind (presignDownload signer)

/-! ## Inventors -/

/-- GET /inventors without a search term. -/
def listInventors (sql : Sql) (page limit : Nat) (user : Caller) (d : Db) :
    Page InventorDetailDto :=
  (paginate page limit (d.inventors.rows.insertionSort (alphabetic sql · ·))).map fun i =>
    toInventorDetailDto (d.inventorInclude i) (some user) false

/-- GET /inventors/:id. -/
def getInventorById (id : Nat) (user : Caller) (d : Db) : Except AppError InventorDetailDto :=
  match d.inventors.get? id with
  | none => .error (notFound "Inventor not found")
  | some i => .ok (toInventorDetailDto (d.inventorInclude i) (some user) false)

end SmartPatents.Reads
