/-
  `prisma/schema.prisma`: the rows of the patents schema, and the records that a query returns when
  it includes the relations of a row (`PATENT_INCLUDE`, `INVENTOR_INCLUDE`).

  Ids are positive BigInts and modelled as `Nat`; a nullable column is an `Option`.  Columns that no
  modelled function reads or writes are left out (`User.updatedAt`, `Patent.s3FileUrl`), and two
  that one module reads stand there: `User.createdBy` in `Api`, `User.createdAt` in `Directory`.

  The lengths of VARCHAR columns are not in the types: the chains of the bodies stay within them
  (`PatentBodies`, `UserBodies`), and where a length matters it is a hypothesis with a name
  (`PayloadSize.FitsColumns`).  Timestamps are milliseconds.  `Decimal` columns are what the
  driver hands over, and `Dto.decimalToNumber` makes numbers of them.

  `version` is the number that an edit of the content increments and the events announce; `status`
  is moved by the transitions of `Lifecycle` only.  No route deletes an account, so the SET NULL
  of `reviewerId` and of an inventor's `userId` never happens.
-/
import SmartPatents.Errors

namespace SmartPatents

/-! ## Rows -/

/-- USER, without the columns that `Api` and `Directory` add. -/
structure User where
  id : Nat
  name : String
  email : String
  passwordHash : String
  role : Role
deriving DecidableEq

/-- `enum PatentStatus`. -/
inductive PatentStatus
  | draft
  | pendingAi
  | pendingAdmin
  | approved
  | declined
deriving DecidableEq

/-- PATENT, one row of it.  The content is in the first four columns after the id; the rest is
    metadata and what the lifecycle stamps. -/
structure Patent where
  id : Nat
  title : String
  abstract : String
  specification : String
  /-- Unique. -/
  documentKey : Option String
  version : Nat
  /-- Unique. -/
  publicationNumber : Option String
  jurisdiction : Option String
  status : PatentStatus
  submittedBy : Nat
  submittedAt : Option Time
  reviewedAt : Option Time
  createdAt : Time
  updatedAt : Time
deriving DecidableEq

/-- `enum ReviewStage`. -/
inductive ReviewStage
  | aiFilter
  | adminReview
deriving DecidableEq

/-- `enum ReviewDecision`. -/
inductive ReviewDecision
  | pass
  | fail
  | flagged
deriving DecidableEq

/-- PATENT_REVIEW: one decision about a patent.  A review by the AI has no reviewer. -/
structure PatentReview where
  id : Nat
  patentId : Nat
  reviewerId : Option Nat
  reviewStage : ReviewStage
  decision : Option ReviewDecision
  /-- DECIMAL(5, 2), in hundredths. -/
  aiConfidenceScore : Option Int
  comments : Option String
  createdAt : Time
deriving DecidableEq

/-- INVENTOR: a person who may be credited, with or without an account. -/
structure Inventor where
  id : Nat
  /-- Unique. -/
  userId : Option Nat
  fullName : String
  /-- Unique. -/
  email : String
  organization : Option String
  createdAt : Time
deriving DecidableEq

/-- A credit: its key is the pair of ids. -/
structure PatentInventor where
  patentId : Nat
  inventorId : Nat
  inventorOrder : Int
deriving DecidableEq

/-- CATEGORY; names are unique. -/
structure Category where
  id : Nat
  name : String
deriving DecidableEq

/-- PATENT_CATEGORY: a patent is filed under a category. -/
structure PatentCategory where
  patentId : Nat
  categoryId : Nat
deriving DecidableEq

/-- The primary key of PATENT_INVENTOR: an inventor is credited once. -/
def PatentInventor.key (l : PatentInventor) : Nat × Nat := (l.patentId, l.inventorId)

/-- The primary key of PATENT_CATEGORY: a category is attached once. -/
def PatentCategory.key (l : PatentCategory) : Nat × Nat := (l.patentId, l.categoryId)

/-! ## Rows with their relations -/

/-- `select: { id: true, name: true, email: true }` of an account. -/
structure Party where
  id : Nat
  name : String
  email : String
deriving DecidableEq

/-- The columns that `include: { submitter }` and its like select. -/
def User.party (u : User) : Party := ⟨u.id, u.name, u.email⟩

/-- A patent with `PATENT_INCLUDE`: the categories and the credits carry the row they link to. -/
structure PatentRecord extends Patent where
  submitter : Option Party
  categories : List Category
  inventors : List (PatentInventor × Inventor)
deriving DecidableEq

/-- An inventor with `INVENTOR_INCLUDE`. -/
structure InventorRecord extends Inventor where
  user : Option Party
deriving DecidableEq

/-- A review with its reviewer. -/
structure ReviewRecord extends PatentReview where
  reviewer : Option Party
deriving DecidableEq

end SmartPatents
