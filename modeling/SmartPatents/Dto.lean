/-
  `src/utils/dto.js`: the response mappers.

  A DTO is the JSON object a client receives.  A key that may be missing from the object is an
  `Option` field whose name the source spreads conditionally (`email`) or leaves undefined
  (`submitter`); `null` is an `Option` as well, where the column is nullable.

  The mappers decide who sees an e-mail address.  `canSeeEmailOf` says it for accounts: an admin,
  or the person themselves.  `toInventorDetailDto` asks it of the linked account;
  `toPatentInventorDto` spreads `toInventorDto` and asks nobody, so the inventors of a patent show
  their addresses to whoever sees the patent.

  They are functions of the record and the viewer alone, and they are total: every row of the
  schema has a DTO.  What a reader can learn from them is the subject of `EmailPrivacy`, and what
  patents a reader gets at all that of `ReadPrivacy`.
-/
import SmartPatents.Schema

namespace SmartPatents.Dto

/-- An inventor as part of another object.  The address goes to every reader. -/
structure InventorDto where
  id : String
  fullName : String
  email : String
  organization : Option String
deriving DecidableEq

/-- `toInventorDto`, with the id as a text. -/
def toInventorDto (inventor : Inventor) : InventorDto where
  id := toString inventor.id
  fullName := inventor.fullName
  email := inventor.email
  organization := inventor.organization

/-- `decimalToNumber`. -/
def decimalToNumber (hundredths : Option Int) : Option Rat :=
  hundredths.map fun n => (n : Rat) / 100

/-- An address goes out to an admin and to the person it belongs to. -/
def canSeeEmailOf (viewer : Option Caller) (subjectUserId : Option Nat) : Bool :=
  match viewer with
  | none => false
  | some viewer => viewer.role == .admin || subjectUserId == some viewer.userId

/-- A person, with an address where the viewer may see it. -/
structure PartyDto where
  id : String
  name : String
  email : Option String
deriving DecidableEq

/-- `partyDto`: the address is left out unless it is the viewer's own, or the viewer is an admin. -/
def partyDto (party : Party) (viewer : Option Caller) : PartyDto where
  id := toString party.id
  name := party.name
  email := if canSeeEmailOf viewer (some party.id) then some party.email else none

/-- A category, with its id as a text. -/
structure CategoryDto where
  id : String
  name : String
deriving DecidableEq

/-- `toCategoryDto`. -/
def toCategoryDto (category : Category) : CategoryDto where
  id := toString category.id
  name := category.name

/-- An inventor on a page of its own: here the address is gated, unlike in `InventorDto`. -/
structure InventorDetailDto where
  id : String
  fullName : String
  organization : Option String
  email : Option String
  linkedUser : Option PartyDto
  createdAt : Time
deriving DecidableEq

/-- `includeEmail` is for the create response only. -/
def toInventorDetailDto (inventor : InventorRecord) (viewer : Option Caller)
    (includeEmail : Bool) : InventorDetailDto :=
  let dto := toInventorDto inventor.toInventor
  { id := dto.id
    fullName := dto.fullName
    organization := dto.organization
    email := if includeEmail || canSeeEmailOf viewer inventor.userId then some dto.email else none
    linkedUser := inventor.user.map fun u => partyDto u viewer
    createdAt := inventor.createdAt }

/-- A credit: the inventor, spread, and the place on the list. -/
structure PatentInventorDto extends InventorDto where
  order : Int
deriving DecidableEq

/-- Spreads `toInventorDto`; there is no viewer. -/
def toPatentInventorDto (link : PatentInventor × Inventor) : PatentInventorDto where
  toInventorDto := toInventorDto link.2
  order := link.1.inventorOrder

/-- A patent in a listing.  It says whether there is a document, not under which key. -/
structure PatentDto where
  id : String
  title : String
  abstract : String
  status : PatentStatus
  version : Nat
  publicationNumber : Option String
  jurisdiction : Option String
  submittedBy : String
  submitter : Option PartyDto
  categories : List CategoryDto
  inventors : List PatentInventorDto
  hasDocument : Bool
  submittedAt : Option Time
  reviewedAt : Option Time
  createdAt : Time
  updatedAt : Time
deriving DecidableEq

/-- The list shape. -/
def toPatentDto (patent : PatentRecord) (viewer : Option Caller) : PatentDto where
  id := toString patent.id
  title := patent.title
  abstract := patent.abstract
  status := patent.status
  version := patent.version
  publicationNumber := patent.publicationNumber
  jurisdiction := patent.jurisdiction
  submittedBy := toString patent.submittedBy
  submitter := patent.submitter.map fun p => partyDto p viewer
  categories := patent.categories.map toCategoryDto
  inventors := patent.inventors.map toPatentInventorDto
  hasDocument := patent.documentKey.any fun k => k != ""
  submittedAt := patent.submittedAt
  reviewedAt := patent.reviewedAt
  createdAt := patent.createdAt
  updatedAt := patent.updatedAt

/-- A patent on its own page, with the text and the key. -/
structure PatentDetailDto extends PatentDto where
  specification : String
  documentKey : Option String
deriving DecidableEq

/-- The detail shape. -/
def toPatentDetailDto (patent : PatentRecord) (viewer : Option Caller) : PatentDetailDto where
  toPatentDto := toPatentDto patent viewer
  specification := patent.specification
  documentKey := patent.documentKey

/-- A review, with the score as a number. -/
structure PatentReviewDto where
  id : String
  patentId : String
  stage : ReviewStage
  decision : Option ReviewDecision
  aiConfidenceScore : Option Rat
  comments : Option String
  reviewer : Option PartyDto
  createdAt : Time
deriving DecidableEq

/-- `toPatentReviewDto`: whoever reads a review sees its comments, and the reviewer's address where
    `partyDto` lets them. -/
def toPatentReviewDto (review : ReviewRecord) (viewer : Option Caller) : PatentReviewDto where
  id := toString review.id
  patentId := toString review.patentId
  stage := review.reviewStage
  decision := review.decision
  aiConfidenceScore := decimalToNumber review.aiConfidenceScore
  comments := review.comments
  reviewer := review.reviewer.map fun p => partyDto p viewer
  createdAt := review.createdAt

end SmartPatents.Dto
