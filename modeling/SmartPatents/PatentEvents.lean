/-
  `src/events/patentEvents.js`: the events that tell the Search Service what the corpus is.

  They are fat events: `patentVersionUpserted` copies everything a consumer indexes.  The random
  `event_id` and the clock are arguments.

  A consumer gets no more than the payload: the title, texts, categories and inventors as they are
  when the approval reads its record back, inside the transaction that also changes the status.
  That the event and the row agree at the commit is `UnderReview.reviewed_of_run`; that later
  renamings of categories and inventors are not announced is `FatEvents`.

  Ids are texts in a payload, and `sequence`, the id of the outbox row, is added by the relay when
  it sends the event (`OutboxRelay.message`).
-/
import SmartPatents.Schema
import Mathlib.Data.List.Sort

namespace SmartPatents.PatentEvents

/-- `AGGREGATE_TYPE` of `patentEvents.js`. -/
def AGGREGATE_TYPE : String := "patent"

/-- The event type an approval enqueues. -/
def UPSERTED : String := "PatentVersionUpserted"

/-- The event type of a decline that takes an approved patent out of the index. -/
def WITHDRAWN : String := "PatentVersionWithdrawn"

/-- One entry of `inventors` in an upsert. Ids are strings in a payload. -/
structure EventInventor where
  id : String
  fullName : String
  organization : Option String
  order : Int
deriving DecidableEq

/-- The payload of an upsert: everything a consumer indexes, read from the row as it commits. -/
structure Upserted where
  eventId : String
  patentId : String
  version : Nat
  title : String
  abstract : String
  specification : String
  publicationNumber : Option String
  jurisdiction : Option String
  categories : List String
  inventors : List EventInventor
  documentKey : Option String
  submittedBy : String
  occurredAt : Time
deriving DecidableEq

/-- The payload of a withdrawal: the patent, its version and why. -/
structure Withdrawn where
  eventId : String
  patentId : String
  version : Nat
  reason : String
  occurredAt : Time
deriving DecidableEq

/-- The payload of an OUTBOX_EVENT row of a patent. -/
inductive PatentEvent
  | upserted (e : Upserted)
  | withdrawn (e : Withdrawn)
deriving DecidableEq

/-- `event.event_type`. -/
def PatentEvent.eventType : PatentEvent → String
  | .upserted _ => UPSERTED
  | .withdrawn _ => WITHDRAWN

/-- One credited inventor, as `patentVersionUpserted` writes it. -/
def eventInventor (l : PatentInventor × Inventor) : EventInventor where
  id := toString l.2.id
  fullName := l.2.fullName
  organization := l.2.organization
  order := l.1.inventorOrder

/-- `patentVersionUpserted`, inventors in their credited order. -/
def patentVersionUpserted (patent : PatentRecord) (eventId : String) (now : Time) : PatentEvent :=
  .upserted
    { eventId := eventId
      patentId := toString patent.id
      version := patent.version
      title := patent.title
      abstract := patent.abstract
      specification := patent.specification
      publicationNumber := patent.publicationNumber
      jurisdiction := patent.jurisdiction
      categories := patent.categories.map Category.name
      inventors :=
        (patent.inventors.insertionSort fun a b => a.1.inventorOrder ≤ b.1.inventorOrder).map
          eventInventor
      documentKey := patent.documentKey
      submittedBy := toString patent.submittedBy
      occurredAt := now }

/-- `patentVersionWithdrawn`. -/
def patentVersionWithdrawn (patent : PatentRecord) (reason eventId : String) (now : Time) :
    PatentEvent :=
  .withdrawn
    { eventId := eventId
      patentId := toString patent.id
      version := patent.version
      reason := reason
      occurredAt := now }

end SmartPatents.PatentEvents
