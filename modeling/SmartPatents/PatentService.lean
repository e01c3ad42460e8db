/-
  `src/services/patentService.js` and `src/services/patents/documents.js`, as a READ COMMITTED
  machine.

  Seven requests, each cut at its database statements and storage calls: a `Loc` is what a request
  still has to do with the values it has read so far, `code` is the next statement.  JavaScript
  between two statements is part of the earlier one.

    requestUpload    start → done
    createPatent     start → head → inventorLinks → categoryIds → publication
                       → insert → linkCategories → linkInventors → reread → commit → done
    updatePatent     start → [attached → head →] publication → inventorLinks → categoryIds
                       → write → [unlinkCategories → linkCategories →]
                       [unlinkInventors → linkInventors →] reread → commit → [discard →] done
    submitForReview  start → write → reread → commit → done
    approve/decline  start → before → write → reread → create → [enqueue →] commit → done
    deletePatent     start → write → commit → discard → done

  From the write (for a create, the insert) to the commit a request is in its transaction; a review
  enters it at `before`.  A guarded write that matches no row continues at `refused`, which reads
  the current status for the error text.

  The object store lives outside the database (`Ext`): its calls are steps of their own and are not
  undone by a rollback.  Clients upload to it in `Upload` steps: at most once per issued key, within
  the size limit, and before any request has supplied the key to the API.

  What the statements read is what READ COMMITTED shows: the committed tables with the
  transaction's own writes on top.  An UPDATE or DELETE takes the lock of its row and waits for
  whoever holds it; the `where` of a guarded write is evaluated on the row as it is once the lock
  is granted.  Unique columns lock the value they write, and a foreign key locks the row it refers
  to in share mode (`locks`).  `Lib.ReadCommitted` has the step relation.

  A step may fail in the database or the process may die (`Act.fail`): the transaction is rolled
  back, and the request ends at `failed`.  Sequences are not rolled back, so ids may have gaps and
  are never used twice.

  The guards that the properties rest on: `applyTransition` and `updateWrite` check the status in
  the `where` of the UPDATE, so two transitions of one patent never land on the same status;
  `deleteWrite` checks that the patent is a draft.  Two decisions rest on earlier reads instead:
  whether the content changed (`edited`), and whether a decline is a withdrawal (`buildEvent`).
  `PatentTx` makes these the parameter `J`.
-/
import SmartPatents.Access
import SmartPatents.Lib.Serial
import SmartPatents.Lifecycle
import SmartPatents.Relations
import SmartPatents.Storage

namespace SmartPatents.PatentService

open ReadCommitted Access Lifecycle Relations Storage PatentEvents

/-! ## Requests -/

/-- The body of POST /patents.  A missing optional string and `null` are the same to the service. -/
structure CreateInput where
  title : String
  abstract : String
  specification : String
  documentKey : String
  publicationNumber : Option String
  jurisdiction : Option String
  categoryIds : Option (List String)
  inventors : Option (List InventorEntry)

/-- The body of PATCH /patents/:id: `none` is a missing field, `some none` an explicit `null`. -/
structure Updates where
  title : Option String
  abstract : Option String
  specification : Option String
  documentKey : Option String
  publicationNumber : Option (Option String)
  jurisdiction : Option (Option String)
  categoryIds : Option (List String)
  inventors : Option (List InventorEntry)

/-- The handlers of the service that write or issue an upload URL. -/
inductive Request
  | requestUpload (user : Caller) (filename contentType : String)
  | createPatent (user : Caller) (input : CreateInput)
  | updatePatent (user : Caller) (id : Nat) (updates : Updates)
  | submitForReview (user : Caller) (id : Nat)
  | approvePatent (admin : Caller) (id : Nat) (comments : Option String)
  | declinePatent (admin : Caller) (id : Nat) (comments : Option String)
  | deletePatent (user : Caller) (id : Nat)

/-- The document key that a request hands to the API. -/
def Request.documentKey : Request → Option String
  | .createPatent _ input => some input.documentKey
  | .updatePatent _ _ updates => updates.documentKey
  | _ => none

/-- What a handler answers, or the error it throws. -/
inductive Reply
  | upload (objectKey contentType : String) (maxBytes : Nat) (expiresAt : Time)
  | patent (record : PatentRecord)
  | ok
  | thrown (e : Thrown)
deriving DecidableEq

/-! ## State -/

/-- One row written, with the row it replaces where the statement read one. -/
inductive Write
  | insertPatent (p : Patent)
  | updatePatent (old new : Patent)
  /-- Cascades to the reviews and links of the patent. -/
  | deletePatent (old : Patent)
  | insertCategory (l : PatentCategory)
  | deleteCategory (l : PatentCategory)
  | insertInventor (l : PatentInventor)
  | deleteInventor (l : PatentInventor)
  | insertReview (r : PatentReview)
  | insertEvent (e : Outbox.OutboxEvent PatentEvent)
deriving DecidableEq

/-- What a row written does to the tables. -/
def apply (d : Db) : Write → Db
  | .insertPatent p => { d with patents := d.patents.put p }
  | .updatePatent _ new => { d with patents := d.patents.put new }
  | .deletePatent old =>
    { d with
      patents := d.patents.erase old.id
      reviews := d.reviews.deleteWhere fun r => r.patentId == old.id
      patentCategories := d.patentCategories.deleteWhere fun l => l.patentId == old.id
      patentInventors := d.patentInventors.deleteWhere fun l => l.patentId == old.id }
  | .insertCategory l => { d with patentCategories := d.patentCategories.put l }
  | .deleteCategory l => { d with patentCategories := d.patentCategories.erase l.key }
  | .insertInventor l => { d with patentInventors := d.patentInventors.put l }
  | .deleteInventor l => { d with patentInventors := d.patentInventors.erase l.key }
  | .insertReview r => { d with reviews := d.reviews.put r }
  | .insertEvent e => { d with outbox := d.outbox.put e }

/-- Lockable rows; a unique column locks its value. -/
inductive Row
  | patent (id : Nat)
  | documentKey (key : String)
  | publicationNumber (number : String)
  | category (id : Nat)
  | inventor (id : Nat)
  | patentCategory (key : Nat × Nat)
  | patentInventor (key : Nat × Nat)
  | review (id : Nat)
  | event (id : Nat)
deriving DecidableEq

/-- A row of PATENT with the values of its unique columns. -/
def patentLocks (p : Patent) : List (Lock Row) :=
  ⟨.patent p.id, false⟩ ::
    (p.documentKey.toList.map fun k => ⟨.documentKey k, false⟩) ++
    p.publicationNumber.toList.map fun n => ⟨.publicationNumber n, false⟩

/-- A foreign key locks the row it refers to in share mode. -/
def locks : Write → List (Lock Row)
  | .insertPatent p => patentLocks p
  | .updatePatent old new => patentLocks old ++ patentLocks new
  | .deletePatent old => patentLocks old
  | .insertCategory l => [⟨.patentCategory l.key, false⟩, ⟨.category l.categoryId, true⟩]
  | .deleteCategory l => [⟨.patentCategory l.key, false⟩]
  | .insertInventor l => [⟨.patentInventor l.key, false⟩, ⟨.inventor l.inventorId, true⟩]
  | .deleteInventor l => [⟨.patentInventor l.key, false⟩]
  | .insertReview r => [⟨.review r.id, false⟩]
  | .insertEvent e => [⟨.event e.id, false⟩]

/-- The state outside the database: sequences, the store, the keys issued so far (with the user
    they were issued to), uploaded to, and handed to the API. -/
structure Ext where
  nextPatentId : Nat
  nextReviewId : Nat
  nextEventId : Nat
  objects : Bucket
  issued : List (Nat × String)
  uploaded : List String
  handed : List String

/-- What a statement cannot compute: the clock, a random uuid, whether the store carries out a
    delete. -/
structure Oracle where
  now : Time
  uuid : String
  deleted : Bool

/-! ## Program points -/

/-- Where `createPatent` is, with what it has resolved so far. -/
inductive CreateLoc
  | head
  | oversized (size : Nat)
  | inventorLinks
  | categoryIds (links : List InventorLink)
  | publication (links : List InventorLink) (categoryIds : List Nat)
  | insert (links : List InventorLink) (categoryIds : List Nat)
  | linkCategories (id : Nat) (links : List InventorLink) (categoryIds : List Nat)
  | linkInventors (id : Nat) (links : List InventorLink)
  | reread (id : Nat)
  | commit (record : PatentRecord)

/-- `patent` is the record read before the transaction. -/
inductive UpdateLoc
  | attached (patent : PatentRecord)
  | head (patent : PatentRecord)
  | oversized (size : Nat)
  | publication (patent : PatentRecord)
  | inventorLinks (patent : PatentRecord)
  | categoryIds (patent : PatentRecord) (links : Option (List InventorLink))
  | write (patent : PatentRecord) (links : Option (List InventorLink))
      (categoryIds : Option (List Nat))
  | refused
  | unlinkCategories (patent : PatentRecord) (links : Option (List InventorLink))
      (categoryIds : List Nat)
  | linkCategories (patent : PatentRecord) (links : Option (List InventorLink))
      (categoryIds : List Nat)
  | unlinkInventors (patent : PatentRecord) (links : List InventorLink)
  | linkInventors (patent : PatentRecord) (links : List InventorLink)
  | reread (patent : PatentRecord)
  | commit (patent record : PatentRecord)

/-- Where `submitForReview` is, inside its transaction. -/
inductive SubmitLoc
  | write
  | refused
  | reread
  | commit (record : PatentRecord)

/-- `before` is the status read at the start of the transaction. -/
inductive ReviewLoc
  | before
  | write (before : Option PatentStatus)
  | refused
  | reread (before : Option PatentStatus)
  | create (before : Option PatentStatus) (record : PatentRecord)
  | enqueue (event : PatentEvent) (record : PatentRecord)
  | commit (record : PatentRecord)

/-- Where `deletePatent` is. The patent is what `findOwnedPatent` read before the transaction. -/
inductive DeleteLoc
  | write (patent : PatentRecord)
  | refused
  | commit (patent : PatentRecord)

/-- Where a request is. `discard` is the deletion of an object after the commit, and `throwing`
    rolls a transaction back. -/
inductive Loc
  | start
  | create (l : CreateLoc)
  | update (l : UpdateLoc)
  | submit (l : SubmitLoc)
  | review (l : ReviewLoc)
  | delete (l : DeleteLoc)
  | discard (objectKey : Option String) (reply : Reply)
  | throwing (e : Thrown)
  | done (r : Reply)

/-- What one statement does: its writes, the rest of the state, and where the request continues. -/
abbrev Outcome := List Write × Ext × Loc

/-- Nothing is written and the handler goes on. -/
def goOn (x : Ext) (l : Loc) : Outcome := ([], x, l)

/-- The handler throws an error of its own. -/
def throw_ (x : Ext) (e : AppError) : Outcome := goOn x (.throwing (.app e))

/-- The database refuses the statement, and Prisma throws with this code. -/
def violates (x : Ext) (code : String) : Outcome := goOn x (.throwing (.prisma code))

/-- Continue with the value of a check, or throw its error. -/
def orThrow {α : Type} (x : Ext) (r : Except AppError α) (next : α → Loc) : Outcome :=
  match r with
  | .error e => throw_ x e
  | .ok a => goOn x (next a)

/-! ## `patents/documents.js` -/

/-- `verifyDocument`, up to its `findUnique`. -/
def verifyDocument (objectKey : String) (userId : Nat) (allowPatentId : Option Nat) (next : Loc)
    (d : Db) (x : Ext) : Outcome :=
  if !keyBelongsToUser objectKey userId then
    throw_ x (badRequest
      "documentKey was not issued to you; request one from POST /patents/uploads")
  else
    -- nothing is locked: the unique column has the last word
    match d.patentByDocumentKey objectKey with
    | none => goOn x next
    | some attached =>
      if allowPatentId = some attached.id then goOn x next
      else throw_ x (conflict "That document is already attached to another patent")

/-- The `headObject` of `verifyDocument`. -/
def verifyHead (cfg : Config) (objectKey : String) (next : Loc) (oversized : Nat → Loc) (x : Ext) :
    Outcome :=
  match headObject x.objects objectKey with
  | none => throw_ x (badRequest "No uploaded document found for that documentKey")
  | some size => if size > cfg.maxUploadBytes then goOn x (oversized size) else goOn x next

/-- The delete of an oversized upload. -/
def discardOversized (cfg : Config) (objectKey : String) (size : Nat) (o : Oracle) (x : Ext) :
    Outcome :=
  throw_ { x with objects := deleteObject x.objects objectKey o.deleted }
    (badRequest ("Uploaded document is " ++ toString size ++ " bytes; the maximum is " ++
      toString cfg.maxUploadBytes))

/-- `discardObject`. -/
def discardObject (objectKey : Option String) (reply : Reply) (o : Oracle) (x : Ext) : Outcome :=
  match objectKey with
  | none => goOn x (.done reply)
  -- after the commit; a delete that fails is logged and forgotten
  | some key => goOn { x with objects := deleteObject x.objects key o.deleted } (.done reply)

/-- `requestUpload` (`storageService.presignUpload`). -/
def requestUpload (cfg : Config) (user : Caller) (filename contentType : String) (o : Oracle)
    (x : Ext) : Outcome :=
  if contentType ∈ cfg.allowedUploadTypes then
    let objectKey := buildObjectKey user.userId o.uuid filename
    goOn { x with issued := (user.userId, objectKey) :: x.issued }
      (.done (.upload objectKey contentType cfg.maxUploadBytes
        (o.now + cfg.uploadUrlTtlSeconds * 1000)))
  else
    throw_ x (badRequest ("Unsupported content type \"" ++ contentType ++ "\". Allowed: " ++
      commaList cfg.allowedUploadTypes))

/-! ## Statements of the write paths -/

/-- `assertPublicationNumberFree`. Nothing is locked, so the unique column has the last word. -/
def assertPublicationNumberFree (publicationNumber : Option String) (exceptId : Option Nat)
    (next : Loc) (d : Db) (x : Ext) : Outcome :=
  -- an empty string stands for no number
  match truthy publicationNumber with
  | none => goOn x next
  | some number =>
    match d.patentByPublicationNumber number with
    | none => goOn x next
    | some clash =>
      if exceptId = some clash.id then goOn x next
      else throw_ x (conflict "A patent with that publication number already exists")

/-- A unique column of `p` has a value that another row has. -/
def uniqueClash (d : Db) (p : Patent) : Bool :=
  d.patents.rows.any fun q => q.id != p.id &&
    ((p.documentKey.isSome && q.documentKey == p.documentKey) ||
      (p.publicationNumber.isSome && q.publicationNumber == p.publicationNumber))

/-- INSERT of the category links of a patent, in one statement. -/
def insertCategories (id : Nat) (categoryIds : List Nat) (next : Loc) (d : Db) (x : Ext) :
    Outcome :=
  -- the primary key first, then the foreign keys
  if !categoryIds.Nodup ∨ categoryIds.any fun c => (d.patentCategories.get? (id, c)).isSome then
    violates x "P2002"
  else if categoryIds.all fun c => (d.categories.get? c).isSome then
    (categoryIds.map fun c => .insertCategory ⟨id, c⟩, x, next)
  else violates x "P2003"

/-- INSERT of the credits of a patent, in one statement. -/
def insertInventors (id : Nat) (links : List InventorLink) (next : Loc) (d : Db) (x : Ext) :
    Outcome :=
  -- the primary key first, then the foreign keys
  if !(links.map InventorLink.inventorId).Nodup ∨
      links.any fun l => (d.patentInventors.get? (id, l.inventorId)).isSome then
    violates x "P2002"
  else if links.all fun l => (d.inventors.get? l.inventorId).isSome then
    (links.map fun l => .insertInventor ⟨id, l.inventorId, l.inventorOrder⟩, x, next)
  else violates x "P2003"

/-- The record that an operation returns.  The row has been written in the same transaction. -/
def reread (id : Nat) (next : PatentRecord → Loc) (d : Db) (x : Ext) : Outcome :=
  match d.patents.get? id with
  | none => goOn x (.throwing .typeError)
  | some p => goOn x (next (d.patentInclude p))

/-- The status of a row for an error text; `absent` is what JavaScript prints without a row. -/
def currentStatus (id : Nat) (absent : String) (d : Db) : String :=
  match d.patents.get? id with
  | none => absent
  | some p => statusText p.status

/-! ## createPatent -/

section Create

variable (cfg : Config) (user : Caller) (input : CreateInput)

/-- The row of a new draft. -/
def draftOf (id : Nat) (now : Time) : Patent where
  id := id
  title := input.title
  abstract := input.abstract
  specification := input.specification
  documentKey := some input.documentKey
  version := 1
  publicationNumber := truthy input.publicationNumber
  jurisdiction := truthy input.jurisdiction
  status := .draft
  submittedBy := user.userId
  submittedAt := none
  reviewedAt := none
  createdAt := now
  updatedAt := now

/-- INSERT of the row of `prisma.patent.create`. -/
def insertPatent (links : List InventorLink) (categoryIds : List Nat) (o : Oracle) (d : Db)
    (x : Ext) : Outcome :=
  let patent := draftOf user input x.nextPatentId o.now
  let x := { x with nextPatentId := x.nextPatentId + 1 }
  if uniqueClash d patent then violates x "P2002"
  else if (d.users.get? user.userId).isNone then violates x "P2003"
  else ([.insertPatent patent], x, .create (.linkCategories patent.id links categoryIds))

/-- The statements of `createPatent`: the checks, then one transaction from the INSERT on. -/
def createCode : CreateLoc → Instr Db Ext Write Oracle Loc
  | .head => .auto fun _ _ x =>
      verifyHead cfg input.documentKey (.create .inventorLinks) (fun s => .create (.oversized s)) x
  | .oversized size => .auto fun o _ x => discardOversized cfg input.documentKey size o x
  | .inventorLinks => .auto fun _ d x =>
      orThrow x (resolveInventorLinks (input.inventors.getD []) d) fun links =>
        .create (.categoryIds links)
  | .categoryIds links => .auto fun _ d x =>
      orThrow x (resolveCategoryIds (input.categoryIds.getD []) d) fun ids =>
        .create (.publication links ids)
  | .publication links ids => .auto fun _ d x =>
      assertPublicationNumberFree input.publicationNumber none (.create (.insert links ids)) d x
  | .insert links ids => .stmt (insertPatent user input links ids)
  | .linkCategories id links ids => .stmt fun _ d x =>
      insertCategories id ids (.create (.linkInventors id links)) d x
  | .linkInventors id links => .stmt fun _ d x =>
      insertInventors id links (.create (.reread id)) d x
  | .reread id => .stmt fun _ d x => reread id (fun r => .create (.commit r)) d x
  | .commit record => .commit (.done (.patent record))

end Create

/-! ## updatePatent -/

/-- Some supplied field of `CONTENT_FIELDS` differs from the record. -/
def contentChanged (updates : Updates) (patent : Patent) : Bool :=
  updates.title.any (· != patent.title) || updates.abstract.any (· != patent.abstract) ||
    updates.specification.any (· != patent.specification) ||
    updates.documentKey.any fun k => some k != patent.documentKey

/-- The supplied fields of `CONTENT_FIELDS` and `METADATA_FIELDS`. -/
def scalar (updates : Updates) (row : Patent) : Patent :=
  { row with
    title := updates.title.getD row.title
    abstract := updates.abstract.getD row.abstract
    specification := updates.specification.getD row.specification
    documentKey := updates.documentKey.or row.documentKey
    publicationNumber := updates.publicationNumber.getD row.publicationNumber
    jurisdiction := updates.jurisdiction.getD row.jurisdiction }

/-- What the UPDATE makes of `row`.  Whether the version grows was decided on the record `patent`
    that was read before the transaction. -/
def edited (updates : Updates) (patent row : Patent) (now : Time) : Patent :=
  { scalar updates row with
    version := if contentChanged updates patent then row.version + 1 else row.version
    updatedAt := now }

/-- `updatePatent`: the key given is not the patent's own. -/
def replacingDocument (updates : Updates) (patent : Patent) : Bool :=
  (truthy updates.documentKey).any fun k => some k != patent.documentKey

section Update

variable (cfg : Config) (user : Caller) (id : Nat) (updates : Updates)

/-- `updatePatent`, up to its first checks. -/
def updatePatent (d : Db) (x : Ext) : Outcome :=
  match findOwnedPatent id user d with
  | .error e => throw_ x e
  | .ok patent =>
    -- for the text only: the guard of the UPDATE is what counts
    if patent.status ∉ EDITABLE_STATUSES then
      throw_ x (conflict ("A patent with status \"" ++ statusText patent.status ++
        "\" cannot be edited"))
    else if replacingDocument updates patent.toPatent then goOn x (.update (.attached patent))
    else goOn x (.update (.publication patent))

/-- Where an update goes after its row and category links. -/
def thenInventors (patent : PatentRecord) (links : Option (List InventorLink)) : Loc :=
  match links with
  | none => .update (.reread patent)
  | some links => .update (.unlinkInventors patent links)

/-- Where an update goes after its row: to its category links, when the request names any. -/
def thenCategories (patent : PatentRecord) (links : Option (List InventorLink))
    (categoryIds : Option (List Nat)) : Loc :=
  match categoryIds with
  | none => thenInventors patent links
  | some ids => .update (.unlinkCategories patent links ids)

/-- The guarded UPDATE. -/
def updateWrite (patent : PatentRecord) (links : Option (List InventorLink))
    (categoryIds : Option (List Nat)) (o : Oracle) (d : Db) (x : Ext) : Outcome :=
  match d.patents.get? id with
  -- deleted since it was read
  | none => goOn x (.update .refused)
  | some row =>
    if row.status ∈ EDITABLE_STATUSES then
      let new := edited updates patent.toPatent row o.now
      if uniqueClash d new then violates x "P2002"
      else ([.updatePatent row new], x, thenCategories patent links categoryIds)
    else goOn x (.update .refused)

/-- The statements of `updatePatent`. The old document is discarded after the commit. -/
def updateCode : UpdateLoc → Instr Db Ext Write Oracle Loc
  | .attached patent => .auto fun _ d x =>
      verifyDocument (updates.documentKey.getD "") user.userId (some id) (.update (.head patent)) d x
  | .head patent => .auto fun _ _ x =>
      verifyHead cfg (updates.documentKey.getD "") (.update (.publication patent))
        (fun s => .update (.oversized s)) x
  | .oversized size => .auto fun o _ x =>
      discardOversized cfg (updates.documentKey.getD "") size o x
  | .publication patent => .auto fun _ d x =>
      assertPublicationNumberFree (updates.publicationNumber.getD none) (some id)
        (.update (.inventorLinks patent)) d x
  | .inventorLinks patent => .auto fun _ d x =>
      match updates.inventors with
      | none => goOn x (.update (.categoryIds patent none))
      | some inventors => orThrow x (resolveInventorLinks inventors d) fun links =>
          .update (.categoryIds patent (some links))
  | .categoryIds patent links => .auto fun _ d x =>
      match updates.categoryIds with
      | none => goOn x (.update (.write patent links none))
      | some ids => orThrow x (resolveCategoryIds ids d) fun ids =>
          .update (.write patent links (some ids))
  | .write patent links ids => .stmt (updateWrite id updates patent links ids)
  | .refused => .stmt fun _ d x =>
      throw_ x (conflict ("A patent with status \"" ++ currentStatus id "undefined" d ++
        "\" cannot be edited"))
  -- a supplied list replaces the links: all are deleted, and then inserted
  | .unlinkCategories patent links ids => .stmt fun _ d x =>
      ((d.categoryLinksOf id).map .deleteCategory, x, .update (.linkCategories patent links ids))
  | .linkCategories patent links ids => .stmt fun _ d x =>
      insertCategories id ids (thenInventors patent links) d x
  | .unlinkInventors patent links => .stmt fun _ d x =>
      ((d.creditsOf id).map .deleteInventor, x, .update (.linkInventors patent links))
  | .linkInventors patent links => .stmt fun _ d x =>
      insertInventors id links (.update (.reread patent)) d x
  | .reread patent => .stmt fun _ d x => reread id (fun r => .update (.commit patent r)) d x
  | .commit patent record =>
      -- the document of the record read first is no longer attached
      .commit (if replacingDocument updates patent.toPatent then
        .discard patent.documentKey (.patent record) else .done (.patent record))

end Update

/-! ## Transitions -/

/-- What the UPDATE of `applyTransition` makes of `row`; `stamp` writes the caller's timestamp. -/
def transitioned (action : Action) (stamp : Time → Patent → Patent) (now : Time) (row : Patent) :
    Patent :=
  { stamp now row with status := (TRANSITIONS action).to, updatedAt := now }

/-- The guarded UPDATE of `applyTransition`. -/
def applyTransition (id : Nat) (action : Action) (stamp : Time → Patent → Patent)
    (next refused : Loc) (o : Oracle) (d : Db) (x : Ext) : Outcome :=
  match d.patents.get? id with
  | none => goOn x refused
  | some row =>
    if row.status ∈ (TRANSITIONS action).from then
      ([.updatePatent row (transitioned action stamp o.now row)], x, next)
    else goOn x refused

/-- The guarded UPDATE matched no row: a second read says which status refused it. -/
def transitionRefused (id : Nat) (action : Action) (d : Db) (x : Ext) : Outcome :=
  throw_ x (transitionConflict action (currentStatus id "unknown" d))

/-- The data `submitForReview` hands to `applyTransition`. -/
def stampSubmitted (now : Time) (p : Patent) : Patent := { p with submittedAt := some now }

/-- The data `approvePatent` and `declinePatent` hand to `applyTransition`. -/
def stampReviewed (now : Time) (p : Patent) : Patent := { p with reviewedAt := some now }

/-! ## submitForReview -/

/-- `submitForReview`, up to its transaction. -/
def submitForReview (user : Caller) (id : Nat) (d : Db) (x : Ext) : Outcome :=
  match findOwnedPatent id user d with
  | .error e => throw_ x e
  | .ok patent =>
    match assertTransition patent.toPatent .submit with
    | .error e => throw_ x e
    | .ok _ =>
      if (truthy patent.documentKey).isNone then
        throw_ x (conflict "A patent cannot be submitted without an uploaded document")
      else goOn x (.submit .write)

/-- The statements of `submitForReview`, one transaction. -/
def submitCode (id : Nat) : SubmitLoc → Instr Db Ext Write Oracle Loc
  | .write => .stmt (applyTransition id .submit stampSubmitted (.submit .reread)
      (.submit .refused))
  | .refused => .stmt fun _ d x => transitionRefused id .submit d x
  | .reread => .stmt fun _ d x => reread id (fun r => .submit (.commit r)) d x
  | .commit record => .commit (.done (.patent record))

/-! ## review -/

/-- `requireAdmin`, then `review` up to its transaction. -/
def review (admin : Caller) (id : Nat) (action : Action) (d : Db) (x : Ext) : Outcome :=
  if !admin.isAdmin then
    throw_ x (forbidden "You do not have permission to perform this action")
  else
    match d.patents.get? id with
    | none => throw_ x (notFound "Patent not found")
    | some patent =>
      match assertTransition patent action with
      | .error e => throw_ x e
      | .ok _ => goOn x (.review .before)

/-- `buildEvent` of `approvePatent` and `declinePatent`. -/
def buildEvent (action : Action) (patent : PatentRecord) (previousStatus : PatentStatus)
    (o : Oracle) : Option PatentEvent :=
  match action with
  | .approve => some (patentVersionUpserted patent o.uuid o.now)
  | .decline =>
    -- only what was published has to be withdrawn
    if previousStatus = .approved then some (patentVersionWithdrawn patent "declined" o.uuid o.now)
    else none
  | .submit => none

/-- `decision` of `approvePatent` and `declinePatent`. -/
def decisionOf : Action → ReviewDecision
  | .approve => .pass
  | _ => .fail

/-- The row that `review` inserts. -/
def reviewRow (admin : Caller) (id : Nat) (action : Action) (comments : Option String)
    (reviewId : Nat) (now : Time) : PatentReview where
  id := reviewId
  patentId := id
  reviewerId := some admin.userId
  reviewStage := .adminReview
  decision := some (decisionOf action)
  aiConfidenceScore := none
  comments := truthy comments
  createdAt := now

/-- The INSERT of the review, and the event that describes the decision. -/
def createReview (admin : Caller) (id : Nat) (action : Action) (comments : Option String)
    (before : Option PatentStatus) (record : PatentRecord) (o : Oracle) (d : Db) (x : Ext) :
    Outcome :=
  let row := reviewRow admin id action comments x.nextReviewId o.now
  let x := { x with nextReviewId := x.nextReviewId + 1 }
  if (d.users.get? admin.userId).isNone then violates x "P2003"
  else
    ( [.insertReview row], x,
      match before with
      -- `before.status` of a patent that was not there
      | none => .throwing .typeError
      | some previousStatus =>
        match buildEvent action record previousStatus o with
        | none => .review (.commit record)
        | some event => .review (.enqueue event record) )

/-- `outboxService.enqueue`, inside the transaction of the review. -/
def enqueueEvent (id : Nat) (event : PatentEvent) (record : PatentRecord) (x : Ext) : Outcome :=
  ( [.insertEvent (Outbox.enqueue x.nextEventId AGGREGATE_TYPE id event.eventType event)],
    { x with nextEventId := x.nextEventId + 1 }, .review (.commit record) )

/-- The statements of `approvePatent` and `declinePatent`, one transaction: the row, the review, the
    event. -/
def reviewCode (admin : Caller) (id : Nat) (action : Action) (comments : Option String) :
    ReviewLoc → Instr Db Ext Write Oracle Loc
  | .before => .stmt fun _ d x =>
      goOn x (.review (.write ((d.patents.get? id).map Patent.status)))
  | .write before => .stmt (applyTransition id action stampReviewed (.review (.reread before))
      (.review .refused))
  | .refused => .stmt fun _ d x => transitionRefused id action d x
  | .reread before => .stmt fun _ d x => reread id (fun r => .review (.create before r)) d x
  | .create before record => .stmt (createReview admin id action comments before record)
  | .enqueue event record => .stmt fun _ _ x => enqueueEvent id event record x
  | .commit record => .commit (.done (.patent record))

/-! ## deletePatent -/

/-- `deletePatent`, the refusal of a patent that has left `draft`. -/
def notADraft (status : String) : AppError :=
  conflict ("Only a draft can be deleted; this patent is \"" ++ status ++ "\"")

/-- `deletePatent`, up to its transaction. -/
def deletePatent (user : Caller) (id : Nat) (d : Db) (x : Ext) : Outcome :=
  match findOwnedPatent id user d with
  | .error e => throw_ x e
  | .ok patent =>
    if patent.status ≠ .draft then throw_ x (notADraft (statusText patent.status))
    else goOn x (.delete (.write patent))

/-- The guarded DELETE. -/
def deleteWrite (id : Nat) (patent : PatentRecord) (d : Db) (x : Ext) : Outcome :=
  match d.patents.get? id with
  | none => goOn x (.delete .refused)
  | some row =>
    -- the status again, now under the lock of the row
    if row.status = .draft then ([.deletePatent row], x, .delete (.commit patent))
    else goOn x (.delete .refused)

/-- The statements of `deletePatent`: a guarded DELETE, then the object. -/
def deleteCode (id : Nat) : DeleteLoc → Instr Db Ext Write Oracle Loc
  | .write patent => .stmt fun _ d x => deleteWrite id patent d x
  | .refused => .stmt fun _ d x => throw_ x (notADraft (currentStatus id "undefined" d))
  | .commit patent => .commit (.discard patent.documentKey .ok)

/-! ## The machine -/

/-- The first statement of a request.  Its document key, if any, is in the API's hands now. -/
def start (cfg : Config) (r : Request) (o : Oracle) (d : Db) (x : Ext) : Outcome :=
  let x := { x with handed := r.documentKey.toList ++ x.handed }
  match r with
  | .requestUpload user filename contentType => requestUpload cfg user filename contentType o x
  | .createPatent user input =>
    verifyDocument input.documentKey user.userId none (.create .head) d x
  | .updatePatent user id updates => updatePatent user id updates d x
  | .submitForReview user id => submitForReview user id d x
  | .approvePatent admin id _ => review admin id .approve d x
  | .declinePatent admin id _ => review admin id .decline d x
  | .deletePatent user id => deletePatent user id d x

/-- The statements of process `p`. A location of another handler than its request's halts. -/
def code (cfg : Config) (reqs : Nat → Request) (p : Nat) :
    Loc → Instr Db Ext Write Oracle Loc
  | .start => .auto (start cfg (reqs p))
  | .create l =>
    match reqs p with
    | .createPatent user input => createCode cfg user input l
    | _ => .halt
  | .update l =>
    match reqs p with
    | .updatePatent user id updates => updateCode cfg user id updates l
    | _ => .halt
  | .submit l =>
    match reqs p with
    | .submitForReview _ id => submitCode id l
    | _ => .halt
  | .review l =>
    match reqs p with
    | .approvePatent admin id comments => reviewCode admin id .approve comments l
    | .declinePatent admin id comments => reviewCode admin id .decline comments l
    | _ => .halt
  | .delete l =>
    match reqs p with
    | .deletePatent _ id => deleteCode id l
    | _ => .halt
  | .discard key reply => .auto fun o _ x => discardObject key reply o x
  | .throwing e => .rollback (.done (.thrown e))
  | .done _ => .halt

/-- A client uses a presigned URL. -/
inductive Upload
  | put (objectKey : String) (size : Nat)

/-- A PUT through a presigned URL: under an issued key, once, within the size the URL admits. -/
def upload (cfg : Config) (u : Upload) (x : Ext) : Option Ext :=
  match u with
  | .put key size =>
    if key ∈ x.issued.map Prod.snd ∧ key ∉ x.uploaded ∧ key ∉ x.handed ∧
        size ≤ cfg.maxUploadBytes then
      some { x with objects := x.objects.put ⟨key, size⟩, uploaded := key :: x.uploaded }
    else none

/-- Any number of concurrent patent requests; request `p` is `reqs p`. -/
def patents (cfg : Config) (reqs : Nat → Request) :
    Machine Db Ext Write Row Oracle Upload Loc where
  apply := apply
  locks := locks
  code := code cfg reqs
  failed := .done (.thrown .aborted)
  env := fun u _ x => upload cfg u x

/-- Accounts, inventors and categories, and no patent yet. -/
def init (users : Table User User.id) (inventors : Table Inventor Inventor.id)
    (categories : Table Category Category.id) : State Db Ext Write Loc where
  base :=
    { db :=
        { users := users
          patents := Table.empty
          reviews := Table.empty
          inventors := inventors
          categories := categories
          patentInventors := Table.empty
          patentCategories := Table.empty
          outbox := Table.empty }
      world :=
        { nextPatentId := 1
          nextReviewId := 1
          nextEventId := 1
          objects := Table.empty
          issued := []
          uploaded := []
          handed := [] }
      log := [] }
  pend := []
  loc := fun _ => .start

end SmartPatents.PatentService
