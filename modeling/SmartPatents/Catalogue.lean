/-
  `src/services/inventorService.js` and `src/services/categoryService.js`, next to the patent
  requests and over the same tables.

  Every statement of these services is its own transaction:

    createInventor  start → [accountLinked →] insertInventor → done
    updateInventor  start → [emailClash →] updateInventor → done
    deleteInventor  start → countCredits → deleteInventor → done
    createCategory  start → insertCategory → done
    updateCategory  start → nameClash → updateCategory → done
    deleteCategory  start → deleteCategory → done

  PATENT_INVENTOR and PATENT_CATEGORY cascade: the DELETE of an inventor or a category also deletes
  the links to it, and its writes say so one by one.  A link that a patent request has inserted and
  not committed yet locks the inventor or category in share mode, and the DELETE waits for it.

  Each reference handler reads, decides and writes in separate statements, without a transaction
  and without a lock in between.  What a check has read may be out of date when the write comes:
  the unique columns and the foreign keys are then all that stands in the way, and
  `insertInventor`, `writeInventor`, `insertCategory` and `writeCategory` fail with the code
  Prisma reports.  For the count of the credits before a DELETE there is no such constraint, since
  the link cascades.

  `Loc` is a sum: a process is inside the patent machine or at a reference location, and `code` is
  that of its own machine.  `sameName`, the case-insensitive equality of the database, is a
  parameter.

  `CatalogueOutline` proves what the log of this machine consists of, and `Taxonomy`, `Profiles`,
  `CreditLists` and `FatEvents` build on it.
-/
import SmartPatents.Lib.Embedding
import SmartPatents.PatentOutline

namespace SmartPatents.Catalogue

open ReadCommitted Access Storage
open PatentService (Oracle Upload uploadFreely)

/-! ## Requests -/

/-- The body of POST /inventors. -/
structure InventorInput where
  fullName : String
  email : String
  organization : Option String
  linkToMe : Bool

/-- The body of PATCH /inventors/:id: `none` is a missing field, `some none` an explicit `null`. -/
structure InventorUpdates where
  fullName : Option String
  email : Option String
  organization : Option (Option String)

/-- The handlers of both services that write, with the caller the token names. -/
inductive ReferenceRequest
  | createInventor (user : Caller) (input : InventorInput)
  | updateInventor (user : Caller) (id : Nat) (updates : InventorUpdates)
  | deleteInventor (admin : Caller) (id : Nat)
  | createCategory (admin : Caller) (name : String)
  | updateCategory (admin : Caller) (id : Nat) (name : String)
  | deleteCategory (admin : Caller) (id : Nat)

/-- A request of the catalogue: to the patent service, or to one of the reference services. -/
inductive Request
  | patent (r : PatentService.Request)
  | reference (r : ReferenceRequest)

/-- What a reference handler answers, or the error it throws. -/
inductive Reply
  | inventor (record : InventorRecord)
  | category (category : Category)
  | ok
  | thrown (e : Thrown)
deriving DecidableEq

/-! ## State -/

/-- One row written. A patent write is a write of the patent machine, unchanged. -/
inductive Write
  | patent (w : PatentService.Write)
  | insertInventor (i : Inventor)
  | updateInventor (old new : Inventor)
  | deleteInventor (old : Inventor)
  | insertCategory (c : Category)
  | updateCategory (old new : Category)
  | deleteCategory (old : Category)
deriving DecidableEq

/-- The links that a DELETE takes along are writes of their own. -/
def apply (d : Db) : Write → Db
  | .patent w => PatentService.apply d w
  | .insertInventor i => { d with inventors := d.inventors.put i }
  | .updateInventor _ new => { d with inventors := d.inventors.put new }
  | .deleteInventor old => { d with inventors := d.inventors.erase old.id }
  | .insertCategory c => { d with categories := d.categories.put c }
  | .updateCategory _ new => { d with categories := d.categories.put new }
  | .deleteCategory old => { d with categories := d.categories.erase old.id }

/-- Locks matter while a transaction is open, and only patent transactions stay open.  A foreign
    key does not hold up an update that leaves the unique columns alone. -/
def locks : Write → List (Lock PatentService.Row)
  | .patent w => PatentService.locks w
  | .insertInventor i => [⟨.inventor i.id, false⟩]
  | .updateInventor old new => if old.email = new.email then [] else [⟨.inventor old.id, false⟩]
  | .deleteInventor old => [⟨.inventor old.id, false⟩]
  | .insertCategory c => [⟨.category c.id, false⟩]
  | .updateCategory old new => if old.name = new.name then [] else [⟨.category old.id, false⟩]
  | .deleteCategory old => [⟨.category old.id, false⟩]

/-- What is not rolled back: the external state of the patents, and the two sequences. -/
structure Ext where
  patents : PatentService.Ext
  nextInventorId : Nat
  nextCategoryId : Nat

/-! ## Program points -/

/-- Where a reference request is: its next statement, or its reply. -/
inductive ReferenceLoc
  | start
  | accountLinked
  | insertInventor
  | emailClash
  | updateInventor
  | countCredits
  | deleteInventor
  | insertCategory
  | nameClash
  | updateCategory
  | deleteCategory
  | done (r : Reply)

/-- Where a process is. Its request says which of the two machines runs it. -/
inductive Loc
  | patent (l : PatentService.Loc)
  | reference (l : ReferenceLoc)
  | failed

/-- What one statement comes to: rows written, external state, next location. -/
abbrev Outcome := List Write × Ext × Loc

/-- Nothing is written and the handler goes on. -/
def goOn (x : Ext) (l : ReferenceLoc) : Outcome := ([], x, .reference l)

/-- The handler throws an error of its own; these services hold no lock to let go of. -/
def throw_ (x : Ext) (e : AppError) : Outcome := goOn x (.done (.thrown (.app e)))

/-- The database refuses the statement, and Prisma throws with this code. -/
def violates (x : Ext) (code : String) : Outcome := goOn x (.done (.thrown (.prisma code)))

/-- `requireAdmin`. -/
def requireAdmin (admin : Caller) (x : Ext) (r : Outcome) : Outcome :=
  if admin.isAdmin then r
  else throw_ x (forbidden "You do not have permission to perform this action")

/-! ## Inventors -/

/-- `prisma.inventor.findUnique({ where: { email } })`. -/
def inventorByEmail (d : Db) (email : String) : Option Inventor :=
  d.inventors.find? fun i => i.email == email

/-- `prisma.inventor.findUnique({ where: { userId } })`. -/
def inventorByUserId (d : Db) (userId : Nat) : Option Inventor :=
  d.inventors.find? fun i => i.userId == some userId

/-- A unique column of `i` has a value that another row has. -/
def inventorClash (d : Db) (i : Inventor) : Bool :=
  d.inventors.rows.any fun j => j.id != i.id &&
    (j.email == i.email || (i.userId.isSome && j.userId == i.userId))

/-- `createInventor` and `updateInventor` answer an address in use alike. -/
def emailTaken : AppError := conflict "An inventor with that email already exists"

/-- `createInventor`, up to its first check. -/
def createInventor (input : InventorInput) (d : Db) (x : Ext) : Outcome :=
  match inventorByEmail d input.email with
  | some _ => throw_ x emailTaken
  | none => if input.linkToMe then goOn x .accountLinked else goOn x .insertInventor

/-- `createInventor`, the check behind `linkToMe`. -/
def accountLinked (user : Caller) (d : Db) (x : Ext) : Outcome :=
  -- a user has one profile at most
  match inventorByUserId d user.userId with
  | some _ => throw_ x (conflict "Your account is already linked to an inventor profile")
  | none => goOn x .insertInventor

/-- The row of a new inventor. -/
def inventorOf (user : Caller) (input : InventorInput) (id : Nat) (now : Time) : Inventor where
  id := id
  userId := if input.linkToMe then some user.userId else none
  fullName := input.fullName
  email := input.email
  organization := truthy input.organization
  createdAt := now

/-- `prisma.inventor.create`: a sequence is not rolled back, so a refused INSERT uses up its id. -/
def insertInventor (user : Caller) (input : InventorInput) (o : Oracle) (d : Db) (x : Ext) :
    Outcome :=
  let inventor := inventorOf user input x.nextInventorId o.now
  let x := { x with nextInventorId := x.nextInventorId + 1 }
  -- the checks before may be out of date
  if inventorClash d inventor then violates x "P2002"
  else if inventor.userId.any fun u => (d.users.get? u).isNone then violates x "P2003"
  else ([.insertInventor inventor], x, .reference (.done (.inventor (d.inventorInclude inventor))))

/-- `getInventorById`. -/
def getInventorById (id : Nat) (d : Db) : Except AppError InventorRecord :=
  match d.inventors.get? id with
  | none => .error (notFound "Inventor not found")
  | some i => .ok (d.inventorInclude i)

/-- `updateInventor`, up to its first checks. -/
def updateInventor (user : Caller) (id : Nat) (updates : InventorUpdates) (d : Db) (x : Ext) :
    Outcome :=
  match getInventorById id d with
  | .error e => throw_ x e
  | .ok inventor =>
    if !user.isAdmin && inventor.userId != some user.userId then
      throw_ x (forbidden "You can only edit an inventor profile linked to your account")
    -- an unchanged email clashes with nobody
    else if (truthy updates.email).any fun email => email != inventor.email then goOn x .emailClash
    else goOn x .updateInventor

/-- `updateInventor`, the look for somebody else's row when the address changes. -/
def emailClash (updates : InventorUpdates) (d : Db) (x : Ext) : Outcome :=
  match inventorByEmail d (updates.email.getD "") with
  | some _ => throw_ x emailTaken
  | none => goOn x .updateInventor

/-- What the UPDATE makes of a row. -/
def editedInventor (updates : InventorUpdates) (row : Inventor) : Inventor :=
  { row with
    fullName := updates.fullName.getD row.fullName
    email := updates.email.getD row.email
    organization := updates.organization.getD row.organization }

/-- `prisma.inventor.update`. P2025 is a row deleted since `start` read it. -/
def writeInventor (id : Nat) (updates : InventorUpdates) (d : Db) (x : Ext) : Outcome :=
  match d.inventors.get? id with
  | none => violates x "P2025"
  | some row =>
    let new := editedInventor updates row
    if inventorClash d new then violates x "P2002"
    else ([.updateInventor row new], x, .reference (.done (.inventor (d.inventorInclude new))))

/-- The PATENT_INVENTOR rows of an inventor. -/
def creditsTo (d : Db) (inventorId : Nat) : List PatentInventor :=
  d.patentInventors.rows.filter fun l => l.inventorId == inventorId

/-- `deleteInventor`, up to its count. -/
def deleteInventor (id : Nat) (d : Db) (x : Ext) : Outcome :=
  match getInventorById id d with
  | .error e => throw_ x e
  | .ok _ => goOn x .countCredits

/-- `prisma.patentInventor.count`, and the refusal of an inventor who is credited. -/
def countCredits (id : Nat) (d : Db) (x : Ext) : Outcome :=
  let credited := (creditsTo d id).length
  if credited > 0 then
    throw_ x (conflict ("This inventor is credited on " ++ toString credited ++
      " patent(s) and cannot be deleted; detach them first"))
  else goOn x .deleteInventor

/-- The DELETE, with its cascade. -/
def eraseInventor (id : Nat) (d : Db) (x : Ext) : Outcome :=
  match d.inventors.get? id with
  | none => violates x "P2025"
  | some row =>
    -- credits made since the count go with the row
    ( (creditsTo d id).map (fun l => .patent (.deleteInventor l)) ++ [.deleteInventor row], x,
      .reference (.done .ok) )

/-! ## Categories -/

/-- `findByName`; `sameName` is the database's case-insensitive equality. -/
def findByName (sameName : String → String → Bool) (name : String) (excludeId : Option Nat)
    (d : Db) : Option Category :=
  d.categories.find? fun c => sameName c.name name && excludeId != some c.id

/-- `createCategory` and `updateCategory` answer a name in use alike. -/
def nameTaken : AppError := conflict "A category with that name already exists"

/-- The unique column of CATEGORY, which is case-sensitive. -/
def categoryClash (d : Db) (c : Category) : Bool :=
  d.categories.rows.any fun e => e.id != c.id && e.name == c.name

/-- The check of `createCategory` and of `updateCategory`. -/
def assertNameFree (sameName : String → String → Bool) (name : String) (excludeId : Option Nat)
    (next : ReferenceLoc) (d : Db) (x : Ext) : Outcome :=
  match findByName sameName name excludeId d with
  | some _ => throw_ x nameTaken
  | none => goOn x next

/-- `prisma.category.create`, with the unique index on the exact name behind it. -/
def insertCategory (name : String) (d : Db) (x : Ext) : Outcome :=
  let category : Category := ⟨x.nextCategoryId, name⟩
  let x := { x with nextCategoryId := x.nextCategoryId + 1 }
  -- `sameName` plays no part here
  if categoryClash d category then violates x "P2002"
  else ([.insertCategory category], x, .reference (.done (.category category)))

/-- `getCategoryById`, before an update or a delete. -/
def getCategoryById (id : Nat) (next : ReferenceLoc) (d : Db) (x : Ext) : Outcome :=
  match d.categories.get? id with
  | none => throw_ x (notFound "Category not found")
  -- the row may be gone at the next statement
  | some _ => goOn x next

/-- `prisma.category.update`. P2025 is a row deleted since the check of the name. -/
def writeCategory (id : Nat) (name : String) (d : Db) (x : Ext) : Outcome :=
  match d.categories.get? id with
  | none => violates x "P2025"
  | some row =>
    let new := { row with name := name }
    if categoryClash d new then violates x "P2002"
    else ([.updateCategory row new], x, .reference (.done (.category new)))

/-- The PATENT_CATEGORY rows of a category. -/
def linksTo (d : Db) (categoryId : Nat) : List PatentCategory :=
  d.patentCategories.rows.filter fun l => l.categoryId == categoryId

/-- The DELETE, with its cascade. -/
def eraseCategory (id : Nat) (d : Db) (x : Ext) : Outcome :=
  match d.categories.get? id with
  | none => violates x "P2025"
  | some row =>
    ( (linksTo d id).map (fun l => .patent (.deleteCategory l)) ++ [.deleteCategory row], x,
      .reference (.done .ok) )

/-! ## The machine -/

section Code

variable (sameName : String → String → Bool)

/-- The first statement of a request. -/
def start (r : ReferenceRequest) (d : Db) (x : Ext) : Outcome :=
  match r with
  | .createInventor _ input => createInventor input d x
  | .updateInventor user id updates => updateInventor user id updates d x
  | .deleteInventor admin id => requireAdmin admin x (deleteInventor id d x)
  | .createCategory admin name =>
    requireAdmin admin x (assertNameFree sameName name none .insertCategory d x)
  | .updateCategory admin id _ => requireAdmin admin x (getCategoryById id .nameClash d x)
  | .deleteCategory admin id => requireAdmin admin x (getCategoryById id .deleteCategory d x)

/-- The statements of one reference request. At a location of another handler it halts. -/
def referenceCode (r : ReferenceRequest) (l : ReferenceLoc) :
    Instr Db Ext Write Oracle Loc :=
  match r, l with
  | r, .start => .auto fun _ d x => start sameName r d x
  | .createInventor user _, .accountLinked => .auto fun _ d x => accountLinked user d x
  | .createInventor user input, .insertInventor => .auto (insertInventor user input)
  | .updateInventor _ _ updates, .emailClash => .auto fun _ d x => emailClash updates d x
  | .updateInventor _ id updates, .updateInventor => .auto fun _ d x => writeInventor id updates d x
  | .deleteInventor _ id, .countCredits => .auto fun _ d x => countCredits id d x
  | .deleteInventor _ id, .deleteInventor => .auto fun _ d x => eraseInventor id d x
  | .createCategory _ name, .insertCategory => .auto fun _ d x => insertCategory name d x
  | .updateCategory _ id name, .nameClash => .auto fun _ d x =>
      assertNameFree sameName name (some id) .updateCategory d x
  | .updateCategory _ id name, .updateCategory => .auto fun _ d x => writeCategory id name d x
  | .deleteCategory _ id, .deleteCategory => .auto fun _ d x => eraseCategory id d x
  | _, _ => .halt

end Code

/-- The patent requests among `reqs`.  The others are never at a location of the patent service. -/
def patentRequests (reqs : Nat → Request) (p : Nat) : PatentService.Request :=
  match reqs p with
  | .patent r => r
  | .reference _ => .deletePatent ⟨0, .user⟩ 0

/-- An instruction of the patent service. -/
def ofPatents : Instr Db PatentService.Ext PatentService.Write Oracle PatentService.Loc →
    Instr Db Ext Write Oracle Loc :=
  Instr.lift Ext.patents (fun x y => { x with patents := y }) .patent .patent

/-- The statements of process `p`, those of its own machine. -/
def code (cfg : Config) (sameName : String → String → Bool) (reqs : Nat → Request) (p : Nat) :
    Loc → Instr Db Ext Write Oracle Loc
  | .patent l => ofPatents (PatentService.code cfg (patentRequests reqs) p l)
  | .reference l =>
    match reqs p with
    | .reference r => referenceCode sameName r l
    | .patent _ => .halt
  | .failed => .halt

/-- Any number of concurrent patent, inventor and category requests; request `p` is `reqs p`. -/
def catalogue (cfg : Config) (sameName : String → String → Bool) (reqs : Nat → Request) :
    Machine Db Ext Write PatentService.Row Oracle Upload Loc where
  apply := apply
  locks := locks
  code := code cfg sameName reqs
  failed := .failed
  env := fun u _ x => (uploadFreely u x.patents).map fun y => { x with patents := y }

/-- Where a request begins. -/
def startOf : Request → Loc
  | .patent _ => .patent .start
  | .reference _ => .reference .start

/-- Accounts, and nothing else yet. -/
def init (reqs : Nat → Request) (users : Table User User.id) : State Db Ext Write Loc where
  base :=
    { db := (PatentService.init users Table.empty Table.empty).base.db
      world := ⟨(PatentService.init users Table.empty Table.empty).base.world, 1, 1⟩
      log := [] }
  pend := []
  loc := fun p => startOf (reqs p)

end SmartPatents.Catalogue
