/-
  The API: every route that writes, over one database.

  The session requests of `UserService` and the requests of the `Catalogue` are machines of their
  own.  Here they run side by side, with the two user requests that are left:

    updateProfile  start → [email taken? →] updateUser → done      PATCH /users/me
    createAdmin    start → insertAdmin → done                       POST /users/admins

  A USER row now has its `createdBy` (`Account`).  The other services see the rows without it, and
  what they would do to a row is done to the row (`Db.withUsers`).

  A request is what arrives: a route, any body, and the claims of a bearer token.  Controllers pick
  the fields they know out of the body.  `src/middlewares/auth.js` accepts exactly the claims that
  `signAccessToken` has signed; expiry, rate limits and the finer points of validation only refuse
  more.  GET routes write nothing and are left out.

  Two machines of different state types become one by `Lib.Embedding`: `ofSessions` and
  `ofCatalogue` carry the statements of each over to the common state, and a result about one of
  them is read off its part of the log.  Nothing is shared between the two but the USER rows,
  which the catalogue reads and never writes.

  The locks of the whole are those of the parts (`locks`), and a new admin takes the locks that a
  signup takes: the id and the address.  So two requests that would create one address wait for
  each other whichever routes they came by.

  On top of this module: `Privileges` (who may become an admin), `Credentials` (who may change a
  password), `Addresses` (what the addresses look like), and `Profiles` for the inventors.
-/
import SmartPatents.Catalogue
import SmartPatents.UserService

namespace SmartPatents.Api

open ReadCommitted Access Storage
open UserService (RefreshToken Helpers)

/-! ## Tables -/

/-- A USER row. -/
structure Account extends User where
  createdBy : Option Nat
deriving DecidableEq

/-- Accounts are kept under the id of their user. -/
def Account.key (a : Account) : Nat := a.id

/-- One database for all routes. -/
structure Db where
  accounts : Table Account Account.key
  tokens : Table RefreshToken RefreshToken.id
  /-- The other tables; the accounts are above. -/
  tables : SmartPatents.Db

/-- The USER rows as the other services read them. -/
def Db.users (d : Db) : Table User User.id where
  rows := d.accounts.rows.map Account.toUser
  nodup := by
    rw [List.map_map]
    exact d.accounts.nodup

/-- What the session requests see. -/
def Db.sessions (d : Db) : UserService.Db := ⟨d.users, d.tokens⟩

/-- What the catalogue requests see. -/
def Db.catalogue (d : Db) : SmartPatents.Db := { d.tables with users := d.users }

/-- The admin who has created an account; nobody, for one that signed up. -/
def Db.createdBy (d : Db) (id : Nat) : Option Nat := (d.accounts.get? id).bind Account.createdBy

/-- The accounts when the rows are `users`: a new row has no creator. -/
def Db.withUsers (d : Db) (users : Table User User.id) : Table Account Account.key where
  rows := users.rows.map fun u => ⟨u, d.createdBy u.id⟩
  nodup := by
    rw [List.map_map]
    exact users.nodup

/-- A committed change: one of the two machines below, or the new account of an admin. -/
inductive Write
  | session (w : UserService.Write)
  | catalogue (w : Catalogue.Write)
  | insertAdmin (user : User) (createdBy : Nat)
deriving DecidableEq

/-- The change, made to the table it is about; a change to a USER row leaves its `createdBy` alone.
    -/
def apply (d : Db) : Write → Db
  | .session w =>
    let s := UserService.apply d.sessions w
    { d with accounts := d.withUsers s.users, tokens := s.tokens }
  | .catalogue w =>
    let t := Catalogue.apply d.catalogue w
    { d with accounts := d.withUsers t.users, tables := t }
  | .insertAdmin user createdBy =>
    { d with accounts := d.accounts.put ⟨user, some createdBy⟩ }

/-- What a transaction may lock: a row of either machine. -/
inductive Row
  | session (r : UserService.Row)
  | catalogue (r : PatentService.Row)
deriving DecidableEq

/-- The locks of the machine that writes.  A new admin takes the id and, for the unique index, the
    address. -/
def locks : Write → List (Lock Row)
  | .session w => (UserService.locks w).map fun l => ⟨.session l.row, l.shared⟩
  | .catalogue w => (Catalogue.locks w).map fun l => ⟨.catalogue l.row, l.shared⟩
  | .insertAdmin user _ =>
    [⟨.session (.user user.id), false⟩, ⟨.session (.email user.email), false⟩]

/-- What is outside the tables: the sequences of both machines and the object store. -/
structure Ext where
  sessions : UserService.Ext
  catalogue : Catalogue.Ext

/-- What the environment decides at a step of either machine: the clock, salts, tokens, new ids. -/
structure Oracle where
  session : UserService.Oracle
  catalogue : PatentService.Oracle

/-! ## Requests -/

/-- The routes of `routes/users.js` that write. -/
inductive Route
  | signup
  | login
  | refresh
  | logout
  | updateMe
  | changePassword
  | createAdmin
deriving DecidableEq

/-- A request to `/users`. -/
structure HttpRequest where
  route : Route
  body : String → Option String
  claims : Option Caller

/-- A request to a route of the users, or one of the catalogue, which comes with its caller. -/
inductive Request
  | users (r : HttpRequest)
  | catalogue (r : Catalogue.Request)

/-- The session controllers: `none` where validation or `requireUser` refuses the request. -/
def controller (r : HttpRequest) : Option UserService.Request :=
  match r.route with
  | .signup => do
    let name ← r.body "name"
    let email ← r.body "email"
    let password ← r.body "password"
    some (.signup name email password)
  | .login => do
    let email ← r.body "email"
    let password ← r.body "password"
    some (.login email password)
  | .refresh => do
    let refreshToken ← r.body "refreshToken"
    some (.refresh refreshToken)
  | .logout => do
    let caller ← r.claims
    some (.logout caller (r.body "refreshToken"))
  | .changePassword => do
    let caller ← r.claims
    let currentPassword ← r.body "currentPassword"
    let newPassword ← r.body "newPassword"
    some (.changePassword caller currentPassword newPassword)
  | .updateMe | .createAdmin => none

/-- How the two user requests of this module end. -/
inductive Reply
  | profile (user : User)
  | admin (account : Account)
  | thrown (e : Thrown)
deriving DecidableEq

/-- What a request still has to do: where it is in its own machine, or in one of the two requests
    here. -/
inductive Loc
  | session (l : UserService.Loc)
  | updateProfile
  | updateUser (userId : Nat)
  | createAdmin
  | insertAdmin (createdBy : Nat)
  | catalogue (l : Catalogue.Loc)
  | done (r : Reply)

/-- What one statement does: its writes, the rest of the state, and where the request continues. -/
abbrev Outcome := List Write × Ext × Loc

/-- A statement that writes nothing. -/
def goOn (x : Ext) (l : Loc) : Outcome := ([], x, l)

/-- The request ends with an error for the client. -/
def throw_ (x : Ext) (e : AppError) : Outcome := goOn x (.done (.thrown (.app e)))

/-- The request ends with the error of a constraint, which `mapPrismaError` makes a response of. -/
def violates (x : Ext) (code : String) : Outcome := goOn x (.done (.thrown (.prisma code)))

/-! ## Guards -/

/-- `requireAuth`. -/
def requireAuth (claims : Option Caller) (x : Ext) (next : Caller → Outcome) : Outcome :=
  match claims with
  | none => throw_ x (unauthorized "Bearer token is required")
  | some caller =>
    if caller ∈ x.sessions.signed then next caller
    else throw_ x (unauthorized "invalid signature")

/-- `requireRole`. -/
def requireRole (allowedRoles : List Role) (caller : Caller) (x : Ext) (next : Outcome) : Outcome :=
  if caller.role ∈ allowedRoles then next
  else throw_ x (forbidden "You do not have permission to perform this action")

/-- `requireAuth` and `requireRole('admin')`, the middlewares in front of POST /users/admins. -/
def requireAdmin (claims : Option Caller) (x : Ext) (next : Caller → Outcome) : Outcome :=
  requireAuth claims x fun caller => requireRole [.admin] caller x (next caller)

/-- `requireAuth` and `requireRole('user', 'admin')`, in front of the routes under /users/me. -/
def requireUser (claims : Option Caller) (x : Ext) (next : Caller → Outcome) : Outcome :=
  requireAuth claims x fun caller => requireRole [.user, .admin] caller x (next caller)

/-! ## Profiles and admins -/

/-- Another row has the email. -/
def emailClash (d : Db) (u : User) : Bool :=
  d.users.rows.any fun v => v.id != u.id && v.email == u.email

/-- `prisma.user.update` of `updateProfile`: the name and the email, and nothing else. -/
def updateUser (userId : Nat) (name email : Option String) (d : Db) (x : Ext) : Outcome :=
  match d.users.get? userId with
  | none => violates x "P2025"
  | some row =>
    let new := { row with name := name.getD row.name, email := email.getD row.email }
    if emailClash d new then violates x "P2002"
    else ([.session (.updateUser new)], x, .done (.profile new))

/-- `updateProfile`, up to its first statement. -/
def updateProfile (userId : Nat) (name email : Option String) (d : Db) (x : Ext) : Outcome :=
  match truthy email with
  | none => updateUser userId name email d x
  | some email =>
    match d.sessions.userByEmail email with
    | none => goOn x (.updateUser userId)
    | some existing =>
      if existing.id != userId then throw_ x (conflict "Email is already registered")
      else goOn x (.updateUser userId)

/-- `createAdmin`, up to its `findUnique`. -/
def createAdmin (email : String) (createdBy : Nat) (d : Db) (x : Ext) : Outcome :=
  match d.sessions.userByEmail email with
  | some _ => throw_ x (conflict "Email is already registered")
  | none => goOn x (.insertAdmin createdBy)

/-- `prisma.user.create` of `createAdmin`. -/
def insertAdmin (h : Helpers) (name email password : String) (createdBy : Nat) (o : Oracle) (d : Db)
    (x : Ext) : Outcome :=
  let user : User :=
    { id := x.sessions.nextUserId
      name := name
      email := email
      passwordHash := h.hashPassword o.session.salt password
      role := .admin }
  let x := { x with sessions := { x.sessions with nextUserId := x.sessions.nextUserId + 1 } }
  match d.sessions.userByEmail email, d.users.get? createdBy with
  | some _, _ => violates x "P2002"
  | none, none => violates x "P2003"
  | none, some _ =>
    ([.insertAdmin user createdBy], x, .done (.admin ⟨user, some createdBy⟩))

/-! ## The machine -/

/-- A statement of a session request. -/
def ofSessions : Instr UserService.Db UserService.Ext UserService.Write UserService.Oracle
    UserService.Loc → Instr Db Ext Write Oracle Loc
  | .stmt f => .stmt fun o d x =>
    let r := f o.session d.sessions x.sessions
    (r.1.map .session, { x with sessions := r.2.1 }, .session r.2.2)
  | .auto f => .auto fun o d x =>
    let r := f o.session d.sessions x.sessions
    (r.1.map .session, { x with sessions := r.2.1 }, .session r.2.2)
  | .commit l => .commit (.session l)
  | .rollback l => .rollback (.session l)
  | .halt => .halt

/-- A statement of a catalogue request. -/
def ofCatalogue : Instr SmartPatents.Db Catalogue.Ext Catalogue.Write PatentService.Oracle
    Catalogue.Loc → Instr Db Ext Write Oracle Loc
  | .stmt f => .stmt fun o d x =>
    let r := f o.catalogue d.catalogue x.catalogue
    (r.1.map .catalogue, { x with catalogue := r.2.1 }, .catalogue r.2.2)
  | .auto f => .auto fun o d x =>
    let r := f o.catalogue d.catalogue x.catalogue
    (r.1.map .catalogue, { x with catalogue := r.2.1 }, .catalogue r.2.2)
  | .commit l => .commit (.catalogue l)
  | .rollback l => .rollback (.catalogue l)
  | .halt => .halt

/-- The `/users` routes. -/
def usersCode (h : Helpers) (r : HttpRequest) (p : Nat) : Loc → Instr Db Ext Write Oracle Loc
  | .session l =>
    match controller r with
    | some s => ofSessions (UserService.code h (fun _ => s) p l)
    | none => .halt
  | .updateProfile => .auto fun _ d x => requireUser r.claims x fun caller =>
      updateProfile caller.userId (r.body "name") (r.body "email") d x
  | .updateUser userId => .auto fun _ d x => updateUser userId (r.body "name") (r.body "email") d x
  | .createAdmin =>
    match r.body "name", r.body "email", r.body "password" with
    | some _, some email, some _ => .auto fun _ d x => requireAdmin r.claims x fun caller =>
        createAdmin email caller.userId d x
    | _, _, _ => .halt
  | .insertAdmin createdBy =>
    match r.body "name", r.body "email", r.body "password" with
    | some name, some email, some password => .auto (insertAdmin h name email password createdBy)
    | _, _, _ => .halt
  | _ => .halt

/-- A location outside the catalogue. -/
def requestCode (h : Helpers) (r : Request) (p : Nat) (l : Loc) : Instr Db Ext Write Oracle Loc :=
  match r with
  | .users r => usersCode h r p l
  | .catalogue _ => .halt

/-- The catalogue requests among `reqs`.  The others are never at a location of the catalogue. -/
def catalogueRequests (reqs : Nat → Request) (p : Nat) : Catalogue.Request :=
  match reqs p with
  | .catalogue r => r
  | .users _ => .reference (.deleteCategory ⟨0, .user⟩ 0)

/-- The next statement of request `p`: that of the catalogue while it is there, and else its own. -/
def code (h : Helpers) (cfg : Config) (sameName : String → String → Bool) (reqs : Nat → Request)
    (p : Nat) : Loc → Instr Db Ext Write Oracle Loc
  | .catalogue l => ofCatalogue (Catalogue.code cfg sameName (catalogueRequests reqs) p l)
  | l => requestCode h (reqs p) p l

/-- Any number of concurrent requests; request `p` is `reqs p`. -/
def api (h : Helpers) (cfg : Config) (sameName : String → String → Bool) (reqs : Nat → Request) :
    Machine Db Ext Write Row Oracle PatentService.Upload Loc where
  apply := apply
  locks := locks
  code := code h cfg sameName reqs
  failed := .done (.thrown .aborted)
  env := fun u _ x =>
    (PatentService.uploadFreely u x.catalogue.patents).map fun y =>
      { x with catalogue := { x.catalogue with patents := y } }

/-- Where a request begins. -/
def startOf : Request → Loc
  | .users r =>
    match r.route with
    | .updateMe => .updateProfile
    | .createAdmin => .createAdmin
    | _ => .session .start
  | .catalogue r => .catalogue (Catalogue.startOf r)

/-- Some accounts, and nothing else yet. -/
def init (reqs : Nat → Request) (accounts : Table Account Account.key) (nextUserId : Nat) :
    State Db Ext Write Loc where
  base :=
    { db :=
        { accounts := accounts
          tokens := Table.empty
          tables := (Catalogue.init (catalogueRequests reqs) Table.empty).base.db }
      world :=
        { sessions := ⟨nextUserId, 1, []⟩
          catalogue := (Catalogue.init (catalogueRequests reqs) Table.empty).base.world }
      log := [] }
  pend := []
  loc := fun p => startOf (reqs p)

end SmartPatents.Api
