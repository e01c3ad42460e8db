/-
  `src/services/userService.js`: sessions, as a READ COMMITTED machine.

  Five requests: `signupUser`, `loginUser`, `refreshSession`, `logoutUser` (with and without a
  token) and `changePassword`.  Each is cut at its database statements: a `Loc` is what a request
  still has to do, with the values it has read so far, and `code` is the next statement.  The
  JavaScript between two statements is part of the earlier one.

    signupUser      start → signupCreate → issue → done
    loginUser       start → issue → done
    refreshSession  start → rotate → successor → rotateCommit → done          (one transaction)
                    start → revokeScan → revokeRows … → done                  (reuse detected)
    logoutUser      start → logoutOne → done  |  start → revokeScan → revokeRows … → done
    changePassword  start → newPassword → revokeScan → revokeRows … → done    (one transaction)

  A bulk `UPDATE` is not one instant: it takes its snapshot (`revokeScan`), then locks and re-checks
  the rows it found one by one (`revokeRows`), and a row inserted after the snapshot is not seen.
  bcrypt, SHA-256 and the random token are parameters (`Helpers`, `Oracle`).  No operation deletes
  a USER row, so the foreign key of REFRESH_TOKEN never fires and is not modelled.

  What the properties rest on: `rotate` checks `rotatedAt` in the WHERE of its UPDATE, so of two
  refreshes that have read the same row one fails; the successor is inserted in the same
  transaction; a refresh that READS a rotated row revokes all tokens of the user.  `SessionTx`
  says what the transactions of this machine are, `SessionChains` and `IssuedTokens` what holds of
  all tokens in every run, `RevokeAll` what a revocation leaves.

  Access tokens are not rows.  The set of claims that have been signed so far is kept in
  `Ext.signed`, for the middleware to compare with; they are never taken back, since the
  middleware has nothing to look them up in.
-/
import SmartPatents.Lib.Serial
import SmartPatents.Lib.Table
import SmartPatents.Schema

namespace SmartPatents.UserService

open ReadCommitted

/-! ## Tables -/

/-- One row of REFRESH_TOKEN. Only the hash of a token is stored. -/
structure RefreshToken where
  id : Nat
  userId : Nat
  tokenHash : String
  rotatedAt : Option Time
  revokedAt : Option Time
  expiresAt : Time
deriving DecidableEq

/-- The tables USER and REFRESH_TOKEN. -/
structure Db where
  users : Table User User.id
  tokens : Table RefreshToken RefreshToken.id

/-- `prisma.user.findUnique({ where: { email } })`. -/
def Db.userByEmail (d : Db) (email : String) : Option User :=
  d.users.find? fun u => u.email == email

/-- `prisma.refreshToken.findUnique({ where: { tokenHash } })`. -/
def Db.tokenByHash (d : Db) (hash : String) : Option RefreshToken :=
  d.tokens.find? fun t => t.tokenHash == hash

/-- The sequences behind the ids, and the access tokens signed so far. -/
structure Ext where
  nextUserId : Nat
  nextTokenId : Nat
  signed : List Caller

/-- One row written. -/
inductive Write
  | insertUser (u : User)
  | updateUser (u : User)
  | insertToken (t : RefreshToken)
  | updateToken (t : RefreshToken)
deriving DecidableEq

/-- What a row written does to the tables. -/
def apply (d : Db) : Write → Db
  | .insertUser u | .updateUser u => { d with users := d.users.put u }
  | .insertToken t | .updateToken t => { d with tokens := d.tokens.put t }

/-- Lockable rows; a unique column locks its value. -/
inductive Row
  | user (id : Nat)
  | email (email : String)
  | token (id : Nat)
  | tokenHash (hash : String)
deriving DecidableEq

/-- What a row written locks: itself, and the values of its unique columns when it is new. -/
def locks : Write → List (Lock Row)
  | .insertUser u => [⟨.user u.id, false⟩, ⟨.email u.email, false⟩]
  | .updateUser u => [⟨.user u.id, false⟩]
  | .insertToken t => [⟨.token t.id, false⟩, ⟨.tokenHash t.tokenHash, false⟩]
  | .updateToken t => [⟨.token t.id, false⟩]

/-! ## Requests -/

/-- What `src/utils/helpers.js` takes from bcrypt, `crypto` and the environment. -/
structure Helpers where
  hashPassword : Nat → String → String
  verifyPassword : String → String → Bool
  hashRefreshToken : String → String
  refreshTokenTtlDays : Nat

/-- What a statement cannot compute: the clock, a salt, a random token, and which of several rows
    a bulk update visits next. -/
structure Oracle where
  now : Time
  salt : Nat
  token : String
  row : Nat

/-- A request body, with the claims of the presented access token where the route needs one. -/
inductive Request
  | signup (name email password : String)
  | login (email password : String)
  | refresh (refreshToken : String)
  | logout (caller : Caller) (refreshToken : Option String)
  | changePassword (caller : Caller) (currentPassword newPassword : String)

/-- What a handler answers, or the error it throws. -/
inductive Reply
  /-- The user and the access/refresh pair. -/
  | session (user : User) (accessToken : Caller) (refreshToken : String)
  | ok
  | thrown (e : Thrown)
deriving DecidableEq

/-- Where a request is. `throwing` rolls its transaction back. -/
inductive Loc
  | start
  | signupCreate
  | issue (user : User)
  | rotate (stored : RefreshToken) (user : User)
  | successor (stored : RefreshToken) (user : User)
  | rotateCommit (stored : RefreshToken) (user : User) (refreshToken : String)
  | logoutOne (userId : Nat) (refreshToken : String)
  | newPassword (user : User) (passwordHash : String)
  | revokeScan (userId : Nat) (reply : Reply)
  | revokeRows (userId : Nat) (ids : List Nat) (revokedAt : Time) (reply : Reply)
  | throwing (e : Thrown)
  | done (r : Reply)
deriving DecidableEq

/-- What one statement does: its writes, the rest of the state, and where the request continues. -/
abbrev Outcome := List Write × Ext × Loc

/-- A statement that writes nothing. -/
def goOn (x : Ext) (l : Loc) : Outcome := ([], x, l)

/-- The handler throws an error of its own. -/
def throw_ (x : Ext) (e : AppError) : Outcome := goOn x (.throwing (.app e))

/-! ## The statements, in the order of the source -/

section Statements

variable (h : Helpers)

/-- `refreshTokenExpiry()`, in milliseconds. -/
def refreshTokenExpiry (now : Time) : Time := now + h.refreshTokenTtlDays * 24 * 60 * 60 * 1000

/-- `issueSession`: records the hash of a new refresh token and signs an access token.  `next` is
    where the caller goes with the token. -/
def issueSession (user : User) (next : String → Loc) (o : Oracle) (d : Db) (x : Ext) : Outcome :=
  let row : RefreshToken :=
    { id := x.nextTokenId
      userId := user.id
      tokenHash := h.hashRefreshToken o.token
      rotatedAt := none
      revokedAt := none
      expiresAt := refreshTokenExpiry h o.now }
  match d.tokenByHash row.tokenHash with
  | some _ =>
    -- a sequence does not go back when the INSERT fails
    goOn { x with nextTokenId := x.nextTokenId + 1 } (.throwing (.prisma "P2002"))
  | none =>
    ( [.insertToken row],
      { x with nextTokenId := x.nextTokenId + 1, signed := ⟨user.id, user.role⟩ :: x.signed },
      next o.token )

/-- A session answers with the user and both tokens. -/
def session (user : User) (refreshToken : String) : Loc :=
  .done (.session user ⟨user.id, user.role⟩ refreshToken)

/-- `signupUser`, up to its `findUnique`. -/
def signupUser (email : String) (d : Db) (x : Ext) : Outcome :=
  match d.userByEmail email with
  | some _ => throw_ x (conflict "Email is already registered")
  | none => goOn x .signupCreate

/-- `prisma.user.create` of `signupUser`: the role is never the caller's choice. -/
def signupCreate (name email password : String) (o : Oracle) (d : Db) (x : Ext) : Outcome :=
  let user : User :=
    { id := x.nextUserId
      name := name
      email := email
      passwordHash := h.hashPassword o.salt password
      role := .user }
  let x := { x with nextUserId := x.nextUserId + 1 }
  match d.userByEmail email with
  -- somebody has signed up with the email since
  | some _ => goOn x (.throwing (.prisma "P2002"))
  | none => ([.insertUser user], x, .issue user)

/-- `loginUser`: the same error for an unknown email and a wrong password. -/
def loginUser (email password : String) (d : Db) (x : Ext) : Outcome :=
  match d.userByEmail email with
  | none => throw_ x (unauthorized "Invalid email or password")
  | some user =>
    if h.verifyPassword password user.passwordHash then goOn x (.issue user)
    else throw_ x (unauthorized "Invalid email or password")

/-- `refreshSession`, up to the checks on the token it read.  A rotated token starts the
    revocation of every session; the request still ends in the 401. -/
def refreshSession (refreshToken : String) (o : Oracle) (d : Db) (x : Ext) : Outcome :=
  match d.tokenByHash (h.hashRefreshToken refreshToken) with
  | none => throw_ x (unauthorized "Invalid refresh token")
  | some stored =>
    match d.users.get? stored.userId with
    | none => goOn x (.throwing .typeError)
    | some user =>
      -- a rotated token is revoked, too: this check has to come first
      if stored.rotatedAt.isSome then
        goOn x (.revokeScan stored.userId (.thrown (.app (unauthorized
          "Refresh token has already been used; all sessions have been revoked"))))
      else if stored.revokedAt.isSome then
        throw_ x (unauthorized "Refresh token has been revoked")
      else if stored.expiresAt ≤ o.now then
        throw_ x (unauthorized "Refresh token has expired")
      else goOn x (.rotate stored user)

/-- The conditional rotation: its WHERE re-checks `rotatedAt` only. -/
def rotate (stored : RefreshToken) (user : User) (o : Oracle) (d : Db) (x : Ext) : Outcome :=
  match d.tokens.get? stored.id with
  | none => throw_ x (unauthorized "Invalid refresh token")
  | some row =>
    if row.rotatedAt.isNone then
      ( [.updateToken { row with rotatedAt := some o.now, revokedAt := some o.now }], x,
        .successor stored user )
    else throw_ x (unauthorized "Invalid refresh token")

/-- `logoutUser`: `requireUser` accepts exactly the access tokens that were signed. -/
def logoutUser (caller : Caller) (refreshToken : Option String) (x : Ext) : Outcome :=
  if caller ∈ x.signed then
    match refreshToken with
    | some token => goOn x (.logoutOne caller.userId token)
    | none => goOn x (.revokeScan caller.userId .ok)
  else throw_ x (unauthorized "invalid signature")

/-- `logoutUser` with a token: at most one row has its hash. -/
def logoutOne (userId : Nat) (refreshToken : String) (o : Oracle) (d : Db) (x : Ext) : Outcome :=
  match d.tokenByHash (h.hashRefreshToken refreshToken) with
  -- nothing to revoke is no error
  | none => goOn x (.done .ok)
  | some row =>
    if row.userId = userId && row.revokedAt.isNone then
      ([.updateToken { row with revokedAt := some o.now }], x, .done .ok)
    else goOn x (.done .ok)

/-- `changePassword`, up to its transaction. -/
def changePassword (caller : Caller) (currentPassword newPassword : String) (o : Oracle) (d : Db)
    (x : Ext) : Outcome :=
  if caller ∈ x.signed then
    match d.users.get? caller.userId with
    | none => throw_ x (notFound "User not found")
    | some user =>
      if h.verifyPassword currentPassword user.passwordHash then
        goOn x (.newPassword user (h.hashPassword o.salt newPassword))
      else throw_ x (unauthorized "Current password is incorrect")
  else throw_ x (unauthorized "invalid signature")

/-- `prisma.user.update` of `changePassword`. -/
def newPassword (user : User) (passwordHash : String) (d : Db) (x : Ext) : Outcome :=
  match d.users.get? user.id with
  | none => goOn x (.throwing (.prisma "P2025"))
  | some row =>
    -- the transaction goes on with the sessions
    ([.updateUser { row with passwordHash := passwordHash }], x, .revokeScan user.id .ok)

/-- The rows a revoke-all finds when it starts. -/
def liveTokens (d : Db) (userId : Nat) : List RefreshToken :=
  d.tokens.rows.filter fun t => t.userId == userId && t.revokedAt.isNone

/-- The snapshot of `updateMany({ userId, revokedAt: null })`. -/
def revokeScan (userId : Nat) (reply : Reply) (o : Oracle) (d : Db) (x : Ext) : Outcome :=
  goOn x (.revokeRows userId ((liveTokens d userId).map RefreshToken.id) o.now reply)

/-- One row of the same statement: lock it, re-check the WHERE, write.  The database chooses the
    order of the rows. -/
def revokeRow (userId i : Nat) (ids : List Nat) (revokedAt : Time) (reply : Reply) (o : Oracle)
    (d : Db) (x : Ext) : Outcome :=
  -- the row that comes next
  let j := if o.row ∈ ids then o.row else i
  let next := Loc.revokeRows userId ((i :: ids).erase j) revokedAt reply
  match d.tokens.get? j with
  | none => goOn x next
  | some row =>
    if row.userId = userId && row.revokedAt.isNone then
      ([.updateToken { row with revokedAt := some revokedAt }], x, next)
    else goOn x next

end Statements

/-! ## The machine -/

/-- The first statement of a request. -/
def start (h : Helpers) (r : Request) (o : Oracle) (d : Db) (x : Ext) : Outcome :=
  match r with
  | .signup _ email _ => signupUser email d x
  | .login email password => loginUser h email password d x
  | .refresh token => refreshSession h token o d x
  | .logout caller token => logoutUser caller token x
  | .changePassword caller current new => changePassword h caller current new o d x

/-- `signupCreate` needs the body again. -/
def create (h : Helpers) (r : Request) (o : Oracle) (d : Db) (x : Ext) : Outcome :=
  match r with
  | .signup name email password => signupCreate h name email password o d x
  -- no other request gets here
  | _ => goOn x (.throwing .typeError)

/-- The statements of process `p`. A rotation, a change of password and the revocation of all tokens
    are transactions; the other statements stand alone. -/
def code (h : Helpers) (reqs : Nat → Request) (p : Nat) :
    Loc → Instr Db Ext Write Oracle Loc
  | .start => .auto (start h (reqs p))
  | .signupCreate => .auto (create h (reqs p))
  | .issue user => .auto (issueSession h user (session user))
  | .rotate stored user => .stmt (rotate stored user)
  | .successor stored user => .stmt (issueSession h user (.rotateCommit stored user))
  | .rotateCommit _ user token => .commit (session user token)
  | .logoutOne userId token => .auto (logoutOne h userId token)
  | .newPassword user hash => .stmt fun _ => newPassword user hash
  | .revokeScan userId reply => .stmt (revokeScan userId reply)
  | .revokeRows userId (i :: ids) at_ reply => .stmt (revokeRow userId i ids at_ reply)
  | .revokeRows _ [] _ reply => .commit (.done reply)
  | .throwing e => .rollback (.done (.thrown e))
  | .done _ => .halt

/-- A session request commits a rotation, or a bulk revocation when no row is left. -/
inductive Commits : Loc → Loc → Prop
  | rotation {stored user token} :
      Commits (.rotateCommit stored user token) (session user token)
  | revocation {userId at_ reply} : Commits (.revokeRows userId [] at_ reply) (.done reply)

/-- Which locations commit. -/
theorem commits_of_code {h : Helpers} {reqs : Nat → Request} {p : Nat} {l l' : Loc}
    (hcode : code h reqs p l = .commit l') : Commits l l' := by
  cases l with
  | rotateCommit stored user token => exact Instr.commit.inj hcode ▸ .rotation
  | revokeRows userId ids at_ reply =>
    cases ids with
    | nil => exact Instr.commit.inj hcode ▸ .revocation
    | cons i ids => nomatch hcode
  | _ => nomatch hcode

/-- Only a throw rolls back. -/
theorem eq_of_rollback {h : Helpers} {reqs : Nat → Request} {p : Nat} {l l' : Loc}
    (hcode : code h reqs p l = .rollback l') :
    ∃ e, l = .throwing e ∧ l' = .done (.thrown e) := by
  cases l with
  | throwing e => exact ⟨e, rfl, (Instr.rollback.inj hcode).symm⟩
  | revokeRows userId ids at_ reply => cases ids <;> nomatch hcode
  | _ => nomatch hcode

/-- Any number of concurrent session requests; request `p` is `reqs p`. -/
def sessions (h : Helpers) (reqs : Nat → Request) : Machine Db Ext Write Row Oracle Empty Loc where
  apply := apply
  locks := locks
  code := code h reqs
  failed := .done (.thrown .aborted)
  env := fun e => nomatch e

/-- Nothing has run yet: some accounts, no session. -/
def init (users : Table User User.id) (nextUserId : Nat) : State Db Ext Write Loc where
  base :=
    { db := { users := users, tokens := Table.empty }
      world := { nextUserId := nextUserId, nextTokenId := 1, signed := [] }
      log := [] }
  pend := []
  loc := fun _ => .start

end SmartPatents.UserService
