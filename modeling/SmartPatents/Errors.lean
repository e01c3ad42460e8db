/-
  `src/utils/errors.js` and `src/utils/roles.js`: the errors the API is willing to describe, and the
  two roles.  `AppError.expose` is always true and is left out; `details` is set by no caller
  modelled here.

  A service function either returns or throws, and what it throws is one of four things
  (`Thrown`): an `AppError` that it has made itself, a Prisma error with its code, a `TypeError`
  of the language where the code reads a property of `null`, or the failure of a statement that
  did not come back.  The first is described to the client as it is; the second goes through
  `mapPrismaError`; the others are a 500.

  `Caller` is what the services know about who is asking.  It comes from the claims of the access
  token and from nothing else, so that a role that has been changed since the token was signed is
  still the old one here.
-/

namespace SmartPatents

/-- Milliseconds since the epoch (`Date.now()`). -/
abbrev Time := Nat

/-- `ROLES` of `roles.js`, the values of `User.role`. -/
inductive Role
  | user
  | admin
deriving DecidableEq

/-- `AppError`: an error whose message may be shown to the client. -/
structure AppError where
  message : String
  status : Nat
  code : String
deriving DecidableEq

/-- 400: the request itself is wrong. -/
def badRequest (message : String) : AppError := ⟨message, 400, "BAD_REQUEST"⟩

/-- 401: nobody knows who is asking. -/
def unauthorized (message : String) : AppError := ⟨message, 401, "UNAUTHORIZED"⟩

/-- 403: known, and not allowed. -/
def forbidden (message : String) : AppError := ⟨message, 403, "FORBIDDEN"⟩

/-- 404: not there, or not for this caller to know about. -/
def notFound (message : String) : AppError := ⟨message, 404, "NOT_FOUND"⟩

/-- 409: at odds with what is stored. -/
def conflict (message : String) : AppError := ⟨message, 409, "CONFLICT"⟩

/-- What a service function can throw. -/
inductive Thrown
  | app (e : AppError)
  /-- A `PrismaClientKnownRequestError` with its code. -/
  | prisma (code : String)
  /-- A property read on `null`. -/
  | typeError
  /-- The statement did not come back: connection lost, deadlock, process killed. -/
  | aborted
deriving DecidableEq

/-- `req.user`, as `requireAuth` attaches it. -/
structure Caller where
  userId : Nat
  role : Role
deriving DecidableEq

/-- `isAdmin(user)`. -/
def Caller.isAdmin (caller : Caller) : Bool := caller.role == .admin

end SmartPatents
