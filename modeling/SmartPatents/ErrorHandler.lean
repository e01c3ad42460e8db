/-
  `src/middlewares/index.js`: what leaves the process when something was thrown.

  `errorHandler` reads six things of a thrown value, and forwards four: the status, and the code, the
  message and the details.  The code and the message pass the test `isSafeToExpose`, which is to keep
  connection strings, queries and file paths from the client; the details go to `sendError` as they
  are.

  ## What is modelled

  A thrown value is what reading its properties gives, and any value of the language may be thrown
  (`Thrown`).  A response is what `res.status(status).json(body)` is given, the body as JSON; what
  Express makes of a status that carries no body, or that is none, comes after it.  Where
  `JSON.stringify` throws, `errorHandler` throws in its turn and sends no response of its own
  (`none`); what is sent then is up to Express, and nothing is said of it here.  A falsy value never
  gets here: Express does not take it for an error.  The log line that a status from 500 on writes
  outside of tests is left out.

  ## The result

  It is about two runs: two unexpected errors with one status, each handled on its own.  They are
  answered with one response if and only if the details that are forwarded are the same and can be
  written (`sameResponse_iff`); message, code, and every other property are free to differ.  Details
  that differ are enough to tell two errors apart (`not_sameResponse`).
-/
import SmartPatents.Lib.Json

namespace SmartPatents.ErrorHandler

open Json (Value Written)
open Doubles (Double)

/-- A thrown value: what reading its properties gives. -/
structure Thrown where
  /-- `err instanceof Prisma.PrismaClientKnownRequestError`. -/
  knownRequestError : Bool
  status : Value
  expose : Value
  message : Value
  code : Value
  details : Value

/-- What `mapPrismaError` returns. -/
structure Mapped where
  status : Value
  code : Value
  message : Value

/-- What `errorHandler` sends. -/
structure Response where
  status : Value
  body : Json

/-- An HTTP status. -/
def httpStatus (n : Nat) (h : n < 2 ^ 53) : Value :=
  .number (.finite (Double.ofNat n 0 h Double.unscaled))

/-! ## The handler -/

/-- `switch (err.code)` compares with `===`. -/
def mapPrismaError (err : Thrown) : Option Mapped :=
  if !err.knownRequestError then none
  else
    match err.code with
    | .string "P2002" => some
        { status := httpStatus 409 (by decide)
          code := .string "CONFLICT"
          message := .string "A record with that value already exists" }
    | .string "P2025" => some
        { status := httpStatus 404 (by decide)
          code := .string "NOT_FOUND"
          message := .string "Resource not found" }
    | .string "P2003" => some
        { status := httpStatus 409 (by decide)
          code := .string "CONFLICT"
          message := .string "Operation violates a database constraint" }
    | _ => none

/-- `utils/response.js`: the envelope, with `details` if they are truthy. -/
def sendError (status code message details : Value) : Option Response :=
  let error := [("code", code), ("message", message)] ++
    if details.truthy then [("details", details)] else []
  match (Value.object [("success", .boolean false), ("error", .object error)]).toJson with
  | .json body => some ⟨status, body⟩
  | .throws | .omitted => none

/-- `status === 500`. -/
def isInternal : Value → Bool
  | .number (.finite x) => x.value = 500
  | _ => false

/-- `err.expose === true`. -/
def marked (err : Thrown) : Bool :=
  match err.expose with
  | .boolean true => true
  | _ => false

/-- The handler.  It reads the mapping first and the error second, so that a mapped error never shows
    its own message. -/
def errorHandler (err : Thrown) : Option Response :=
  let mapped := mapPrismaError err
  let status := ((mapped.elim .undefined Mapped.status).or err.status).or
    (httpStatus 500 (by decide))
  let isSafeToExpose := mapped.isSome || marked err
  let message :=
    if isSafeToExpose then (mapped.elim .undefined Mapped.message).or err.message
    else .string "Internal Server Error"
  let code :=
    if isSafeToExpose then
      ((mapped.elim .undefined Mapped.code).or err.code).or
        (.string (if isInternal status then "INTERNAL_ERROR" else "ERROR"))
    else .string "INTERNAL_ERROR"
  sendError status code message err.details

/-! ## Two runs -/

/-- Neither mapped nor marked as safe. -/
structure Unexpected (err : Thrown) : Prop where
  unmapped : mapPrismaError err = none
  unmarked : marked err = false

/-- Both are answered, with one status and one body. -/
def SameResponse (err₁ err₂ : Thrown) : Prop :=
  ∃ response, errorHandler err₁ = some response ∧ errorHandler err₂ = some response

/-- What the client is sent of the details. -/
def forwarded (details : Value) : Written := if details.truthy then details.toJson else .omitted

/-- The envelope of an unexpected error around its details. -/
def envelope (details : List (String × Json)) : Json :=
  .object [("success", .boolean false), ("error", .object ([("code", .string "INTERNAL_ERROR"),
    ("message", .string "Internal Server Error")] ++ details))]

variable {err err₁ err₂ : Thrown}

/-- An unexpected error shows its status and its details. -/
theorem errorHandler_of_unexpected (h : Unexpected err) :
    errorHandler err =
      match forwarded err.details with
      | .throws => none
      | .omitted => some ⟨err.status.or (httpStatus 500 (by decide)), envelope []⟩
      | .json details =>
        some ⟨err.status.or (httpStatus 500 (by decide)), envelope [("details", details)]⟩ := by
  have hstatus : (Value.undefined.or err.status) = err.status := rfl
  simp only [errorHandler, h.unmapped, h.unmarked, Option.elim_none, Option.isSome_none,
    Bool.or_self, Bool.false_eq_true, if_false, hstatus, sendError, forwarded]
  cases htruthy : err.details.truthy with
  | false => rfl
  | true =>
    simp only [if_true, List.cons_append, List.nil_append, Value.toJson, Value.fieldsToJson]
    cases err.details.toJson <;> rfl

/-- Two envelopes are equal when their details are. -/
theorem envelope_inj {d₁ d₂ : List (String × Json)} : envelope d₁ = envelope d₂ ↔ d₁ = d₂ := by
  simp [envelope]

/-- **Unexpected errors reveal nothing** but their details. -/
theorem sameResponse_iff (h₁ : Unexpected err₁) (h₂ : Unexpected err₂)
    (hstatus : err₁.status = err₂.status) :
    SameResponse err₁ err₂ ↔
      forwarded err₁.details = forwarded err₂.details ∧ forwarded err₁.details ≠ .throws := by
  rw [SameResponse, errorHandler_of_unexpected h₁, errorHandler_of_unexpected h₂, hstatus]
  cases forwarded err₁.details <;> cases forwarded err₂.details <;>
    simp [envelope_inj, eq_comm]

/-- An error of a library, with a message and perhaps a field called `details`. -/
def libraryError (message : String) (details : Value) : Thrown where
  knownRequestError := false
  status := .undefined
  expose := .undefined
  message := .string message
  code := .undefined
  details := details

/-- An error of a library is one that nobody has marked safe. -/
theorem unexpected_libraryError (message : String) (details : Value) :
    Unexpected (libraryError message details) := ⟨rfl, rfl⟩

/-- Two errors of a library: the details decide. -/
theorem sameResponse_iff_message :
    SameResponse (libraryError "connect ECONNREFUSED 10.0.0.5:5432" .undefined)
        (libraryError "out of memory" (.string "")) ↔
      forwarded .undefined = forwarded (.string "") ∧ forwarded .undefined ≠ .throws :=
  sameResponse_iff (unexpected_libraryError _ _) (unexpected_libraryError _ _) rfl

/-- The address of the database server, as `details`. -/
theorem not_sameResponse :
    ¬ ∀ err₁ err₂ : Thrown, Unexpected err₁ → Unexpected err₂ → err₁.status = err₂.status →
      SameResponse err₁ err₂ := by
  intro hall
  obtain ⟨response, h₁, h₂⟩ := hall (libraryError "connect" .undefined)
    (libraryError "connect" (.string "postgres at 10.0.0.5")) (unexpected_libraryError _ _)
    (unexpected_libraryError _ _) rfl
  have hsame := h₁.trans h₂.symm
  rw [errorHandler_of_unexpected (unexpected_libraryError _ _),
    errorHandler_of_unexpected (unexpected_libraryError _ _)] at hsame
  simp [libraryError, forwarded, Value.truthy, Value.toJson, envelope_inj] at hsame

end SmartPatents.ErrorHandler
