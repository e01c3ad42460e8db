/-
  `src/middlewares/idempotency.js` in front of `POST /patents`.

  A request with an `Idempotency-Key` reserves its key with one INSERT; winning it grants the right
  to run the handler.  A request that loses the insert reads the row and answers from it: 409 for a
  different body or a request still in flight, the recorded response otherwise.  `res.json` is
  wrapped: a 2xx is recorded in the row before it is sent, anything else deletes the row.

    start ─ no key ─────────────────────────────→ running (not reserved)
      │ INSERT won ─────→ running (reserved) ─ handler ─→ replying ─ settle ─→ answered
      └ INSERT lost → lost ─ row read ─→ answered (409, or the recorded response)
                        └ no row any more ─→ running (not reserved)

  The handler is `createPatent`: it either fails with a non-2xx, leaving nothing behind, or commits
  one patent and answers 201.  Bodies (`B`), JSON responses (`J`) and SHA-256 are parameters.

  A key is scoped by user and endpoint (`KeyId`), and an empty header is no key at all.  The row
  holds the hash of the first body, so that a retry with another body is refused whatever the
  state of the row.  The status of a row in flight is 0, which no response has.

  The two halves of what the middleware promises are `IdempotencySafety` (at most one patent for a
  key, and every success is its record) and `IdempotencyRelease` (a key does not stay reserved).
  Both fail in general and hold under a condition on the run.
-/
import SmartPatents.Errors
import SmartPatents.Lib.Table
import SmartPatents.Lib.Runs

namespace SmartPatents.Idempotency

open Runs

/-! ## Tables -/

/-- The primary key of IDEMPOTENCY_KEY. -/
structure KeyId where
  userId : Nat
  endpoint : String
  key : String
deriving DecidableEq

/-- One row of IDEMPOTENCY_KEY. -/
structure IdempotencyKey (J : Type) where
  id : KeyId
  requestHash : String
  responseStatus : Nat
  responseBody : J
deriving DecidableEq

/-- A reserved but unfinished request. -/
def IN_FLIGHT : Nat := 0

/-- A PATENT row, as far as this middleware can tell patents apart. -/
structure Patent (B : Type) where
  id : Nat
  submittedBy : Nat
  input : B
deriving DecidableEq

/-- What the middleware and the handler take from elsewhere. -/
structure App (B J : Type) where
  /-- `hashBody` -/
  hashBody : B → String
  /-- `input.documentKey`, unique in PATENT. -/
  documentKey : B → String
  /-- The body of `sendSuccess(res, 201, toPatentDetailDto(patent))`. -/
  created : Patent B → J
  /-- The body of `sendError`. -/
  failure : AppError → J
  /-- `{}` -/
  empty : J

/-- One `POST /patents` of an authenticated user. -/
structure Request (B : Type) where
  userId : Nat
  idempotencyKey : Option String
  body : B

/-- Where a request is: before the reservation, without it, in the handler, answering, or done. -/
inductive Loc (J : Type)
  | start
  | lost
  | running (reserved : Bool)
  | replying (reserved : Bool) (status : Nat) (body : J)
  /-- `replay` is the `Idempotent-Replay` header. -/
  | answered (replay : Bool) (status : Nat) (body : J)
  /-- The response never comes. -/
  | hung
deriving DecidableEq

/-- The rows of the keys, the patents committed, and where every request is. -/
structure State (B J : Type) where
  keys : Table (IdempotencyKey J) IdempotencyKey.id
  /-- The committed patents, each with the request whose handler run committed it. -/
  patents : List (Nat × Patent B)
  loc : Nat → Loc J

/-- How a handler run ends. -/
inductive Outcome (J : Type)
  | fails (status : Nat) (body : J)
  | commits (patentId : Nat)

/-- What can happen next. A process that dies settles nothing. -/
inductive Act (J : Type)
  /-- Request `p` executes its next statement; `outcome` matters to a handler run only. -/
  | run (p : Nat) (outcome : Outcome J)
  /-- The statement of request `p` fails in the database. -/
  | dbError (p : Nat)
  | crash (p : Nat)

variable {B J : Type}

/-! ## The middleware -/

/-- `${req.method} ${req.baseUrl}${req.route.path}` -/
def endpoint : String := "POST /api/patents/"

/-- The row that a request with a key is about.  An empty key is none: `if (!key || !req.user)`. -/
def Request.keyId (r : Request B) : Option KeyId :=
  (r.idempotencyKey.filter fun key => key != "").map fun key => ⟨r.userId, endpoint, key⟩

/-- A status that settles a reservation; any other releases it. -/
def ok2xx (status : Nat) : Bool := 200 ≤ status && status < 300

section Statements

variable (app : App B J)

/-- `next(error)`: the error handler answers.  In `start` and `lost`, `res.json` is not wrapped. -/
def refuse (e : AppError) : Loc J := .answered false e.status (app.failure e)

/-- What the error handler makes of an error it may not describe. -/
def internalError : AppError := ⟨"Internal Server Error", 500, "INTERNAL_ERROR"⟩

/-- The row that wins a request the right to run. -/
def reservation (r : Request B) (id : KeyId) : IdempotencyKey J :=
  { id := id
    requestHash := app.hashBody r.body
    responseStatus := IN_FLIGHT
    responseBody := app.empty }

/-- Up to the INSERT that reserves the key. -/
def reserve (r : Request B) (σ : State B J) : Table (IdempotencyKey J) IdempotencyKey.id × Loc J :=
  match r.keyId with
  | none => (σ.keys, .running false)
  | some id =>
    if 255 < id.key.length then
      (σ.keys, refuse app (conflict "Idempotency-Key must be a string of at most 255 characters"))
    else
      match σ.keys.get? id with
      -- the INSERT fails on the primary key
      | some _ => (σ.keys, .lost)
      | none => (σ.keys.put (reservation app r id), .running true)

/-- The read after a lost insert. -/
def readExisting (r : Request B) (σ : State B J) : Loc J :=
  match r.keyId.bind σ.keys.get? with
  -- the key was released in the meantime: run, without a reservation
  | none => .running false
  | some existing =>
    if existing.requestHash ≠ app.hashBody r.body then
      refuse app (conflict "This Idempotency-Key was already used with a different request body")
    else if existing.responseStatus = IN_FLIGHT then
      refuse app
        (conflict "A request with this Idempotency-Key is still in progress; retry shortly")
    else .answered true existing.responseStatus existing.responseBody

/-- The wrapped `res.json`: record a 2xx, release the key otherwise.  An update or a delete of a
    row that is gone fails, which is logged and changes nothing. -/
def settle (r : Request B) (status : Nat) (body : J) (σ : State B J) :
    Table (IdempotencyKey J) IdempotencyKey.id :=
  match r.keyId with
  -- no key, nothing to record
  | none => σ.keys
  | some id =>
    if ok2xx status then
      match σ.keys.get? id with
      | none => σ.keys
      | some row => σ.keys.put { row with responseStatus := status, responseBody := body }
    else σ.keys.erase id

/-- `documentKey` is unique, and ids come from a sequence. -/
def insertable (r : Request B) (patentId : Nat) (σ : State B J) : Bool :=
  σ.patents.all fun c =>
    c.2.id != patentId && app.documentKey c.2.input != app.documentKey r.body

/-- One action; `none` where it is not possible. -/
def step (reqs : Nat → Request B) (σ : State B J) : Act J → Option (State B J)
  | .run p outcome =>
    match σ.loc p with
    | .start =>
      let r := reserve app (reqs p) σ
      some { σ with keys := r.1, loc := goto σ.loc p r.2 }
    | .lost => some { σ with loc := goto σ.loc p (readExisting app (reqs p) σ) }
    | .running reserved =>
      match outcome with
      | .fails status body =>
        -- a handler that fails commits nothing and answers with no 2xx
        if ok2xx status then none
        else some { σ with loc := goto σ.loc p (.replying reserved status body) }
      | .commits patentId =>
        if insertable app (reqs p) patentId σ then
          let patent : Patent B := ⟨patentId, (reqs p).userId, (reqs p).body⟩
          some { σ with
            patents := σ.patents ++ [(p, patent)]
            loc := goto σ.loc p (.replying reserved 201 (app.created patent)) }
        else none
    | .replying reserved status body =>
      some { σ with
        keys := if reserved then settle (reqs p) status body σ else σ.keys
        loc := goto σ.loc p (.answered false status body) }
    | .answered .. | .hung => none
  | .dbError p =>
    match σ.loc p with
    | .start =>
      if (reqs p).keyId.isSome then some { σ with loc := goto σ.loc p (refuse app internalError) }
      else none
    -- a rejection outside the `try`: nobody calls `next`
    | .lost => some { σ with loc := goto σ.loc p .hung }
    -- the failed write is logged, and the response goes out
    | .replying true status body =>
      some { σ with loc := goto σ.loc p (.answered false status body) }
    | _ => none
  | .crash p =>
    match σ.loc p with
    | .answered .. => none
    | _ => some { σ with loc := goto σ.loc p .hung }

end Statements

/-- No key is reserved and nothing is created yet. -/
def init : State B J where
  keys := Table.empty
  patents := []
  loc := fun _ => .start

/-! ## What one step can do -/

/-- Inversion of `step`: the mover `p`, and what it does to the tables. -/
inductive Effect (app : App B J) (reqs : Nat → Request B) (σ : State B J) : Act J → State B J → Prop
  | unkeyed {p outcome} (hloc : σ.loc p = .start) (hkey : (reqs p).keyId = none) :
      Effect app reqs σ (.run p outcome) { σ with loc := goto σ.loc p (.running false) }
  | reserve {p outcome id} (hloc : σ.loc p = .start) (hkey : (reqs p).keyId = some id)
      (hfree : σ.keys.get? id = none) :
      Effect app reqs σ (.run p outcome)
        { σ with
          keys := σ.keys.put (reservation app (reqs p) id)
          loc := goto σ.loc p (.running true) }
  | lose {p outcome id row} (hloc : σ.loc p = .start) (hkey : (reqs p).keyId = some id)
      (hrow : σ.keys.get? id = some row) :
      Effect app reqs σ (.run p outcome) { σ with loc := goto σ.loc p .lost }
  /-- A 409, 500 or another refusal that touches nothing. -/
  | refused {p a e} (hkey : (reqs p).keyId.isSome) (hnot : ok2xx e.status = false)
      (hloc : σ.loc p = .start ∨ σ.loc p = .lost) :
      Effect app reqs σ a { σ with loc := goto σ.loc p (refuse app e) }
  | gone {p outcome} (hloc : σ.loc p = .lost) (hrow : (reqs p).keyId.bind σ.keys.get? = none) :
      Effect app reqs σ (.run p outcome) { σ with loc := goto σ.loc p (.running false) }
  | replay {p outcome id row} (hloc : σ.loc p = .lost) (hkey : (reqs p).keyId = some id)
      (hrow : σ.keys.get? id = some row) (hhash : row.requestHash = app.hashBody (reqs p).body)
      (hdone : row.responseStatus ≠ IN_FLIGHT) :
      Effect app reqs σ (.run p outcome)
        { σ with loc := goto σ.loc p (.answered true row.responseStatus row.responseBody) }
  | failed {p reserved status body} (hloc : σ.loc p = .running reserved)
      (hnot : ok2xx status = false) :
      Effect app reqs σ (.run p (.fails status body))
        { σ with loc := goto σ.loc p (.replying reserved status body) }
  | committed {p reserved patentId patent} (hloc : σ.loc p = .running reserved)
      (hnew : insertable app (reqs p) patentId σ = true)
      (hpatent : patent = ⟨patentId, (reqs p).userId, (reqs p).body⟩) :
      Effect app reqs σ (.run p (.commits patentId))
        { σ with
          patents := σ.patents ++ [(p, patent)]
          loc := goto σ.loc p (.replying reserved 201 (app.created patent)) }
  | settled {p outcome status body} (hloc : σ.loc p = .replying true status body) :
      Effect app reqs σ (.run p outcome)
        { σ with
          keys := settle (reqs p) status body σ
          loc := goto σ.loc p (.answered false status body) }
  | sent {p outcome status body} (hloc : σ.loc p = .replying false status body) :
      Effect app reqs σ (.run p outcome)
        { σ with loc := goto σ.loc p (.answered false status body) }
  | unread {p} (hloc : σ.loc p = .lost) :
      Effect app reqs σ (.dbError p) { σ with loc := goto σ.loc p .hung }
  | unsettled {p status body} (hloc : σ.loc p = .replying true status body) :
      Effect app reqs σ (.dbError p) { σ with loc := goto σ.loc p (.answered false status body) }
  | crash {p} (hloc : ∀ replay status body, σ.loc p ≠ .answered replay status body) :
      Effect app reqs σ (.crash p) { σ with loc := goto σ.loc p .hung }

/-- **Inversion**: from here on no proof opens `step`. -/
theorem effect_of_step {app : App B J} {reqs : Nat → Request B} {σ σ' : State B J} {a : Act J}
    (h : step app reqs σ a = some σ') : Effect app reqs σ a σ' := by
  cases a with
  | run p outcome =>
    simp only [step] at h
    split at h
    · rename_i hloc
      unfold reserve at h
      split at h
      · rename_i hkey
        exact Option.some.inj h ▸ .unkeyed hloc hkey
      · rename_i id hkey
        split at h
        · exact Option.some.inj h ▸ .refused (by rw [hkey]; rfl) rfl (Or.inl hloc)
        · split at h
          · rename_i row hrow
            exact Option.some.inj h ▸ .lose hloc hkey hrow
          · rename_i hfree
            exact Option.some.inj h ▸ .reserve hloc hkey hfree
    · rename_i hloc
      unfold readExisting at h
      split at h
      · rename_i hrow
        exact Option.some.inj h ▸ .gone hloc hrow
      · rename_i row hrow
        obtain ⟨id, hkey, hget⟩ := Option.bind_eq_some_iff.mp hrow
        have hsome : (reqs p).keyId.isSome := by rw [hkey]; rfl
        split at h
        · exact Option.some.inj h ▸ .refused hsome rfl (Or.inr hloc)
        · rename_i hhash
          split at h
          · exact Option.some.inj h ▸ .refused hsome rfl (Or.inr hloc)
          · rename_i hdone
            exact Option.some.inj h ▸ .replay hloc hkey hget (by simpa using hhash) hdone
    · rename_i reserved hloc
      split at h
      · split at h
        · nomatch h
        · rename_i hnot
          exact Option.some.inj h ▸ .failed hloc (by simpa using hnot)
      · split at h
        · rename_i hnew
          exact Option.some.inj h ▸ .committed hloc hnew rfl
        · nomatch h
    · rename_i reserved status body hloc
      cases reserved with
      | true => exact Option.some.inj h ▸ .settled hloc
      | false => exact Option.some.inj h ▸ .sent hloc
    · nomatch h
    · nomatch h
  | dbError p =>
    simp only [step] at h
    split at h
    · rename_i hloc
      split at h
      · rename_i hkey
        exact Option.some.inj h ▸ .refused hkey rfl (Or.inl hloc)
      · nomatch h
    · rename_i hloc
      exact Option.some.inj h ▸ .unread hloc
    · rename_i status body hloc
      exact Option.some.inj h ▸ .unsettled hloc
    · nomatch h
  | crash p =>
    simp only [step] at h
    split at h
    · nomatch h
    · rename_i hloc
      exact Option.some.inj h ▸ .crash fun replay status body => hloc replay status body

end SmartPatents.Idempotency
