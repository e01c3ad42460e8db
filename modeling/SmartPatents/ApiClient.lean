/-
  The browser: `frontend/src/services/apiClient.ts`, `tokenStore.ts`, `authService.ts`, and
  `hydrate` of `frontend/src/context/AuthContext.tsx`.

  The tabs of a browser share `tokenStore` (localStorage); each tab loads the modules for itself, so
  `refreshInFlight` is one promise PER TAB.  A call is one invocation of an async function, and the
  JavaScript between two of its `await`s is one step:

    request     idle → fetching → parsing → done
                       fetching → awaiting → retrying → parsing → done        (a 401)
                                  awaiting → parsing → done                   (refused again)
    runRefresh  idle → sent → handled → settled

  What a fetch comes back with is up to the environment: any status, a network failure, or an abort;
  and so is what becomes of the body (`Body`): JSON, something else, or a connection that breaks while
  it is read.  `res.json()` is an `await` of its own (`parsing`), and so is the `finally` of
  `refreshTokens` (`handled`): other calls run in between.

  The order in which promises resume is not modelled more closely than this: any call that can go
  on may go on next.  What a call does between two awaits it does at once, and in the order of the
  source: `runRefresh` writes the store before its promise settles, and those who wait for it
  resume afterwards, one after another.

  `request` retries once after a successful refresh, with the original body; `hydrate` is the only
  caller that looks at an error, and it clears the store for every error but an abort.  That, and
  the same in `runRefresh`, is what `RealRejection` is about; `CurrentSession` is about when
  `runRefresh` writes.
-/
import SmartPatents.Errors
import SmartPatents.Lib.Runs

namespace SmartPatents.ApiClient

open Runs

/-! ## Responses -/

/-- `AuthTokens`; an access token is its claims. -/
structure AuthTokens where
  accessToken : Caller
  refreshToken : String
deriving DecidableEq

/-- A JSON body.  `data` matters where it has tokens in it: `success none` is any other `data`, and
    `null` where tokens are read from it (the API sends no object there that lacks them). -/
inductive Envelope
  | success (data : Option AuthTokens)
  | error (code message : String)
  | null
deriving DecidableEq

/-- What reading the body of a response comes to.  `res.json()` throws at the last two. -/
inductive Body
  | json (envelope : Envelope)
  /-- The body is there, and is not JSON. -/
  | unparsable
  /-- The connection breaks while the body is read. -/
  | broken
deriving DecidableEq

/-- What an async function can reject with. -/
inductive ClientError
  /-- `ApiClientError`, without its `details`. -/
  | api (status : Nat) (code message : String)
  | abortError
  | typeError
deriving DecidableEq

/-- What the promise of a call settles with. -/
inductive Result
  | resolved (data : Option AuthTokens)
  | rejected (e : ClientError)
deriving DecidableEq

/-- `res.ok`. -/
def isOk (status : Nat) : Bool := 200 ≤ status && status ≤ 299

/-- `parse`: its `catch` does not ask why there is no JSON. -/
def parse (status : Nat) (body : Body) : Result :=
  match body with
  | .unparsable | .broken =>
    .rejected (.api status "NETWORK" "The server returned an unexpected response.")
  | .json .null => .rejected .typeError
  | .json (.success data) =>
    if isOk status then .resolved data else .rejected (.api status "UNKNOWN" "Something went wrong.")
  | .json (.error code message) => .rejected (.api status code message)

/-- What becomes of a `fetch`, up to the body of the response. -/
inductive FetchOutcome
  | response (status : Nat)
  | networkFailure
  | aborted
deriving DecidableEq

/-- What becomes of the `fetch` of `runRefresh`, with the body. -/
inductive RefreshOutcome
  | response (status : Nat) (body : Body)
  | networkFailure
deriving DecidableEq

/-- The tokens that `runRefresh` accepts. -/
def accepted : RefreshOutcome → Option AuthTokens
  | .response status (.json (.success (some tokens))) => if isOk status then some tokens else none
  | _ => none

/-! ## State -/

/-- `RequestOptions`, the two flags that steer the tokens. -/
structure RequestOptions where
  auth : Bool
  allowRefresh : Bool

/-- The functions that use the token store. -/
inductive Call
  | login
  | signup
  | logout
  | hydrate
  | request (options : RequestOptions)

/-- The options of a call, as the services pass them. -/
def Call.options : Call → RequestOptions
  | .login | .signup => ⟨false, true⟩
  | .logout | .hydrate => ⟨true, true⟩
  | .request options => options

/-- A fetch has a header and a body; the body matters where it has a refresh token in it. -/
inductive CallLoc
  | idle
  | fetching (authorization : Option Caller) (body : Option String)
  | awaiting (refresh : Nat) (body : Option String)
  | retrying (authorization : Caller) (body : Option String)
  | parsing (status : Nat)
  | done (result : Result)
deriving DecidableEq

/-- Where a refresh is: sent, handled by `runRefresh`, or settled for those who wait. -/
inductive RefreshLoc
  | idle
  | sent (refreshToken : String)
  | handled (tokens : Option AuthTokens)
  | settled (tokens : Option AuthTokens)
deriving DecidableEq

/-- What the tabs of a browser share, and where its calls are. -/
structure Browser where
  /-- `tokenStore`: both tokens are set together and cleared together. -/
  store : Option AuthTokens
  /-- The promise of each tab. -/
  refreshInFlight : Nat → Option Nat
  refresh : Nat → RefreshLoc
  call : Nat → CallLoc
  aborted : Nat → Bool

/-- A page that has just been loaded. -/
def init (store : Option AuthTokens) : Browser where
  store := store
  refreshInFlight := fun _ => none
  refresh := fun _ => .idle
  call := fun _ => .idle
  aborted := fun _ => false

/-- What can happen next: a call, a response, or the end of a promise. -/
inductive Action
  | start (c : Nat)
  /-- The fetch of a call settles; `r` is the refresh that it may start. -/
  | answer (c : Nat) (outcome : FetchOutcome) (r : Nat)
  | body (c : Nat) (body : Body)
  | refreshed (r : Nat) (outcome : RefreshOutcome)
  | settle (r : Nat)
  | resume (c : Nat)
  | abort (c : Nat)
deriving DecidableEq

/-! ## Steps -/

section Code

variable (tab : Nat → Nat) (calls : Nat → Call)

/-- The caller of `request` gets its result. -/
def finish (β : Browser) (c : Nat) (result : Result) : Browser :=
  let β' := { β with call := goto β.call c (.done result) }
  match calls c with
  | .login | .signup =>
    match result with
    | .resolved (some tokens) => { β' with store := some tokens }
    | .resolved none => { β with call := goto β.call c (.done (.rejected .typeError)) }
    | .rejected _ => β'
  | .logout => { β' with store := none }
  | .hydrate =>
    match result with
    | .resolved _ => β'
    | .rejected e => if e = .abortError ∨ β.aborted c then β' else { β' with store := none }
  | .request _ => β'

/-- Up to the first `fetch`.  `hydrate` asks nobody when there are no tokens. -/
def start (β : Browser) (c : Nat) : Browser :=
  let access := β.store.map AuthTokens.accessToken
  match calls c with
  | .login | .signup => { β with call := goto β.call c (.fetching none none) }
  | .logout =>
    { β with call := goto β.call c (.fetching access (β.store.map AuthTokens.refreshToken)) }
  | .hydrate =>
    match β.store with
    | none => { β with call := goto β.call c (.done (.resolved none)) }
    | some _ => { β with call := goto β.call c (.fetching access none) }
  | .request options =>
    { β with call := goto β.call c (.fetching (if options.auth then access else none) none) }

/-- `refreshTokens`, up to the `fetch` of `runRefresh`. -/
def refreshTokens (β : Browser) (c r : Nat) (refreshToken : String) (body : Option String) :
    Option Browser :=
  match β.refreshInFlight (tab c) with
  | some r' => some { β with call := goto β.call c (.awaiting r' body) }
  | none =>
    if β.refresh r = .idle then
      some
        { β with
          refreshInFlight := goto β.refreshInFlight (tab c) (some r)
          refresh := goto β.refresh r (.sent refreshToken)
          call := goto β.call c (.awaiting r body) }
    else none

/-- The first `fetch` of a request has settled. -/
def answer (β : Browser) (c : Nat) (body : Option String) (outcome : FetchOutcome) (r : Nat) :
    Option Browser :=
  match outcome with
  | .networkFailure =>
    some (finish calls β c
      (.rejected (.api 0 "NETWORK" "Could not reach the server. Check your connection.")))
  | .aborted => if β.aborted c then some (finish calls β c (.rejected .abortError)) else none
  | .response status =>
    if status = 401 ∧ (calls c).options.auth ∧ (calls c).options.allowRefresh then
      match β.store with
      | some tokens => refreshTokens tab β c r tokens.refreshToken body
      | none => some { β with call := goto β.call c (.parsing status) }
    else some { β with call := goto β.call c (.parsing status) }

/-- The second one; what it rejects with is not wrapped. -/
def answerRetry (β : Browser) (c : Nat) : FetchOutcome → Option Browser
  | .networkFailure => some (finish calls β c (.rejected .typeError))
  | .aborted => if β.aborted c then some (finish calls β c (.rejected .abortError)) else none
  | .response status => some { β with call := goto β.call c (.parsing status) }

/-- The calls that are given a signal. -/
def Call.abortable : Call → Bool
  | .hydrate | .request _ => true
  | _ => false

/-- One action; `none` where it is not possible. -/
def step (β : Browser) : Action → Option Browser
  | .start c => if β.call c = .idle then some (start calls β c) else none
  | .answer c outcome r =>
    match β.call c with
    | .fetching _ body => answer tab calls β c body outcome r
    | .retrying _ _ => answerRetry calls β c outcome
    | _ => none
  | .body c body =>
    match β.call c with
    | .parsing status => some (finish calls β c (parse status body))
    | _ => none
  | .refreshed r outcome =>
    match β.refresh r with
    | .sent _ =>
      -- whatever goes wrong, the tokens are gone
      some
        { β with
          store := accepted outcome
          refresh := goto β.refresh r (.handled (accepted outcome)) }
    | _ => none
  | .settle r =>
    match β.refresh r with
    | .handled tokens =>
      some
        { β with
          refreshInFlight := fun t =>
            if β.refreshInFlight t = some r then none else β.refreshInFlight t
          refresh := goto β.refresh r (.settled tokens) }
    | _ => none
  | .resume c =>
    match β.call c with
    | .awaiting r body =>
      match β.refresh r with
      | .settled (some tokens) =>
        some { β with call := goto β.call c (.retrying tokens.accessToken body) }
      | .settled none => some { β with call := goto β.call c (.parsing 401) }
      | _ => none
    | _ => none
  | .abort c =>
    if (calls c).abortable then some { β with aborted := goto β.aborted c true } else none

end Code

end SmartPatents.ApiClient
