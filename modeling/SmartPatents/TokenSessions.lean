/-
  Whose tokens are in the store?

  A session begins when a login or a signup completes, and every token that a refresh gets belongs
  to the session of the token that it has presented.  A `Watched` browser keeps the books: the
  session that is current, the session of the stored tokens, the session that every fetch speaks
  for, and the sessions to which the server has answered 401.  The books are ghosts, no step of the
  browser reads them.

  `Effect` says once what a step of the browser can do; the store changes when a call finishes
  (`finish`) and when a refresh is answered, and nowhere else.

  An `Ending` says what the end of a call means: it opens a session, closes it, drops the tokens,
  or keeps things as they are.  `event` finds the call that an action ends, and `store_of_event`
  and `refreshStep_of_step` are the two lemmas that the modules above this one use: the store is
  as the ending left it, and a refresh has moved one location.

  Who sends what in which session is a matter of when the store was read: a call reads it as it
  starts and again when it is repeated (`headerAfter`), a refresh as it is sent (`presented`).
-/
import SmartPatents.ApiClient

namespace SmartPatents.ApiClient

open Runs

/-! ## What a step does -/

section Effects

variable (tab : Nat → Nat) (calls : Nat → Call)

/-- A `fetch` of call `c` rejects with `e`. -/
inductive Rejects (β : Browser) (c : Nat) : FetchOutcome → ClientError → Prop
  | unreachable {h body} (hloc : β.call c = .fetching h body) : Rejects β c .networkFailure
      (.api 0 "NETWORK" "Could not reach the server. Check your connection.")
  | aborted {h body} (hloc : β.call c = .fetching h body) (habort : β.aborted c = true) :
      Rejects β c .aborted .abortError
  | retryUnreachable {h body} (hloc : β.call c = .retrying h body) :
      Rejects β c .networkFailure .typeError
  | retryAborted {h body} (hloc : β.call c = .retrying h body) (habort : β.aborted c = true) :
      Rejects β c .aborted .abortError

/-- **What one step can do, said once.** -/
inductive Effect (β : Browser) : Action → Browser → Prop
  | start {c} (hidle : β.call c = .idle) : Effect β (.start c) (start calls β c)
  | rejects {c outcome r e} (h : Rejects β c outcome e) :
      Effect β (.answer c outcome r) (finish calls β c (.rejected e))
  | headers {c status r} (hbusy : (∃ h body, β.call c = .fetching h body) ∨
      ∃ h body, β.call c = .retrying h body) : Effect β (.answer c (.response status) r)
      { β with call := goto β.call c (.parsing status) }
  | joins {c r r' h body tokens} (hloc : β.call c = .fetching h body)
      (hauth : (calls c).options.auth = true ∧ (calls c).options.allowRefresh = true)
      (hstore : β.store = some tokens)
      (hflight : β.refreshInFlight (tab c) = some r') :
      Effect β (.answer c (.response 401) r)
        { β with call := goto β.call c (.awaiting r' body) }
  | refreshes {c r h body tokens} (hloc : β.call c = .fetching h body)
      (hauth : (calls c).options.auth = true ∧ (calls c).options.allowRefresh = true)
      (hstore : β.store = some tokens)
      (hflight : β.refreshInFlight (tab c) = none) (hidle : β.refresh r = .idle) :
      Effect β (.answer c (.response 401) r)
        { β with
          refreshInFlight := goto β.refreshInFlight (tab c) (some r)
          refresh := goto β.refresh r (.sent tokens.refreshToken)
          call := goto β.call c (.awaiting r body) }
  | reads {c status json} (hloc : β.call c = .parsing status) :
      Effect β (.body c json) (finish calls β c (parse status json))
  | refreshed {r token outcome} (hloc : β.refresh r = .sent token) :
      Effect β (.refreshed r outcome)
        { β with
          store := accepted outcome
          refresh := goto β.refresh r (.handled (accepted outcome)) }
  | settles {r tokens} (hloc : β.refresh r = .handled tokens) :
      Effect β (.settle r)
        { β with
          refreshInFlight := fun t =>
            if β.refreshInFlight t = some r then none else β.refreshInFlight t
          refresh := goto β.refresh r (.settled tokens) }
  | retries {c r body tokens} (hloc : β.call c = .awaiting r body)
      (hrefresh : β.refresh r = .settled (some tokens)) :
      Effect β (.resume c) { β with call := goto β.call c (.retrying tokens.accessToken body) }
  | givesUp {c r body} (hloc : β.call c = .awaiting r body)
      (hrefresh : β.refresh r = .settled none) :
      Effect β (.resume c) { β with call := goto β.call c (.parsing 401) }
  | aborts {c} : Effect β (.abort c) { β with aborted := goto β.aborted c true }

variable {tab calls} {β β' : Browser} {a : Action}

/-- What the answer of a first fetch does. -/
theorem effect_of_answer {c r : Nat} {h : Option Caller} {body : Option String}
    {outcome : FetchOutcome} (hloc : β.call c = .fetching h body)
    (hs : answer tab calls β c body outcome r = some β') :
    Effect tab calls β (.answer c outcome r) β' := by
  cases outcome with
  | networkFailure => exact Option.some.inj hs ▸ .rejects (.unreachable hloc)
  | aborted =>
    simp only [answer] at hs
    split at hs
    · rename_i habort
      exact Option.some.inj hs ▸ .rejects (.aborted hloc habort)
    · cases hs
  | response status =>
    simp only [answer] at hs
    split at hs
    · rename_i h401
      obtain ⟨rfl, hauth⟩ := h401
      split at hs
      · rename_i tokens hstore
        simp only [refreshTokens] at hs
        -- either the tab has a promise already, or this call makes one
        split at hs
        · rename_i r' hflight
          exact Option.some.inj hs ▸ .joins hloc hauth hstore hflight
        · rename_i hflight
          split at hs
          · rename_i hidle
            exact Option.some.inj hs ▸ .refreshes hloc hauth hstore hflight hidle
          · cases hs
      · exact Option.some.inj hs ▸ .headers (Or.inl ⟨h, body, hloc⟩)
    · exact Option.some.inj hs ▸ .headers (Or.inl ⟨h, body, hloc⟩)

/-- What the answer of a repeated one does. -/
theorem effect_of_answerRetry {c r : Nat} {h : Caller} {body : Option String}
    {outcome : FetchOutcome} (hloc : β.call c = .retrying h body)
    (hs : answerRetry calls β c outcome = some β') :
    Effect tab calls β (.answer c outcome r) β' := by
  cases outcome with
  | networkFailure => exact Option.some.inj hs ▸ .rejects (.retryUnreachable hloc)
  | aborted =>
    simp only [answerRetry] at hs
    split at hs
    · rename_i habort
      exact Option.some.inj hs ▸ .rejects (.retryAborted hloc habort)
    · cases hs
  | response status => exact Option.some.inj hs ▸ .headers (Or.inr ⟨h, body, hloc⟩)

/-- Inversion of `step`. -/
theorem effect_of_step (hs : step tab calls β a = some β') : Effect tab calls β a β' := by
  cases a with
  | start c =>
    simp only [step] at hs
    split at hs
    · rename_i hidle
      exact Option.some.inj hs ▸ .start hidle
    · cases hs
  | answer c outcome r =>
    simp only [step] at hs
    split at hs
    · rename_i h body hloc
      exact effect_of_answer hloc hs
    · rename_i h body hloc
      exact effect_of_answerRetry hloc hs
    · cases hs
  | body c json =>
    simp only [step] at hs
    split at hs
    · rename_i status hloc
      exact Option.some.inj hs ▸ .reads hloc
    · cases hs
  | refreshed r outcome =>
    simp only [step] at hs
    split at hs
    · rename_i token hloc
      exact Option.some.inj hs ▸ .refreshed hloc
    · cases hs
  | settle r =>
    simp only [step] at hs
    split at hs
    · rename_i tokens hloc
      exact Option.some.inj hs ▸ .settles hloc
    · cases hs
  | resume c =>
    simp only [step] at hs
    split at hs
    · rename_i r body hloc
      split at hs
      · rename_i tokens hrefresh
        exact Option.some.inj hs ▸ .retries hloc hrefresh
      · rename_i hrefresh
        exact Option.some.inj hs ▸ .givesUp hloc hrefresh
      · cases hs
    · cases hs
  | abort c =>
    simp only [step] at hs
    split at hs
    · exact Option.some.inj hs ▸ .aborts
    · cases hs

end Effects

/-! ## The end of a call -/

/-- What the end of a call means for the session. -/
inductive Ending
  | opens (tokens : AuthTokens)
  | closes
  | drops
  | keeps
deriving DecidableEq

section Endings

variable (calls : Nat → Call)

/-- What the end of a call does to the session, as its caller handles the result. -/
def ending (β : Browser) (c : Nat) (result : Result) : Ending :=
  match calls c, result with
  | .login, .resolved (some tokens) | .signup, .resolved (some tokens) => .opens tokens
  | .logout, _ => .closes
  | .hydrate, .rejected e => if e = .abortError ∨ β.aborted c then .keeps else .drops
  | _, _ => .keeps

/-- The call that an action finishes, and its result. -/
def finishing (β : Browser) : Action → Option (Nat × Result)
  | .answer c .networkFailure _ =>
    match β.call c with
    | .retrying _ _ => some (c, .rejected .typeError)
    | _ => some (c, .rejected
        (.api 0 "NETWORK" "Could not reach the server. Check your connection."))
  | .answer c .aborted _ => some (c, .rejected .abortError)
  | .body c json =>
    match β.call c with
    | .parsing status => some (c, parse status json)
    | _ => none
  | _ => none

/-- The call that an action ends, and what that means. -/
def event (β : Browser) (a : Action) : Option (Nat × Ending) :=
  (finishing β a).map fun e => (e.1, ending calls β e.1 e.2)

variable {calls} {tab : Nat → Nat} {β : Browser} {c : Nat} {result : Result}

/-- The end of a call leaves the refreshes alone. -/
@[simp] theorem finish_refresh : (finish calls β c result).refresh = β.refresh := by
  unfold finish
  split
  · split <;> rfl
  · split <;> rfl
  · rfl
  · split
    · rfl
    · split <;> rfl
  · rfl

/-- What the end of a call leaves in the store. -/
def Ending.leaves (store : Option AuthTokens) : Ending → Option AuthTokens
  | .opens tokens => some tokens
  | .closes | .drops => none
  | .keeps => store

theorem finish_store :
    (finish calls β c result).store = (ending calls β c result).leaves β.store := by
  unfold finish ending
  cases calls c with
  | login =>
    cases result with
    | resolved data => cases data <;> rfl
    | rejected e => rfl
  | signup =>
    cases result with
    | resolved data => cases data <;> rfl
    | rejected e => rfl
  | logout => rfl
  | hydrate =>
    cases result with
    | resolved data => rfl
    | rejected e =>
      dsimp only
      split <;> rfl
  | request options => rfl

/-- A finished call stays finished, and the others stay where they are. -/
theorem finish_call (calls : Nat → Call) (β : Browser) (c : Nat) (result : Result) :
    ∃ result', (finish calls β c result).call = goto β.call c (.done result') := by
  -- a login without tokens in the answer rejects
  unfold finish
  split
  · split <;> exact ⟨_, rfl⟩
  · split <;> exact ⟨_, rfl⟩
  · exact ⟨_, rfl⟩
  · split
    · exact ⟨_, rfl⟩
    · split <;> exact ⟨_, rfl⟩
  · exact ⟨_, rfl⟩

@[simp] theorem start_store : (start calls β c).store = β.store := by
  unfold start
  dsimp only
  split
  · rfl
  · rfl
  · rfl
  · split
    · rename_i hnone
      exact hnone.symm ▸ rfl
    · rfl
  · rfl

@[simp] theorem start_refresh : (start calls β c).refresh = β.refresh := by
  unfold start
  dsimp only
  split
  · rfl
  · rfl
  · rfl
  · split <;> rfl
  · rfl

/-- A call that starts moves only itself. -/
theorem start_call (calls : Nat → Call) (β : Browser) (c : Nat) :
    ∃ l, (start calls β c).call = goto β.call c l := by
  unfold start
  dsimp only
  split
  · exact ⟨_, rfl⟩
  · exact ⟨_, rfl⟩
  · exact ⟨_, rfl⟩
  · split <;> exact ⟨_, rfl⟩
  · exact ⟨_, rfl⟩

/-- A call that is rejected was not done. -/
theorem busy_of_rejects {outcome : FetchOutcome} {e : ClientError} (h : Rejects β c outcome e)
    (result : Result) : β.call c ≠ .done result := by
  intro hdone
  cases h with
  | unreachable hloc => cases hloc.symm.trans hdone
  | aborted hloc => cases hloc.symm.trans hdone
  | retryUnreachable hloc => cases hloc.symm.trans hdone
  | retryAborted hloc => cases hloc.symm.trans hdone

/-- What a step does to call `c`. -/
inductive CallStep (calls : Nat → Call) (β β' : Browser) (a : Action) (c : Nat) : Prop
  | same (ha : a ≠ .start c) (heq : β'.call c = β.call c)
  | starts (ha : a = .start c) (hidle : β.call c = .idle) (hβ : β' = start calls β c)
  | headers {status r} (ha : a = .answer c (.response status) r)
      (hbusy : (∃ h body, β.call c = .fetching h body) ∨ ∃ h body, β.call c = .retrying h body)
      (hloc : β'.call c = .parsing status)
  | waits {h body r} (hfetching : β.call c = .fetching h body)
      (hloc : β'.call c = .awaiting r body)
  | retries {r body h} (hawaiting : β.call c = .awaiting r body)
      (hloc : β'.call c = .retrying h body)
  | givesUp {r body} (hawaiting : β.call c = .awaiting r body) (hloc : β'.call c = .parsing 401)
  | rejects {e} (hbusy : ∀ result, β.call c ≠ .done result)
      (hβ : β' = finish calls β c (.rejected e))
  | reads {status json} (hparsing : β.call c = .parsing status)
      (hβ : β' = finish calls β c (parse status json))

/-- Every step of the browser, seen from one call. -/
theorem callStep_of_step {β' : Browser} {a : Action} (hs : step tab calls β a = some β') (c : Nat) :
    CallStep calls β β' a c := by
  -- the call of the action moves, every other one stays
  have hother : ∀ {c' l}, c ≠ c' → a ≠ .start c → β'.call = goto β.call c' l →
      CallStep calls β β' a c := by
    intro c' l hc ha hcall
    exact .same ha (by rw [hcall, goto_ne _ _ hc])
  cases effect_of_step hs with
  | @start c' hidle =>
    by_cases hc : c = c'
    · subst hc
      exact .starts rfl hidle rfl
    · obtain ⟨l, hcall⟩ := start_call calls β c'
      exact hother hc (fun h => hc (Action.start.inj h).symm) hcall
  | @rejects c' outcome r e h =>
    by_cases hc : c = c'
    · subst hc
      exact .rejects (busy_of_rejects h) rfl
    · obtain ⟨result, hcall⟩ := finish_call calls β c' (.rejected e)
      exact hother hc (fun h => by cases h) hcall
  | @headers c' status r hbusy =>
    by_cases hc : c = c'
    · subst hc
      exact .headers rfl hbusy (goto_self _ _ _)
    · exact hother hc (fun h => by cases h) rfl
  | @joins c' r r' h body tokens hloc =>
    by_cases hc : c = c'
    · subst hc
      exact .waits hloc (goto_self _ _ _)
    · exact hother hc (fun h => by cases h) rfl
  | @refreshes c' r h body tokens hloc =>
    by_cases hc : c = c'
    · subst hc
      exact .waits hloc (goto_self _ _ _)
    · exact hother hc (fun h => by cases h) rfl
  | @reads c' status json hloc =>
    by_cases hc : c = c'
    · subst hc
      exact .reads hloc rfl
    · obtain ⟨result, hcall⟩ := finish_call calls β c' (parse status json)
      exact hother hc (fun h => by cases h) hcall
  | @retries c' r body tokens hloc =>
    by_cases hc : c = c'
    · subst hc
      exact .retries hloc (goto_self _ _ _)
    · exact hother hc (fun h => by cases h) rfl
  | @givesUp c' r body hloc =>
    by_cases hc : c = c'
    · subst hc
      exact .givesUp hloc (goto_self _ _ _)
    · exact hother hc (fun h => by cases h) rfl
  | refreshed => exact .same (fun h => by cases h) rfl
  | settles => exact .same (fun h => by cases h) rfl
  | aborts => exact .same (fun h => by cases h) rfl

/-- What is over stays over. -/
theorem done_of_step {β' : Browser} {a : Action} (hs : step tab calls β a = some β')
    (hdone : β.call c = .done result) : β'.call c = .done result := by
  cases callStep_of_step hs c with
  | same _ heq => exact heq.trans hdone
  | starts _ hidle => cases hidle.symm.trans hdone
  | headers _ hbusy =>
    rcases hbusy with ⟨h, body, hloc⟩ | ⟨h, body, hloc⟩
    · cases hloc.symm.trans hdone
    · cases hloc.symm.trans hdone
  | waits hloc => cases hloc.symm.trans hdone
  | retries hloc => cases hloc.symm.trans hdone
  | givesUp hloc => cases hloc.symm.trans hdone
  | rejects hbusy => exact absurd hdone (hbusy result)
  | reads hloc => cases hloc.symm.trans hdone

/-- A fetch that is rejected ends its call. -/
theorem finishing_of_rejects {outcome : FetchOutcome} {e : ClientError} (h : Rejects β c outcome e)
    (r : Nat) : finishing β (.answer c outcome r) = some (c, .rejected e) := by
  cases h with
  | unreachable hloc => simp only [finishing, hloc]
  | aborted => rfl
  | retryUnreachable hloc => simp only [finishing, hloc]
  | retryAborted => rfl

theorem finishing_of_parsing {status : Nat} {json : Body}
    (hloc : β.call c = .parsing status) :
    finishing β (.body c json) = some (c, parse status json) := by
  simp only [finishing, hloc]

end Endings

section Events

variable {calls : Nat → Call} {tab : Nat → Nat} {β β' : Browser} {a : Action}

/-- An event is the end of a call. -/
theorem finish_of_event {c : Nat} {k : Ending} (hs : step tab calls β a = some β')
    (hevent : event calls β a = some (c, k)) :
    ∃ result, k = ending calls β c result ∧ β' = finish calls β c result ∧
      ∀ res, β.call c ≠ .done res := by
  obtain ⟨⟨c', result⟩, hfinishing, heq⟩ := Option.map_eq_some_iff.mp hevent
  obtain ⟨rfl, rfl⟩ := Prod.mk.inj heq
  cases effect_of_step hs with
  | @rejects c outcome r e h =>
    rw [finishing_of_rejects h r] at hfinishing
    obtain ⟨rfl, rfl⟩ := Prod.mk.inj (Option.some.inj hfinishing)
    exact ⟨_, rfl, rfl, busy_of_rejects h⟩
  | @reads c status json hloc =>
    rw [finishing_of_parsing hloc] at hfinishing
    obtain ⟨rfl, rfl⟩ := Prod.mk.inj (Option.some.inj hfinishing)
    exact ⟨_, rfl, rfl, fun res hdone => absurd (hloc.symm.trans hdone) fun h => by cases h⟩
  | _ => cases hfinishing

/-- What an ending leaves in the store. -/
theorem store_of_event {c : Nat} {k : Ending} (hs : step tab calls β a = some β')
    (hevent : event calls β a = some (c, k)) : β'.store = k.leaves β.store := by
  obtain ⟨result, rfl, rfl, -⟩ := finish_of_event hs hevent
  exact finish_store

/-- Without an event the store changes only when a refresh is answered. -/
theorem store_of_step (hs : step tab calls β a = some β') (hevent : event calls β a = none) :
    (∃ r token outcome, a = .refreshed r outcome ∧ β.refresh r = .sent token ∧
      β'.store = accepted outcome) ∨ (∀ r outcome, a ≠ .refreshed r outcome) ∧ β'.store = β.store := by
  have hother : ∀ {b : Action}, (∀ r outcome, b ≠ .refreshed r outcome) → β'.store = β.store →
      (∃ r token outcome, b = .refreshed r outcome ∧ β.refresh r = .sent token ∧
        β'.store = accepted outcome) ∨
      (∀ r outcome, b ≠ .refreshed r outcome) ∧ β'.store = β.store := fun h h' => Or.inr ⟨h, h'⟩
  cases effect_of_step hs with
  | start => exact hother (fun _ _ h => by cases h) start_store
  | @rejects c outcome r e h =>
    rw [event, finishing_of_rejects h r] at hevent
    cases hevent
  | reads hloc =>
    rw [event, finishing_of_parsing hloc] at hevent
    cases hevent
  | @refreshed r token outcome hloc => exact Or.inl ⟨r, token, outcome, rfl, hloc, rfl⟩
  | _ => exact hother (fun _ _ h => by cases h) rfl

/-- What a step does to refresh `r`. -/
inductive RefreshStep (tab : Nat → Nat) (calls : Nat → Call) (β β' : Browser) (a : Action)
    (r : Nat) : Prop
  | same (heq : β'.refresh r = β.refresh r)
  /-- A 401 has just sent it, with the stored token. -/
  | sends {c h body tokens} (ha : a = .answer c (.response 401) r)
      (hloc : β.call c = .fetching h body)
      (hauth : (calls c).options.auth = true ∧ (calls c).options.allowRefresh = true)
      (hstore : β.store = some tokens) (hflight : β.refreshInFlight (tab c) = none)
      (hidle : β.refresh r = .idle) (hsent : β'.refresh r = .sent tokens.refreshToken)
  | answered {token outcome} (ha : a = .refreshed r outcome) (hsent : β.refresh r = .sent token)
      (hhandled : β'.refresh r = .handled (accepted outcome))
  | settled {tokens} (hhandled : β.refresh r = .handled tokens)
      (hsettled : β'.refresh r = .settled tokens)

/-- Every step of the browser, seen from one refresh. -/
theorem refreshStep_of_step (hs : step tab calls β a = some β') (r : Nat) :
    RefreshStep tab calls β β' a r := by
  cases effect_of_step hs with
  | start => exact .same (congrFun start_refresh r)
  | rejects => exact .same (congrFun finish_refresh r)
  | reads => exact .same (congrFun finish_refresh r)
  | @refreshes c r' h body tokens hloc hauth hstore hflight hidle =>
    by_cases hr : r = r'
    · subst hr
      exact .sends rfl hloc hauth hstore hflight hidle (goto_self _ _ _)
    · exact .same (goto_ne _ _ hr)
  | @refreshed r' token outcome hloc =>
    by_cases hr : r = r'
    · subst hr
      exact .answered rfl hloc (goto_self _ _ _)
    · exact .same (goto_ne _ _ hr)
  | @settles r' tokens hloc =>
    by_cases hr : r = r'
    · subst hr
      exact .settled hloc (goto_self _ _ _)
    · exact .same (goto_ne _ _ hr)
  | _ => exact .same rfl

/-- A 401 sends refresh `r` with the stored token. -/
def Renews (tab : Nat → Nat) (calls : Nat → Call) (β : Browser) (a : Action) (r : Nat)
    (token : String) : Prop :=
  (∃ tokens, β.store = some tokens ∧ tokens.refreshToken = token) ∧
    ∃ c h body, a = .answer c (.response 401) r ∧ β.call c = .fetching h body ∧
      β.refreshInFlight (tab c) = none ∧ (calls c).options.auth = true ∧
      (calls c).options.allowRefresh = true

/-- A refresh that is under way was so before, or has just been sent. -/
theorem sent_of_step {r : Nat} {token : String} (hs : step tab calls β a = some β')
    (hsent : β'.refresh r = .sent token) :
    β.refresh r = .sent token ∨ β.refresh r = .idle ∧ Renews tab calls β a r token := by
  cases refreshStep_of_step hs r with
  | same heq => exact Or.inl (heq ▸ hsent)
  | @sends c h body tokens ha hloc hauth hstore hflight hidle hnow =>
    exact Or.inr ⟨hidle, ⟨tokens, hstore, RefreshLoc.sent.inj (hnow.symm.trans hsent)⟩, c, h, body,
      ha, hloc, hflight, hauth⟩
  | answered ha hbefore hhandled => cases hhandled.symm.trans hsent
  | settled hbefore hsettled => cases hsettled.symm.trans hsent

end Events

/-! ## The books -/

/-- The session that was there when the page was loaded, or the one that a call has started. -/
inductive Session
  | earlier
  | started (c : Nat)
deriving DecidableEq

/-- The browser, and next to it the session that each token belongs to. No step of the code reads
    these. -/
structure Watched where
  browser : Browser
  /-- The session of the login or signup that has completed last, until a logout completes. -/
  current : Option Session
  /-- The session of the stored tokens. -/
  stored : Option Session
  /-- How many logins, signups and logouts have completed. -/
  epoch : Nat
  /-- The session whose token a refresh presents, and when it was sent. -/
  presented : Nat → Option Session
  sentIn : Nat → Nat
  /-- The session of the access token that a call sends. -/
  header : Nat → Option Session
  /-- The sessions to which the server has answered 401. -/
  refused : List Session

section Books

variable (calls : Nat → Call)

/-- The current session after a step. -/
def currentAfter (w : Watched) (a : Action) : Option Session :=
  match event calls w.browser a with
  | some (c, .opens _) => some (.started c)
  | some (_, .closes) => none
  | _ => w.current

/-- The session of the stored tokens after a step: a refresh that succeeds stores those of the
    session it has asked for. -/
def storedAfter (w : Watched) (a : Action) : Option Session :=
  match event calls w.browser a with
  | some (c, .opens _) => some (.started c)
  | some (_, .closes) | some (_, .drops) => none
  | some (_, .keeps) => w.stored
  | none =>
    match a with
    | .refreshed r outcome => if (accepted outcome).isSome then w.presented r else none
    | _ => w.stored

/-- How often the session has changed after a step. -/
def epochAfter (w : Watched) (a : Action) : Nat :=
  match event calls w.browser a with
  | some (_, .opens _) | some (_, .closes) => w.epoch + 1
  | _ => w.epoch

/-- An action that has just sent refresh `r`. -/
def sends (w : Watched) (β : Browser) (r : Nat) : Bool :=
  w.browser.refresh r = .idle && β.refresh r ≠ .idle

/-- A refresh that was idle and is sent has been sent by this step. -/
theorem sends_of_idle {w : Watched} {β : Browser} {r : Nat} {token : String}
    (hidle : w.browser.refresh r = .idle) (hsent : β.refresh r = .sent token) :
    sends w β r = true := by
  simp [sends, hidle, hsent]

/-- One that was sent before has not. -/
theorem sends_of_sent {w : Watched} {β : Browser} {r : Nat} {token : String}
    (hsent : w.browser.refresh r = .sent token) : sends w β r = false := by
  simp [sends, hsent]

/-- The session that a call acts for: as it starts, and again when it is repeated after a refresh.
    -/
def headerAfter (w : Watched) : Action → Nat → Option Session
  | .start c => goto w.header c (if (calls c).options.auth then w.stored else none)
  | .resume c =>
    match w.browser.call c with
    | .awaiting r _ => goto w.header c (w.presented r)
    | _ => w.header
  | _ => w.header

/-- The session to which an action answers 401. -/
def refusal (w : Watched) : Action → Option Session
  | .answer c (.response 401) _ => w.header c
  | .refreshed r (.response 401 _) => w.presented r
  | _ => none

/-- The books after a step that leads to the browser `β`. -/
def book (w : Watched) (a : Action) (β : Browser) : Watched where
  browser := β
  current := currentAfter calls w a
  stored := storedAfter calls w a
  epoch := epochAfter calls w a
  presented := fun r => if sends w β r then w.stored else w.presented r
  sentIn := fun r => if sends w β r then w.epoch else w.sentIn r
  header := headerAfter calls w a
  refused := (refusal w a).toList ++ w.refused

/-- A step of the browser, with the books kept. -/
def watch (tab : Nat → Nat) (w : Watched) (a : Action) : Option Watched :=
  (step tab calls w.browser a).map (book calls w a)

/-- A page that has just been loaded, with the tokens of an earlier session or none. -/
def watched (store : Option AuthTokens) : Watched where
  browser := init store
  current := store.map fun _ => .earlier
  stored := store.map fun _ => .earlier
  epoch := 0
  presented := fun _ => none
  sentIn := fun _ => 0
  header := fun _ => none
  refused := []

end Books

end SmartPatents.ApiClient
