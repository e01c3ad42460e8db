/-
  Who is signed in: `AuthProvider` of `frontend/src/context/AuthContext.tsx`.

  The tabs share the token store, but not `user` and `status`: every tab has a provider of its own,
  and its listener hears of the writes of its own tab only.  A step of a tab is a step of `ApiClient`
  with what its provider makes of it: the listener first, if the step has written to the store, and
  then the function of the provider that has awaited the call.

  `AuthStep` says once what a step can do to a tab.

  `goOn` says what the function that has awaited a call makes of its result: a login or a signup
  sets the user, a logout clears it, a hydration does one or the other unless it was aborted, and
  a page that has asked for the profile shows it.  Every success of GET /users/me is taken to
  carry a profile, as the route answers (`Act`).

  `Screens` builds what a tab shows on this state, and `SignedIn` compares it with the store.

  The functions, under the words of the source:

  * `listener` — the subscription to `tokenStore`, which sees whether there is a refresh token;
  * `goOn` — the continuations of `hydrate`, `login`, `signup`, `logout` and `refreshProfile`;
  * `react` — both, in the order in which they run.
-/
import SmartPatents.RealRejection

namespace SmartPatents.AuthContext

open Runs ApiClient

/-! ## The provider -/

/-- `AuthStatus`. -/
inductive AuthStatus
  | loading
  | authenticated
  | guest
deriving DecidableEq

/-- `InventorProfile`, as GET /users/me shows it. -/
structure InventorProfile where
  id : String
  fullName : String
  email : String
  organization : Option String

/-- `User`. -/
structure User where
  id : String
  name : String
  email : String
  role : Role
  createdAt : String
  updatedAt : String

/-- What GET /users/me answers: the user, and the inventor profile if there is one. -/
structure Profile extends User where
  inventorProfile : Option InventorProfile

/-- The state of an `AuthProvider`. -/
structure Auth where
  user : Option Profile
  status : AuthStatus

/-- `user?.role === 'admin'`. -/
def Auth.isAdmin (s : Auth) : Bool := s.user.any fun user => user.role = .admin

/-- The listener, with what is in the store now. -/
def listener (store : Option AuthTokens) (s : Auth) : Auth :=
  match store with
  | none => { s with user := none, status := .guest }
  | some _ => s

/-- `login` and `signup` return no inventor. -/
def afterAuth (authed : User) (s : Auth) : Auth :=
  { s with user := some { authed with inventorProfile := none }, status := .authenticated }

/-- A step of the browser.  `data` is what a body has in it besides tokens: the account that the
    server answers a login, a signup or a request for the profile with.  That a success body of
    `/users/me` always carries a profile is an assumption about the server: the provider stores
    whatever is in `data`. -/
structure Act where
  action : Action
  data : Profile

/-- The browser, and the context of every tab. -/
structure State where
  browser : Browser
  auth : Nat → Auth
  /-- No other tab has changed the store since this one wrote to it, or since its hydration began;
      no step reads it. -/
  undisturbed : Nat → Bool

/-- Pages that have just been loaded. -/
def init (store : Option AuthTokens) : State where
  browser := ApiClient.init store
  auth := fun _ => ⟨none, .loading⟩
  undisturbed := fun _ => true

section Code

variable (tab : Nat → Nat) (calls : Nat → Call)
  /- The requests whose answer goes to `setUserState`: `refreshProfile`, and `updateProfile` of
     `ProfilePage` with `setUser`. -/
  (setsUser : Nat → Bool)

/-- Tab `t` calls `tokenStore.set` or `tokenStore.clear`. -/
def writes (β : Browser) (a : Action) (t : Nat) : Bool :=
  match a with
  | .refreshed r _ => β.refreshInFlight t = some r
  | _ => (event calls β a).any fun e => e.2 ≠ .keeps && tab e.1 = t

/-- The function of the provider that has awaited call `c` goes on. -/
def goOn (β : Browser) (c : Nat) (result : Result) (data : Profile) (s : Auth) : Auth :=
  match calls c with
  | .login | .signup =>
    match result with
    | .resolved (some _) => afterAuth data.toUser s
    | _ => s
  | .logout =>
    match result with
    | .resolved _ => { s with user := none, status := .guest }
    | .rejected _ => s
  | .hydrate =>
    match result with
    | .resolved _ => { s with user := some data, status := .authenticated }
    | .rejected e =>
      if e = .abortError ∨ β.aborted c then s else { s with user := none, status := .guest }
  | .request _ =>
    match result with
    | .resolved _ => if setsUser c then { s with user := some data } else s
    | .rejected _ => s

/-- A hydration that finds no tokens asks nobody. -/
def asksNobody (β : Browser) (a : Action) (t : Nat) : Bool :=
  match a with
  | .start c =>
    match calls c, β.store with
    | .hydrate, none => tab c = t
    | _, _ => false
  | _ => false

/-- A step that leads to the browser `β'`, in tab `t`.  `set` and `clear` call the listener before
    they return. -/
def react (β β' : Browser) (a : Act) (t : Nat) (s : Auth) : Auth :=
  let s := if writes tab calls β a.action t then listener β'.store s else s
  match finishing β a.action with
  | some (c, result) => if tab c = t then goOn calls setsUser β c result a.data s else s
  | none => if asksNobody tab calls β a.action t then { s with status := .guest } else s

/-- Tab `t` starts its hydration. -/
def hydrates (a : Action) (t : Nat) : Bool :=
  match a with
  | .start c =>
    match calls c with
    | .hydrate => tab c = t
    | _ => false
  | _ => false

/-- One action: the API client takes its step, and the providers react to it. -/
def step (σ : State) (a : Act) : Option State :=
  (ApiClient.step tab calls σ.browser a.action).map fun β =>
    { browser := β
      auth := fun t => react tab calls setsUser σ.browser β a t (σ.auth t)
      undisturbed := fun t =>
        writes tab calls σ.browser a.action t || hydrates tab calls a.action t ||
          (σ.undisturbed t && β.store = σ.browser.store) }

end Code

/-! ## What a step does to a tab -/

/-- Call `c` is a hydration of tab `t`. -/
def Hydration (tab : Nat → Nat) (calls : Nat → Call) (t c : Nat) : Prop :=
  tab c = t ∧ calls c = .hydrate

/-- A call has settled. -/
def Over (β : Browser) (c : Nat) : Prop := ∃ result, β.call c = .done result

/-- **What a step does to what a tab shows.** -/
inductive AuthStep (tab : Nat → Nat) (calls : Nat → Call) (β β' : Browser) (a : Action) (t : Nat)
    (s s' : Auth) : Prop
  /-- Nothing, but that the profile may be edited. -/
  | stays (hstatus : s'.status = s.status) (huser : s.user.isSome = true → s'.user.isSome = true)
      (hstore : writes tab calls β a t = true → β'.store.isSome = true)
      (hover : ∀ c, Hydration tab calls t c → Over β' c → Over β c ∨ β.aborted c = true)
  /-- A login or a signup. -/
  | opens {c : Nat} {result : Result} (htab : tab c = t) (hcall : calls c ≠ .hydrate)
      (hend : finishing β a = some (c, result)) (hstore : β'.store.isSome = true)
      (huser : s'.user.isSome = true) (hstatus : s'.status = .authenticated)
  | hydrated {c : Nat} {data : Option AuthTokens} (hc : Hydration tab calls t c)
      (hend : finishing β a = some (c, .resolved data)) (hstore : β'.store = β.store)
      (huser : s'.user.isSome = true) (hstatus : s'.status = .authenticated)
  /-- A hydration without tokens. -/
  | bare {c : Nat} (hc : Hydration tab calls t c) (ha : a = .start c) (hover : Over β' c)
      (hstatus : s'.status = .guest)
  /-- A logout, or a hydration that is turned down. -/
  | leaves {c : Nat} {result : Result} (htab : tab c = t)
      (hend : finishing β a = some (c, result)) (hstatus : s'.status = .guest)
  /-- A refresh that comes to nothing. -/
  | loses {r : Nat} {outcome : RefreshOutcome} (ha : a = .refreshed r outcome)
      (hflight : β.refreshInFlight t = some r) (hnone : accepted outcome = none)
      (hstatus : s'.status = .guest)

section Steps

variable {tab : Nat → Nat} {calls : Nat → Call} {setsUser : Nat → Bool} {β β' : Browser}
  {a : Action} {t c : Nat} {result : Result} {s : Auth} {data : Profile}

/-- How a call can end: a fetch rejects, or a body is read. -/
theorem finish_of_finishing (hs : ApiClient.step tab calls β a = some β')
    (hend : finishing β a = some (c, result)) :
    β' = finish calls β c result ∧
      ((∃ outcome e, Rejects β c outcome e ∧ result = .rejected e) ∨
        ∃ status json, β.call c = .parsing status ∧ result = parse status json) := by
  cases effect_of_step hs with
  | @rejects c' outcome r e h =>
    rw [finishing_of_rejects h r] at hend
    obtain ⟨rfl, rfl⟩ := Prod.mk.inj (Option.some.inj hend)
    exact ⟨rfl, Or.inl ⟨outcome, e, h, rfl⟩⟩
  | @reads c' status json hloc =>
    rw [finishing_of_parsing hloc] at hend
    obtain ⟨rfl, rfl⟩ := Prod.mk.inj (Option.some.inj hend)
    exact ⟨rfl, Or.inr ⟨status, json, hloc, rfl⟩⟩
  | _ => cases hend

/-- Only a call that has been aborted ends with an `AbortError`. -/
theorem aborted_of_finishing (hs : ApiClient.step tab calls β a = some β')
    (hend : finishing β a = some (c, .rejected .abortError)) : β.aborted c = true := by
  rcases (finish_of_finishing hs hend).2 with ⟨outcome, e, h, heq⟩ | ⟨status, json, -, heq⟩
  · obtain rfl := Result.rejected.inj heq
    cases h with
    | aborted _ h => exact h
    | retryAborted _ h => exact h
  · exact absurd heq.symm (parse_ne_abortError status json)

/-- A call is over after a step if it was before, or if it is the call of the step. -/
theorem over_of_step (hs : ApiClient.step tab calls β a = some β') (hover : Over β' c) :
    Over β c ∨ (∃ result, finishing β a = some (c, result)) ∨ a = .start c := by
  obtain ⟨result, hdone⟩ := hover
  -- a call that has just been sent to `l` is not over, and any other one is where it was
  have hgoto : ∀ {c' : Nat} {l : CallLoc}, (∀ res, l ≠ .done res) → β'.call = goto β.call c' l →
      Over β c := by
    intro c' l hl hcall
    rw [hcall] at hdone
    by_cases hc : c = c'
    · subst hc
      rw [goto_self] at hdone
      exact absurd hdone (hl result)
    · rw [goto_ne _ _ hc] at hdone
      exact ⟨result, hdone⟩
  cases effect_of_step hs with
  | @start c' hidle =>
    by_cases hc : c = c'
    · exact Or.inr (Or.inr (hc ▸ rfl))
    · obtain ⟨l, hcall⟩ := start_call calls β c'
      rw [hcall, goto_ne _ _ hc] at hdone
      exact Or.inl ⟨result, hdone⟩
  | @rejects c' outcome r e h =>
    by_cases hc : c = c'
    · subst hc
      exact Or.inr (Or.inl ⟨_, finishing_of_rejects h r⟩)
    · obtain ⟨result', hcall⟩ := finish_call calls β c' (.rejected e)
      rw [hcall, goto_ne _ _ hc] at hdone
      exact Or.inl ⟨result, hdone⟩
  | @reads c' status json hloc =>
    by_cases hc : c = c'
    · subst hc
      exact Or.inr (Or.inl ⟨_, finishing_of_parsing hloc⟩)
    · obtain ⟨result', hcall⟩ := finish_call calls β c' (parse status json)
      rw [hcall, goto_ne _ _ hc] at hdone
      exact Or.inl ⟨result, hdone⟩
  | headers => exact Or.inl (hgoto (fun res h => by cases h) rfl)
  | joins => exact Or.inl (hgoto (fun res h => by cases h) rfl)
  | refreshes => exact Or.inl (hgoto (fun res h => by cases h) rfl)
  | retries => exact Or.inl (hgoto (fun res h => by cases h) rfl)
  | givesUp => exact Or.inl (hgoto (fun res h => by cases h) rfl)
  | refreshed => exact Or.inl ⟨result, hdone⟩
  | settles => exact Or.inl ⟨result, hdone⟩
  | aborts => exact Or.inl ⟨result, hdone⟩

theorem writes_of_finishing (hend : finishing β a = some (c, result)) :
    writes tab calls β a t = (decide (ending calls β c result ≠ .keeps) && decide (tab c = t)) := by
  have hevent : event calls β a = some (c, ending calls β c result) := by
    rw [event, hend]
    rfl
  cases a with
  | refreshed r outcome => cases hend
  | _ =>
    rw [writes, hevent]
    rfl
    all_goals exact fun r outcome h => by cases h

theorem react_of_finishing (hend : finishing β a = some (c, result)) (htab : tab c = t) :
    react tab calls setsUser β β' ⟨a, data⟩ t s = goOn calls setsUser β c result data
      (if writes tab calls β a t then listener β'.store s else s) := by
  simp only [react, hend, htab, if_true]

/-- Nothing is written: the listener does not hear of it. -/
theorem react_of_keeps (hend : finishing β a = some (c, result)) (htab : tab c = t)
    (hk : ending calls β c result = .keeps) :
    react tab calls setsUser β β' ⟨a, data⟩ t s = goOn calls setsUser β c result data s := by
  rw [react_of_finishing hend htab, writes_of_finishing hend, hk]
  rfl

/-- The tokens are cleared: the tab is a guest before its function goes on. -/
theorem react_of_cleared (hend : finishing β a = some (c, result)) (htab : tab c = t)
    (hk : ending calls β c result ≠ .keeps) (hstore : β'.store = none) :
    react tab calls setsUser β β' ⟨a, data⟩ t s =
      goOn calls setsUser β c result data { s with user := none, status := .guest } := by
  rw [react_of_finishing hend htab, writes_of_finishing hend, hstore, htab]
  simp only [hk, ne_eq, not_false_eq_true, decide_true, Bool.and_self, if_true, listener]

/-- What a tab shows stays, unless the call was a hydration that nobody has aborted. -/
theorem stays_of_keeps (hs : ApiClient.step tab calls β a = some β')
    (hend : finishing β a = some (c, result)) (hk : ending calls β c result = .keeps)
    (hc : calls c ≠ .hydrate ∨ β.aborted c = true) {s' : Auth} (hstatus : s'.status = s.status)
    (huser : s.user.isSome = true → s'.user.isSome = true) :
    AuthStep tab calls β β' a t s s' := by
  refine .stays hstatus huser ?_ ?_
  · intro hwrites
    rw [writes_of_finishing hend, hk] at hwrites
    cases hwrites
  · intro c' hc' hover
    rcases over_of_step hs hover with hbefore | ⟨result', hend'⟩ | rfl
    · exact Or.inl hbefore
    · rw [hend] at hend'
      obtain ⟨rfl, -⟩ := Prod.mk.inj (Option.some.inj hend')
      exact hc.elim (fun h => absurd hc'.2 h) Or.inr
    · cases hend

/-- The end of a login or a signup of the tab. -/
theorem authStep_of_opening (hs : ApiClient.step tab calls β a = some β')
    (hend : finishing β a = some (c, result)) (htab : tab c = t)
    (hcall : calls c = .login ∨ calls c = .signup) :
    AuthStep tab calls β β' a t s (react tab calls setsUser β β' ⟨a, data⟩ t s) := by
  obtain ⟨rfl, -⟩ := finish_of_finishing hs hend
  have hne : calls c ≠ .hydrate := by
    rcases hcall with h | h
    · exact fun hhyd => by cases h.symm.trans hhyd
    · exact fun hhyd => by cases h.symm.trans hhyd
  -- without tokens in the answer nothing happens
  have hother : (∀ tokens, result ≠ .resolved (some tokens)) →
      AuthStep tab calls β (finish calls β c result) a t s
        (react tab calls setsUser β (finish calls β c result) ⟨a, data⟩ t s) := by
    intro hnone
    have hk : ending calls β c result = .keeps := by
      rcases result with (_ | tokens) | e
      · rcases hcall with h | h <;> simp only [ending, h]
      · exact absurd rfl (hnone tokens)
      · rcases hcall with h | h <;> simp only [ending, h]
    have hgoOn : goOn calls setsUser β c result data s = s := by
      rcases result with (_ | tokens) | e
      · rcases hcall with h | h <;> simp only [goOn, h]
      · exact absurd rfl (hnone tokens)
      · rcases hcall with h | h <;> simp only [goOn, h]
    rw [react_of_keeps hend htab hk, hgoOn]
    exact stays_of_keeps hs hend hk (Or.inl hne) rfl id
  rcases result with (_ | tokens) | e
  · exact hother fun tokens h => by cases h
  · have hopens : ending calls β c (.resolved (some tokens)) = .opens tokens := by
      rcases hcall with h | h <;> simp only [ending, h]
    have hstore : (finish calls β c (.resolved (some tokens))).store = some tokens := by
      rw [finish_store, hopens]
      rfl
    have hgoOn : ∀ s, goOn calls setsUser β c (.resolved (some tokens)) data s =
        afterAuth data.toUser s := by
      intro s
      rcases hcall with h | h <;> simp only [goOn, h]
    rw [react_of_finishing hend htab, hgoOn]
    exact .opens htab hne hend (by rw [hstore]; rfl) rfl rfl
  · exact hother fun tokens h => by cases h

/-- The end of a call of the tab. -/
theorem authStep_of_finishing (hs : ApiClient.step tab calls β a = some β')
    (hend : finishing β a = some (c, result)) (htab : tab c = t) :
    AuthStep tab calls β β' a t s (react tab calls setsUser β β' ⟨a, data⟩ t s) := by
  have hstore : β'.store = (ending calls β c result).leaves β.store := by
    rw [(finish_of_finishing hs hend).1, finish_store]
  cases hcall : calls c with
  | login => exact authStep_of_opening hs hend htab (Or.inl hcall)
  | signup => exact authStep_of_opening hs hend htab (Or.inr hcall)
  | logout =>
    have hk : ending calls β c result = .closes := by simp only [ending, hcall]
    refine .leaves htab hend ?_
    rw [react_of_cleared hend htab (by rw [hk]; exact fun h => by cases h) (by rw [hstore, hk]; rfl)]
    simp only [goOn, hcall]
    split <;> rfl
  | hydrate =>
    cases result with
    | resolved tokens =>
      have hk : ending calls β c (.resolved tokens) = .keeps := by simp only [ending, hcall]
      rw [react_of_keeps hend htab hk]
      simp only [goOn, hcall]
      rw [hk] at hstore
      exact .hydrated ⟨htab, hcall⟩ hend hstore rfl rfl
    | rejected e =>
      by_cases hab : e = .abortError ∨ β.aborted c = true
      · have hk : ending calls β c (.rejected e) = .keeps := by
          simp only [ending, hcall, if_pos hab]
        rw [react_of_keeps hend htab hk]
        simp only [goOn, hcall, if_pos hab]
        have haborted : β.aborted c = true :=
          hab.elim (fun h => aborted_of_finishing hs (h ▸ hend)) id
        exact stays_of_keeps hs hend hk (Or.inr haborted) rfl id
      · have hk : ending calls β c (.rejected e) = .drops := by
          simp only [ending, hcall, if_neg hab]
        refine .leaves htab hend ?_
        rw [react_of_cleared hend htab (by rw [hk]; exact fun h => by cases h)
          (by rw [hstore, hk]; rfl)]
        simp only [goOn, hcall, if_neg hab]
  | request options =>
    have hk : ending calls β c result = .keeps := by simp only [ending, hcall]
    have hne : calls c ≠ .hydrate := by
      rw [hcall]
      exact fun h => by cases h
    rw [react_of_keeps hend htab hk]
    refine stays_of_keeps hs hend hk (Or.inl hne) ?_ ?_
    · simp only [goOn, hcall]
      split
      · split <;> rfl
      · rfl
    · intro huser
      simp only [goOn, hcall]
      split
      · split
        · rfl
        · exact huser
      · exact huser

theorem writes_of_quiet (hend : finishing β a = none) (hne : ∀ r outcome, a ≠ .refreshed r outcome) :
    writes tab calls β a t = false := by
  have hevent : event calls β a = none := by
    rw [event, hend]
    rfl
  cases a with
  | refreshed r outcome => exact absurd rfl (hne r outcome)
  | _ =>
    rw [writes, hevent]
    rfl
    all_goals exact fun r outcome h => by cases h

/-- A refresh has been answered. -/
theorem authStep_of_refreshed {r : Nat} {outcome : RefreshOutcome}
    (hs : ApiClient.step tab calls β (.refreshed r outcome) = some β') :
    AuthStep tab calls β β' (.refreshed r outcome) t s
      (react tab calls setsUser β β' ⟨.refreshed r outcome, data⟩ t s) := by
  have hstore : β'.store = accepted outcome := by
    cases effect_of_step hs with
    | refreshed => rfl
  have hreact : react tab calls setsUser β β' ⟨.refreshed r outcome, data⟩ t s =
      if β.refreshInFlight t = some r then listener (accepted outcome) s else s := by
    simp only [react, finishing, asksNobody, writes, hstore, decide_eq_true_eq, Bool.false_eq_true,
      if_false]
  have hover : ∀ c, Hydration tab calls t c → Over β' c → Over β c ∨ β.aborted c = true := by
    intro c _ hover
    rcases over_of_step hs hover with hbefore | ⟨_, h⟩ | h
    · exact Or.inl hbefore
    · cases h
    · cases h
  rw [hreact]
  by_cases hflight : β.refreshInFlight t = some r
  · rw [if_pos hflight]
    cases htokens : accepted outcome with
    | none => exact .loses rfl hflight htokens rfl
    | some tokens => exact .stays rfl id (fun _ => by rw [hstore, htokens]; rfl) hover
  · rw [if_neg hflight]
    refine .stays rfl id (fun h => ?_) hover
    rw [writes, decide_eq_true_eq] at h
    exact absurd h hflight

/-- A call starts. -/
theorem authStep_of_start (hs : ApiClient.step tab calls β (.start c) = some β') :
    AuthStep tab calls β β' (.start c) t s
      (react tab calls setsUser β β' ⟨.start c, data⟩ t s) := by
  obtain rfl : β' = start calls β c := by
    cases effect_of_step hs with
    | start => rfl
  have hwrites : writes tab calls β (.start c) t = false :=
    writes_of_quiet rfl fun _ _ h => by cases h
  have hreact : react tab calls setsUser β (start calls β c) ⟨.start c, data⟩ t s =
      if asksNobody tab calls β (.start c) t then { s with status := .guest } else s := by
    simp only [react, finishing, hwrites, Bool.false_eq_true, if_false]
  rw [hreact]
  by_cases hbare : Hydration tab calls t c ∧ β.store = none
  · obtain ⟨hc, hnone⟩ := hbare
    have hasks : asksNobody tab calls β (.start c) t = true := by
      simp only [asksNobody, hc.2, hnone, hc.1, decide_true]
    rw [if_pos hasks]
    refine .bare hc rfl ⟨.resolved none, ?_⟩ rfl
    simp only [start, hc.2, hnone, goto_self]
  · have hasks : asksNobody tab calls β (.start c) t ≠ true := by
      intro h
      simp only [asksNobody] at h
      split at h
      · rename_i hcall hnone
        exact hbare ⟨⟨of_decide_eq_true h, hcall⟩, hnone⟩
      · cases h
    rw [if_neg hasks]
    refine .stays rfl id (fun h => ?_) ?_
    · rw [hwrites] at h
      cases h
    · intro c' hc' hover
      rcases over_of_step hs hover with hbefore | ⟨_, h⟩ | h
      · exact Or.inl hbefore
      · cases h
      · -- a hydration that has tokens sends them
        obtain rfl := Action.start.inj h
        obtain ⟨result, hdone⟩ := hover
        cases hstore : β.store with
        | none => exact absurd ⟨hc', hstore⟩ hbare
        | some tokens =>
          simp only [start, hc'.2, hstore, goto_self] at hdone
          cases hdone

/-- Inversion of `react`. -/
theorem authStep_of_step (hs : ApiClient.step tab calls β a = some β') :
    AuthStep tab calls β β' a t s (react tab calls setsUser β β' ⟨a, data⟩ t s) := by
  cases hend : finishing β a with
  | some e =>
    obtain ⟨c, result⟩ := e
    by_cases htab : tab c = t
    · exact authStep_of_finishing hs hend htab
    · have hwrites : writes tab calls β a t = false := by
        rw [writes_of_finishing hend, decide_eq_false htab, Bool.and_false]
      have hreact : react tab calls setsUser β β' ⟨a, data⟩ t s = s := by
        simp only [react, hend, hwrites, htab, Bool.false_eq_true, if_false]
      rw [hreact]
      refine .stays rfl id (fun h => ?_) ?_
      · rw [hwrites] at h
        cases h
      · intro c' hc' hover
        rcases over_of_step hs hover with hbefore | ⟨result', hend'⟩ | rfl
        · exact Or.inl hbefore
        · rw [hend] at hend'
          obtain ⟨rfl, -⟩ := Prod.mk.inj (Option.some.inj hend')
          exact absurd hc'.1 htab
        · cases hend
  | none =>
    -- neither the end of a call, nor its beginning, nor the end of a refresh
    have hquiet : (∀ r outcome, a ≠ .refreshed r outcome) → (∀ c, a ≠ .start c) →
        AuthStep tab calls β β' a t s (react tab calls setsUser β β' ⟨a, data⟩ t s) := by
      intro hrefreshed hstart
      have hwrites : writes tab calls β a t = false := writes_of_quiet hend hrefreshed
      have hasks : asksNobody tab calls β a t = false := by
        cases a with
        | start c => exact absurd rfl (hstart c)
        | _ => rfl
      have hreact : react tab calls setsUser β β' ⟨a, data⟩ t s = s := by
        simp only [react, hend, hwrites, hasks, Bool.false_eq_true, if_false]
      rw [hreact]
      refine .stays rfl id (fun h => ?_) ?_
      · rw [hwrites] at h
        cases h
      · intro c hc hover
        rcases over_of_step hs hover with hbefore | ⟨result, h⟩ | h
        · exact Or.inl hbefore
        · rw [hend] at h
          cases h
        · exact absurd h (hstart c)
    cases a with
    | start c => exact authStep_of_start hs
    | refreshed r outcome => exact authStep_of_refreshed hs
    | answer | body | settle | resume | abort =>
      exact hquiet (fun _ _ h => by cases h) fun _ h => by cases h

/-- What a call leaves as it was. -/
theorem finish_frame (calls : Nat → Call) (β : Browser) (c : Nat) (result : Result) :
    (finish calls β c result).refreshInFlight = β.refreshInFlight ∧
      (finish calls β c result).aborted = β.aborted := by
  unfold finish
  split
  · split <;> exact ⟨rfl, rfl⟩
  · split <;> exact ⟨rfl, rfl⟩
  · exact ⟨rfl, rfl⟩
  · split
    · exact ⟨rfl, rfl⟩
    · split <;> exact ⟨rfl, rfl⟩
  · exact ⟨rfl, rfl⟩

theorem start_frame (calls : Nat → Call) (β : Browser) (c : Nat) :
    (start calls β c).refreshInFlight = β.refreshInFlight ∧
      (start calls β c).aborted = β.aborted := by
  unfold start
  dsimp only
  split
  · exact ⟨rfl, rfl⟩
  · exact ⟨rfl, rfl⟩
  · exact ⟨rfl, rfl⟩
  · split <;> exact ⟨rfl, rfl⟩
  · exact ⟨rfl, rfl⟩

theorem aborted_of_step (hs : ApiClient.step tab calls β a = some β')
    (haborted : β.aborted c = true) : β'.aborted c = true := by
  cases effect_of_step hs with
  | start => rwa [(start_frame _ _ _).2]
  | rejects => rwa [(finish_frame _ _ _ _).2]
  | reads => rwa [(finish_frame _ _ _ _).2]
  | @aborts c' =>
    by_cases hc : c = c'
    · subst hc
      exact goto_self _ _ _
    · show goto β.aborted c' true c = true
      rwa [goto_ne _ _ hc]
  | _ => exact haborted

/-- A tab that shows the loader has shown it before. -/
theorem AuthStep.loading {s' : Auth} (h : AuthStep tab calls β β' a t s s')
    (hloading : s'.status = .loading) : s.status = .loading ∧
      (writes tab calls β a t = true → β'.store.isSome = true) ∧
      ∀ c, Hydration tab calls t c → Over β' c → Over β c ∨ β.aborted c = true := by
  cases h with
  | stays hstatus _ hstore hover => exact ⟨hstatus.symm.trans hloading, hstore, hover⟩
  | opens _ _ _ _ _ hstatus => cases hstatus.symm.trans hloading
  | hydrated _ _ _ _ hstatus => cases hstatus.symm.trans hloading
  | bare _ _ _ hstatus => cases hstatus.symm.trans hloading
  | leaves _ _ hstatus => cases hstatus.symm.trans hloading
  | loses _ _ _ hstatus => cases hstatus.symm.trans hloading

end Steps

end SmartPatents.AuthContext
