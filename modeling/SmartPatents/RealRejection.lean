/-
  Is the user logged out only by a real rejection?

  The store is emptied in three places: the two of `runRefresh` (a response that is not a success,
  an exception) and the `catch` of `hydrate`.  None of them looks at the status, and what `request`
  rejects with looks the same for a server that is down as for a session that is over: a page
  reloaded while the server answers 503 logs the user out (`not_justified`).

  `justified_iff_of_run` says exactly which answers are to blame, in every reachable state.  What
  carries it is that nobody renews the tokens before a 401 to a request of the session
  (`SessionInv.refused`), so that a refresh that is turned down is a rejection unless the server
  was not there to judge it.

  What counts as the network or the server being unavailable is in `Unavailable`: a fetch that
  fails, a connection that breaks while the body is read, a 429 or a 5xx.  `Justified` is the
  property of one step: the tokens go because a logout has ended, or because the server, being
  there, has answered 401 to the session or turned its refresh token down.  `Excused` lists the
  answers that may not come, in terms of what arrives and not of what the client makes of it.

  The runs are those of one session (`OneSession`): what becomes of the tokens where sessions mix
  is the subject of `CurrentSession`.
-/
import SmartPatents.TokenSessions

namespace SmartPatents.ApiClient

open Runs

/-! ## The property -/

section Property

variable (calls : Nat → Call)

/-- 429 and 5xx. -/
def isOverloaded (status : Nat) : Bool := status = 429 || 500 ≤ status

/-- An action in which the client learns that the server is too busy, or that the network has failed:
    the fetch rejects, or the connection breaks while a body is read. -/
def Unavailable (β : Browser) : Action → Prop
  | .answer _ .networkFailure _ | .refreshed _ .networkFailure => True
  | .refreshed _ (.response status json) => isOverloaded status = true ∨ json = .broken
  | .body c json =>
    ∃ status, β.call c = .parsing status ∧ (isOverloaded status = true ∨ json = .broken)
  | _ => False

/-- An action that empties the store is the end of a logout; or the server is there, and has
    answered 401 to the session of the tokens. -/
def Justified (w : Watched) (a : Action) (w' : Watched) : Prop :=
  w.browser.store.isSome → w'.browser.store = none →
    (∃ c, event calls w.browser a = some (c, .closes)) ∨
      ¬ Unavailable w.browser a ∧ ∃ s, w.stored = some s ∧ s ∈ w'.refused

/-- While there are tokens: no refresh that comes to nothing ends with a network failure, a 429 or a
    5xx; nor does a hydration that nobody has aborted, and such a hydration does not fail before
    there has been a 401.  A connection that breaks under a body is a network failure. -/
def Excused (w : Watched) : Action → Prop
  | .refreshed r outcome =>
    w.browser.store.isSome → accepted outcome = none →
      ¬ Unavailable w.browser (.refreshed r outcome)
  | .answer c .networkFailure _ =>
    w.browser.store.isSome → calls c = .hydrate → w.browser.aborted c = true
  | .body c json =>
    w.browser.store.isSome → calls c = .hydrate → w.browser.aborted c = false →
      ∀ status e, w.browser.call c = .parsing status → parse status json = .rejected e →
        isOverloaded status = false ∧ json ≠ .broken ∧ Session.earlier ∈ w.refused
  | _ => True

/-- Hydrations, requests and logouts: no session begins. -/
def OneSession : Prop := ∀ c, calls c ≠ .login ∧ calls c ≠ .signup

end Property

/-! ## The end of a hydration -/

section Hydration

variable {calls : Nat → Call} {β : Browser} {c : Nat} {result : Result}

/-- Only a hydration that is rejected, and was not aborted, drops the session. -/
theorem ending_eq_drops : ending calls β c result = .drops ↔
    calls c = .hydrate ∧ β.aborted c = false ∧ ∃ e, result = .rejected e ∧ e ≠ .abortError := by
  constructor
  · intro h
    unfold ending at h
    split at h
    · cases h
    · cases h
    · cases h
    · rename_i e hcall
      split at h
      · cases h
      · rename_i hneither
        rw [not_or, Bool.not_eq_true] at hneither
        exact ⟨hcall, hneither.2, e, rfl, hneither.1⟩
    · cases h
  · rintro ⟨hcall, hlive, e, rfl, hne⟩
    simp [ending, hcall, hlive, hne]

/-- With one session, nobody opens another. -/
theorem ending_ne_opens (hcalls : OneSession calls) (tokens : AuthTokens) :
    ending calls β c result ≠ .opens tokens := by
  intro h
  unfold ending at h
  split at h
  · rename_i hcall
    exact (hcalls c).1 hcall
  · rename_i hcall
    exact (hcalls c).2 hcall
  · cases h
  · split at h <;> cases h
  · cases h

/-- What `parse` throws is never an abort. -/
theorem parse_ne_abortError (status : Nat) (json : Body) :
    parse status json ≠ .rejected .abortError := by
  intro h
  unfold parse at h
  split at h
  · cases h
  · cases h
  · cases h
  · split at h <;> cases h
  · cases h

end Hydration

/-! ## The invariant -/

section Inv

variable (calls : Nat → Call)

/-- Before the first 401 to the session. -/
structure Calm (w : Watched) : Prop where
  unsent : ∀ r token, w.browser.refresh r ≠ .sent token
  speaks : w.browser.store = none ∨ ∀ c h body, w.browser.call c = .fetching h body →
    (calls c).options.auth = true → w.header c = some .earlier

/-- There is one session, and every token is one of its own. -/
structure SessionInv (w : Watched) : Prop where
  stored : w.browser.store.isSome → w.stored = some .earlier
  presented : ∀ r token, w.browser.refresh r = .sent token → w.presented r = some .earlier
  /-- Tokens are renewed after a 401 only. -/
  refused : Session.earlier ∈ w.refused ∨ Calm calls w

variable {calls} {tab : Nat → Nat} {w w' : Watched} {β : Browser} {a : Action}

/-- A call that is fetching has started, or was fetching before. -/
theorem fetching_of_step {c : Nat} {h : Option Caller} {body : Option String}
    (hs : step tab calls w.browser a = some β) (hloc : β.call c = .fetching h body) :
    a = .start c ∨ w.browser.call c = .fetching h body := by
  have hover : ∀ {c' result}, (∀ h body, (finish calls w.browser c' result).call c' ≠
      .fetching h body) := by
    intro c' result h body hloc
    obtain ⟨result', hcall⟩ := finish_call calls w.browser c' result
    rw [hcall, goto_self] at hloc
    cases hloc
  cases callStep_of_step hs c with
  | same _ heq => exact Or.inr (heq ▸ hloc)
  | starts ha => exact Or.inl ha
  | headers _ _ hparsing => cases hparsing.symm.trans hloc
  | waits _ hawaiting => cases hawaiting.symm.trans hloc
  | retries _ hretrying => cases hretrying.symm.trans hloc
  | givesUp _ hparsing => cases hparsing.symm.trans hloc
  | rejects _ hβ => exact absurd (hβ ▸ hloc) (hover h body)
  | reads _ hβ => exact absurd (hβ ▸ hloc) (hover h body)

/-- A header is written once. -/
theorem header_of_fetching {c : Nat} {h : Option Caller} {body : Option String}
    (hs : step tab calls w.browser a = some β) (hloc : w.browser.call c = .fetching h body) :
    headerAfter calls w a c = w.header c := by
  cases effect_of_step hs with
  | @start c' hidle =>
    refine goto_ne _ _ fun hc => ?_
    rw [hc, hidle] at hloc
    cases hloc
  | @retries c' r body' tokens hawait =>
    simp only [headerAfter, hawait]
    refine goto_ne _ _ fun hc => ?_
    rw [hc, hawait] at hloc
    cases hloc
  | @givesUp c' r body' hawait =>
    simp only [headerAfter, hawait]
    refine goto_ne _ _ fun hc => ?_
    rw [hc, hawait] at hloc
    cases hloc
  | _ => rfl

/-- No step fills an empty store but that of a refresh under way. -/
theorem store_of_calm (hcalls : OneSession calls) (hs : step tab calls w.browser a = some β)
    (hcalm : ∀ r token, w.browser.refresh r ≠ .sent token) :
    β.store = none ∨ β.store = w.browser.store := by
  cases hevent : event calls w.browser a with
  | some e =>
    obtain ⟨c, k⟩ := e
    obtain ⟨result, hk, -⟩ := finish_of_event hs hevent
    have hstore := store_of_event hs hevent
    cases k with
    | opens tokens => exact absurd hk.symm (ending_ne_opens hcalls tokens)
    | closes => exact Or.inl hstore
    | drops => exact Or.inl hstore
    | keeps => exact Or.inr hstore
  | none =>
    rcases store_of_step hs hevent with ⟨r, token, -, -, hsent, -⟩ | ⟨-, hstore⟩
    · exact absurd hsent (hcalm r token)
    · exact Or.inr hstore

/-- What a step stores is a token of the one session. -/
theorem SessionInv.stored_step (hcalls : OneSession calls) (h : SessionInv calls w)
    (hs : step tab calls w.browser a = some β) (hsome : β.store.isSome) :
    storedAfter calls w a = some .earlier := by
  cases hevent : event calls w.browser a with
  | some e =>
    obtain ⟨c, k⟩ := e
    obtain ⟨result, hk, -⟩ := finish_of_event hs hevent
    have hstore := store_of_event hs hevent
    rw [hstore] at hsome
    cases k with
    | opens tokens => exact absurd hk.symm (ending_ne_opens hcalls tokens)
    | closes => cases hsome
    | drops => cases hsome
    | keeps =>
      simp only [storedAfter, hevent]
      exact h.stored hsome
  | none =>
    rcases store_of_step hs hevent with ⟨r, token, outcome, rfl, hsent, hstore⟩ | ⟨hne, hstore⟩
    · rw [hstore] at hsome
      simp only [storedAfter, hevent, hsome, if_true]
      exact h.presented r token hsent
    · rw [hstore] at hsome
      simp only [storedAfter, hevent]
      exact h.stored hsome

/-- Without a 401 no refresh is on its way. -/
theorem Calm.step (hcalls : OneSession calls) (h : SessionInv calls w) (hcalm : Calm calls w)
    (hs : ApiClient.step tab calls w.browser a = some β) :
    Session.earlier ∈ (book calls w a β).refused ∨ Calm calls (book calls w a β) := by
  by_cases hsends : ∃ r token, β.refresh r = .sent token
  · -- the first refresh: the server has just answered 401
    obtain ⟨r, token, hsent⟩ := hsends
    rcases sent_of_step hs hsent with hbefore |
      ⟨-, ⟨tokens, hstore, -⟩, c, header, body, rfl, hloc, -, hauth, -⟩
    · exact absurd hbefore (hcalm.unsent r token)
    · rcases hcalm.speaks with hnone | hspeaks
      · rw [hstore] at hnone
        cases hnone
      · have hrefusal : refusal w (.answer c (.response 401) r) = some .earlier :=
          hspeaks c header body hloc hauth
        left
        show Session.earlier ∈ (refusal w _).toList ++ w.refused
        rw [hrefusal]
        exact List.mem_cons_self
  · have hunsent : ∀ r token, β.refresh r ≠ .sent token :=
      fun r token hsent => hsends ⟨r, token, hsent⟩
    refine Or.inr ⟨hunsent, ?_⟩
    -- the store stays empty, or every header was taken from it
    rcases store_of_calm hcalls hs hcalm.unsent with hnone | hsame
    · exact Or.inl hnone
    · rcases hcalm.speaks with hnone | hspeaks
      · exact Or.inl (hsame.trans hnone)
      · cases hstore : w.browser.store with
        | none => exact Or.inl (hsame.trans hstore)
        | some tokens =>
          right
          intro c header body hloc hauth
          show headerAfter calls w a c = some .earlier
          rcases fetching_of_step hs hloc with rfl | hbefore
          · show goto w.header c (if (calls c).options.auth then w.stored else none) c = _
            rw [goto_self, if_pos hauth]
            exact h.stored (by rw [hstore]; rfl)
          · rw [header_of_fetching hs hbefore]
            exact hspeaks c header body hbefore hauth

/-- **Step lemma.** -/
theorem SessionInv.step (hcalls : OneSession calls) (h : SessionInv calls w)
    (hs : watch calls tab w a = some w') : SessionInv calls w' := by
  obtain ⟨β, hstep, rfl⟩ := Option.map_eq_some_iff.mp hs
  refine ⟨h.stored_step hcalls hstep, ?_, ?_⟩
  · intro r token hsent
    have hsent : β.refresh r = .sent token := hsent
    show (if sends w β r then w.stored else w.presented r) = some .earlier
    rcases sent_of_step hstep hsent with hbefore | ⟨hidle, ⟨tokens, hstore, -⟩, -⟩
    · rw [sends_of_sent hbefore]
      exact h.presented r token hbefore
    · rw [sends_of_idle hidle hsent]
      exact h.stored (by rw [hstore]; rfl)
  · rcases h.refused with hmem | hcalm
    · exact Or.inl (List.mem_append_right _ hmem)
    · exact hcalm.step hcalls h hstep

theorem SessionInv.init (store : Option AuthTokens) : SessionInv calls (watched store) := by
  refine ⟨?_, ?_, Or.inr ⟨?_, Or.inr ?_⟩⟩
  · intro hsome
    obtain ⟨tokens, rfl⟩ := Option.isSome_iff_exists.mp hsome
    rfl
  · intro r token hr
    cases hr
  · intro r token hr
    cases hr
  · intro c header body hloc
    cases hloc

/-- In every run there is one session. -/
theorem SessionInv.of_run {store : Option AuthTokens} (hcalls : OneSession calls)
    (hrun : Run (watch calls tab) always (watched store) w) : SessionInv calls w :=
  hrun.invariant (fun _ _ _ h _ hs => h.step hcalls hs) (SessionInv.init store)

end Inv

/-! ## The answers to blame -/

section Blame

variable {calls : Nat → Call} {tab : Nat → Nat} {store : Option AuthTokens} {w w' : Watched}
  {a : Action}

/-- An excused step drops the tokens for a real rejection only. -/
theorem Excused.justified (h : SessionInv calls w) (hok : Excused calls w a)
    (hs : watch calls tab w a = some w') : Justified calls w a w' := by
  intro hsome hnone
  obtain ⟨β, hstep, rfl⟩ := Option.map_eq_some_iff.mp hs
  have hkept : β.store ≠ w.browser.store := by
    intro heq
    have hnone : β.store = none := hnone
    rw [← heq, hnone] at hsome
    cases hsome
  have hmine : Session.earlier ∈ w.refused →
      ∃ s, w.stored = some s ∧ s ∈ (book calls w a β).refused :=
    fun hmem => ⟨.earlier, h.stored hsome, List.mem_append_right _ hmem⟩
  cases hevent : event calls w.browser a with
  | some e =>
    obtain ⟨c, k⟩ := e
    obtain ⟨result, hk, -⟩ := finish_of_event hstep hevent
    have hstore := store_of_event hstep hevent
    cases k with
    | opens tokens => cases hstore.symm.trans hnone
    | closes => exact Or.inl ⟨c, rfl⟩
    | drops =>
      -- a hydration that nobody has aborted: by a fetch that rejects, or by a body
      obtain ⟨hcall, hlive, -⟩ := ending_eq_drops.mp hk.symm
      cases effect_of_step hstep with
      | @rejects c' outcome r e hrejects =>
        rw [event, finishing_of_rejects hrejects r] at hevent
        obtain ⟨rfl, hdrops⟩ := Prod.mk.inj (Option.some.inj hevent)
        obtain ⟨-, -, e', he, hne⟩ := ending_eq_drops.mp hdrops
        obtain rfl := Result.rejected.inj he
        cases hrejects with
        | unreachable => cases hlive.symm.trans (hok hsome hcall)
        | aborted => exact absurd rfl hne
        | retryUnreachable => cases hlive.symm.trans (hok hsome hcall)
        | retryAborted => exact absurd rfl hne
      | @reads c' status json hloc =>
        rw [event, finishing_of_parsing hloc] at hevent
        obtain ⟨rfl, hdrops⟩ := Prod.mk.inj (Option.some.inj hevent)
        obtain ⟨-, -, e, hparse, -⟩ := ending_eq_drops.mp hdrops
        obtain ⟨hcalm, hwhole, hmem⟩ := hok hsome hcall hlive status e hloc hparse
        refine Or.inr ⟨?_, hmine hmem⟩
        rintro ⟨status', hloc', hover | hbroken⟩
        · obtain rfl := CallLoc.parsing.inj (hloc.symm.trans hloc')
          cases hcalm.symm.trans hover
        · exact hwhole hbroken
      | _ => cases hevent
    | keeps => exact absurd hstore hkept
  | none =>
    rcases store_of_step hstep hevent with ⟨r, token, outcome, rfl, hsent, hstore⟩ | ⟨-, hstore⟩
    · -- a refresh that was turned down: it would not have been sent before a 401
      refine Or.inr ⟨hok hsome (hstore.symm.trans hnone), hmine ?_⟩
      rcases h.refused with hmem | hcalm
      · exact hmem
      · exact absurd hsent (hcalm.unsent r token)
    · exact absurd hstore hkept

theorem Justified.excused (h : SessionInv calls w) (hs : watch calls tab w a = some w')
    (hjust : Justified calls w a w') : Excused calls w a := by
  obtain ⟨β, hstep, rfl⟩ := Option.map_eq_some_iff.mp hs
  have hdrop : ∀ {c}, event calls w.browser a = some (c, .drops) → w.browser.store.isSome →
      ¬ Unavailable w.browser a ∧ Session.earlier ∈ (book calls w a β).refused := by
    intro c hevent hsome
    have hnone : β.store = none := store_of_event hstep hevent
    rcases hjust hsome hnone with ⟨c', hcloses⟩ | ⟨hnot, s, hs, hmem⟩
    · rw [hevent] at hcloses
      cases hcloses
    -- a hydration is no logout, so a 401 has been answered
    · obtain rfl := Option.some.inj ((h.stored hsome).symm.trans hs)
      exact ⟨hnot, hmem⟩
  cases effect_of_step hstep with
  | @refreshed r token outcome hsent =>
    intro hsome hnone
    rcases hjust hsome hnone with ⟨c, hcloses⟩ | ⟨hnot, -⟩
    · cases hcloses
    · exact hnot
  | @rejects c outcome r e hrejects =>
    cases outcome with
    | networkFailure =>
      intro hsome hcall
      by_contra hlive
      -- a fetch that fails in the network is no abort
      have hdrops : ending calls w.browser c (.rejected e) = .drops := by
        refine ending_eq_drops.mpr ⟨hcall, Bool.not_eq_true _ ▸ hlive, e, rfl, ?_⟩
        cases hrejects <;> exact fun h => by cases h
      have hevent : event calls w.browser (.answer c .networkFailure r) = some (c, .drops) := by
        rw [event, finishing_of_rejects hrejects r, ← hdrops]
        rfl
      exact (hdrop hevent hsome).1 trivial
    | aborted => trivial
    | response status => trivial
  | @reads c status json hloc =>
    intro hsome hcall hlive status' e hloc' hparse
    obtain rfl := CallLoc.parsing.inj (hloc.symm.trans hloc')
    have hdrops : ending calls w.browser c (parse status json) = .drops :=
      ending_eq_drops.mpr ⟨hcall, hlive, e, hparse,
        fun h => parse_ne_abortError status json (h ▸ hparse)⟩
    have hevent : event calls w.browser (.body c json) = some (c, .drops) := by
      rw [event, finishing_of_parsing hloc, ← hdrops]
      rfl
    obtain ⟨hnot, hmem⟩ := hdrop hevent hsome
    refine ⟨?_, fun hbroken => hnot ⟨status, hloc, Or.inr hbroken⟩, hmem⟩
    by_contra hover
    exact hnot ⟨status, hloc, Or.inl (Bool.not_eq_false _ ▸ hover)⟩
  | _ => trivial

/-- **Who is to blame.**  In every reachable state, an action logs the user out without a real
    rejection if and only if it is one of the answers that `Excused` leaves out. -/
theorem justified_iff_of_run (hcalls : OneSession calls)
    (hrun : Run (watch calls tab) always (watched store) w) (hs : watch calls tab w a = some w') :
    Justified calls w a w' ↔ Excused calls w a := by
  have h := SessionInv.of_run hcalls hrun
  exact ⟨Justified.excused h hs, fun hok => Excused.justified h hok hs⟩

end Blame

/-! ## A page is loaded -/

section PageLoad

/-- Every call is a hydration. -/
def hydrations (_ : Nat) : Call := .hydrate

theorem hydrations_oneSession : OneSession hydrations := by
  intro c
  constructor
  · intro h
    cases h
  · intro h
    cases h

/-- The tokens of a session that is still valid. -/
def aSession : AuthTokens := ⟨⟨1, .user⟩, "token"⟩

/-- All calls in one tab. -/
def page (_ : Nat) : Nat := 0

/-- The access token has expired. -/
def asked : List Action := [.start 0, .answer 0 (.response 401) 0]

/-- And the refresh token has been revoked. -/
def turnedDown : Action :=
  .refreshed 0 (.response 401 (.json (.error "UNAUTHORIZED" "Refresh token has been revoked")))

theorem turnedDown_runs :
    (exec (watch hydrations page) (watched (some aSession)) asked).isSome = true ∧
      ((exec (watch hydrations page) (watched (some aSession)) asked).bind
        fun w => watch hydrations page w turnedDown).isSome = true := by
  decide

/-- The server says 401, and the tokens go. -/
theorem justified_of_turnedDown :
    ∃ w w', exec (watch hydrations page) (watched (some aSession)) asked = some w ∧
      watch hydrations page w turnedDown = some w' ∧ Justified hydrations w turnedDown w' := by
  have hw := (Option.some_get turnedDown_runs.1).symm
  have hboth := turnedDown_runs.2
  rw [hw, Option.bind_some] at hboth
  have hw' := (Option.some_get hboth).symm
  refine ⟨_, _, hw, hw', ?_⟩
  refine (justified_iff_of_run hydrations_oneSession (Run.of_exec hw) hw').mpr ?_
  rintro - - (hover | hbroken)
  · have hcalm : isOverloaded 401 ≠ true := by decide
    exact hcalm hover
  · cases hbroken

/-- The server is restarting. -/
def unlucky : List Action := [.start 0, .answer 0 (.response 503) 0]

theorem unlucky_runs :
    (exec (watch hydrations page) (watched (some aSession)) unlucky).isSome = true := by
  decide

/-- A proxy has answered for the server. -/
def beforeBody : Watched :=
  (exec (watch hydrations page) (watched (some aSession)) unlucky).get unlucky_runs

theorem afterBody_runs : (watch hydrations page beforeBody (.body 0 .unparsable)).isSome = true := by
  decide

/-- The hydration has read a body that is not JSON. -/
def afterBody : Watched := (watch hydrations page beforeBody (.body 0 .unparsable)).get afterBody_runs

/-- A hydration that fails for another reason drops them too. -/
theorem not_justified :
    ¬ ∀ (calls : Nat → Call) (store : Option AuthTokens) (w w' : Watched) (a : Action),
      OneSession calls → Run (watch calls page) always (watched store) w →
        watch calls page w a = some w' → Justified calls w a w' := by
  intro hall
  have hjust := hall hydrations (some aSession) beforeBody afterBody (.body 0 .unparsable)
    hydrations_oneSession (Run.exec_get unlucky_runs) (Option.some_get afterBody_runs).symm
  have hsome : beforeBody.browser.store.isSome = true := by decide
  have hnone : afterBody.browser.store = none := by decide
  have hdrops : event hydrations beforeBody.browser (.body 0 .unparsable) = some (0, .drops) := by decide
  have hoverloaded : beforeBody.browser.call 0 = .parsing 503 := by decide
  rcases hjust hsome hnone with ⟨c, hcloses⟩ | ⟨hnot, -⟩
  · rw [hdrops] at hcloses
    cases hcloses
  · exact hnot ⟨503, hoverloaded, Or.inl (by decide)⟩

end PageLoad

end SmartPatents.ApiClient
