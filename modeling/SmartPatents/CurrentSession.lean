/-
  Does the token store belong to the current session?

  `runRefresh` writes what it gets whenever its response arrives, and forgets for which session it
  has asked.  A response that is overtaken by a login or a logout puts the tokens of the previous
  session into the store: the tab of a new user then acts as the old one, or a user who has logged
  out is logged in again (`not_owned`).

  `owned_of_run`: if every refresh that succeeds was sent after the last login, signup and logout
  completed (`Timely`), the store always belongs to the current session.  The invariant remembers
  for every refresh under way whose token it presents (`OwnInv.sent`, `OwnInv.past`).  The condition
  is exact (`owned_iff_of_run`).

  The state is that of `TokenSessions`: a browser that keeps the books.  The condition speaks
  about the moment at which a refresh succeeds, and about nothing else: a refresh that fails
  clears the store and can do no harm, and an answer to a call never writes a token of another
  session.

  `owned_iff_of_run` is about the state before such a step: if the store belongs to the current
  session there, it still does afterwards exactly when the condition is met.
-/
import SmartPatents.TokenSessions

namespace SmartPatents.ApiClient

open Runs

/-- The stored tokens are those of the session that was opened last; after a logout there are
    none. -/
structure Owned (w : Watched) : Prop where
  tokens : w.browser.store.isSome → w.stored = w.current
  empty : w.current = none → w.browser.store = none

/-- No login, signup or logout has completed since a refresh that succeeds was sent. -/
def Timely (w : Watched) : Action → Prop
  | .refreshed r outcome => (accepted outcome).isSome → w.sentIn r = w.epoch
  | _ => True

instance (w : Watched) (a : Action) : Decidable (Timely w a) := by
  unfold Timely
  split
  · exact inferInstance
  · exact inferInstance

/-- **The invariant.** -/
structure OwnInv (w : Watched) : Prop where
  owned : Owned w
  /-- A refresh speaks for some session, and for the current one as long as none has begun or
      ended. -/
  some_ : ∀ r token, w.browser.refresh r = .sent token → (w.presented r).isSome
  sent : ∀ r token, w.browser.refresh r = .sent token → w.sentIn r = w.epoch →
    w.presented r = w.current
  past : ∀ r token, w.browser.refresh r = .sent token → w.sentIn r ≠ w.epoch →
    w.presented r ≠ w.current
  le : ∀ r token, w.browser.refresh r = .sent token → w.sentIn r ≤ w.epoch
  /-- A session that appears in the books has been opened by a call that is over. -/
  known : ∀ c, (w.current = some (.started c) ∨ ∃ r token, w.browser.refresh r = .sent token ∧
    w.presented r = some (.started c)) → ∃ result, w.browser.call c = .done result

section Step

variable {tab : Nat → Nat} {calls : Nat → Call} {w w' : Watched} {β : Browser} {a : Action}

/-- A session begins or ends: no refresh under way speaks for what is current then. -/
theorem OwnInv.turn {c : Nat} {k : Ending} (h : OwnInv w)
    (hs : step tab calls w.browser a = some β) (hevent : event calls w.browser a = some (c, k))
    (hepoch : epochAfter calls w a = w.epoch + 1)
    (hcurrent : currentAfter calls w a = none ∨ currentAfter calls w a = some (.started c))
    (howned : Owned (book calls w a β)) : OwnInv (book calls w a β) := by
  obtain ⟨result, -, rfl, hbusy⟩ := finish_of_event hs hevent
  obtain ⟨result', hcall⟩ := finish_call calls w.browser c result
  have hsent : ∀ {r token}, (finish calls w.browser c result).refresh r = .sent token →
      w.browser.refresh r = .sent token ∧ sends w (finish calls w.browser c result) r = false := by
    intro r token hsent
    rw [finish_refresh] at hsent
    exact ⟨hsent, sends_of_sent hsent⟩
  -- the sessions in the books so far were opened by other calls
  have hother : ∀ {r token}, w.browser.refresh r = .sent token →
      w.presented r ≠ some (.started c) := by
    intro r token hsent hr
    obtain ⟨res, hdone⟩ := h.known c (Or.inr ⟨r, token, hsent, hr⟩)
    exact hbusy res hdone
  refine ⟨howned, ?_, ?_, ?_, ?_, ?_⟩
  · intro r token hr
    show (if sends w _ r then w.stored else w.presented r).isSome
    rw [(hsent hr).2]
    exact h.some_ r token (hsent hr).1
  · intro r token hr
    show (if sends w _ r then w.epoch else w.sentIn r) = epochAfter calls w a → _
    rw [(hsent hr).2, hepoch]
    intro heq
    have hle := h.le r token (hsent hr).1
    have hlt : w.sentIn r = w.epoch + 1 := heq
    omega
  · intro r token hr _
    show (if sends w _ r then w.stored else w.presented r) ≠ currentAfter calls w a
    rw [(hsent hr).2]
    rcases hcurrent with hcurrent | hcurrent
    · rw [hcurrent]
      exact Option.isSome_iff_ne_none.mp (h.some_ r token (hsent hr).1)
    · rw [hcurrent]
      exact hother (hsent hr).1
  · intro r token hr
    show (if sends w _ r then w.epoch else w.sentIn r) ≤ epochAfter calls w a
    rw [(hsent hr).2, hepoch]
    exact Nat.le_succ_of_le (h.le r token (hsent hr).1)
  · rintro c' (hc' | ⟨r, token, hr, hc'⟩)
    · have hc' : currentAfter calls w a = some (.started c') := hc'
      rcases hcurrent with hcurrent | hcurrent
      · rw [hcurrent] at hc'
        cases hc'
      · rw [hcurrent] at hc'
        obtain rfl := Session.started.inj (Option.some.inj hc')
        refine ⟨result', ?_⟩
        show (finish calls w.browser c result).call c = _
        rw [hcall, goto_self]
    · have hc' : (if sends w _ r then w.stored else w.presented r) = some (.started c') := hc'
      rw [(hsent hr).2] at hc'
      obtain ⟨res, hdone⟩ := h.known c' (Or.inr ⟨r, token, (hsent hr).1, hc'⟩)
      exact ⟨res, done_of_step hs hdone⟩

/-- Neither the store nor the books change. -/
theorem Owned.keep (h : Owned w) (hstore : β.store = w.browser.store)
    (hstored : storedAfter calls w a = w.stored) (hcurrent : currentAfter calls w a = w.current) :
    Owned (book calls w a β) := by
  constructor
  · show β.store.isSome → storedAfter calls w a = currentAfter calls w a
    rw [hstore, hstored, hcurrent]
    exact h.tokens
  · show currentAfter calls w a = none → β.store = none
    rw [hstore, hcurrent]
    exact h.empty

/-- The session stays the same. -/
theorem OwnInv.stay (h : OwnInv w) (hs : step tab calls w.browser a = some β)
    (hepoch : epochAfter calls w a = w.epoch) (hcurrent : currentAfter calls w a = w.current)
    (howned : Owned (book calls w a β)) : OwnInv (book calls w a β) := by
  -- what is sent now presents the stored tokens, which are those of the current session
  have hnew : (∃ tokens, w.browser.store = some tokens) →
      w.stored = w.current ∧ w.stored.isSome := by
    rintro ⟨tokens, hstore⟩
    have hsome : w.browser.store.isSome := by rw [hstore]; rfl
    have heq := h.owned.tokens hsome
    refine ⟨heq, Option.isSome_iff_ne_none.mpr fun hnone => ?_⟩
    have hempty := h.owned.empty (heq ▸ hnone)
    rw [hstore] at hempty
    cases hempty
  have hcases : ∀ {r token}, β.refresh r = .sent token →
      w.browser.refresh r = .sent token ∧ sends w β r = false ∨
        sends w β r = true ∧ w.stored = w.current ∧ w.stored.isSome := by
    intro r token hsent
    rcases sent_of_step hs hsent with hbefore | ⟨hidle, ⟨tokens, hstore, -⟩, -⟩
    · exact Or.inl ⟨hbefore, sends_of_sent hbefore⟩
    · exact Or.inr ⟨sends_of_idle hidle hsent, hnew ⟨tokens, hstore⟩⟩
  refine ⟨howned, ?_, ?_, ?_, ?_, ?_⟩
  · intro r token hr
    show (if sends w β r then w.stored else w.presented r).isSome
    rcases hcases hr with ⟨hsent, hno⟩ | ⟨hyes, -, hsome⟩
    · rw [hno]
      exact h.some_ r token hsent
    · rw [hyes]
      exact hsome
  · intro r token hr
    show (if sends w β r then w.epoch else w.sentIn r) = epochAfter calls w a →
      (if sends w β r then w.stored else w.presented r) = currentAfter calls w a
    rw [hepoch, hcurrent]
    rcases hcases hr with ⟨hsent, hno⟩ | ⟨hyes, heq, -⟩
    · rw [hno]
      exact h.sent r token hsent
    · rw [hyes]
      exact fun _ => heq
  · intro r token hr
    show (if sends w β r then w.epoch else w.sentIn r) ≠ epochAfter calls w a →
      (if sends w β r then w.stored else w.presented r) ≠ currentAfter calls w a
    rw [hepoch, hcurrent]
    rcases hcases hr with ⟨hsent, hno⟩ | ⟨hyes, -, -⟩
    · rw [hno]
      exact h.past r token hsent
    · rw [hyes]
      exact fun hne => absurd rfl hne
  · intro r token hr
    show (if sends w β r then w.epoch else w.sentIn r) ≤ epochAfter calls w a
    rw [hepoch]
    rcases hcases hr with ⟨hsent, hno⟩ | ⟨hyes, -, -⟩
    · rw [hno]
      exact h.le r token hsent
    · rw [hyes]
      exact Nat.le_refl _
  · intro c hc
    have hknown : w.current = some (.started c) ∨ ∃ r token,
        w.browser.refresh r = .sent token ∧ w.presented r = some (.started c) := by
      rcases hc with hc | ⟨r, token, hr, hc⟩
      · exact Or.inl (hcurrent ▸ hc)
      · have hc : (if sends w β r then w.stored else w.presented r) = some (.started c) := hc
        rcases hcases hr with ⟨hsent, hno⟩ | ⟨hyes, heq, -⟩
        · rw [hno] at hc
          exact Or.inr ⟨r, token, hsent, hc⟩
        · rw [hyes] at hc
          exact Or.inl (heq ▸ hc)
    obtain ⟨res, hdone⟩ := h.known c hknown
    exact ⟨res, done_of_step hs hdone⟩

/-- **Step lemma.** -/
theorem OwnInv.step (h : OwnInv w) (hok : Timely w a) (hs : watch calls tab w a = some w') :
    OwnInv w' := by
  obtain ⟨β, hstep, rfl⟩ := Option.map_eq_some_iff.mp hs
  cases hevent : event calls w.browser a with
  | some e =>
    obtain ⟨c, k⟩ := e
    have hstore := store_of_event hstep hevent
    cases k with
    | opens tokens =>
      -- a login or a signup: both books name the new session
      have hstored : storedAfter calls w a = some (.started c) := by
        simp only [storedAfter, hevent]
      have hcurrent : currentAfter calls w a = some (.started c) := by
        simp only [currentAfter, hevent]
      refine h.turn hstep hevent (by simp only [epochAfter, hevent]) (Or.inr hcurrent) ⟨?_, ?_⟩
      · exact fun _ => hstored.trans hcurrent.symm
      · intro hnone
        have hnone : currentAfter calls w a = none := hnone
        rw [hcurrent] at hnone
        cases hnone
    | closes =>
      have hstored : storedAfter calls w a = none := by simp only [storedAfter, hevent]
      have hcurrent : currentAfter calls w a = none := by simp only [currentAfter, hevent]
      exact h.turn hstep hevent (by simp only [epochAfter, hevent]) (Or.inl hcurrent)
        ⟨fun _ => hstored.trans hcurrent.symm, fun _ => hstore⟩
    | drops =>
      -- a hydration has failed: the session goes on without tokens
      refine h.stay hstep (by simp only [epochAfter, hevent]) (by simp only [currentAfter, hevent])
        ⟨fun hsome => ?_, fun _ => hstore⟩
      have hsome : β.store.isSome := hsome
      rw [hstore] at hsome
      cases hsome
    | keeps =>
      have hstored : storedAfter calls w a = w.stored := by simp only [storedAfter, hevent]
      have hcurrent : currentAfter calls w a = w.current := by simp only [currentAfter, hevent]
      exact h.stay hstep (by simp only [epochAfter, hevent]) hcurrent
        (h.owned.keep hstore hstored hcurrent)
  | none =>
    have hepoch : epochAfter calls w a = w.epoch := by simp only [epochAfter, hevent]
    have hcurrent : currentAfter calls w a = w.current := by simp only [currentAfter, hevent]
    refine h.stay hstep hepoch hcurrent ?_
    rcases store_of_step hstep hevent with ⟨r, token, outcome, rfl, hsent, hstore⟩ | ⟨hne, hstore⟩
    · -- a refresh that succeeds speaks for the current session, by the condition
      refine ⟨fun hsome => ?_, fun hnone => ?_⟩
      · have hsome : β.store.isSome := hsome
        rw [hstore] at hsome
        show storedAfter calls w (.refreshed r outcome) = currentAfter calls w (.refreshed r outcome)
        simp only [storedAfter, hevent, hsome, hcurrent]
        exact h.sent r token hsent (hok hsome)
      · show β.store = none
        rw [hstore]
        -- after a logout there is no such refresh
        by_contra hsome
        have hpresented := h.some_ r token hsent
        have hnone : w.current = none := hcurrent.symm.trans hnone
        rw [h.sent r token hsent (hok (Option.isSome_iff_ne_none.mpr hsome)), hnone] at hpresented
        cases hpresented
    · have hstored : storedAfter calls w a = w.stored := by
        simp only [storedAfter, hevent]
      exact h.owned.keep hstore hstored hcurrent

end Step

section Runs

variable {tab : Nat → Nat} {calls : Nat → Call} {store : Option AuthTokens} {w w' : Watched}
  {a : Action}

theorem OwnInv.init (store : Option AuthTokens) : OwnInv (watched store) := by
  refine ⟨⟨fun _ => rfl, fun hnone => Option.map_eq_none_iff.mp hnone⟩, ?_, ?_, ?_, ?_, ?_⟩
  · intro r token hr
    cases hr
  · intro r token hr
    cases hr
  · intro r token hr
    cases hr
  · intro r token hr
    cases hr
  · rintro c (hc | ⟨r, token, hr, -⟩)
    · obtain ⟨tokens, -, heq⟩ := Option.map_eq_some_iff.mp hc
      cases heq
    · cases hr

/-- In every timely run the store belongs to the current session. -/
theorem OwnInv.of_run (hrun : Run (watch calls tab) Timely (watched store) w) : OwnInv w :=
  hrun.invariant (fun _ _ _ h hok hs => h.step hok hs) (OwnInv.init store)

/-- **The store belongs to the current session**, as long as no refresh succeeds that a login, a
    signup or a logout has overtaken. -/
theorem owned_of_run (hrun : Run (watch calls tab) Timely (watched store) w) : Owned w :=
  (OwnInv.of_run hrun).owned

/-- The condition is exact: the first refresh that is overtaken and succeeds breaks the property. -/
theorem owned_iff_of_run (hrun : Run (watch calls tab) Timely (watched store) w)
    (hs : watch calls tab w a = some w') : Owned w' ↔ Timely w a := by
  have h := OwnInv.of_run hrun
  refine ⟨fun howned => ?_, fun hok => (h.step hok hs).owned⟩
  obtain ⟨β, hstep, rfl⟩ := Option.map_eq_some_iff.mp hs
  cases a with
  | refreshed r outcome =>
    intro hsome
    by_contra hpast
    cases effect_of_step hstep with
    | @refreshed _ token _ hsent =>
      -- the tokens are those of a session that is over
      have hstored : storedAfter calls w (.refreshed r outcome) = w.presented r := by
        show (if (accepted outcome).isSome then w.presented r else none) = w.presented r
        rw [if_pos hsome]
      have heq : storedAfter calls w (.refreshed r outcome) = w.current := howned.tokens hsome
      exact h.past r token hsent hpast (hstored.symm.trans heq)
  | _ => trivial

end Runs

/-! ## One tab -/

section OneTab

/-- The tokens of a first user. -/
def alice : AuthTokens := ⟨⟨1, .user⟩, "alice"⟩

/-- Their successors. -/
def aliceRotated : AuthTokens := ⟨⟨1, .user⟩, "alice, rotated"⟩

/-- The tokens of another user. -/
def bob : AuthTokens := ⟨⟨2, .user⟩, "bob"⟩

/-- A hydration, and a login. -/
def hydrateAndLogin (c : Nat) : Call := if c = 0 then .hydrate else .login

/-- All calls in one tab. -/
def oneTab (_ : Nat) : Nat := 0

/-- The access token has expired: the hydration starts a refresh. -/
def expired : List Action := [.start 0, .answer 0 (.response 401) 0]

/-- The refresh is answered before anybody else logs in. -/
def renewed : List Action := [.refreshed 0 (.response 200 (.json (.success (some aliceRotated))))]

/-- Another user logs in. -/
def loggedIn : List Action :=
  [.start 1, .answer 1 (.response 200) 0, .body 1 (.json (.success (some bob)))]

/-- The two in this order, which is a run that the condition admits. -/
def inOrder : List Action := expired ++ renewed ++ [.settle 0] ++ loggedIn

theorem inOrder_runs :
    (execOk (watch hydrateAndLogin oneTab) Timely (watched (some alice)) inOrder).isSome
      = true := by
  decide

/-- A refresh, then a login: the store is the new user's. -/
theorem owned_of_inOrder :
    ∃ w, exec (watch hydrateAndLogin oneTab) (watched (some alice)) inOrder = some w ∧ Owned w := by
  have hw := (Option.some_get inOrder_runs).symm
  exact ⟨_, exec_of_execOk hw, owned_of_run (Run.of_execOk hw)⟩

/-- Bob logs in while the refresh for Alice is under way. -/
def overtaken : List Action := expired ++ loggedIn ++ renewed

theorem overtaken_runs :
    (exec (watch hydrateAndLogin oneTab) (watched (some alice)) overtaken).isSome = true := by
  decide

/-- Bob's tab, with Alice's tokens. -/
def mixedUp : Watched :=
  (exec (watch hydrateAndLogin oneTab) (watched (some alice)) overtaken).get overtaken_runs

/-- A login that overtakes a refresh: the old tokens come back. -/
theorem not_owned :
    ¬ ∀ (calls : Nat → Call) (store : Option AuthTokens) (w : Watched),
      Run (watch calls oneTab) always (watched store) w → Owned w := by
  intro hall
  have howned := hall hydrateAndLogin (some alice) mixedUp (Run.exec_get overtaken_runs)
  have hstore : mixedUp.browser.store.isSome = true := by decide
  have hdiffer : mixedUp.stored ≠ mixedUp.current := by decide
  exact hdiffer (howned.tokens hstore)

end OneTab

end SmartPatents.ApiClient
