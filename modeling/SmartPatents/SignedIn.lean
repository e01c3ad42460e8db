/-
  Whether a tab that is signed in has tokens.

  What a tab shows and what is in the store can drift apart: a hydration that is answered after the
  tokens are gone makes the tab signed in without any.  It does not come to that, because a tab that
  shows the loader makes no other call (`Inv.alone`): while its hydration is under way only the
  refresh of the hydration itself can clear the store, and then the hydration is `Doomed`.

  Other tabs are another matter, nobody listens to them.

  The hypotheses are about how calls are started: a page has to be on the screen to make one
  (`Mounted`), and a tab hydrates when it is loaded (`HydratesOnce`).  Both are how the components
  work, and not assumptions about the server.  The store may be changed by another tab at any
  time; `undisturbed` in the state remembers whether it was.

  `Inv.tokens_step` is where the cases meet: an authenticated tab has written the tokens itself,
  or has found them when it was loaded, and whatever of its own would have cleared them has made
  it a guest.
-/
import SmartPatents.Screens

namespace SmartPatents.AuthContext

open Runs ApiClient

/-! ## The loader -/

section Loader

variable (tab : Nat → Nat) (calls : Nat → Call)

/-- A call other than a hydration is started by a page that is on the screen; `NotFoundPage` starts
    none. -/
def Mounted (σ : State) (a : Act) : Prop :=
  ∀ c, a.action = .start c → calls c ≠ .hydrate →
    ∃ p, p ≠ .notFound ∧ app (σ.auth (tab c)) (some p) = .page p

/-- A tab hydrates once, when it is loaded. -/
def HydratesOnce : Prop :=
  ∀ c c', calls c = .hydrate → calls c' = .hydrate → tab c = tab c' → c = c'

/-- A refresh whose promise has not settled. -/
def UnderWay (l : RefreshLoc) : Prop := (∃ token, l = .sent token) ∨ ∃ tokens, l = .handled tokens

/-- A hydration that is over, or will be turned down. -/
def Doomed (β : Browser) (c : Nat) : Prop :=
  Over β c ∨ β.call c = .parsing 401 ∨ ∃ r body, β.call c = .awaiting r body ∧
    (β.refresh r = .handled none ∨ β.refresh r = .settled none)

/-- **The invariant**: a tab that shows the loader makes no call but its hydration, and from then on
    there is nothing left of that. -/
structure Inv (σ : State) : Prop where
  flight : ∀ t r, σ.browser.refreshInFlight t = some r → UnderWay (σ.browser.refresh r)
  alone : ∀ t c, (σ.auth t).status = .loading → tab c = t → calls c ≠ .hydrate →
    σ.browser.call c = .idle
  refresher : ∀ t r, (σ.auth t).status = .loading → σ.browser.refreshInFlight t = some r →
    ∃ c body, Hydration tab calls t c ∧ σ.browser.call c = .awaiting r body
  fed : ∀ t c, (σ.auth t).status = .loading → σ.undisturbed t = true → Hydration tab calls t c →
    σ.browser.call c = .idle ∨ Over σ.browser c ∨ σ.browser.store.isSome = true
  doomed : ∀ t c, (σ.auth t).status ≠ .loading → Hydration tab calls t c → Doomed σ.browser c
  tokens : ∀ t, (σ.auth t).status = .authenticated → σ.undisturbed t = true →
    σ.browser.store.isSome = true

variable {tab calls} {setsUser : Nat → Bool} {σ σ' : State} {a : Act} {β β' : Browser} {b : Action}
  {c r t : Nat} {body : Option String}

/-- A page behind a guard is not shown while the status is loading. -/
theorem loading_of_not_page {s : Auth} {p : Page} (hp : p ≠ .notFound)
    (hpage : app s (some p) = .page p) : s.status ≠ .loading := by
  intro hloading
  cases p with
  | notFound => exact hp rfl
  | login | signup =>
    simp only [app, publicOnlyRoute, hloading] at hpage
    cases hpage
  | dashboard | patents | profile | designSystem | users | userDetail =>
    simp only [app, protectedRoute, hloading] at hpage
    cases hpage

/-- Only a fetch under way is rejected. -/
theorem sending_of_rejects {outcome : FetchOutcome} {e : ClientError} (h : Rejects β c outcome e) :
    (∃ header body, β.call c = .fetching header body) ∨
      ∃ header body, β.call c = .retrying header body := by
  cases h with
  | unreachable hloc => exact Or.inl ⟨_, _, hloc⟩
  | aborted hloc => exact Or.inl ⟨_, _, hloc⟩
  | retryUnreachable hloc => exact Or.inr ⟨_, _, hloc⟩
  | retryAborted hloc => exact Or.inr ⟨_, _, hloc⟩

/-- A call waits until its refresh is settled. -/
theorem awaiting_of_step (hs : ApiClient.step tab calls β b = some β')
    (hloc : β.call c = .awaiting r body) : β'.call c = .awaiting r body ∨
      (β.refresh r = .settled none ∧ β'.call c = .parsing 401) ∨
      ∃ tokens, β.refresh r = .settled (some tokens) := by
  have hother : ∀ {c' : Nat} {l : CallLoc}, c ≠ c' → β'.call = goto β.call c' l →
      β'.call c = .awaiting r body := by
    intro c' l hc hcall
    rw [hcall, goto_ne _ _ hc, hloc]
  cases effect_of_step hs with
  | @start c' hidle =>
    obtain ⟨l, hcall⟩ := start_call calls β c'
    refine Or.inl (hother (fun hc => ?_) hcall)
    cases (hc ▸ hloc).symm.trans hidle
  | @rejects c' outcome r' e h =>
    obtain ⟨result, hcall⟩ := finish_call calls β c' (.rejected e)
    refine Or.inl (hother (fun hc => ?_) hcall)
    rcases sending_of_rejects h with ⟨_, _, h⟩ | ⟨_, _, h⟩
    · cases (hc ▸ hloc).symm.trans h
    · cases (hc ▸ hloc).symm.trans h
  | @headers c' status r' hbusy =>
    refine Or.inl (hother (fun hc => ?_) rfl)
    rcases hbusy with ⟨_, _, h⟩ | ⟨_, _, h⟩
    · cases (hc ▸ hloc).symm.trans h
    · cases (hc ▸ hloc).symm.trans h
  | joins hfetching =>
    refine Or.inl (hother (fun hc => ?_) rfl)
    cases (hc ▸ hloc).symm.trans hfetching
  | refreshes hfetching =>
    refine Or.inl (hother (fun hc => ?_) rfl)
    cases (hc ▸ hloc).symm.trans hfetching
  | @reads c' status json hparsing =>
    obtain ⟨result, hcall⟩ := finish_call calls β c' (parse status json)
    refine Or.inl (hother (fun hc => ?_) hcall)
    cases (hc ▸ hloc).symm.trans hparsing
  | @retries c' r' body' tokens hawaiting hrefresh =>
    by_cases hc : c = c'
    · subst hc
      cases hloc.symm.trans hawaiting
      exact Or.inr (Or.inr ⟨tokens, hrefresh⟩)
    · exact Or.inl (hother hc rfl)
  | @givesUp c' r' body' hawaiting hrefresh =>
    by_cases hc : c = c'
    · subst hc
      cases hloc.symm.trans hawaiting
      exact Or.inr (Or.inl ⟨hrefresh, goto_self _ _ _⟩)
    · exact Or.inl (hother hc rfl)
  | refreshed => exact Or.inl hloc
  | settles => exact Or.inl hloc
  | aborts => exact Or.inl hloc

/-- What is doomed stays so. -/
theorem Doomed.step (h : Doomed β c) (hs : ApiClient.step tab calls β b = some β') :
    Doomed β' c := by
  have hfinish : ∀ {result}, β' = finish calls β c result → Doomed β' c := by
    intro result hβ
    obtain ⟨result', hcall⟩ := finish_call calls β c result
    exact Or.inl ⟨result', by rw [hβ, hcall, goto_self]⟩
  rcases h with ⟨result, hdone⟩ | hparsing | ⟨r, body, hawaiting, hrefresh⟩
  · exact Or.inl ⟨result, done_of_step hs hdone⟩
  · cases callStep_of_step hs c with
    | same _ heq => exact Or.inr (Or.inl (heq.trans hparsing))
    | starts _ hidle => cases hparsing.symm.trans hidle
    | headers _ hbusy =>
      rcases hbusy with ⟨_, _, hloc⟩ | ⟨_, _, hloc⟩
      · cases hparsing.symm.trans hloc
      · cases hparsing.symm.trans hloc
    | waits hloc => cases hparsing.symm.trans hloc
    | retries hloc => cases hparsing.symm.trans hloc
    | givesUp hloc => cases hparsing.symm.trans hloc
    | rejects _ hβ => exact hfinish hβ
    | reads _ hβ => exact hfinish hβ
  · rcases awaiting_of_step hs hawaiting with hstill | ⟨-, hparsing⟩ | ⟨tokens, hsettled⟩
    · refine Or.inr (Or.inr ⟨r, body, hstill, ?_⟩)
      cases refreshStep_of_step hs r with
      | same heq => rwa [heq]
      | sends _ _ _ _ _ hidle =>
        rcases hrefresh with h | h
        · cases h.symm.trans hidle
        · cases h.symm.trans hidle
      | answered _ hsent =>
        rcases hrefresh with h | h
        · cases h.symm.trans hsent
        · cases h.symm.trans hsent
      | settled hhandled hsettled =>
        rcases hrefresh with h | h
        · cases h.symm.trans hhandled
          exact Or.inr hsettled
        · cases h.symm.trans hhandled
    · exact Or.inr (Or.inl hparsing)
    · rcases hrefresh with h | h
      · cases h.symm.trans hsettled
      · cases h.symm.trans hsettled

/-- It does not succeed. -/
theorem Doomed.not_resolved {data : Option AuthTokens} (h : Doomed β c)
    (hs : ApiClient.step tab calls β b = some β') :
    finishing β b ≠ some (c, .resolved data) := by
  intro hend
  rcases (finish_of_finishing hs hend).2 with ⟨_, e, -, heq⟩ | ⟨status, json, hloc, heq⟩
  · cases heq
  · rcases h with ⟨result, hdone⟩ | hparsing | ⟨r, body, hawaiting, -⟩
    · cases hloc.symm.trans hdone
    · obtain rfl := CallLoc.parsing.inj (hloc.symm.trans hparsing)
      unfold parse at heq
      split at heq
      · cases heq
      · cases heq
      · cases heq
      · cases heq
      · cases heq
    · cases hloc.symm.trans hawaiting

/-- The promise of a tab was there before, or a call of the tab has just made it. -/
theorem flight_of_step (hs : ApiClient.step tab calls β b = some β')
    (hflight : β'.refreshInFlight t = some r) :
    β.refreshInFlight t = some r ∧ b ≠ .settle r ∨
      ∃ c header body, tab c = t ∧ β.call c = .fetching header body ∧
        β'.call c = .awaiting r body ∧ UnderWay (β'.refresh r) := by
  cases effect_of_step hs with
  | start =>
    rw [(start_frame _ _ _).1] at hflight
    exact Or.inl ⟨hflight, fun h => by cases h⟩
  | rejects =>
    rw [(finish_frame _ _ _ _).1] at hflight
    exact Or.inl ⟨hflight, fun h => by cases h⟩
  | reads =>
    rw [(finish_frame _ _ _ _).1] at hflight
    exact Or.inl ⟨hflight, fun h => by cases h⟩
  | @refreshes c r' header body tokens hloc =>
    have hflight : goto β.refreshInFlight (tab c) (some r') t = some r := hflight
    by_cases ht : t = tab c
    · subst ht
      rw [goto_self] at hflight
      obtain rfl := Option.some.inj hflight
      exact Or.inr ⟨c, header, body, rfl, hloc, goto_self _ _ _,
        Or.inl ⟨tokens.refreshToken, goto_self _ _ _⟩⟩
    · rw [goto_ne _ _ ht] at hflight
      exact Or.inl ⟨hflight, fun h => by cases h⟩
  | @settles r' tokens hloc =>
    have hflight : (if β.refreshInFlight t = some r' then none else β.refreshInFlight t) = some r :=
      hflight
    split at hflight
    · cases hflight
    · rename_i hne
      exact Or.inl ⟨hflight, fun h => hne (by rw [hflight, Action.settle.inj h])⟩
  | _ => exact Or.inl ⟨hflight, fun h => by cases h⟩

/-- A refresh is under way until its promise settles. -/
theorem UnderWay.step (h : UnderWay (β.refresh r)) (hne : b ≠ .settle r)
    (hs : ApiClient.step tab calls β b = some β') : UnderWay (β'.refresh r) := by
  have hkept : β'.refresh r = β.refresh r → UnderWay (β'.refresh r) := fun heq => heq ▸ h
  cases effect_of_step hs with
  | start => exact hkept (congrFun start_refresh r)
  | rejects => exact hkept (congrFun finish_refresh r)
  | reads => exact hkept (congrFun finish_refresh r)
  | @refreshes c r' header body tokens hloc _ _ _ hidle =>
    refine hkept (goto_ne _ _ fun hr => ?_)
    subst hr
    rcases h with ⟨token, h⟩ | ⟨tokens, h⟩
    · cases h.symm.trans hidle
    · cases h.symm.trans hidle
  | @refreshed r' token outcome hloc =>
    by_cases hr : r = r'
    · subst hr
      exact Or.inr ⟨accepted outcome, goto_self _ _ _⟩
    · exact hkept (goto_ne _ _ hr)
  | @settles r' tokens hloc => exact hkept (goto_ne _ _ fun hr => hne (hr ▸ rfl))
  | _ => exact hkept rfl

/-- A call that ends is under way. -/
theorem busy_of_finishing {result : Result} (hs : ApiClient.step tab calls β b = some β')
    (hend : finishing β b = some (c, result)) : β.call c ≠ .idle ∧ ¬ Over β c := by
  rcases (finish_of_finishing hs hend).2 with ⟨_, _, h, -⟩ | ⟨_, _, hloc, -⟩
  · refine ⟨fun hidle => ?_, fun ⟨result, hdone⟩ => busy_of_rejects h result hdone⟩
    rcases sending_of_rejects h with ⟨_, _, hloc⟩ | ⟨_, _, hloc⟩
    · cases hidle.symm.trans hloc
    · cases hidle.symm.trans hloc
  · refine ⟨fun hidle => ?_, fun ⟨result, hdone⟩ => ?_⟩
    · cases hidle.symm.trans hloc
    · cases hdone.symm.trans hloc

/-- A call does not start by itself. -/
theorem idle_of_step (hs : ApiClient.step tab calls β b = some β') (hidle : β.call c = .idle)
    (hne : b ≠ .start c) : β'.call c = .idle := by
  have hfinish : ∀ {result}, β' ≠ finish calls β c result := by
    intro result hβ
    obtain ⟨result', hcall⟩ := finish_call calls β c result
    rcases over_of_step hs ⟨result', by rw [hβ, hcall, goto_self]⟩ with ⟨_, hdone⟩ | ⟨_, hend⟩ | h
    · cases hidle.symm.trans hdone
    · exact (busy_of_finishing hs hend).1 hidle
    · exact hne h
  cases callStep_of_step hs c with
  | same _ heq => exact heq.trans hidle
  | starts ha => exact absurd ha hne
  | headers _ hbusy =>
    rcases hbusy with ⟨_, _, hloc⟩ | ⟨_, _, hloc⟩
    · cases hidle.symm.trans hloc
    · cases hidle.symm.trans hloc
  | waits hloc => cases hidle.symm.trans hloc
  | retries hloc => cases hidle.symm.trans hloc
  | givesUp hloc => cases hidle.symm.trans hloc
  | rejects _ hβ => exact absurd hβ hfinish
  | reads _ hβ => exact absurd hβ hfinish

/-- A loading tab: its promise was made by its hydration. -/
theorem Inv.flight_step (h : Inv tab calls σ) (hs : ApiClient.step tab calls σ.browser b = some β')
    (hflight : β'.refreshInFlight t = some r) : UnderWay (β'.refresh r) := by
  rcases flight_of_step hs hflight with ⟨hbefore, hne⟩ | ⟨_, _, _, -, -, -, hunderWay⟩
  · exact (h.flight t r hbefore).step hne hs
  · exact hunderWay

/-- While a tab is loading, the only refresh it can start is that of its hydration. -/
theorem Inv.refresher_step (h : Inv tab calls σ)
    (hs : ApiClient.step tab calls σ.browser b = some β') (hloading : (σ.auth t).status = .loading)
    (hflight : β'.refreshInFlight t = some r) :
    ∃ c body, Hydration tab calls t c ∧ β'.call c = .awaiting r body := by
  rcases flight_of_step hs hflight with ⟨hbefore, -⟩ | ⟨c, header, body, htab, hloc, hawaiting, -⟩
  · obtain ⟨c, body, hc, hawaiting⟩ := h.refresher t r hloading hbefore
    have hunderWay := h.flight t r hbefore
    refine ⟨c, body, hc, ?_⟩
    rcases awaiting_of_step hs hawaiting with hstill | ⟨hsettled, -⟩ | ⟨tokens, hsettled⟩
    · exact hstill
    · rcases hunderWay with ⟨token, hsent⟩ | ⟨tokens, hhandled⟩
      · cases hsent.symm.trans hsettled
      · cases hhandled.symm.trans hsettled
    · rcases hunderWay with ⟨token, hsent⟩ | ⟨tokens, hhandled⟩
      · cases hsent.symm.trans hsettled
      · cases hhandled.symm.trans hsettled
  · refine ⟨c, body, ⟨htab, ?_⟩, hawaiting⟩
    by_contra hne
    cases (h.alone t c hloading htab hne).symm.trans hloc

/-- The first step after which the tab does not show the loader: its hydration is doomed. -/
theorem Inv.doomed_of_leaving {s' : Auth} (honce : HydratesOnce tab calls) (h : Inv tab calls σ)
    (hs : ApiClient.step tab calls σ.browser b = some β') (hloading : (σ.auth t).status = .loading)
    (hauth : AuthStep tab calls σ.browser β' b t (σ.auth t) s') (hleft : s'.status ≠ .loading)
    (hc : Hydration tab calls t c) : Doomed β' c := by
  -- no call of the tab but the hydration can have ended
  have hend : ∀ {c' result}, tab c' = t → finishing σ.browser b = some (c', result) →
      Doomed β' c := by
    intro c' result htab hend
    have hcall : calls c' = .hydrate := by
      by_contra hne
      exact (busy_of_finishing hs hend).1 (h.alone t c' hloading htab hne)
    obtain rfl := honce c' c hcall hc.2 (htab.trans hc.1.symm)
    obtain ⟨result', hdone⟩ := finish_call calls σ.browser c' result
    exact Or.inl ⟨result', by rw [(finish_of_finishing hs hend).1, hdone, goto_self]⟩
  cases hauth with
  | stays hstatus => exact absurd (hstatus.trans hloading) hleft
  | opens htab _ hfinishing => exact hend htab hfinishing
  | hydrated hc' hfinishing => exact hend hc'.1 hfinishing
  | leaves htab hfinishing => exact hend htab hfinishing
  | @bare c' hc' _ hover =>
    obtain rfl := honce c' c hc'.2 hc.2 (hc'.1.trans hc.1.symm)
    exact Or.inl hover
  | @loses r outcome ha hflight hnone =>
    subst ha
    obtain ⟨c', body, hc', hawaiting⟩ := h.refresher t r hloading hflight
    obtain rfl := honce c' c hc'.2 hc.2 (hc'.1.trans hc.1.symm)
    have hbrowser : β' = { σ.browser with
        store := accepted outcome
        refresh := goto σ.browser.refresh r (.handled (accepted outcome)) } := by
      cases effect_of_step hs with
      | refreshed => rfl
    subst hbrowser
    refine Or.inr (Or.inr ⟨r, body, hawaiting, Or.inl ?_⟩)
    rw [← hnone]
    exact goto_self _ _ _

/-- A tab hydrates when its hydration starts. -/
theorem hydrates_eq_true :
    hydrates tab calls b t = true ↔ ∃ c, b = .start c ∧ Hydration tab calls t c := by
  constructor
  · intro h
    unfold hydrates at h
    split at h
    · rename_i c
      split at h
      · rename_i hcall
        exact ⟨c, rfl, of_decide_eq_true h, hcall⟩
      · cases h
    · cases h
  · rintro ⟨c, rfl, htab, hcall⟩
    simp only [hydrates, hcall, htab, decide_true]

/-- A tab that nobody has disturbed has written to the store, has begun to hydrate, or the store has
    not changed. -/
theorem undisturbed_of_step {before : Bool}
    (h : (writes tab calls β b t || hydrates tab calls b t ||
      (before && decide (β'.store = β.store))) = true) :
    writes tab calls β b t = true ∨ (∃ c, b = .start c ∧ Hydration tab calls t c) ∨
      before = true ∧ β'.store = β.store := by
  rw [Bool.or_eq_true, Bool.or_eq_true, Bool.and_eq_true, decide_eq_true_eq, hydrates_eq_true] at h
  rcases h with (hwrites | hstart) | hkept
  · exact Or.inl hwrites
  · exact Or.inr (Or.inl hstart)
  · exact Or.inr (Or.inr hkept)

/-- The hydration of a loading tab has tokens when it is under way. -/
theorem Inv.fed_step {s' : Auth} (honce : HydratesOnce tab calls) (h : Inv tab calls σ)
    (hs : ApiClient.step tab calls σ.browser b = some β')
    (hauth : AuthStep tab calls σ.browser β' b t (σ.auth t) s') (hloading : s'.status = .loading)
    (hundisturbed : (writes tab calls σ.browser b t || hydrates tab calls b t ||
      (σ.undisturbed t && decide (β'.store = σ.browser.store))) = true)
    (hc : Hydration tab calls t c) :
    β'.call c = .idle ∨ Over β' c ∨ β'.store.isSome = true := by
  obtain ⟨hwas, hstore, -⟩ := hauth.loading hloading
  by_cases hstart : b = .start c
  · subst hstart
    obtain rfl : β' = start calls σ.browser c := by
      cases effect_of_step hs with
      | start => rfl
    cases htokens : σ.browser.store with
    | none =>
      refine Or.inr (Or.inl ⟨.resolved none, ?_⟩)
      simp only [start, hc.2, htokens, goto_self]
    | some tokens =>
      refine Or.inr (Or.inr ?_)
      rw [start_store, htokens]
      rfl
  · rcases undisturbed_of_step hundisturbed with hwrites | ⟨c', rfl, hc'⟩ | ⟨hkept, heq⟩
    · exact Or.inr (Or.inr (hstore hwrites))
    · exact absurd (honce c' c hc'.2 hc.2 (hc'.1.trans hc.1.symm) ▸ rfl) hstart
    · rcases h.fed t c hwas hkept hc with hidle | ⟨result, hdone⟩ | hsome
      · exact Or.inl (idle_of_step hs hidle hstart)
      · exact Or.inr (Or.inl ⟨result, done_of_step hs hdone⟩)
      · exact Or.inr (Or.inr (by rw [heq]; exact hsome))

/-- An authenticated tab that nobody disturbs has tokens. -/
theorem Inv.tokens_step {s' : Auth} (h : Inv tab calls σ)
    (hs : ApiClient.step tab calls σ.browser b = some β')
    (hauth : AuthStep tab calls σ.browser β' b t (σ.auth t) s') (hin : s'.status = .authenticated)
    (hundisturbed : (writes tab calls σ.browser b t || hydrates tab calls b t ||
      (σ.undisturbed t && decide (β'.store = σ.browser.store))) = true) :
    β'.store.isSome = true := by
  cases hauth with
  | opens _ _ _ hstore => exact hstore
  | bare _ _ _ hstatus => cases hstatus.symm.trans hin
  | leaves _ _ hstatus => cases hstatus.symm.trans hin
  | loses _ _ _ hstatus => cases hstatus.symm.trans hin
  | stays hstatus _ hstore _ =>
    have hwas : (σ.auth t).status = .authenticated := hstatus.symm.trans hin
    rcases undisturbed_of_step hundisturbed with hwrites | ⟨c, rfl, hc⟩ | ⟨hkept, heq⟩
    · exact hstore hwrites
    · -- a tab hydrates once, and this one has
      have hidle : σ.browser.call c = .idle := by
        cases effect_of_step hs with
        | start hidle => exact hidle
      rcases h.doomed t c (by rw [hwas]; exact fun h => by cases h) hc with
        ⟨_, hdone⟩ | hparsing | ⟨_, _, hawaiting, -⟩
      · cases hidle.symm.trans hdone
      · cases hidle.symm.trans hparsing
      · cases hidle.symm.trans hawaiting
    · rw [heq]
      exact h.tokens t hwas hkept
  | @hydrated c data hc hend hstore =>
    have hloading : (σ.auth t).status = .loading := by
      by_contra hleft
      exact (h.doomed t c hleft hc).not_resolved hs hend
    rcases undisturbed_of_step hundisturbed with hwrites | ⟨c', rfl, -⟩ | ⟨hkept, -⟩
    · rw [writes_of_finishing hend] at hwrites
      simp only [ending, hc.2, ne_eq, not_true_eq_false, decide_false, Bool.false_and] at hwrites
      cases hwrites
    · cases hend
    · obtain ⟨hstarted, hnotOver⟩ := busy_of_finishing hs hend
      rcases h.fed t c hloading hkept hc with hidle | hover | hsome
      · exact absurd hidle hstarted
      · exact absurd hover hnotOver
      · rw [hstore]
        exact hsome

/-- **Step lemma.** -/
theorem Inv.step (honce : HydratesOnce tab calls) (h : Inv tab calls σ)
    (hok : Mounted tab calls σ a) (hs : step tab calls setsUser σ a = some σ') :
    Inv tab calls σ' := by
  obtain ⟨β, hstep, rfl⟩ := Option.map_eq_some_iff.mp hs
  have hauth : ∀ t, AuthStep tab calls σ.browser β a.action t (σ.auth t)
      (react tab calls setsUser σ.browser β a t (σ.auth t)) := fun t => authStep_of_step hstep
  refine ⟨?_, ?_, ?_, ?_, ?_, ?_⟩
  · intro t r hflight
    exact h.flight_step hstep hflight
  · intro t c hloading htab hne
    have hbefore := ((hauth t).loading hloading).1
    refine idle_of_step hstep (h.alone t c hbefore htab hne) fun hstart => ?_
    obtain ⟨p, hp, hpage⟩ := hok c hstart hne
    exact loading_of_not_page hp hpage (htab ▸ hbefore)
  · intro t r hloading hflight
    exact h.refresher_step hstep ((hauth t).loading hloading).1 hflight
  · intro t c hloading hundisturbed hc
    exact h.fed_step honce hstep (hauth t) hloading hundisturbed hc
  · intro t c hleft hc
    by_cases hloading : (σ.auth t).status = .loading
    · exact h.doomed_of_leaving honce hstep hloading (hauth t) hleft hc
    · exact (h.doomed t c hloading hc).step hstep
  · intro t hin hundisturbed
    exact h.tokens_step hstep (hauth t) hin hundisturbed

theorem Inv.init (store : Option AuthTokens) : Inv tab calls (init store) where
  flight := by
    intro t r h
    cases h
  alone := fun _ _ _ _ _ => rfl
  refresher := by
    intro t r _ h
    cases h
  fed := fun _ _ _ _ _ => Or.inl rfl
  doomed := fun _ _ hleft _ => absurd rfl hleft
  tokens := by
    intro t hin
    cases hin

/-- **Signed in means tokens**: as long as calls are started by what is on the screen, a tab that no
    other tab has disturbed is authenticated only while there are tokens. -/
theorem tokens_of_run {store : Option AuthTokens} (honce : HydratesOnce tab calls)
    (hrun : Run (AuthContext.step tab calls setsUser) (Mounted tab calls) (init store) σ) {t : Nat}
    (hin : (σ.auth t).status = .authenticated) (hundisturbed : σ.undisturbed t = true) :
    σ.browser.store.isSome = true :=
  (hrun.invariant (fun _ _ _ h hok hs => h.step honce hok hs) (Inv.init store)).tokens t hin
    hundisturbed

/-- One tab: its hydration, a login, and requests of the pages. -/
def firstVisit : Nat → Call
  | 0 => .hydrate
  | 1 => .login
  | _ => .request ⟨true, true⟩

theorem hydratesOnce_firstVisit : HydratesOnce page firstVisit := by
  have hzero : ∀ c, firstVisit c = .hydrate → c = 0 := by
    intro c hc
    match c with
    | 0 => rfl
    | 1 => cases hc
    | c + 2 => cases hc
  exact fun c c' hc hc' _ => (hzero c hc).trans (hzero c' hc').symm

/-- The login page is there for a guest, the profile page for a user. -/
def FromItsPage (σ : State) (a : Act) : Prop :=
  match a.action with
  | .start 0 => True
  | .start 1 => (σ.auth 0).status = .guest
  | .start _ => (σ.auth 0).status = .authenticated
  | _ => True

instance (σ : State) : ∀ a, Decidable (FromItsPage σ a)
  | ⟨.start 0, _⟩ => .isTrue trivial
  | ⟨.start 1, _⟩ => inferInstanceAs (Decidable ((σ.auth 0).status = .guest))
  | ⟨.start (_ + 2), _⟩ => inferInstanceAs (Decidable ((σ.auth 0).status = .authenticated))
  | ⟨.answer .., _⟩ | ⟨.body .., _⟩ | ⟨.refreshed .., _⟩ | ⟨.settle _, _⟩ | ⟨.resume _, _⟩
  | ⟨.abort _, _⟩ => .isTrue trivial

/-- Pages make requests only once they are shown. -/
theorem mounted_of_fromItsPage {σ : State} {a : Act} (h : FromItsPage σ a) :
    Mounted page firstVisit σ a := by
  intro c hstart hne
  simp only [FromItsPage, hstart] at h
  match c with
  | 0 => exact absurd rfl hne
  | 1 =>
    have h : (σ.auth 0).status = .guest := h
    exact ⟨.login, (fun hp => by cases hp), by simp only [page, app, publicOnlyRoute, h]⟩
  | c + 2 =>
    have h : (σ.auth 0).status = .authenticated := h
    exact ⟨.profile, (fun hp => by cases hp), by simp only [page, app, protectedRoute, h]⟩

/-- Without tokens the page loads as a guest; Ada logs in, and her profile page asks for the profile,
    first with an access token that is not valid any more. -/
def logsIn : List Act :=
  [.start 0, .start 1, .answer 1 (.response 200) 0, .body 1 (.json (.success (some aSession))),
    .start 2, .answer 2 (.response 401) 0, .refreshed 0 (.response 200 (.json (.success
      (some aSession)))), .settle 0, .resume 2, .answer 2 (.response 200) 0,
    .body 2 (.json (.success none))].map fun a => ⟨a, ada⟩

theorem logsIn_runs : (execOk (step page firstVisit fun _ => false) FromItsPage (init none)
    logsIn).isSome = true := by
  decide

/-- The tab of a visitor who has logged in. -/
def loggedIn : State :=
  (execOk (step page firstVisit fun _ => false) FromItsPage (init none) logsIn).get logsIn_runs

/-- After the login there are tokens. -/
theorem tokens_of_logsIn : loggedIn.browser.store.isSome = true := by
  have hrun : Run (AuthContext.step page firstVisit fun _ => false) (Mounted page firstVisit)
      (init none) loggedIn :=
    (Run.of_execOk (Option.some_get logsIn_runs).symm).mono fun _ _ => mounted_of_fromItsPage
  exact tokens_of_run (t := 0) hydratesOnce_firstVisit hrun (by decide) (by decide)

/-- The listener does not hear of another tab: Ada logs out in tab 1, and tab 0 goes on showing her
    pages, without tokens. -/
example : (exec (step id (fun c => if c = 1 then .logout else .hydrate) fun _ => false)
    (init (some aSession)) (returning ++ [.start 1, .answer 1 (.response 200) 0,
      .body 1 (.json (.success none))].map fun a => ⟨a, ada⟩)).map
    (fun σ => (σ.browser.store, (σ.auth 0).status)) = some (none, .authenticated) := by
  decide

end Loader

end SmartPatents.AuthContext
