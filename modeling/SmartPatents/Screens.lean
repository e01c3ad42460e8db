/-
  What a tab shows: the guards of `frontend/src/routes` and the routes of `frontend/src/App.tsx`.

  `Leads` says where the guards lead at any location: to a page that admits its user, to the loader,
  or to one of three redirects, and a redirect leads to a page.  The router itself is not in the
  repository; the guards rely on three of its answers.

  The guards are functions of the state of the provider and of what would be shown behind them, as
  the components are.  `visit` follows redirects up to a bound; one is enough, because each
  redirect leads to a path whose guard admits the state that caused it (`Leads`, `leads_app`).

  The invariant of the provider (`Shown`) is what the guards need to know: a status of
  `authenticated` comes with a user, and the loader means that the hydration is under way or was
  aborted.

  The pages themselves, what they fetch and what they show of it, are not here; `UseAsync` and
  `SignedIn` are about that.
-/
import SmartPatents.AuthContext

namespace SmartPatents.AuthContext

open Runs ApiClient

/-! ## The guards -/

/-- The pages of `App`. -/
inductive Page
  | login
  | signup
  | dashboard
  | patents
  | profile
  | designSystem
  | users
  | userDetail
  | notFound
deriving DecidableEq

/-- What a route shows: a page, the loader, or a redirect. -/
inductive Screen
  | page (page : Page)
  | fullPageLoader
  | navigate (pathname : String)
deriving DecidableEq

/-- `PublicOnlyRoute`, around the pages of a guest. -/
def publicOnlyRoute (s : Auth) (outlet : Screen) : Screen :=
  match s.status with
  | .loading => .fullPageLoader
  | .authenticated => .navigate "/"
  | .guest => outlet

/-- `ProtectedRoute`, around the pages of a user. -/
def protectedRoute (s : Auth) (outlet : Screen) : Screen :=
  match s.status with
  | .loading => .fullPageLoader
  | .guest => .navigate "/login"
  | .authenticated => outlet

/-- `AdminRoute`, inside `ProtectedRoute`. -/
def adminRoute (s : Auth) (outlet : Screen) : Screen :=
  if s.isAdmin then outlet else .navigate "/"

/-- The routes, by the page whose path the location matches; only `*` is left for `none`. -/
def app (s : Auth) : Option Page → Screen
  | some .login => publicOnlyRoute s (.page .login)
  | some .signup => publicOnlyRoute s (.page .signup)
  | some .dashboard => protectedRoute s (.page .dashboard)
  | some .patents => protectedRoute s (.page .patents)
  | some .profile => protectedRoute s (.page .profile)
  | some .designSystem => protectedRoute s (.page .designSystem)
  | some .users => protectedRoute s (adminRoute s (.page .users))
  | some .userDetail => protectedRoute s (adminRoute s (.page .userDetail))
  | some .notFound => .page .notFound
  | none => .navigate "/404"

/-- How the router matches a path against those of `App`; the guards name three of them. -/
structure Router where
  matchRoutes : String → Option Page
  root : matchRoutes "/" = some .dashboard
  login : matchRoutes "/login" = some .login
  notFound : matchRoutes "/404" = some .notFound

/-- What is on the screen at a location, after at most `n` redirects. -/
def visit (R : Router) (s : Auth) (n : Nat) (pathname : String) : Option Screen :=
  match app s (R.matchRoutes pathname) with
  | .navigate target =>
    match n with
    | 0 => none
    | n + 1 => visit R s n target
  | screen => some screen

/-! ## Screens -/

/-- Who may see a page. -/
def Page.admits (s : Auth) : Page → Prop
  | .notFound => True
  | .login | .signup => s.status = .guest
  | .users | .userDetail =>
    s.status = .authenticated ∧ ∃ user, s.user = some user ∧ user.role = .admin
  | .dashboard | .patents | .profile | .designSystem =>
    s.status = .authenticated ∧ s.user.isSome = true

/-- Where the guards lead. -/
inductive Leads (s : Auth) : Screen → Prop
  | page {p : Page} (h : p.admits s) : Leads s (.page p)
  | loader (h : s.status = .loading) : Leads s .fullPageLoader
  | login (h : s.status = .guest) : Leads s (.navigate "/login")
  | root (h : s.status = .authenticated) : Leads s (.navigate "/")
  | notFound : Leads s (.navigate "/404")

section Screens

variable {s : Auth} {p : Page} {outlet : Screen}

/-- A page of a guest is shown to a guest. -/
theorem leads_publicOnlyRoute (h : s.status = .guest → p.admits s) :
    Leads s (publicOnlyRoute s (.page p)) := by
  cases hstatus : s.status with
  | loading => simpa only [publicOnlyRoute, hstatus] using Leads.loader hstatus
  | authenticated => simpa only [publicOnlyRoute, hstatus] using Leads.root hstatus
  | guest => simpa only [publicOnlyRoute, hstatus] using Leads.page (h hstatus)

/-- What is protected is shown to a user. -/
theorem leads_protectedRoute (h : s.status = .authenticated → Leads s outlet) :
    Leads s (protectedRoute s outlet) := by
  cases hstatus : s.status with
  | loading => simpa only [protectedRoute, hstatus] using Leads.loader hstatus
  | authenticated => simpa only [protectedRoute, hstatus] using h hstatus
  | guest => simpa only [protectedRoute, hstatus] using Leads.login hstatus

/-- What is the administrators' is shown to one of them. -/
theorem leads_adminRoute (hstatus : s.status = .authenticated)
    (h : (∃ user, s.user = some user ∧ user.role = .admin) → p.admits s) :
    Leads s (adminRoute s (.page p)) := by
  rw [adminRoute]
  split
  · rename_i hadmin
    obtain ⟨user, huser, hrole⟩ := (Option.any_eq_true _ _).mp hadmin
    exact .page (h ⟨user, huser, of_decide_eq_true hrole⟩)
  · exact .root hstatus

/-- Every route leads somewhere: to its page, to the loader, or to another route. -/
theorem leads_app (huser : s.status = .authenticated → s.user.isSome = true) (o : Option Page) :
    Leads s (app s o) := by
  match o with
  | none => exact .notFound
  | some .notFound => exact .page trivial
  | some .login => exact leads_publicOnlyRoute id
  | some .signup => exact leads_publicOnlyRoute id
  | some .dashboard => exact leads_protectedRoute fun h => .page ⟨h, huser h⟩
  | some .patents => exact leads_protectedRoute fun h => .page ⟨h, huser h⟩
  | some .profile => exact leads_protectedRoute fun h => .page ⟨h, huser h⟩
  | some .designSystem => exact leads_protectedRoute fun h => .page ⟨h, huser h⟩
  | some .users => exact leads_protectedRoute fun h => leads_adminRoute h fun huser => ⟨h, huser⟩
  | some .userDetail =>
    exact leads_protectedRoute fun h => leads_adminRoute h fun huser => ⟨h, huser⟩

/-- A redirect leads to a page. -/
theorem visit_of_leads (R : Router) (huser : s.status = .authenticated → s.user.isSome = true)
    (pathname : String) :
    visit R s 1 pathname = some .fullPageLoader ∧ s.status = .loading ∨
      ∃ p, visit R s 1 pathname = some (.page p) ∧ p.admits s := by
  have hleads := leads_app huser (R.matchRoutes pathname)
  rw [visit]
  generalize app s (R.matchRoutes pathname) = screen at hleads ⊢
  cases hleads with
  | page h => exact Or.inr ⟨_, rfl, h⟩
  | loader h => exact Or.inl ⟨rfl, h⟩
  | login h =>
    refine Or.inr ⟨.login, ?_, h⟩
    simp only [visit, R.login, app, publicOnlyRoute, h]
  | root h =>
    refine Or.inr ⟨.dashboard, ?_, h, huser h⟩
    simp only [visit, R.root, app, protectedRoute, h]
  | notFound =>
    refine Or.inr ⟨.notFound, ?_, trivial⟩
    simp only [visit, R.notFound, app]

end Screens

/-! ## Every screen -/

section Shown

variable {tab : Nat → Nat} {calls : Nat → Call} {setsUser : Nat → Bool} {σ σ' : State} {a : Act}
  {β β' : Browser} {b : Action} {c : Nat} {store : Option AuthTokens}

/-- **The invariant of the provider.** -/
structure Shown (tab : Nat → Nat) (calls : Nat → Call) (σ : State) : Prop where
  user : ∀ t, (σ.auth t).status = .authenticated → (σ.auth t).user.isSome = true
  waiting : ∀ t c, (σ.auth t).status = .loading → Hydration tab calls t c → Over σ.browser c →
    σ.browser.aborted c = true

/-- **Step lemma.** -/
theorem Shown.step (h : Shown tab calls σ) (hs : step tab calls setsUser σ a = some σ') :
    Shown tab calls σ' := by
  obtain ⟨β, hstep, rfl⟩ := Option.map_eq_some_iff.mp hs
  refine ⟨?_, ?_⟩
  · intro t hin
    have hauth : AuthStep tab calls σ.browser β a.action t (σ.auth t)
        (react tab calls setsUser σ.browser β a t (σ.auth t)) := authStep_of_step hstep
    cases hauth with
    | stays hstatus huser => exact huser (h.user t (hstatus.symm.trans hin))
    | opens _ _ _ _ huser => exact huser
    | hydrated _ _ _ huser => exact huser
    | bare _ _ _ hstatus => cases hstatus.symm.trans hin
    | leaves _ _ hstatus => cases hstatus.symm.trans hin
    | loses _ _ _ hstatus => cases hstatus.symm.trans hin
  · intro t c hloading hc hover
    obtain ⟨hbefore, -, hdone⟩ := AuthStep.loading (authStep_of_step hstep) hloading
    rcases hdone c hc hover with hover | haborted
    · exact aborted_of_step hstep (h.waiting t c hbefore hc hover)
    · exact aborted_of_step hstep haborted

theorem Shown.init (store : Option AuthTokens) : Shown tab calls (init store) where
  user := by
    intro t hin
    cases hin
  waiting := by
    rintro t c - - ⟨result, hdone⟩
    cases hdone

/-- **Everybody sees what is theirs.**  Wherever a tab is, after one redirect at most there is a page
    that admits its user, or the loader, with no hydration that has ended of its own accord. -/
theorem screen_of_run (R : Router) (hrun : Run (step tab calls setsUser) always (init store) σ)
    (t : Nat) (pathname : String) :
    (∃ p, visit R (σ.auth t) 1 pathname = some (.page p) ∧ p.admits (σ.auth t)) ∨
      visit R (σ.auth t) 1 pathname = some .fullPageLoader ∧
        ∀ c, Hydration tab calls t c → Over σ.browser c → σ.browser.aborted c = true := by
  have h : Shown tab calls σ := hrun.invariant (fun _ _ _ h _ hs => h.step hs) (Shown.init store)
  rcases visit_of_leads R (h.user t) pathname with ⟨hloader, hloading⟩ | hpage
  · exact Or.inr ⟨hloader, fun c hc hover => h.waiting t c hloading hc hover⟩
  · exact Or.inl hpage

/-- The paths of `App`, but for the one with a parameter. -/
def browserRouter : Router where
  matchRoutes := fun pathname => List.lookup pathname [("/", .dashboard), ("/login", .login),
    ("/signup", .signup), ("/patents", .patents), ("/profile", .profile),
    ("/design-system", .designSystem), ("/users", .users), ("/404", .notFound)]
  root := rfl
  login := by decide
  notFound := by decide

/-- An administrator. -/
def ada : Profile := ⟨⟨"1", "Ada", "ada@example.org", .admin, "", ""⟩, none⟩

/-- Ada has been here before. -/
def returning : List Act :=
  [.start 0, .answer 0 (.response 200) 0, .body 0 (.json (.success none))].map fun a => ⟨a, ada⟩

theorem returning_runs :
    (exec (step id hydrations fun _ => false) (init (some aSession)) returning).isSome = true := by
  decide

/-- The tab of a user who has come back to a valid session. -/
def signedIn : State :=
  (exec (step id hydrations fun _ => false) (init (some aSession)) returning).get returning_runs

theorem screen_of_returning :
    (∃ p, visit browserRouter (signedIn.auth 0) 1 "/users" = some (.page p) ∧
        p.admits (signedIn.auth 0)) ∨
      visit browserRouter (signedIn.auth 0) 1 "/users" = some .fullPageLoader ∧
        ∀ c, Hydration id hydrations 0 c → Over signedIn.browser c →
          signedIn.browser.aborted c = true :=
  screen_of_run browserRouter (Run.exec_get returning_runs) 0 "/users"

end Shown

end SmartPatents.AuthContext
