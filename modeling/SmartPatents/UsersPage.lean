/-
  `frontend/src/pages/users/UsersPage.tsx`: the directory of the accounts.

  The page keeps a page number, a search text and a role; the text goes through `useDebounced`, and
  page, debounced text and role are the dependencies of a `useAsync` that lists the accounts.  A
  handler sees what the last render has seen, so a click on page 3 may be about a list that the new
  filters do not have; a render sees the state of the moment; an effect sees the render it belongs to.
  Meanwhile accounts come and change (`commit`), and answers come back in any order.

  Once all this has come to rest (`Idle`), without an error, the table shows the page of the accounts
  that the filters ask for, counted and listed after the latest request was sent (`shows_of_run`).
  And it does come to rest: after what the user has done, few requests follow (`requests_le_of_run`).

  The property is about a page at rest.  Before that a list may be the answer to an older request,
  and `shows_of_run` leaves these cases to `loading` and `error`.  The invariant (`Inv`) joins
  that of `useAsync` (`Tracks`), that of the debounce (`CaughtUp`), and what the requests of the
  page ask for; `since` collects the states the table has been in since the latest request was
  sent, because the count and the rows of the answer are read at two moments among them.

  `requests_le_of_run` is by a measure: what is due to the page itself after the last action of
  the user (`View.pending`).
-/
import SmartPatents.Pagination
import SmartPatents.UseAsync
import SmartPatents.UsersRoute

namespace SmartPatents.UsersPage

open Access ApiClient Directory Pagination Reads Runs UseAsync UsersRoute

variable {V : Type}

/-! ## State -/

/-- The `limit` the page asks for. -/
def pageSize : Nat := 10

/-- `[page, debouncedSearch, role]`. -/
abbrev Deps := Nat × String × Option Role

/-- The parameters that the function of a render calls `listUsers` with. -/
def params (deps : Deps) : ListUsersParams where
  page := some deps.1
  limit := some pageSize
  role := deps.2.2
  search := truthy (some (trim deps.2.1))

/-- What a render has seen. -/
structure Screen where
  page : Nat
  search : String
  role : Option Role
  debouncedSearch : String
  list : AsyncState (Page Account)
deriving DecidableEq

/-- The state of the component and of its hooks, and next to it the table on the server. -/
structure View where
  page : Nat
  search : String
  role : Option Role
  debounced : Debounced String
  hook : Hook ListUsersParams Deps (Page Account)
  /-- The last render. -/
  screen : Option Screen
  /-- The table of the accounts. -/
  users : Accounts
  /-- What it has been since the latest request was sent. -/
  since : List Accounts

/-- The page has been opened and has not rendered yet. -/
def View.init (users : Accounts) : View where
  page := 1
  search := ""
  role := none
  debounced := Debounced.init ""
  hook := Hook.init
  screen := none
  users := users
  since := [users]

/-! ## Rendering -/

/-- What a render draws, read from the state of the moment. -/
def View.render (v : View) : Screen where
  page := v.page
  search := v.search
  role := v.role
  debouncedSearch := v.debounced.debounced
  list := v.hook.state

/-- The dependencies of `useAsync` at a render. -/
def Screen.deps (s : Screen) : Deps := (s.page, s.debouncedSearch, s.role)

/-- `data?.total ?? 0`. -/
def Screen.total (s : Screen) : Nat := (s.list.data.map Page.total).getD 0

/-- `data?.totalPages ?? 1`. -/
def Screen.totalPages (s : Screen) : Nat := (s.list.data.map Page.totalPages).getD 1

/-- `data?.items ?? []`, the rows of the table. -/
def Screen.rows (s : Screen) : List Account := (s.list.data.map Page.items).getD []

/-- `hasFilters`: there is something for "Clear filters" to clear. -/
def Screen.hasFilters (s : Screen) : Bool :=
  (truthy (some (trim s.debouncedSearch))).isSome || s.role.isSome

/-- "Clear filters" stands in an empty table. -/
def Screen.offersClear (s : Screen) : Bool :=
  s.list.error.isNone && !s.list.loading && s.rows.isEmpty && s.hasFilters

/-- The pages that can be gone to. -/
def Screen.targets (s : Screen) : List Nat :=
  if s.list.error.isNone && !s.list.loading && decide (0 < s.total) then
    Pagination.targets s.page s.totalPages
  else []

/-! ## Steps -/

/-- What can happen to the page. A handler can run only once something is on the screen. -/
inductive Act
  | type (text : String)
  | choose (role : Option Role)
  | clear
  | goTo (page : Nat)
  /-- "Try again", or the modal has created an administrator. -/
  | refetch
  | render
  | effects
  /-- `StrictMode` runs the effects once more. -/
  | rerun
  /-- The timeout of `useDebounced` ends. -/
  | fire
  | settle (i : Nat) (outcome : Outcome (Page Account))
  /-- Anybody changes the accounts. -/
  | commit (users : Accounts)
  | unmount

/-- The effect of `useDebounced`, if the text has changed. -/
def View.watch (v : View) (s : Screen) : Debounced String :=
  if v.debounced.watched = some s.search then v.debounced else v.debounced.runEffect s.search

/-- The effect of `useDebounced` is due. -/
def View.unwatched (v : View) : Bool :=
  match v.screen with
  | none => false
  | some s => v.debounced.watched != some s.search

/-- One action; `none` where it is not possible. -/
def View.step (v : View) : Act → Option View
  | .type text =>
    if v.hook.mounted && v.screen.isSome then some { v with search := text, page := 1 } else none
  | .choose role =>
    if v.hook.mounted && v.screen.isSome then some { v with role := role, page := 1 } else none
  | .clear =>
    if v.hook.mounted && v.screen.any Screen.offersClear then
      some { v with search := "", role := none, page := 1 }
    else none
  | .goTo page =>
    if v.hook.mounted && v.screen.any (fun s => page ∈ s.targets) then
      some { v with page := page }
    else none
  | .refetch => (v.hook.step .refetch).map fun h => { v with hook := h }
  | .render =>
    if v.unwatched then none
    else
      (v.hook.step (.render (params v.render.deps) v.render.deps)).map fun h =>
        { v with hook := h, screen := some v.render }
  | .effects =>
    match v.screen, v.hook.step .effect with
    | none, _ => none
    | some s, some h => some { v with debounced := v.watch s, hook := h, since := [v.users] }
    | some s, none =>
      if v.hook.mounted && v.unwatched then some { v with debounced := v.watch s } else none
  | .rerun =>
    match v.screen, v.hook.step .rerun with
    | some s, some h =>
      some { v with debounced := v.debounced.runEffect s.search, hook := h, since := [v.users] }
    | _, _ => none
  | .fire => v.debounced.fire.map fun d => { v with debounced := d }
  | .settle i outcome => (v.hook.step (.settle i outcome)).map fun h => { v with hook := h }
  | .commit users => some { v with users := users, since := users :: v.since }
  | .unmount =>
    (v.hook.step .unmount).map fun h =>
      { v with hook := h, debounced := { v.debounced with timer := none } }

/-- As many accounts as a double can count. -/
def Few (users : Accounts) : Prop := users.rows.length ≤ 2 ^ 53

/-- The latest request is answered by the server, with what the table has been since; that it fails,
    and what becomes of the others, is left open. -/
def Honest (lib : Library V) (contains : String → String → Bool) (v : View) : Act → Prop
  | .settle 0 (.ok answer) => ∀ r ∈ v.hook.requests.head?, ∃ counted ∈ v.since,
      ∃ listed ∈ v.since, Responds lib contains counted listed (queryString r.fn) answer
  | .commit users => Few users
  | _ => True

/-! ## What the filters ask for -/

/-- What the dependencies of a request mean. -/
def filters (deps : Deps) : UserFilters := ⟨deps.2.2, some (trim deps.2.1)⟩

/-- A page whose rows doubles can count. -/
def Small (page : Nat) : Prop := 1 ≤ page ∧ (page - 1) * pageSize ≤ 2 ^ 53 - 1

theorem small_one : Small 1 := ⟨Nat.le_refl 1, by decide⟩

section Filters

variable {lib : Library V} {contains : String → String → Bool} {counted listed : Accounts}
  {deps : Deps} {answer : Page Account}

/-- The page asks for numbers that the chains admit. -/
theorem asks_params (h : Small deps.1) : Asks (params deps) := by
  constructor
  · intro n hn
    obtain rfl := Option.some.inj hn
    exact h.1
  · intro n hn
    obtain rfl := Option.some.inj hn
    decide
  · exact h.2

/-- The client trims the text, the server does it again, and an empty text is no filter for either. -/
theorem matchingUsers_params (contains : String → String → Bool) (users : Accounts) (deps : Deps) :
    matchingUsers contains ⟨(params deps).role, (truthy (params deps).search).map trim⟩ users =
      matchingUsers contains (filters deps) users := by
  have hsearch : truthy ((truthy (params deps).search).map trim) =
      truthy (some (trim deps.2.1)) := by
    simp only [params]
    by_cases hempty : trim deps.2.1 = ""
    · rw [hempty]
      rfl
    · have hkeep : truthy (some (trim deps.2.1)) = some (trim deps.2.1) := by
        simp [truthy, Option.filter_some, hempty]
      rw [hkeep, hkeep, Option.map_some, trim_trim, hkeep]
  have hwhere : userWhere contains ⟨(params deps).role, (truthy (params deps).search).map trim⟩ =
      userWhere contains (filters deps) := by
    funext u
    unfold userWhere
    rw [hsearch]
    rfl
  rw [matchingUsers, matchingUsers, hwhere]

/-- The server answers the request of a render with the page of its accounts. -/
theorem lists_of_responds (hsmall : Small deps.1)
    (h : Responds lib contains counted listed (queryString (params deps)) answer) :
    Lists contains (filters deps) counted listed deps.1 pageSize answer := by
  obtain ⟨⟨sorted, harrangement, hitems⟩, htotal, hpage, hlimit, hpages⟩ :=
    (answers_of_responds (asks_params hsmall) h).2
  rw [matchingUsers_params] at harrangement htotal
  exact ⟨⟨sorted, harrangement, hitems⟩, htotal, hpage, hlimit, hpages⟩

/-- Few accounts make few pages. -/
theorem small_totalPages (hfew : Few counted)
    (h : Lists contains (filters deps) counted listed deps.1 pageSize answer) :
    Small answer.totalPages := by
  have htotal : answer.total ≤ 2 ^ 53 := by
    rw [h.total]
    exact Nat.le_trans (List.length_filter_le _ _) hfew
  have hpages : answer.totalPages = totalPages answer.total 10 := h.totalPages_eq
  unfold Small
  rw [hpages, totalPages, pageSize]
  by_cases hnone : (answer.total + 10 - 1) / 10 = 0
  · rw [if_pos hnone]
    omega
  · rw [if_neg hnone]
    omega

end Filters

/-! ## The invariant -/

/-- Everything on the page belongs to a request of the page. -/
structure Inv (contains : String → String → Bool) (v : View) : Prop where
  tracks : Tracks v.hook
  caughtUp : v.hook.mounted = true → v.debounced.CaughtUp
  few : ∀ users ∈ v.users :: v.since, Few users
  page : Small v.page
  screen : ∀ s ∈ v.screen, Small s.page ∧ ∀ d ∈ s.list.data, Small d.totalPages
  data : ∀ d ∈ v.hook.state.data, Small d.totalPages
  rendered : v.hook.rendered.map (fun r => (r.fn, r.deps.1)) =
    v.screen.map fun s => (params s.deps, s.deps)
  sent : ∀ r ∈ v.hook.requests.head?, r.fn = params r.deps.1 ∧ Small r.deps.1.1
  served : ∀ r ∈ v.hook.requests.head?, ∀ answer, r.settled = some (.ok answer) →
    ∃ counted ∈ v.since, ∃ listed ∈ v.since,
      Lists contains (filters r.deps.1) counted listed r.deps.1.1 pageSize answer

section Inv

variable {lib : Library V} {contains : String → String → Bool} {v v' : View}
  {h' : Hook ListUsersParams Deps (Page Account)}

theorem inv_init {users : Accounts} (hfew : Few users) : Inv contains (View.init users) where
  tracks := tracks_init
  caughtUp := fun _ => caughtUp_init _
  few := by
    intro u hu
    have : u = users := by simpa [View.init] using hu
    exact this ▸ hfew
  page := small_one
  screen := fun _ hs => absurd hs (Option.not_mem_none _)
  data := fun _ hd => absurd hd (Option.not_mem_none _)
  rendered := rfl
  sent := fun _ hr => absurd hr (Option.not_mem_none _)
  served := fun _ hr => absurd hr (Option.not_mem_none _)

/-- The handlers of the filters. -/
theorem Inv.filter (h : Inv contains v) (search : String) (role : Option Role) {page : Nat}
    (hpage : Small page) : Inv contains { v with search := search, role := role, page := page } :=
  ⟨h.tracks, h.caughtUp, h.few, hpage, h.screen, h.data, h.rendered, h.sent, h.served⟩

/-- A click is about the list that was there, and leads to a page that it has. -/
theorem Inv.small_target (h : Inv contains v) {s : Screen} (hs : v.screen = some s) {page : Nat}
    (hpage : page ∈ s.targets) : Small page := by
  obtain ⟨hcurrent, htotal⟩ := h.screen s hs
  unfold Screen.targets at hpage
  split at hpage
  · obtain ⟨hpos, hle⟩ := target_bounds hpage
    have hlast : Small s.totalPages := by
      unfold Screen.totalPages
      cases hdata : s.list.data with
      | none => exact small_one
      | some d => exact htotal d hdata
    refine ⟨hpos, ?_⟩
    rcases hle with hle | hlt
    · exact Nat.le_trans (Nat.mul_le_mul_right _ (Nat.sub_le_sub_right hle 1)) hlast.2
    · exact Nat.le_trans (Nat.mul_le_mul_right _ (Nat.sub_le_sub_right (Nat.le_of_lt hlt) 1))
        hcurrent.2
  · exact absurd hpage List.not_mem_nil

/-- The text that `useDebounced` has seen. -/
theorem Inv.debounce (h : Inv contains v) {d : Debounced String}
    (hd : v.hook.mounted = true → d.CaughtUp) : Inv contains { v with debounced := d } :=
  ⟨h.tracks, hd, h.few, h.page, h.screen, h.data, h.rendered, h.sent, h.served⟩

/-- A text that is watched will be caught up with. -/
theorem Inv.caughtUp_watch (h : Inv contains v) (s : Screen) (hmounted : v.hook.mounted = true) :
    (v.watch s).CaughtUp := by
  unfold View.watch
  split
  · exact h.caughtUp hmounted
  · exact caughtUp_runEffect _ _

/-- A render draws the state of the moment. -/
theorem Inv.render (h : Inv contains v)
    (hs : v.hook.step (.render (params v.render.deps) v.render.deps) = some h') :
    Inv contains { v with hook := h', screen := some v.render } := by
  have htracks := h.tracks.step hs
  obtain ⟨-, rfl⟩ := step_render hs
  refine ⟨htracks, h.caughtUp, h.few, h.page, ?_, h.data, rfl, h.sent, h.served⟩
  intro s hs
  obtain rfl := Option.some.inj hs
  exact ⟨h.page, h.data⟩

/-- A request is sent, for the list as it stands on the screen. -/
theorem Inv.send (h : Inv contains v) (htracks : Tracks (v.hook.runEffect r))
    (hr : v.hook.rendered = some r) :
    Inv contains { v with hook := v.hook.runEffect r, since := [v.users] } := by
  have hrendered := h.rendered
  rw [hr, Option.map_some] at hrendered
  obtain ⟨s, hs, hsame⟩ := Option.map_eq_some_iff.mp hrendered.symm
  obtain ⟨hfn, hdeps⟩ := Prod.mk.inj hsame
  refine ⟨htracks, h.caughtUp, ?_, h.page, h.screen, h.data, h.rendered, ?_, ?_⟩
  · intro users husers
    have : users = v.users := by simpa using husers
    exact h.few users (this ▸ List.mem_cons_self)
  · intro request hrequest
    obtain rfl := Option.some.inj hrequest
    refine ⟨?_, ?_⟩
    · show r.fn = params r.deps.1
      rw [← hfn, ← hdeps]
    · show Small r.deps.1.1
      rw [← hdeps]
      exact (h.screen s hs).1
  · intro request hrequest answer hanswer
    obtain rfl := Option.some.inj hrequest
    exact absurd hanswer.symm (Option.some_ne_none _)

/-- The latest request settles, with what the server says or with an error. -/
theorem Inv.settle_latest (h : Inv contains v) {outcome : Outcome (Page Account)}
    (hhonest : Honest lib contains v (.settle 0 outcome))
    (hs : v.hook.step (.settle 0 outcome) = some h') : Inv contains { v with hook := h' } := by
  have htracks := h.tracks.step hs
  obtain ⟨r, hr, -, rfl⟩ := step_settle hs
  have hhead : v.hook.requests.head? = some r := List.head?_eq_getElem? ▸ hr
  obtain ⟨rest, hrequests⟩ := List.head?_eq_some_iff.mp hhead
  obtain ⟨hfn, hsmall⟩ := h.sent r hhead
  -- an answer of the server is about the filters of the request
  have hanswer : ∀ answer, outcome = .ok answer → ∃ counted ∈ v.since, ∃ listed ∈ v.since,
      Lists contains (filters r.deps.1) counted listed r.deps.1.1 pageSize answer := by
    rintro answer rfl
    obtain ⟨counted, hcounted, listed, hlisted, hresponds⟩ := hhonest r hhead
    rw [hfn] at hresponds
    exact ⟨counted, hcounted, listed, hlisted, lists_of_responds hsmall hresponds⟩
  refine ⟨htracks, h.caughtUp, h.few, h.page, h.screen, ?_, h.rendered, ?_, ?_⟩
  · intro d hd
    have hdata : v.hook.state.data = some d ∨ outcome = .ok d := by
      cases outcome with
      | ok answer =>
        cases haborted : r.aborted with
        | true => exact Or.inl (by simpa [onSettled, onResolved, haborted] using hd)
        | false =>
          have : answer = d := by simpa [onSettled, onResolved, haborted] using hd
          exact Or.inr (congrArg Except.ok this)
      | error err =>
        refine Or.inl ?_
        cases haborted : r.aborted <;> cases err <;>
          simpa [onSettled, onRejected, shownError, haborted] using hd
    rcases hdata with hdata | houtcome
    · exact h.data d hdata
    · obtain ⟨counted, hcounted, listed, -, hlists⟩ := hanswer d houtcome
      exact small_totalPages (h.few counted (List.mem_cons_of_mem _ hcounted)) hlists
  · intro request hrequest
    rw [hrequests] at hrequest
    obtain rfl := Option.some.inj hrequest
    exact ⟨hfn, hsmall⟩
  · intro request hrequest answer hsettled
    rw [hrequests] at hrequest
    obtain rfl := Option.some.inj hrequest
    exact hanswer answer (Option.some.inj hsettled)

/-- Any other request has been aborted. -/
theorem Inv.settle_earlier (h : Inv contains v) {i : Nat} {outcome : Outcome (Page Account)}
    (hs : v.hook.step (.settle (i + 1) outcome) = some h') :
    Inv contains { v with hook := h' } := by
  have htracks := h.tracks.step hs
  obtain ⟨r, hr, -, rfl⟩ := step_settle hs
  have haborted : r.aborted = true := by
    refine h.tracks.earlier r (List.mem_of_getElem? (i := i) ?_)
    rwa [List.getElem?_tail]
  have hhead : ∀ r' : AsyncRequest ListUsersParams Deps (Page Account),
      (v.hook.requests.set (i + 1) r').head? = v.hook.requests.head? := by
    intro r'
    cases v.hook.requests <;> rfl
  refine ⟨htracks, h.caughtUp, h.few, h.page, h.screen, ?_, h.rendered, ?_, ?_⟩
  · intro d hd
    rw [haborted, onSettled_aborted] at hd
    exact h.data d hd
  · intro request hrequest
    exact h.sent request (hhead _ ▸ hrequest)
  · intro request hrequest
    exact h.served request (hhead _ ▸ hrequest)

/-- A refetch makes an effect due. -/
theorem Inv.refetch (h : Inv contains v) (hs : v.hook.step .refetch = some h') :
    Inv contains { v with hook := h' } := by
  have htracks := h.tracks.step hs
  rw [step_refetch hs] at htracks ⊢
  exact ⟨htracks, h.caughtUp, h.few, h.page, h.screen, h.data, h.rendered, h.sent, h.served⟩

/-- Accounts come and change. -/
theorem Inv.commit (h : Inv contains v) {users : Accounts} (hfew : Few users) :
    Inv contains { v with users := users, since := users :: v.since } := by
  refine ⟨h.tracks, h.caughtUp, ?_, h.page, h.screen, h.data, h.rendered, h.sent, ?_⟩
  · intro u hu
    rcases List.mem_cons.mp hu with rfl | hu
    · exact hfew
    · rcases List.mem_cons.mp hu with rfl | hu
      · exact hfew
      · exact h.few u (List.mem_cons_of_mem _ hu)
  · intro request hrequest answer hsettled
    obtain ⟨counted, hcounted, listed, hlisted, hlists⟩ := h.served request hrequest answer hsettled
    exact ⟨counted, List.mem_cons_of_mem _ hcounted, listed, List.mem_cons_of_mem _ hlisted, hlists⟩

/-- An unmounted page keeps what it has. -/
theorem Inv.unmount (h : Inv contains v) (hs : v.hook.step .unmount = some h') :
    Inv contains { v with hook := h', debounced := { v.debounced with timer := none } } := by
  have htracks := h.tracks.step hs
  rw [step_unmount hs] at htracks ⊢
  have hback : ∀ r ∈ (cleanup v.hook.requests).head?, ∃ r' ∈ v.hook.requests.head?,
      r'.fn = r.fn ∧ r'.deps = r.deps ∧ r'.settled = r.settled := by
    intro r hr
    cases hrequests : v.hook.requests with
    | nil =>
      rw [hrequests] at hr
      exact absurd hr (Option.not_mem_none _)
    | cons first rest =>
      rw [hrequests] at hr
      obtain rfl := Option.some.inj hr
      exact ⟨first, rfl, rfl, rfl, rfl⟩
  refine ⟨htracks, ?_, h.few, h.page, h.screen, h.data, h.rendered, ?_, ?_⟩
  · intro hmounted
    exact absurd hmounted Bool.false_ne_true
  · intro request hrequest
    obtain ⟨r, hr, hfn, hdeps, -⟩ := hback request hrequest
    rw [← hfn, ← hdeps]
    exact h.sent r hr
  · intro request hrequest answer hsettled
    obtain ⟨r, hr, -, hdeps, hsame⟩ := hback request hrequest
    rw [← hdeps]
    exact h.served r hr answer (hsame.trans hsettled)

/-- **Step lemma.** -/
theorem Inv.step (h : Inv contains v) {a : Act} (hhonest : Honest lib contains v a)
    (hs : v.step a = some v') : Inv contains v' := by
  cases a with
  | type text =>
    obtain ⟨-, hs⟩ := Option.ite_none_right_eq_some.mp hs
    obtain rfl := Option.some.inj hs
    exact h.filter text v.role small_one
  | choose role =>
    obtain ⟨-, hs⟩ := Option.ite_none_right_eq_some.mp hs
    obtain rfl := Option.some.inj hs
    exact h.filter v.search role small_one
  | clear =>
    obtain ⟨-, hs⟩ := Option.ite_none_right_eq_some.mp hs
    obtain rfl := Option.some.inj hs
    exact h.filter "" none small_one
  | goTo page =>
    obtain ⟨hguard, hs⟩ := Option.ite_none_right_eq_some.mp hs
    obtain rfl := Option.some.inj hs
    obtain ⟨s, hscreen, htarget⟩ :=
      (Option.any_eq_true _ _).mp (Bool.and_eq_true_iff.mp hguard).2
    exact h.filter v.search v.role (h.small_target hscreen (of_decide_eq_true htarget))
  | refetch =>
    obtain ⟨hook, hook_step, rfl⟩ := Option.map_eq_some_iff.mp hs
    exact h.refetch hook_step
  | render =>
    obtain ⟨-, hs⟩ := Option.ite_none_left_eq_some.mp hs
    obtain ⟨hook, hook_step, rfl⟩ := Option.map_eq_some_iff.mp hs
    exact h.render hook_step
  | effects =>
    simp only [View.step] at hs
    split at hs
    · exact absurd hs.symm (Option.some_ne_none _)
    · rename_i s hook hscreen hook_step
      obtain rfl := Option.some.inj hs
      have htracks := h.tracks.step hook_step
      obtain ⟨⟨hmounted, -⟩, r, hr, rfl⟩ := step_effect hook_step
      exact (h.debounce fun _ => h.caughtUp_watch s hmounted).send htracks hr
    · rename_i s hscreen hnone
      obtain ⟨-, hs⟩ := Option.ite_none_right_eq_some.mp hs
      obtain rfl := Option.some.inj hs
      exact h.debounce fun hmounted => h.caughtUp_watch s hmounted
  | rerun =>
    simp only [View.step] at hs
    split at hs
    · rename_i s hook hscreen hook_step
      obtain rfl := Option.some.inj hs
      have htracks := h.tracks.step hook_step
      obtain ⟨-, r, hr, rfl⟩ := step_rerun hook_step
      exact (h.debounce fun _ => caughtUp_runEffect _ _).send htracks hr
    · exact absurd hs.symm (Option.some_ne_none _)
  | fire =>
    obtain ⟨d, hfire, rfl⟩ := Option.map_eq_some_iff.mp hs
    exact h.debounce fun hmounted => caughtUp_fire (h.caughtUp hmounted) hfire
  | settle i outcome =>
    obtain ⟨hook, hook_step, rfl⟩ := Option.map_eq_some_iff.mp hs
    cases i with
    | zero => exact h.settle_latest hhonest hook_step
    | succ i => exact h.settle_earlier hook_step
  | commit users =>
    obtain rfl := Option.some.inj hs
    exact h.commit hhonest
  | unmount =>
    obtain ⟨hook, hook_step, rfl⟩ := Option.map_eq_some_iff.mp hs
    exact h.unmount hook_step

end Inv

/-! ## How many requests are sent -/

/-- What happens without the user. -/
def Act.Own : Act → Prop
  | .render | .effects | .fire | .settle _ _ | .commit _ => True
  | _ => False

/-- `useDebounced` has not seen the text. -/
def View.unseen (v : View) : Bool := v.debounced.watched != some v.search

/-- It is about to see another one. -/
def View.outdated (v : View) : Bool := v.unwatched && v.screen.map Screen.search != some v.search

/-- The last render has had other dependencies. -/
def View.changed (v : View) : Bool :=
  v.hook.rendered.map Render.deps != some (v.render.deps, v.hook.nonce)

/-- The texts that `useDebounced` has still to see. -/
def View.texts (v : View) : Nat := if v.outdated then 2 else v.unseen.toNat

/-- The requests that can still come of what the user has done: of a text through the timeout, of
    the timeout through a change of the dependencies, and of that through an effect. -/
def View.pending (v : View) : Nat :=
  v.texts + v.debounced.timer.isSome.toNat + v.changed.toNat + v.hook.due.toNat

/-- At most five more steps of the page itself are due. -/
theorem pending_le (v : View) : v.pending ≤ 5 := by
  have htexts : v.texts ≤ 2 := by
    unfold View.texts
    split
    · exact Nat.le_refl 2
    · exact Nat.le_succ_of_le v.unseen.toNat_le
  have htimer := v.debounced.timer.isSome.toNat_le
  have hchanged := v.changed.toNat_le
  have hdue := v.hook.due.toNat_le
  unfold View.pending
  omega

section Pending

variable {v v' : View} {h' : Hook ListUsersParams Deps (Page Account)}

theorem outdated_of_screen {s : Screen} (hscreen : v.screen = some s) :
    v.outdated = (v.debounced.watched != some s.search && some s.search != some v.search) := by
  simp [View.outdated, View.unwatched, hscreen]

/-- A render makes the effect due that its dependencies call for. -/
theorem pending_render (hs : v.hook.step (.render (params v.render.deps) v.render.deps) = some h')
    (hv : v' = { v with hook := h', screen := some v.render }) : v'.pending ≤ v.pending := by
  obtain ⟨⟨-, hdone⟩, rfl⟩ := step_render hs
  have htexts : v'.texts ≤ v.texts := by
    have houtdated : v'.outdated = false := by
      rw [outdated_of_screen (s := v.render) (by rw [hv]), hv]
      simp [View.render]
    have hunseen : v'.unseen = v.unseen := by
      rw [hv]
      rfl
    rw [View.texts, View.texts, houtdated, hunseen, if_neg Bool.false_ne_true]
    split
    · exact Nat.le_succ_of_le v.unseen.toNat_le
    · exact Nat.le_refl _
  have hchanged : v'.changed = false := by
    rw [hv]
    simp [View.changed, View.render, Screen.deps]
  have hdue : v'.hook.due = v.changed := by
    rw [hv, Bool.eq_iff_iff]
    simp [View.changed]
  have htimer : v'.debounced = v.debounced := by rw [hv]
  unfold View.pending
  rw [hchanged, hdue, htimer, hdone, Bool.toNat_false]
  omega

/-- The effect of `useDebounced` sets a timeout for what it has not seen. -/
theorem pending_watch {s : Screen} (hscreen : v.screen = some s)
    (hv : v' = { v with debounced := v.watch s }) : v'.pending ≤ v.pending := by
  by_cases hseen : v.debounced.watched = some s.search
  · have hsame : v' = v := by
      rw [hv, View.watch, if_pos hseen]
    rw [hsame]
  · have hwatch : v' = { v with debounced := v.debounced.runEffect s.search } := by
      rw [hv, View.watch, if_neg hseen]
    have htexts : v'.texts + 1 ≤ v.texts := by
      have houtdated : v'.outdated = false := by
        rw [outdated_of_screen (s := s) (by rw [hv, hscreen]), hwatch]
        simp [Debounced.runEffect]
      have hunseen : v'.unseen = (some s.search != some v.search) := by
        rw [hwatch]
        rfl
      rw [View.texts, View.texts, houtdated, hunseen, if_neg Bool.false_ne_true,
        outdated_of_screen hscreen]
      by_cases hcurrent : s.search = v.search
      · have hnew : v.unseen = true := by
          rw [View.unseen, ← hcurrent]
          simpa using hseen
        simp [hcurrent, hnew]
      · have hold : (v.debounced.watched != some s.search && some s.search != some v.search) =
            true := by
          simp [hcurrent, hseen]
        rw [if_pos hold]
        exact Nat.succ_le_succ (Bool.toNat_le _)
    have hrest : v'.debounced.timer.isSome = true ∧ v'.changed = v.changed ∧ v'.hook = v.hook := by
      rw [hwatch]
      exact ⟨rfl, rfl, rfl⟩
    unfold View.pending
    rw [hrest.1, hrest.2.1, hrest.2.2, Bool.toNat_true]
    omega

/-- The other effect sends a request. -/
theorem pending_send {r : Render ListUsersParams Deps} (hdue : v.hook.due = true)
    (hv : v' = { v with hook := v.hook.runEffect r, since := [v.users] }) :
    v'.pending + 1 = v.pending := by
  have hdue' : v'.hook.due = false := by
    rw [hv]
    rfl
  have hsame : v'.texts = v.texts ∧ v'.debounced = v.debounced ∧ v'.changed = v.changed := by
    rw [hv]
    exact ⟨rfl, rfl, rfl⟩
  unfold View.pending
  rw [hdue, hdue', hsame.1, hsame.2.1, hsame.2.2]
  rfl

/-- The timeout makes no more of them. -/
theorem pending_fire {d : Debounced String} (hfire : v.debounced.fire = some d)
    (hv : v' = { v with debounced := d }) : v'.pending ≤ v.pending := by
  obtain ⟨value, hvalue, rfl⟩ := Option.map_eq_some_iff.mp hfire
  have htimer : v.debounced.timer.isSome = true := by rw [hvalue]; rfl
  have htimer' : v'.debounced.timer.isSome = false := by rw [hv]; rfl
  have hsame : v'.texts = v.texts ∧ v'.hook = v.hook := by
    rw [hv]
    exact ⟨rfl, rfl⟩
  have hchanged : v'.changed.toNat ≤ 1 := Bool.toNat_le _
  unfold View.pending
  rw [htimer, htimer', hsame.1, hsame.2, Bool.toNat_false, Bool.toNat_true]
  omega

/-- **Step lemma.** -/
theorem sent_add_pending_le {a : Act} (hown : a.Own) (hs : v.step a = some v') :
    v'.hook.requests.length + v'.pending ≤ v.hook.requests.length + v.pending := by
  cases a with
  | render =>
    obtain ⟨-, hs⟩ := Option.ite_none_left_eq_some.mp hs
    obtain ⟨hook, hook_step, rfl⟩ := Option.map_eq_some_iff.mp hs
    have hpending := pending_render hook_step rfl
    have hrequests : hook.requests = v.hook.requests := by
      rw [(step_render hook_step).2]
    rw [hrequests]
    exact Nat.add_le_add_left hpending _
  | effects =>
    simp only [View.step] at hs
    split at hs
    · exact absurd hs.symm (Option.some_ne_none _)
    · rename_i s hook hscreen hook_step
      obtain rfl := Option.some.inj hs
      obtain ⟨⟨-, hdue⟩, r, -, rfl⟩ := step_effect hook_step
      have hwatch : View.pending { v with debounced := v.watch s } ≤ v.pending :=
        pending_watch hscreen rfl
      have hsend : View.pending { v with
          debounced := v.watch s, hook := v.hook.runEffect r, since := [v.users] } + 1 =
            View.pending { v with debounced := v.watch s } := pending_send hdue rfl
      have hlength : (v.hook.runEffect r).requests.length = v.hook.requests.length + 1 :=
        congrArg (· + 1) (length_cleanup v.hook.requests)
      rw [hlength]
      omega
    · rename_i s hscreen hnone
      obtain ⟨-, hs⟩ := Option.ite_none_right_eq_some.mp hs
      obtain rfl := Option.some.inj hs
      exact Nat.add_le_add_left (pending_watch hscreen rfl) _
  | fire =>
    obtain ⟨d, hfire, rfl⟩ := Option.map_eq_some_iff.mp hs
    exact Nat.add_le_add_left (pending_fire hfire rfl) _
  | settle i outcome =>
    obtain ⟨hook, hook_step, rfl⟩ := Option.map_eq_some_iff.mp hs
    obtain ⟨r, -, -, rfl⟩ := step_settle hook_step
    show (v.hook.requests.set i _).length + v.pending ≤ _
    rw [List.length_set]
  | commit users =>
    obtain rfl := Option.some.inj hs
    exact Nat.le_refl _
  | _ => exact absurd hown not_false

/-- **The page does not ask and ask.**  However often it renders, and whatever comes back: after what
    the user has done, at most five requests are sent until the user does something again. -/
theorem requests_le_of_run (hrun : Run View.step (fun _ a => a.Own) v v') :
    v'.hook.requests.length ≤ v.hook.requests.length + 5 := by
  have hsent := hrun.invariant
    (I := fun u => u.hook.requests.length + u.pending ≤ v.hook.requests.length + v.pending)
    (fun _ _ _ h hown hs => Nat.le_trans (sent_add_pending_le hown hs) h) (Nat.le_refl _)
  have hpending := pending_le v
  omega

end Pending

/-! ## At rest -/

/-- The last render shows the page as it is, its effects have run, and the text is not waiting. -/
structure Idle (v : View) : Prop where
  mounted : v.hook.mounted = true
  rendered : v.screen = some v.render
  sent : v.hook.due = false
  watched : v.unwatched = false
  timer : v.debounced.timer = none

section Idle

variable {lib : Library V} {contains : String → String → Bool} {users : Accounts} {v : View}

/-- In every honest run. -/
theorem inv_of_run (hfew : Few users)
    (hrun : Run View.step (Honest lib contains) (View.init users) v) : Inv contains v :=
  hrun.invariant (fun _ _ _ h hhonest hs => h.step hhonest hs) (inv_init hfew)

/-- At rest the debounced text is the text. -/
theorem Idle.debounced (hidle : Idle v) (hcaughtUp : v.debounced.CaughtUp) :
    v.debounced.debounced = v.search := by
  have hwatched := hidle.watched
  rw [View.unwatched, hidle.rendered] at hwatched
  have hwatched' : v.debounced.watched = some v.search := by simpa [View.render] using hwatched
  rcases hcaughtUp v.search hwatched' with htimer | ⟨-, hsame⟩
  · exact absurd (htimer.symm.trans hidle.timer) (Option.some_ne_none _)
  · exact hsame

/-- **The directory shows what is asked for.**  Whatever has been typed and clicked, and whatever the
    network has done: at rest the page is loading, or shows an error, or shows the page of the accounts
    that the filters ask for, counted and listed after the latest request. -/
theorem shows_of_run (hfew : Few users)
    (hrun : Run View.step (Honest lib contains) (View.init users) v) (hidle : Idle v) :
    v.hook.state.loading = true ∨ v.hook.state.error.isSome = true ∨
      ∃ answer, v.hook.state = ⟨some answer, none, false⟩ ∧ ∃ counted ∈ v.since,
        ∃ listed ∈ v.since,
          Lists contains ⟨v.role, some (trim v.search)⟩ counted listed v.page pageSize answer := by
  have h := inv_of_run hfew hrun
  have hsearch := hidle.debounced (h.caughtUp hidle.mounted)
  have hdeps : v.render.deps = (v.page, v.search, v.role) := by
    rw [Screen.deps, View.render, hsearch]
  -- the last render is the one that the latest request belongs to
  have hrendered := h.rendered
  rw [hidle.rendered, Option.map_some] at hrendered
  obtain ⟨render, hrender, hsame⟩ := Option.map_eq_some_iff.mp hrendered
  have hrender' : render.deps.1 = v.render.deps := (Prod.mk.inj hsame).2
  obtain ⟨r, hr, hrdeps⟩ := h.tracks.current hidle.mounted hidle.sent render hrender
  have hfilters : r.deps.1 = (v.page, v.search, v.role) := by rw [hrdeps, hrender', hdeps]
  have hshows := (h.tracks.latest hidle.mounted r hr).2
  cases hsettled : r.settled with
  | none =>
    rw [hsettled] at hshows
    exact Or.inl hshows.1
  | some outcome =>
    rw [hsettled] at hshows
    cases outcome with
    | ok answer =>
      obtain ⟨counted, hcounted, listed, hlisted, hlists⟩ := h.served r hr answer hsettled
      rw [hfilters] at hlists
      exact Or.inr (Or.inr ⟨answer, hshows, counted, hcounted, listed, hlisted, hlists⟩)
    | error err =>
      cases err with
      | abortError => exact Or.inl hshows.1
      | api status code message =>
        refine Or.inr (Or.inl ?_)
        rw [hshows.2]
        rfl
      | typeError =>
        refine Or.inr (Or.inl ?_)
        rw [hshows.2]
        rfl

end Idle

/-! ## Typing a name -/

section Typing

/-- The page opens, and the user types a name and picks a role. -/
def typing : List Act := [.render, .effects, .type " Ada & Co. ", .choose (some .admin)]

theorem typing_runs : (exec View.step (View.init adaAndBob) typing).isSome = true := by
  decide +kernel

/-- The state after `typing`. -/
def asked : View := (exec View.step (View.init adaAndBob) typing).get typing_runs

/-- The list of everybody comes back when only an administrator called Ada is asked for. -/
def waiting : List Act :=
  [.render, .effects, .fire, .render, .effects, .settle 2 (.ok ⟨[bob, ada], 2, 1, 10, 1⟩)]

theorem waiting_runs : (exec View.step asked waiting).isSome = true := by
  decide +kernel

/-- The debounce has passed, and the list that the filters ask for has been requested. -/
def typed : View := (exec View.step asked waiting).get waiting_runs

/-- One request has been sent before, and two come of the typing. -/
theorem requests_le_of_typed :
    asked.hook.requests.length = 1 ∧ typed.hook.requests.length = 3 ∧
      typed.hook.requests.length ≤ asked.hook.requests.length + 5 := by
  have hrun : Run View.step (fun _ a => a.Own) asked typed :=
    Run.of_exec_ok (by simp [waiting, Act.Own]) (Option.some_get waiting_runs).symm
  exact ⟨by decide +kernel, by decide +kernel, requests_le_of_run hrun⟩

/-- What the server answers to the last request. -/
def answering : Act := .settle 0 (.ok ⟨[ada], 1, 1, 10, 1⟩)

theorem typed_step : (typed.step answering).isSome = true := by
  decide +kernel

/-- Its answer has arrived and is not drawn yet. -/
def settled : View := (typed.step answering).get typed_step

theorem settled_step : (settled.step .render).isSome = true := by
  decide +kernel

/-- The table shows it. -/
def answered : View := (settled.step .render).get settled_step

theorem request_typed : typed.hook.requests.head?.map AsyncRequest.fn =
    some (params (1, " Ada & Co. ", some .admin)) := by
  decide +kernel

/-- No account has changed since the request was sent. -/
theorem since_typed : typed.since.map Table.rows = [[ada, bob]] := by
  decide +kernel

/-- The answer is the one that the server gives. -/
theorem honest_answering : Honest plainLibrary (· == ·) typed answering := by
  intro r hr
  have hfn : r.fn = params (1, " Ada & Co. ", some .admin) := by
    have := request_typed
    rw [Option.mem_def.mp hr] at this
    exact Option.some.inj this
  have hrows : [ada, bob] ∈ typed.since.map Table.rows := since_typed ▸ List.mem_cons_self
  obtain ⟨users, husers, hrows⟩ := List.mem_map.mp hrows
  have hlength : ∀ s ∈ truthy (params (1, " Ada & Co. ", some .admin)).search,
      plainLibrary.isLength 1 255 (trim s) = true := by
    decide +kernel
  have hanswer : Answers newestUser
      (matchingUsers (· == ·) ⟨(params (1, " Ada & Co. ", some .admin)).role,
        (truthy (params (1, " Ada & Co. ", some .admin)).search).map trim⟩ users) 1 pageSize
      ⟨[ada], 1, 1, 10, 1⟩ := by
    rw [matchingUsers_params, matchingUsers, hrows]
    exact ⟨[ada], ⟨by decide +kernel, by decide⟩, rfl⟩
  rw [hfn]
  exact ⟨users, husers, users, husers,
    responds_of_answers (asks_params small_one) hlength (lists_self.mpr hanswer)⟩

theorem run_answered :
    Run View.step (Honest plainLibrary (· == ·)) (View.init adaAndBob) answered := by
  have hasked : Run View.step (Honest plainLibrary (· == ·)) (View.init adaAndBob) asked :=
    Run.of_exec_ok (by simp [typing, Honest]) (Option.some_get typing_runs).symm
  have htyped : Run View.step (Honest plainLibrary (· == ·)) asked typed :=
    Run.of_exec_ok (by simp [waiting, Honest]) (Option.some_get waiting_runs).symm
  have hsettled : Run View.step (Honest plainLibrary (· == ·)) (View.init adaAndBob) settled :=
    Run.tail (hasked.trans htyped) honest_answering (Option.some_get typed_step).symm
  have hrender : Honest plainLibrary (· == ·) settled .render := trivial
  exact Run.tail hsettled hrender (Option.some_get settled_step).symm

/-- Everything has come to rest. -/
theorem idle_answered : Idle answered where
  mounted := by decide +kernel
  rendered := by decide +kernel
  sent := by decide +kernel
  watched := by decide +kernel
  timer := by decide +kernel

/-- The table shows Ada. -/
theorem shows_of_typing : answered.hook.state.loading = true ∨
    answered.hook.state.error.isSome = true ∨
      ∃ answer, answered.hook.state = ⟨some answer, none, false⟩ ∧ ∃ counted ∈ answered.since,
        ∃ listed ∈ answered.since,
          Lists (· == ·) ⟨answered.role, some (trim answered.search)⟩ counted listed answered.page
            pageSize answer := by
  have hfew : Few adaAndBob := by
    rw [Few]
    decide
  exact shows_of_run hfew run_answered idle_answered

example : answered.hook.state = ⟨some ⟨[ada], 1, 1, 10, 1⟩, none, false⟩ := by
  decide +kernel

end Typing

end SmartPatents.UsersPage
