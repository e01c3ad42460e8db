/-
  `useAsync` and `useDebounced` (`frontend/src/hooks/useAsync.ts`).

  A component renders; its effects run when the render has been committed, and before it renders
  again; promises settle whenever they like.  So a hook is a machine with five kinds of steps: a
  render (with the function and the dependencies of the moment), the effect that the render has made
  due, the callback of a request that has settled, a `refetch`, and the unmounting.  `StrictMode` may
  clean up and run an effect once more.

      render → effect → fn(signal) → then / catch → setState
                  └ cleanup: controller.abort() of the effect before

  Requests are numbered backwards: the first of the list is the latest.  Every other one has been
  aborted, so what a request settles with is shown only as long as no later one has been sent,
  whatever the order in which they come back.

  ## What is shown

  The three fields of the state do not belong to one request.

  1. `loading` and `error` are reset by every effect, and belong to the latest request: `Shows` says
     what they are before it settles and after (`Tracks`, an invariant of every run).

  2. `data` is not reset.  It stays while the next request is under way, and beside its error, until a
     request that is still the latest answers with data (`Answered`, `data_of_step`).

  `shown_of_run` states both.  A component that reads `data` beside an error therefore shows what
  belongs to dependencies that it no longer has (`afterError`).

  ## `useDebounced`

  The last section has the debounced value: without a timeout under way it is the value that the hook
  was rendered with last.
-/
import SmartPatents.ApiClient

namespace SmartPatents.UseAsync

open ApiClient Runs

/-! ## State -/

/-- `AsyncState`: what the hook hands to the component. -/
structure AsyncState (T : Type) where
  data : Option T
  error : Option ClientError
  loading : Bool
deriving DecidableEq

/-- What a promise settles with. -/
abbrev Outcome (T : Type) := Except ClientError T

/-- A request of an effect, with the dependencies of the effect and its abort controller. -/
structure AsyncRequest (F D T : Type) where
  fn : F
  deps : D × Nat
  aborted : Bool
  settled : Option (Outcome T)

/-- A render: the function and, with the nonce, the dependencies of the effect. -/
structure Render (F D : Type) where
  fn : F
  deps : D × Nat

/-- A mounted hook, with every request that its effects have sent. -/
structure Hook (F D T : Type) where
  state : AsyncState T
  nonce : Nat
  /-- The last render. -/
  rendered : Option (Render F D)
  /-- The last render has changed the dependencies, and the effect has not run yet. -/
  due : Bool
  mounted : Bool
  /-- The latest first. -/
  requests : List (AsyncRequest F D T)

variable {F D T : Type}

/-- Before the first render. -/
def Hook.init : Hook F D T where
  state := ⟨none, none, true⟩
  nonce := 0
  rendered := none
  due := false
  mounted := true
  requests := []

/-! ## The callbacks -/

/-- `new ApiClientError(0, 'UNKNOWN', 'Something went wrong.')`. -/
def unknownError : ClientError := .api 0 "UNKNOWN" "Something went wrong."

/-- The error that a rejection is shown as; that of an abort is not shown. -/
def shownError : ClientError → Option ClientError
  | .abortError => none
  | .api status code message => some (.api status code message)
  | .typeError => some unknownError

/-- The callback of `then`. -/
def onResolved (aborted : Bool) (data : T) (s : AsyncState T) : AsyncState T :=
  if !aborted then ⟨some data, none, false⟩ else s

/-- The callback of `catch`. -/
def onRejected (aborted : Bool) (err : ClientError) (s : AsyncState T) : AsyncState T :=
  match aborted, shownError err with
  | true, _ | _, none => s
  | false, some error => { s with error := some error, loading := false }

/-- Either callback, with what the signal says when it runs. -/
def onSettled (aborted : Bool) (outcome : Outcome T) (s : AsyncState T) : AsyncState T :=
  match outcome with
  | .ok data => onResolved aborted data s
  | .error err => onRejected aborted err s

/-! ## Steps -/

/-- `controller.abort()` of the latest effect. -/
def cleanup : List (AsyncRequest F D T) → List (AsyncRequest F D T)
  | [] => []
  | r :: rs => { r with aborted := true } :: rs

/-- The effect: it cleans up after the one before, and sends a request. -/
def Hook.runEffect (h : Hook F D T) (render : Render F D) : Hook F D T :=
  { h with
    state := { h.state with loading := true, error := none }
    due := false
    requests := ⟨render.fn, render.deps, false, none⟩ :: cleanup h.requests }

/-- What can happen to a hook. -/
inductive Act (F D T : Type)
  | render (fn : F) (deps : D)
  | effect
  /-- `StrictMode` cleans up, and runs the effect again. -/
  | rerun
  /-- The callback of the `i`-th request runs. -/
  | settle (i : Nat) (outcome : Outcome T)
  | refetch
  | unmount

/-- One step.  An effect is due when the dependencies of a render differ from those before. -/
def Hook.step [DecidableEq D] (h : Hook F D T) : Act F D T → Option (Hook F D T)
  | .render fn deps =>
    -- effects run before the next render
    if h.mounted && !h.due then
      some
        { h with
          rendered := some ⟨fn, (deps, h.nonce)⟩
          due := h.rendered.map Render.deps != some (deps, h.nonce) }
    else none
  | .effect => if h.mounted && h.due then h.rendered.map h.runEffect else none
  | .rerun => if h.mounted && !h.due then h.rendered.map h.runEffect else none
  | .settle i outcome =>
    match h.requests[i]? with
    | none => none
    | some r =>
      if r.settled.isSome then none
      else
        some
          { h with
            state := onSettled r.aborted outcome h.state
            requests := h.requests.set i { r with settled := some outcome } }
  | .refetch => if h.mounted then some { h with nonce := h.nonce + 1 } else none
  | .unmount =>
    if h.mounted then some { h with mounted := false, requests := cleanup h.requests } else none

/-! ## What is shown -/

/-- The state that belongs to a request that has, or has not, settled.  Data of an earlier request may
    stand beside it until this one answers with its own. -/
def Shows (s : AsyncState T) : Option (Outcome T) → Prop
  | none | some (.error .abortError) => s.loading = true ∧ s.error = none
  | some (.ok data) => s = ⟨some data, none, false⟩
  | some (.error err) => s.loading = false ∧ s.error = shownError err

/-- The latest request is the only one that has not been aborted, and what is shown is its. -/
structure Tracks (h : Hook F D T) : Prop where
  earlier : ∀ r ∈ h.requests.tail, r.aborted = true
  latest : h.mounted = true → ∀ r ∈ h.requests.head?, r.aborted = false ∧ Shows h.state r.settled
  /-- Unless the effect is due, the latest request is that of the last render. -/
  current : h.mounted = true → h.due = false → ∀ render ∈ h.rendered,
    ∃ r ∈ h.requests.head?, r.deps = render.deps
  unmounted : h.mounted = false → ∀ r ∈ h.requests, r.aborted = true

/-- The data shown is what a request of this hook was answered with. -/
def Answered (h : Hook F D T) : Prop :=
  ∀ data ∈ h.state.data, ∃ r ∈ h.requests, r.settled = some (.ok data)

/-- The step is the answer of the latest request, which is shown from then on. -/
def ShowsAnswer (h : Hook F D T) (a : Act F D T) (h' : Hook F D T) : Prop :=
  ∃ r rest data, h.requests = r :: rest ∧ r.aborted = false ∧ a = .settle 0 (.ok data) ∧
    h'.state = ⟨some data, none, false⟩

section Tracks

variable {h h' : Hook F D T}

theorem tracks_init : Tracks (Hook.init : Hook F D T) :=
  ⟨fun _ hr => absurd hr List.not_mem_nil, fun _ _ hr => absurd hr (Option.not_mem_none _),
    fun _ _ _ hr => absurd hr (Option.not_mem_none _), fun _ _ hr => absurd hr List.not_mem_nil⟩

/-- Behind a cleanup every request is aborted. -/
theorem aborted_of_cleanup {rs : List (AsyncRequest F D T)}
    (hrs : ∀ r ∈ rs.tail, r.aborted = true) : ∀ r ∈ cleanup rs, r.aborted = true := by
  cases rs with
  | nil => exact hrs
  | cons r rs =>
    intro r' hr'
    rcases List.mem_cons.mp hr' with rfl | hr'
    · rfl
    · exact hrs r' hr'

theorem length_cleanup (rs : List (AsyncRequest F D T)) : (cleanup rs).length = rs.length := by
  cases rs <;> rfl

/-- An effect aborts what was sent before and sends its own. -/
theorem tracks_runEffect (htracks : Tracks h) (hmounted : h.mounted = true) {render : Render F D}
    (hrender : h.rendered = some render) : Tracks (h.runEffect render) where
  earlier := aborted_of_cleanup htracks.earlier
  latest := by
    intro _ r hr
    obtain rfl := Option.some.inj hr
    exact ⟨rfl, rfl, rfl⟩
  current := by
    intro _ _ render' hrender'
    obtain rfl := Option.some.inj (hrender.symm.trans hrender')
    exact ⟨_, rfl, rfl⟩
  unmounted := fun hnot => absurd (hmounted.symm.trans hnot) (by decide)

/-- What an aborted request settles with is not shown. -/
theorem onSettled_aborted (outcome : Outcome T) (s : AsyncState T) :
    onSettled true outcome s = s := by
  cases outcome with
  | ok data => rfl
  | error err => cases err <;> rfl

/-- What any other request settles with is. -/
theorem shows_onSettled (outcome : Outcome T) {s : AsyncState T} (hs : Shows s none) :
    Shows (onSettled false outcome s) (some outcome) := by
  cases outcome with
  | ok data => rfl
  | error err =>
    cases err with
    | api status code message => exact ⟨rfl, rfl⟩
    | abortError => exact hs
    | typeError => exact ⟨rfl, rfl⟩

/-- Any request may settle, and only the latest is shown. -/
theorem tracks_settle (htracks : Tracks h) {i : Nat} {r : AsyncRequest F D T}
    (hr : h.requests[i]? = some r) (hnew : r.settled = none) (outcome : Outcome T) :
    Tracks { h with
      state := onSettled r.aborted outcome h.state
      requests := h.requests.set i { r with settled := some outcome } } := by
  cases hrequests : h.requests with
  | nil =>
    rw [hrequests] at hr
    nomatch hr
  | cons first rest =>
    rw [hrequests] at hr
    have hearlier : ∀ r ∈ rest, r.aborted = true := by
      have hearlier := htracks.earlier
      rwa [hrequests] at hearlier
    cases i with
    | zero =>
      obtain rfl : first = r := Option.some.inj hr
      refine ⟨hearlier, fun hmounted r' hr' => ?_, fun hmounted hdue render hrender => ?_,
        fun hnot r' hr' => ?_⟩
      · obtain rfl := Option.some.inj hr'
        have hlatest := htracks.latest hmounted first (by rw [hrequests]; rfl)
        refine ⟨hlatest.1, ?_⟩
        rw [hlatest.1]
        exact shows_onSettled outcome (hnew ▸ hlatest.2)
      · obtain ⟨r', hr', hdeps⟩ := htracks.current hmounted hdue render hrender
        rw [hrequests] at hr'
        obtain rfl := Option.some.inj hr'
        exact ⟨_, rfl, hdeps⟩
      · have hall := htracks.unmounted hnot
        rw [hrequests] at hall
        rcases List.mem_cons.mp hr' with rfl | hr'
        · exact hall first List.mem_cons_self
        · exact hall r' (List.mem_cons_of_mem _ hr')
    | succ i =>
      have haborted : r.aborted = true := hearlier r (List.mem_of_getElem? hr)
      rw [haborted, onSettled_aborted]
      have hset : ∀ r' ∈ rest.set i ⟨r.fn, r.deps, true, some outcome⟩, r'.aborted = true := by
        intro r' hr'
        rcases List.mem_or_eq_of_mem_set hr' with hr' | rfl
        · exact hearlier r' hr'
        · rfl
      refine ⟨hset, fun hmounted r' hr' => ?_, fun hmounted hdue render hrender => ?_,
        fun hnot r' hr' => ?_⟩
      · exact htracks.latest hmounted r' (by rw [hrequests]; exact hr')
      · obtain ⟨r', hr', hdeps⟩ := htracks.current hmounted hdue render hrender
        exact ⟨r', by rw [hrequests] at hr'; exact hr', hdeps⟩
      · rcases List.mem_cons.mp hr' with rfl | hr'
        · exact htracks.unmounted hnot r' (by rw [hrequests]; exact List.mem_cons_self)
        · exact hset r' hr'

/-- A cleanup forgets no answer. -/
theorem exists_mem_cleanup {rs : List (AsyncRequest F D T)} {outcome : Outcome T}
    (h : ∃ r ∈ rs, r.settled = some outcome) : ∃ r ∈ cleanup rs, r.settled = some outcome := by
  obtain ⟨r, hr, hsettled⟩ := h
  cases rs with
  | nil => exact absurd hr List.not_mem_nil
  | cons first rest =>
    rcases List.mem_cons.mp hr with rfl | hr
    · exact ⟨_, List.mem_cons_self, hsettled⟩
    · exact ⟨r, List.mem_cons_of_mem _ hr, hsettled⟩

/-- A settled request stays settled when another one settles. -/
theorem exists_mem_set {rs : List (AsyncRequest F D T)} {i : Nat} {r r' : AsyncRequest F D T}
    {outcome : Outcome T} (hr : rs[i]? = some r) (hnew : r.settled = none)
    (h : ∃ q ∈ rs, q.settled = some outcome) : ∃ q ∈ rs.set i r', q.settled = some outcome := by
  obtain ⟨q, hq, hsettled⟩ := h
  obtain ⟨j, hj⟩ := List.mem_iff_getElem?.mp hq
  have hne : i ≠ j := by
    rintro rfl
    obtain rfl := Option.some.inj (hr.symm.trans hj)
    rw [hnew] at hsettled
    cases hsettled
  exact ⟨q, List.mem_iff_getElem?.mpr ⟨j, by rw [List.getElem?_set_ne hne]; exact hj⟩, hsettled⟩

/-- An effect runs for the render it belongs to. -/
theorem runEffect_of_guard {c : Bool}
    (hs : (if h.mounted && c then h.rendered.map h.runEffect else none) = some h') :
    (h.mounted = true ∧ c = true) ∧
      ∃ render, h.rendered = some render ∧ h' = h.runEffect render := by
  obtain ⟨henabled, hs⟩ := Option.ite_none_right_eq_some.mp hs
  obtain ⟨render, hrender, rfl⟩ := Option.map_eq_some_iff.mp hs
  exact ⟨Bool.and_eq_true_iff.mp henabled, render, hrender, rfl⟩

variable [DecidableEq D]

/-- What a render does. -/
theorem step_render {fn : F} {deps : D} (hs : h.step (.render fn deps) = some h') :
    (h.mounted = true ∧ h.due = false) ∧
      h' = { h with
        rendered := some ⟨fn, (deps, h.nonce)⟩
        due := h.rendered.map Render.deps != some (deps, h.nonce) } := by
  obtain ⟨henabled, hs⟩ := Option.ite_none_right_eq_some.mp hs
  exact ⟨by simpa using henabled, (Option.some.inj hs).symm⟩

theorem step_effect (hs : h.step .effect = some h') : (h.mounted = true ∧ h.due = true) ∧
    ∃ render, h.rendered = some render ∧ h' = h.runEffect render :=
  runEffect_of_guard hs

theorem step_rerun (hs : h.step .rerun = some h') : (h.mounted = true ∧ (!h.due) = true) ∧
    ∃ render, h.rendered = some render ∧ h' = h.runEffect render :=
  runEffect_of_guard hs

/-- What an answer does: its request settles, and the state changes unless it was aborted. -/
theorem step_settle {i : Nat} {outcome : Outcome T} (hs : h.step (.settle i outcome) = some h') :
    ∃ r, h.requests[i]? = some r ∧ r.settled = none ∧
      h' = { h with
        state := onSettled r.aborted outcome h.state
        requests := h.requests.set i { r with settled := some outcome } } := by
  simp only [Hook.step] at hs
  split at hs
  · exact absurd hs.symm (Option.some_ne_none _)
  · rename_i r hr
    split at hs
    · exact absurd hs.symm (Option.some_ne_none _)
    · rename_i hnew
      exact ⟨r, hr, by simpa using hnew, (Option.some.inj hs).symm⟩

theorem step_refetch (hs : h.step .refetch = some h') : h' = { h with nonce := h.nonce + 1 } :=
  (Option.some.inj (Option.ite_none_right_eq_some.mp hs).2).symm

theorem step_unmount (hs : h.step .unmount = some h') :
    h' = { h with mounted := false, requests := cleanup h.requests } :=
  (Option.some.inj (Option.ite_none_right_eq_some.mp hs).2).symm

/-- **Step lemma.** -/
theorem Tracks.step (htracks : Tracks h) {a : Act F D T} (hs : h.step a = some h') :
    Tracks h' := by
  cases a with
  | render fn deps =>
    obtain ⟨⟨-, hdone⟩, rfl⟩ := step_render hs
    refine ⟨htracks.earlier, htracks.latest, ?_, htracks.unmounted⟩
    intro hmounted hdue render hrender
    obtain rfl := Option.some.inj hrender
    have hsame : h.rendered.map Render.deps = some (deps, h.nonce) := by simpa using hdue
    obtain ⟨before, hbefore, hdeps⟩ := Option.map_eq_some_iff.mp hsame
    obtain ⟨r, hr, hr'⟩ := htracks.current hmounted hdone before hbefore
    exact ⟨r, hr, hr'.trans hdeps⟩
  | effect =>
    obtain ⟨⟨hmounted, -⟩, render, hrender, rfl⟩ := step_effect hs
    exact tracks_runEffect htracks hmounted hrender
  | rerun =>
    obtain ⟨⟨hmounted, -⟩, render, hrender, rfl⟩ := step_rerun hs
    exact tracks_runEffect htracks hmounted hrender
  | settle i outcome =>
    obtain ⟨r, hr, hnew, rfl⟩ := step_settle hs
    exact tracks_settle htracks hr hnew outcome
  | refetch =>
    rw [step_refetch hs]
    exact ⟨htracks.earlier, htracks.latest, htracks.current, htracks.unmounted⟩
  | unmount =>
    rw [step_unmount hs]
    have hall := aborted_of_cleanup htracks.earlier
    constructor
    · intro r hr
      exact hall r (List.mem_of_mem_tail hr)
    · intro hnot
      exact absurd hnot Bool.false_ne_true
    · intro hnot
      exact absurd hnot Bool.false_ne_true
    · intro _
      exact hall

/-- In every run the state is that of the latest request. -/
theorem tracks_of_run (hrun : Run Hook.step always (Hook.init : Hook F D T) h) : Tracks h :=
  hrun.invariant (fun _ _ _ htracks _ hs => htracks.step hs) tracks_init

/-! ### Data -/

/-- A rejection leaves the data alone. -/
theorem data_onSettled_error (aborted : Bool) (err : ClientError) (s : AsyncState T) :
    (onSettled aborted (.error err) s).data = s.data := by
  cases aborted <;> cases err <;> rfl

/-- The data changes when the latest request is answered, and at no other step. -/
theorem data_of_step (htracks : Tracks h) {a : Act F D T} (hs : h.step a = some h') :
    h'.state.data = h.state.data ∨ ShowsAnswer h a h' := by
  cases a with
  | render fn deps =>
    obtain ⟨-, rfl⟩ := step_render hs
    exact Or.inl rfl
  | effect =>
    obtain ⟨-, render, -, rfl⟩ := step_effect hs
    exact Or.inl rfl
  | rerun =>
    obtain ⟨-, render, -, rfl⟩ := step_rerun hs
    exact Or.inl rfl
  | settle i outcome =>
    obtain ⟨r, hr, -, rfl⟩ := step_settle hs
    cases outcome with
    | error err => exact Or.inl (data_onSettled_error _ _ _)
    | ok data =>
      cases haborted : r.aborted with
      | true => exact Or.inl (congrArg AsyncState.data (onSettled_aborted (.ok data) h.state))
      | false =>
        cases hrequests : h.requests with
        | nil =>
          rw [hrequests] at hr
          cases hr
        | cons first rest =>
          rw [hrequests] at hr
          cases i with
          | zero =>
            obtain rfl := Option.some.inj hr
            exact Or.inr ⟨first, rest, data, hrequests, haborted, rfl, rfl⟩
          -- an earlier request has been aborted
          | succ i =>
            have hearlier := htracks.earlier
            rw [hrequests] at hearlier
            rw [hearlier r (List.mem_of_getElem? hr)] at haborted
            cases haborted
  | refetch =>
    rw [step_refetch hs]
    exact Or.inl rfl
  | unmount =>
    rw [step_unmount hs]
    exact Or.inl rfl

/-- **Step lemma.** Data are the answer of a request that was sent. -/
theorem Answered.step (hanswered : Answered h) {a : Act F D T} (hs : h.step a = some h') :
    Answered h' := by
  intro data hdata
  cases a with
  | render fn deps =>
    obtain ⟨-, rfl⟩ := step_render hs
    exact hanswered data hdata
  | effect =>
    obtain ⟨-, render, -, rfl⟩ := step_effect hs
    obtain ⟨r, hr, hsettled⟩ := exists_mem_cleanup (hanswered data hdata)
    exact ⟨r, List.mem_cons_of_mem _ hr, hsettled⟩
  | rerun =>
    obtain ⟨-, render, -, rfl⟩ := step_rerun hs
    obtain ⟨r, hr, hsettled⟩ := exists_mem_cleanup (hanswered data hdata)
    exact ⟨r, List.mem_cons_of_mem _ hr, hsettled⟩
  | settle i outcome =>
    obtain ⟨r, hr, hnew, rfl⟩ := step_settle hs
    have hkept : h.state.data = some data → ∃ q ∈ h.requests.set i
        { r with settled := some outcome }, q.settled = some (.ok data) :=
      fun hbefore => exists_mem_set hr hnew (hanswered data hbefore)
    cases outcome with
    | error err => exact hkept ((data_onSettled_error _ _ _).symm.trans hdata)
    | ok answer =>
      cases haborted : r.aborted with
      | true =>
        simp only [haborted, onSettled_aborted] at hdata
        exact haborted ▸ hkept hdata
      | false =>
        simp only [haborted] at hdata
        obtain rfl := Option.some.inj hdata
        have hlt : i < h.requests.length := (List.getElem?_eq_some_iff.mp hr).1
        exact ⟨_, List.mem_iff_getElem?.mpr ⟨i, List.getElem?_set_self hlt⟩, rfl⟩
  | refetch =>
    rw [step_refetch hs] at hdata ⊢
    exact hanswered data hdata
  | unmount =>
    rw [step_unmount hs] at hdata ⊢
    exact exists_mem_cleanup (hanswered data hdata)

/-- In every run. -/
theorem answered_of_run (hrun : Run Hook.step always (Hook.init : Hook F D T) h) : Answered h :=
  hrun.invariant (I := Answered) (fun _ _ _ hanswered _ hs => hanswered.step hs)
    fun _ hdata => absurd hdata (Option.not_mem_none _)

/-- **What is shown.**  Once the effect of the last render has run, `loading` and `error` are those of
    the request for its dependencies, and its data is shown if it has answered; every other request
    has been aborted.  Data is always an answer, and it is replaced by an answer of the latest request
    and by nothing else. -/
theorem shown_of_run (hrun : Run Hook.step always (Hook.init : Hook F D T) h) :
    (h.mounted = true → h.due = false → ∀ render ∈ h.rendered,
      ∃ r rest, h.requests = r :: rest ∧ r.deps = render.deps ∧ Shows h.state r.settled ∧
        ∀ r' ∈ rest, r'.aborted = true) ∧
    Answered h ∧
    ∀ a h', h.step a = some h' → h'.state.data = h.state.data ∨ ShowsAnswer h a h' := by
  have htracks := tracks_of_run hrun
  refine ⟨fun hmounted hdue render hrender => ?_, answered_of_run hrun,
    fun a h' hs => data_of_step htracks hs⟩
  obtain ⟨r, hr, hdeps⟩ := htracks.current hmounted hdue render hrender
  obtain ⟨rest, hrequests⟩ := List.head?_eq_some_iff.mp hr
  have hearlier := htracks.earlier
  rw [hrequests] at hearlier
  exact ⟨r, rest, hrequests, hdeps, (htracks.latest hmounted r hr).2, hearlier⟩

end Tracks

/-! ## A slow answer -/

section Slow

/-- The dependencies change from 1 to 2 while the answer to 1 is under way, and it comes last. -/
def slowFirst : List (Act Nat Nat String) :=
  [.render 1 1, .effect, .render 2 2, .effect, .settle 0 (.ok "two"), .settle 1 (.ok "one")]

/-- They change to 3, and there is no such resource. -/
def thenMissing : List (Act Nat Nat String) :=
  [.render 3 3, .effect, .settle 0 (.error (.api 404 "NOT_FOUND" "User not found"))]

theorem slowFirst_runs :
    (exec Hook.step (Hook.init : Hook Nat Nat String) slowFirst).isSome = true := by
  decide

theorem thenMissing_runs :
    (exec Hook.step (Hook.init : Hook Nat Nat String) (slowFirst ++ thenMissing)).isSome = true := by
  decide

/-- The state after `slowFirst`. -/
def afterSlow : Hook Nat Nat String := (exec Hook.step Hook.init slowFirst).get slowFirst_runs

/-- The request after that has failed, and the data of the one before are still there. -/
def afterError : Hook Nat Nat String :=
  (exec Hook.step Hook.init (slowFirst ++ thenMissing)).get thenMissing_runs

/-- The late answer is not shown. -/
example : afterSlow.state = ⟨some "two", none, false⟩ := by decide

/-- The error is that of the latest request, and the data beside it is not. -/
theorem shown_of_slowFirst :
    afterError.state = ⟨some "two", some (.api 404 "NOT_FOUND" "User not found"), false⟩ ∧
      (∃ r rest, afterError.requests = r :: rest ∧ r.deps = (3, 0) ∧
        Shows afterError.state r.settled ∧ ∀ r' ∈ rest, r'.aborted = true) ∧
      Answered afterError := by
  have hrender : afterError.rendered = some ⟨3, (3, 0)⟩ := rfl
  obtain ⟨hlatest, hanswered, -⟩ := shown_of_run (Run.exec_get thenMissing_runs)
  exact ⟨by decide, hlatest rfl rfl _ hrender, hanswered⟩

end Slow

/-! ## `useDebounced` -/

/-- The state of the hook, the value that its timeout is going to set, and the value that its effect
    has run with last. -/
structure Debounced (V : Type) where
  debounced : V
  timer : Option V
  watched : Option V

variable {V : Type}

/-- The first value is shown at once, and no timeout is set. -/
def Debounced.init (value : V) : Debounced V := ⟨value, none, none⟩

/-- The effect clears the timeout of the one before, and sets its own. -/
def Debounced.runEffect (d : Debounced V) (value : V) : Debounced V :=
  { d with timer := some value, watched := some value }

/-- The timeout ends. -/
def Debounced.fire (d : Debounced V) : Option (Debounced V) :=
  d.timer.map fun value => { d with debounced := value, timer := none }

/-- Without a timeout the hook has caught up with the value of its last effect. -/
def Debounced.CaughtUp (d : Debounced V) : Prop :=
  ∀ value ∈ d.watched, d.timer = some value ∨ d.timer = none ∧ d.debounced = value

theorem caughtUp_init (value : V) : (Debounced.init value).CaughtUp :=
  fun _ h => absurd h (Option.not_mem_none _)

/-- An effect sets the timeout that will catch up. -/
theorem caughtUp_runEffect (d : Debounced V) (value : V) : (d.runEffect value).CaughtUp := by
  intro value' hvalue
  obtain rfl := Option.some.inj hvalue
  exact Or.inl rfl

theorem caughtUp_fire {d d' : Debounced V} (h : d.CaughtUp) (hs : d.fire = some d') :
    d'.CaughtUp := by
  obtain ⟨value, hvalue, rfl⟩ := Option.map_eq_some_iff.mp hs
  intro value' hvalue'
  rcases h value' hvalue' with htimer | ⟨htimer, -⟩
  · exact Or.inr ⟨rfl, Option.some.inj (hvalue.symm.trans htimer)⟩
  · rw [hvalue] at htimer
    nomatch htimer

end SmartPatents.UseAsync
