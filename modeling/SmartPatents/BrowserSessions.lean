/-
  A browser and the server.

  The tabs of one browser (`ApiClient`) and the session requests of the server (`UserService`), in
  one state.  Every fetch that the server answers through `userService.js` is a process of the
  session machine: the refresh `r`, the first fetch of a call `c`, its second fetch; the remaining
  processes are everybody else's.

    * a process runs when its fetch has been sent, and with the request that was sent; the browser
      may have given it up long ago (`awaits`, `arrives`);
    * tokens come to the browser in the reply of the process that has issued them, and a logout is
      answered 2xx when its process is done (`replies`).  What fails may fail in any way.

  `Delivered` tokens are those that a fetch has brought.  The store holds no others
  (`Wired.stored`).

  The browser moves by its own rules and the server by its own; an action that brings an answer to
  the browser is possible only if the server's process has given it.  A fetch that fails tells the
  browser nothing about its process, which may have run, may be running, or may run later.  So
  everything that is proved of the browser alone, or of the server alone, holds of the two
  together (`server_of_run`).

  `opening` and `rotation` are the pieces that the runs of the modules above this one are made of:
  `HonestBrowser` and `LoggedOut`.
-/
import SmartPatents.TokenSessions
import SmartPatents.IssuedTokens

namespace SmartPatents.BrowserSessions

open Runs ReadCommitted ApiClient

/-! ## Fetches and processes -/

/-- What a process of the server works for. -/
inductive Origin
  | refresh (r : Nat)
  | call (c : Nat)
  | retry (c : Nat)
  | other (n : Nat)
deriving DecidableEq

/-- Which request of the browser a process of the server is; the numbers leave room for others. -/
def origin (p : Nat) : Origin :=
  match p % 4 with
  | 0 => .refresh (p / 4)
  | 1 => .call (p / 4)
  | 2 => .retry (p / 4)
  | _ => .other (p / 4)

/-- The process that serves a request. -/
def Origin.process : Origin → Nat
  | .refresh r => 4 * r
  | .call c => 4 * c + 1
  | .retry c => 4 * c + 2
  | .other n => 4 * n + 3

/-- A process is found again from the request it serves. -/
@[simp] theorem origin_process (k : Origin) : origin k.process = k := by
  cases k with
  | refresh r =>
    have hmod : 4 * r % 4 = 0 := by omega
    have hdiv : 4 * r / 4 = r := by omega
    simp only [origin, Origin.process, hmod, hdiv]
  | call c =>
    have hmod : (4 * c + 1) % 4 = 1 := by omega
    have hdiv : (4 * c + 1) / 4 = c := by omega
    simp only [origin, Origin.process, hmod, hdiv]
  | retry c =>
    have hmod : (4 * c + 2) % 4 = 2 := by omega
    have hdiv : (4 * c + 2) / 4 = c := by omega
    simp only [origin, Origin.process, hmod, hdiv]
  | other n =>
    have hmod : (4 * n + 3) % 4 = 3 := by omega
    have hdiv : (4 * n + 3) / 4 = n := by omega
    simp only [origin, Origin.process, hmod, hdiv]

theorem process_origin (p : Nat) : (origin p).process = p := by
  unfold origin
  split
  · show 4 * (p / 4) = p
    omega
  · show 4 * (p / 4) + 1 = p
    omega
  · show 4 * (p / 4) + 2 = p
    omega
  · rename_i h₀ h₁ h₂
    have h₀ : p % 4 ≠ 0 := h₀
    have h₁ : p % 4 ≠ 1 := h₁
    have h₂ : p % 4 ≠ 2 := h₂
    show 4 * (p / 4) + 3 = p
    omega

/-! ## The composition -/

/-- The browser and the server, and which fetches have been made. -/
structure System where
  browser : Browser
  server : State UserService.Db UserService.Ext UserService.Write UserService.Loc
  /-- The fetches of the past. -/
  sent : Nat → Bool
  /-- The refresh token that a logout has found in the store.  A ghost. -/
  captured : Nat → Option String

/-- A step of the browser, or one of the server. -/
inductive Act
  | client (a : Action)
  | server (a : ReadCommitted.Act UserService.Oracle Empty)

section Code

variable (h : UserService.Helpers) (tab : Nat → Nat) (calls : Nat → Call)
  (reqs : Nat → UserService.Request)

/-- The browser waits for process `p`, and has sent it this request. -/
def awaits (β : Browser) (p : Nat) (request : UserService.Request) : Bool :=
  match origin p with
  | .refresh r =>
    match β.refresh r, request with
    | .sent token, .refresh token' => token = token'
    | _, _ => false
  | .call c =>
    match calls c, β.call c, request with
    | .login, .fetching _ _, .login .. | .signup, .fetching _ _, .signup .. => true
    | .logout, .fetching (some caller) body, .logout caller' body' => caller = caller' && body = body'
    | _, _, _ => false
  | .retry c =>
    match calls c, β.call c, request with
    | .logout, .retrying caller body, .logout caller' body' => caller = caller' && body = body'
    | _, _, _ => false
  | .other _ => true

/-- A request may reach the server, soon or late. -/
def arrives (σ : System) (p : Nat) : Bool := awaits calls σ.browser p (reqs p) || σ.sent p

/-- The tokens in the reply of a process. -/
def session? (σ : System) (k : Origin) : Option AuthTokens :=
  match σ.server.loc k.process with
  | .done (.session _ accessToken refreshToken) => some ⟨accessToken, refreshToken⟩
  | _ => none

/-- The server has given this answer. -/
def replies (σ : System) : Action → Bool
  | .refreshed r outcome =>
    match accepted outcome with
    | some tokens => session? σ (.refresh r) = some tokens
    | none => true
  | .body c (.json (.success (some tokens))) =>
    match calls c with
    | .login | .signup => session? σ (.call c) = some tokens
    | _ => true
  | .answer c (.response status) _ =>
    match calls c, isOk status, σ.browser.call c with
    | .logout, true, .fetching _ _ => σ.server.loc (Origin.call c).process = .done .ok
    | .logout, true, .retrying _ _ => σ.server.loc (Origin.retry c).process = .done .ok
    | _, _, _ => true
  | _ => true

/-- What a logout takes out of the store as it starts. -/
def capture (σ : System) : Action → Nat → Option String
  | .start c =>
    match calls c with
    | .logout => goto σ.captured c (σ.browser.store.map AuthTokens.refreshToken)
    | _ => σ.captured
  | _ => σ.captured

/-- One action. A process of the server runs once its request has been sent, and an answer is what
    the process has replied. -/
def step (σ : System) : Act → Option System
  | .client a =>
    if replies calls σ a then
      (ApiClient.step tab calls σ.browser a).map fun β =>
        { σ with browser := β, sent := arrives calls reqs σ, captured := capture calls σ a }
    else none
  | .server a =>
    match a.mover with
    | some p =>
      if arrives calls reqs σ p then
        ((UserService.sessions h reqs).step σ.server a).map fun s => { σ with server := s }
      else none
    | none => none

/-- A new browser; some accounts, no session. -/
def init (users : Table User User.id) (nextUserId : Nat) : System where
  browser := ApiClient.init none
  server := UserService.init users nextUserId
  sent := fun _ => false
  captured := fun _ => none

/-- What one step can do. -/
inductive Effect (σ : System) : Act → System → Prop
  | client {a β} (hreplies : replies calls σ a = true)
      (hstep : ApiClient.step tab calls σ.browser a = some β) :
      Effect σ (.client a)
        { σ with browser := β, sent := arrives calls reqs σ, captured := capture calls σ a }
  | server {a p s} (hmover : a.mover = some p) (harrives : arrives calls reqs σ p = true)
      (hstep : (UserService.sessions h reqs).step σ.server a = some s) :
      Effect σ (.server a) { σ with server := s }

variable {h tab calls reqs} {σ σ' : System} {a : Act}

/-- **Inversion**: from here on no proof opens `step`. -/
theorem effect_of_step (hs : step h tab calls reqs σ a = some σ') :
    Effect h tab calls reqs σ a σ' := by
  cases a with
  | client a =>
    simp only [step] at hs
    split at hs
    · rename_i hreplies
      obtain ⟨β, hstep, rfl⟩ := Option.map_eq_some_iff.mp hs
      exact .client hreplies hstep
    · cases hs
  | server a =>
    simp only [step] at hs
    split at hs
    · rename_i p hmover
      split at hs
      · rename_i harrives
        obtain ⟨s, hstep, rfl⟩ := Option.map_eq_some_iff.mp hs
        exact .server hmover harrives hstep
      · cases hs
    · cases hs

/-- What the server does is a run of the session machine. -/
theorem server_of_run {ok : System → Act → Prop} {σ₀ : System}
    (hrun : Run (step h tab calls reqs) ok σ₀ σ) :
    Run (UserService.sessions h reqs).step always σ₀.server σ.server := by
  induction hrun with
  | refl => exact Run.refl _
  | tail _ _ hs ih =>
    cases effect_of_step hs with
    | client => exact ih
    | server _ _ hstep => exact ih.tail trivial hstep

end Code

/-! ## Deliveries -/

/-- The browser has read the reply of process `p`. -/
def consumed (β : Browser) (p : Nat) : Prop :=
  match origin p with
  | .refresh r => ∃ tokens, β.refresh r = .handled tokens ∨ β.refresh r = .settled tokens
  | .call c => ∃ result, β.call c = .done result
  | _ => False

/-- A fetch has brought this refresh token. -/
def Delivered (σ : System) (token : String) : Prop :=
  ∃ p u c, σ.server.loc p = .done (.session u c token) ∧ consumed σ.browser p

section Deliveries

variable {h : UserService.Helpers} {tab : Nat → Nat} {calls : Nat → Call}
  {reqs : Nat → UserService.Request} {σ σ' : System} {a : Act} {β : Browser} {b : Action}
  {p q : Nat}

/-- An answer that has been read stays read. -/
theorem consumed_of_step (hs : ApiClient.step tab calls σ.browser b = some β)
    (hp : consumed σ.browser p) : consumed β p := by
  unfold consumed at hp ⊢
  split
  · rename_i r heq
    rw [heq] at hp
    obtain ⟨tokens, hloc⟩ := hp
    cases refreshStep_of_step hs r with
    | same hsame => exact ⟨tokens, hsame ▸ hloc⟩
    | sends _ _ _ _ _ hidle => rcases hloc with hloc | hloc <;> cases hidle.symm.trans hloc
    | answered _ hsent => rcases hloc with hloc | hloc <;> cases hsent.symm.trans hloc
    | @settled tokens' _ hsettled => exact ⟨tokens', Or.inr hsettled⟩
  · rename_i c heq
    rw [heq] at hp
    obtain ⟨result, hdone⟩ := hp
    exact ⟨result, done_of_step hs hdone⟩
  · rename_i hrefresh hcall
    split at hp
    · rename_i r heq
      exact hrefresh r heq
    · rename_i c heq
      exact hcall c heq
    · exact hp

/-- A process that has replied has ended. -/
theorem done_of_server {s : State UserService.Db UserService.Ext UserService.Write UserService.Loc}
    {e : ReadCommitted.Act UserService.Oracle Empty} {r : UserService.Reply}
    (hs : (UserService.sessions h reqs).step σ.server e = some s)
    (hdone : σ.server.loc p = .done r) : s.loc p = .done r := by
  have hhalt : (UserService.sessions h reqs).code p (σ.server.loc p) = .halt := by
    rw [hdone]
    rfl
  by_cases hp : e.mover = some p
  · exact ((Machine.next_of_step _ hs hp).of_halt hhalt).elim
  · rw [(Machine.frame_of_step _ hs hp).1]
    exact hdone

/-- What has been delivered to the browser stays delivered. -/
theorem Delivered.step {token : String} (hd : Delivered σ token)
    (hs : step h tab calls reqs σ a = some σ') : Delivered σ' token := by
  obtain ⟨p, u, c, hdone, hp⟩ := hd
  cases effect_of_step hs with
  | client _ hstep => exact ⟨p, u, c, hdone, consumed_of_step hstep hp⟩
  | server _ _ hstep => exact ⟨p, u, c, done_of_server hstep hdone, hp⟩

/-- The session that a process has replied with. -/
theorem session?_eq_some {k : Origin} {tokens : AuthTokens} : session? σ k = some tokens ↔
    ∃ u, σ.server.loc k.process = .done (.session u tokens.accessToken tokens.refreshToken) := by
  unfold session?
  constructor
  · intro heq
    split at heq
    · rename_i u accessToken refreshToken hloc
      obtain rfl := Option.some.inj heq
      exact ⟨u, hloc⟩
    · cases heq
  · rintro ⟨u, hloc⟩
    rw [hloc]

/-- The answer of a refresh is read once it has been handled. -/
theorem consumed_refresh {r : Nat} : consumed β (Origin.refresh r).process ↔
    ∃ tokens, β.refresh r = .handled tokens ∨ β.refresh r = .settled tokens := by
  simp only [consumed, origin_process]

/-- The answer of a call is read once the call is done. -/
theorem consumed_call {c : Nat} :
    consumed β (Origin.call c).process ↔ ∃ result, β.call c = .done result := by
  simp only [consumed, origin_process]

/-- Only a login or a signup that resolves opens a session. -/
theorem resolved_of_opens {c : Nat} {result : Result} {tokens : AuthTokens}
    (hopens : ending calls β c result = .opens tokens) :
    result = .resolved (some tokens) ∧ (calls c = .login ∨ calls c = .signup) := by
  unfold ending at hopens
  split at hopens
  · rename_i tokens' hcall
    exact ⟨Ending.opens.inj hopens ▸ rfl, Or.inl hcall⟩
  · rename_i tokens' hcall
    exact ⟨Ending.opens.inj hopens ▸ rfl, Or.inr hcall⟩
  · cases hopens
  · split at hopens <;> cases hopens
  · cases hopens

/-- Only a success body with a good status resolves. -/
theorem success_of_parse {status : Nat} {json : Body} {data : Option AuthTokens}
    (hparse : parse status json = .resolved data) :
    isOk status = true ∧ json = .json (.success data) := by
  unfold parse at hparse
  split at hparse
  · cases hparse
  · cases hparse
  · cases hparse
  · split at hparse
    · rename_i hok
      exact ⟨hok, Result.resolved.inj hparse ▸ rfl⟩
    · cases hparse
  · cases hparse

/-- And it carries the session that the server has replied with. -/
theorem session?_of_body {c : Nat} {tokens : AuthTokens}
    (hreplies : replies calls σ (.body c (.json (.success (some tokens)))) = true)
    (hcall : calls c = .login ∨ calls c = .signup) : session? σ (.call c) = some tokens := by
  rcases hcall with hcall | hcall
  · simpa [replies, hcall] using hreplies
  · simpa [replies, hcall] using hreplies

/-- What a step of the browser leaves in the store: nothing, what was there, or the tokens of a
    reply that nobody had read. -/
theorem store_of_client (hreplies : replies calls σ b = true)
    (hs : ApiClient.step tab calls σ.browser b = some β) :
    β.store = none ∨
    (β.store = σ.browser.store ∧ ∀ r outcome, b ≠ .refreshed r outcome) ∨
    ∃ p u tokens, β.store = some tokens ∧
      σ.server.loc p = .done (.session u tokens.accessToken tokens.refreshToken) ∧
      ¬ consumed σ.browser p ∧ consumed β p := by
  cases hevent : event calls σ.browser b with
  | some e =>
    obtain ⟨c, k⟩ := e
    have hstore := store_of_event hs hevent
    cases k with
    | opens tokens =>
      obtain ⟨result, hk, hβ, hbusy⟩ := finish_of_event hs hevent
      obtain ⟨hresult, hcall⟩ := resolved_of_opens hk.symm
      -- it is a body that finishes the call
      have hreply : session? σ (.call c) = some tokens := by
        cases ApiClient.effect_of_step hs with
        | @rejects c' outcome r e hrejects =>
          rw [event, finishing_of_rejects hrejects r] at hevent
          obtain ⟨rfl, hopens⟩ := Prod.mk.inj (Option.some.inj hevent)
          cases (resolved_of_opens hopens).1
        | @reads c' status json hloc =>
          rw [event, finishing_of_parsing hloc] at hevent
          obtain ⟨rfl, hopens⟩ := Prod.mk.inj (Option.some.inj hevent)
          obtain ⟨-, rfl⟩ := success_of_parse (resolved_of_opens hopens).1
          exact session?_of_body hreplies hcall
        | _ => cases hevent
      obtain ⟨u, hloc⟩ := session?_eq_some.mp hreply
      refine Or.inr (Or.inr ⟨_, u, tokens, hstore, hloc, ?_, ?_⟩)
      · rw [consumed_call]
        rintro ⟨res, hdone⟩
        exact hbusy res hdone
      · obtain ⟨res, hfinish⟩ := finish_call calls σ.browser c result
        refine consumed_call.mpr ⟨res, ?_⟩
        rw [hβ, hfinish, goto_self]
    | closes => exact Or.inl hstore
    | drops => exact Or.inl hstore
    | keeps =>
      refine Or.inr (Or.inl ⟨hstore, ?_⟩)
      rintro r outcome rfl
      cases hevent
  | none =>
    -- without an event the store changes when a refresh is answered
    rcases store_of_step hs hevent with ⟨r, token, outcome, rfl, hsent, hstore⟩ | ⟨hne, hstore⟩
    · cases haccepted : accepted outcome with
      | none => exact Or.inl (hstore.trans haccepted)
      | some tokens =>
        simp only [replies, haccepted, decide_eq_true_eq] at hreplies
        obtain ⟨u, hloc⟩ := session?_eq_some.mp hreplies
        refine Or.inr (Or.inr ⟨_, u, tokens, hstore.trans haccepted, hloc, ?_, ?_⟩)
        · rw [consumed_refresh]
          rintro ⟨tokens', hhandled | hsettled⟩
          · cases hsent.symm.trans hhandled
          · cases hsent.symm.trans hsettled
        · refine consumed_refresh.mpr ⟨some tokens, Or.inl ?_⟩
          cases refreshStep_of_step hs r with
          | same heq =>
            cases ApiClient.effect_of_step hs with
            | refreshed => exact (goto_self _ _ _).trans (congrArg _ haccepted)
          | sends ha => cases ha
          | answered ha _ hhandled =>
            obtain ⟨-, rfl⟩ := Action.refreshed.inj ha
            exact hhandled.trans (congrArg _ haccepted)
          | settled hhandled => cases hsent.symm.trans hhandled
    · exact Or.inr (Or.inl ⟨hstore, hne⟩)

/-! ## What holds in every run -/

/-- A process works for a fetch that has been sent, and with its request. -/
structure Wired (calls : Nat → Call) (reqs : Nat → UserService.Request) (σ : System) : Prop where
  stored : ∀ tokens, σ.browser.store = some tokens → Delivered σ tokens.refreshToken
  started : ∀ p, σ.server.loc p ≠ .start → arrives calls reqs σ p = true
  refresh : ∀ r, arrives calls reqs σ (Origin.refresh r).process = true →
    σ.browser.refresh r ≠ .idle ∧ ∃ token, reqs (Origin.refresh r).process = .refresh token ∧
      ∀ token', σ.browser.refresh r = .sent token' → token' = token
  renews : ∀ p token, arrives calls reqs σ p = true → reqs p = .refresh token →
    (∃ r, p = (Origin.refresh r).process) ∨ ∃ n, p = (Origin.other n).process

/-- A refresh request is waited for by a refresh of the browser, or by somebody else. -/
theorem origin_of_awaits {token : String} (hawaits : awaits calls β p (.refresh token) = true) :
    (∃ r, origin p = .refresh r ∧ β.refresh r = .sent token) ∨ ∃ n, origin p = .other n := by
  unfold awaits at hawaits
  split at hawaits
  · rename_i r horigin
    split at hawaits
    · rename_i token' token'' hsent heq
      obtain rfl := UserService.Request.refresh.inj heq
      obtain rfl := of_decide_eq_true hawaits
      exact Or.inl ⟨r, horigin, hsent⟩
    · cases hawaits
  · split at hawaits
    · rename_i heq
      cases heq
    · rename_i heq
      cases heq
    · rename_i heq
      cases heq
    · cases hawaits
  · split at hawaits
    · rename_i heq
      cases heq
    · cases hawaits
  · rename_i n horigin
    exact Or.inr ⟨n, horigin⟩

/-- A process serves a refresh with the token that the browser has sent. -/
theorem sent_of_awaits {r : Nat} {request : UserService.Request}
    (hawaits : awaits calls β (Origin.refresh r).process request = true) :
    ∃ token, β.refresh r = .sent token ∧ request = .refresh token := by
  simp only [awaits, origin_process] at hawaits
  split at hawaits
  · rename_i token token' hsent
    obtain rfl := of_decide_eq_true hawaits
    exact ⟨token, hsent, rfl⟩
  · cases hawaits

/-- Only the mover starts. -/
theorem loc_of_server {s : State UserService.Db UserService.Ext UserService.Write UserService.Loc}
    {e : ReadCommitted.Act UserService.Oracle Empty} (hmover : e.mover = some p)
    (hs : (UserService.sessions h reqs).step σ.server e = some s) (hq : q ≠ p) :
    s.loc q = σ.server.loc q :=
  (Machine.frame_of_step _ hs (Act.mover_ne hmover hq)).1

/-- It keeps that token, whatever the browser does meanwhile. -/
theorem refresh_of_awaits {r : Nat}
    (hawaits : awaits calls β (Origin.refresh r).process (reqs (Origin.refresh r).process) = true) :
    β.refresh r ≠ .idle ∧ ∃ token, reqs (Origin.refresh r).process = .refresh token ∧
      ∀ token', β.refresh r = .sent token' → token' = token := by
  obtain ⟨token, hsent, hreq⟩ := sent_of_awaits hawaits
  refine ⟨(fun h => by cases hsent.symm.trans h), token, hreq, fun token' hsent' => ?_⟩
  exact RefreshLoc.sent.inj (hsent'.symm.trans hsent)

/-- A process that renews serves a refresh of the browser, or somebody else. -/
theorem renews_of_awaits {token : String} (hawaits : awaits calls β p (reqs p) = true)
    (hreq : reqs p = .refresh token) :
    (∃ r, p = (Origin.refresh r).process) ∨ ∃ n, p = (Origin.other n).process := by
  rw [hreq] at hawaits
  rcases origin_of_awaits hawaits with ⟨r, horigin, -⟩ | ⟨n, horigin⟩
  · exact Or.inl ⟨r, horigin ▸ (process_origin p).symm⟩
  · exact Or.inr ⟨n, horigin ▸ (process_origin p).symm⟩

/-- What has been sent stays so. -/
theorem arrives_of_client {captured : Nat → Option String} :
    arrives calls reqs ⟨β, σ.server, arrives calls reqs σ, captured⟩ p = true ↔
      awaits calls β p (reqs p) = true ∨ arrives calls reqs σ p = true := by
  rw [arrives, Bool.or_eq_true]

theorem Wired.init {users : Table User User.id} {nextUserId : Nat} :
    Wired calls reqs (init users nextUserId) where
  stored := by
    intro tokens hstore
    cases hstore
  started := fun p hstarted => absurd rfl hstarted
  refresh := by
    intro r harrives
    rw [arrives, Bool.or_eq_true] at harrives
    rcases harrives with hawaits | hsent
    · exact refresh_of_awaits hawaits
    · cases hsent
  renews := by
    intro p token harrives hreq
    rw [arrives, Bool.or_eq_true] at harrives
    rcases harrives with hawaits | hsent
    · exact renews_of_awaits hawaits hreq
    · cases hsent

/-- **Step lemma.** Processes stay in step with the requests they serve. -/
theorem Wired.step (hw : Wired calls reqs σ) (hs : step h tab calls reqs σ a = some σ') :
    Wired calls reqs σ' := by
  cases effect_of_step hs with
  | @client b β hreplies hstep =>
    refine ⟨?_, fun p hstarted => arrives_of_client.mpr (Or.inr (hw.started p hstarted)), ?_, ?_⟩
    · intro tokens hstore
      have hstore : β.store = some tokens := hstore
      rcases store_of_client hreplies hstep with
        hnone | ⟨hsame, -⟩ | ⟨p, u, tokens', hnew, hloc, -, hp⟩
      · cases hnone.symm.trans hstore
      · exact (hw.stored tokens (hsame.symm.trans hstore)).step hs
      · obtain rfl := Option.some.inj (hnew.symm.trans hstore)
        exact ⟨p, u, tokens'.accessToken, hloc, hp⟩
    · intro r harrives
      rcases arrives_of_client.mp harrives with hawaits | hbefore
      · exact refresh_of_awaits hawaits
      · -- a refresh that is answered is no longer `sent`
        obtain ⟨hsent, token, hreq, honly⟩ := hw.refresh r hbefore
        have hgoal : β.refresh r ≠ .idle ∧
            ∀ token', β.refresh r = .sent token' → token' = token := by
          cases refreshStep_of_step hstep r with
          | same heq =>
            rw [heq]
            exact ⟨hsent, honly⟩
          | sends _ _ _ _ _ hidle => exact absurd hidle hsent
          | answered _ _ hhandled =>
            rw [hhandled]
            exact ⟨(fun h => by cases h), (fun _ h => by cases h)⟩
          | settled _ hsettled =>
            rw [hsettled]
            exact ⟨(fun h => by cases h), (fun _ h => by cases h)⟩
        exact ⟨hgoal.1, token, hreq, hgoal.2⟩
    · intro p token harrives hreq
      rcases arrives_of_client.mp harrives with hawaits | hbefore
      · exact renews_of_awaits hawaits hreq
      · exact hw.renews p token hbefore hreq
  | @server e p s hmover harrives hstep =>
    refine ⟨fun tokens hstore => (hw.stored tokens hstore).step hs, ?_, hw.refresh, hw.renews⟩
    intro q hstarted
    by_cases hq : q = p
    · exact hq ▸ harrives
    · have hloc : s.loc q ≠ .start := hstarted
      rw [loc_of_server hmover hstep hq] at hloc
      exact hw.started q hloc

theorem Wired.of_run {ok : System → Act → Prop} {users : Table User User.id} {nextUserId : Nat}
    (hrun : Run (BrowserSessions.step h tab calls reqs) ok (BrowserSessions.init users nextUserId)
      σ) : Wired calls reqs σ :=
  hrun.invariant (fun _ _ _ hw _ hs => hw.step hs) Wired.init

end Deliveries

/-! ## Alice -/

/-- The user of the runs below. -/
def alice : Caller := ⟨1, .user⟩

/-- The next statement of a process; the clock stands still. -/
def serve (k : Origin) (token : String) : Act := .server (UserService.run k.process 0 token)

/-- Call 0 logs in. -/
def opening : List Act :=
  [.client (.start 0), serve (.call 0) "", serve (.call 0) "t1",
   .client (.answer 0 (.response 200) 0), .client (.body 0 (.json (.success (some ⟨alice, "t1"⟩))))]

/-- The server rotates the token of a refresh. -/
def rotation (r : Nat) (token : String) : List Act :=
  [serve (.refresh r) "", serve (.refresh r) "", serve (.refresh r) token, serve (.refresh r) ""]

end SmartPatents.BrowserSessions
