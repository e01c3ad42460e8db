/-
  Does an honest browser ever look like a thief?

  The server takes a refresh token that is presented twice for a stolen one.  `refreshInFlight`
  keeps the requests of a TAB from refreshing twice, but the token belongs to the BROWSER: two tabs
  whose access token expires present the same refresh token, and the second of them, if the server
  reads it late enough, revokes every session of the user (`not_unsuspected`).

  `unsuspected_of_run`: if no refresh is sent while another one with the same token is unanswered
  (`Unshared`), no refresh of the browser takes the branch.  The invariant is about the tokens that
  have been presented: each of them was delivered to the browser (`HonestInv.delivered`), no two
  refreshes have presented the same (`once`), and the token in the store has not been presented
  yet, or the answer is still out (`unanswered`).

  Where two tabs do refresh the same token, both orders are possible on the server.  If both have
  read the row before one of them rotates it, the other one fails in its guarded UPDATE and is
  told so, and no harm is done; the branch is taken by the one that reads afterwards.

  `Unstolen` says that no stranger presents a token of this browser; without it the branch is
  taken for a reason.  Tokens with different hashes are different tokens, which `Unstolen` asks of
  the hash for the tokens in question only.
-/
import SmartPatents.BrowserSessions

namespace SmartPatents.UserService

open ReadCommitted Runs

/-! ## The branch -/

/-- In the bulk UPDATE; a refresh gets here when its token has been rotated before. -/
def Loc.revokesAll : Loc → Prop
  | .revokeScan _ _ | .revokeRows _ _ _ _ => True
  | _ => False

/-- Where a refresh can be that has not taken the branch. -/
def Loc.renewing : Loc → Prop
  | .start | .rotate _ _ | .successor _ _ | .rotateCommit _ _ _ | .throwing _ | .done _ => True
  | _ => False

/-- A refresh on its way is not in the branch. -/
theorem Loc.renewing.not_revokesAll {l : Loc} (hl : l.renewing) : ¬ l.revokesAll := by
  intro hr
  cases l with
  | revokeScan userId reply => exact hl
  | revokeRows userId ids at_ reply => exact hl
  | _ => exact hr

section Renewing

variable {h : Helpers} {reqs : Nat → Request} {p : Nat} {d : Db} {x : Ext} {o : Oracle} {l : Loc}
  {token : String} {f : Oracle → Db → Ext → Outcome} {σ σ' : State Db Ext Write Loc}
  {a : Act Oracle Empty}

/-- A token that has not been rotated leads to a rotation, or to a plain refusal. -/
theorem renewing_of_start (hreq : reqs p = .refresh token)
    (hfresh : ∀ stored, d.tokenByHash (h.hashRefreshToken token) = some stored →
      stored.rotatedAt = none) : (start h (reqs p) o d x).2.2.renewing := by
  rw [hreq]
  show (refreshSession h token o d x).2.2.renewing
  unfold refreshSession
  split
  · trivial
  · rename_i stored hstored
    split
    · trivial
    · split
      · rename_i hrotated
        rw [hfresh stored hstored] at hrotated
        cases hrotated
      · split
        · trivial
        · split <;> trivial

/-- Statement by statement, a refresh stays on its way. -/
theorem renewing_of_auto (hcode : code h reqs p l = .auto f) (hl : l.renewing)
    (hreq : reqs p = .refresh token)
    (hfresh : l = .start → ∀ stored, d.tokenByHash (h.hashRefreshToken token) = some stored →
      stored.rotatedAt = none) : (f o d x).2.2.renewing := by
  cases l with
  | start =>
    obtain rfl := Instr.auto.inj hcode
    exact renewing_of_start hreq (hfresh rfl)
  | signupCreate => exact hl.elim
  | issue user => exact hl.elim
  | logoutOne userId token => exact hl.elim
  | newPassword user hash => exact hl.elim
  | revokeScan userId reply => exact hl.elim
  | revokeRows userId ids at_ reply => exact hl.elim
  | _ => cases hcode

theorem renewing_of_stmt (hcode : code h reqs p l = .stmt f) (hl : l.renewing) :
    (f o d x).2.2.renewing := by
  cases l with
  | rotate stored user =>
    obtain rfl := Instr.stmt.inj hcode
    unfold rotate
    split
    · trivial
    · split <;> trivial
  | successor stored user =>
    obtain rfl := Instr.stmt.inj hcode
    rcases issueSession_token user (.rotateCommit stored user) o d x with hr | ⟨-, hnext⟩
    · rw [hr]
      trivial
    · rw [hnext]
      trivial
  | newPassword user hash => exact hl.elim
  | revokeScan userId reply => exact hl.elim
  | revokeRows userId ids at_ reply => exact hl.elim
  | _ => cases hcode

/-- A refresh leaves the path of a renewal only by reading a token that has been rotated. -/
theorem renewing_of_step (hs : (sessions h reqs).step σ a = some σ') (hmover : a.mover = some p)
    (hreq : reqs p = .refresh token) (hl : (σ.loc p).renewing)
    (hfresh : σ.loc p = .start → ∀ stored,
      ((sessions h reqs).view σ p).tokenByHash (h.hashRefreshToken token) = some stored →
      stored.rotatedAt = none) : (σ'.loc p).renewing := by
  have hnext := Machine.next_of_step _ hs hmover
  generalize σ'.loc p = m at hnext ⊢
  cases hnext with
  | stmt hcode => exact renewing_of_stmt hcode hl
  | auto hcode => exact renewing_of_auto hcode hl hreq hfresh
  | commit hcode =>
    generalize σ.loc p = l at hcode
    cases commits_of_code hcode <;> trivial
  | rollback hcode =>
    obtain ⟨e, -, rfl⟩ := eq_of_rollback hcode
    trivial
  | fail => trivial

end Renewing

end SmartPatents.UserService

namespace SmartPatents.BrowserSessions

open Runs ReadCommitted ApiClient

/-! ## The property -/

section Property

variable (h : UserService.Helpers) (tab : Nat → Nat) (calls : Nat → Call)
  (reqs : Nat → UserService.Request)

/-- No refresh of the browser takes the branch. -/
def Unsuspected (σ : System) : Prop :=
  ∀ r, ¬ (σ.server.loc (Origin.refresh r).process).revokesAll

/-- Nobody else has tokens of this browser. -/
def Unstolen : Prop := ∀ n r token token', reqs (Origin.other n).process = .refresh token →
  reqs (Origin.refresh r).process = .refresh token' →
  h.hashRefreshToken token ≠ h.hashRefreshToken token'

/-- Where a 401 makes a tab refresh the stored token, no refresh of that token is unanswered. -/
def Unshared (σ : System) : Act → Prop
  | .client (.answer c (.response 401) _) =>
    (∃ header body, σ.browser.call c = .fetching header body) → (calls c).options.auth = true →
      (calls c).options.allowRefresh = true → σ.browser.refreshInFlight (tab c) = none →
      ∀ tokens, σ.browser.store = some tokens →
        ∀ r, σ.browser.refresh r ≠ .sent tokens.refreshToken
  | _ => True

/-- Refresh `r` has presented this token, or will when the server gets to it. -/
def Presented (σ : System) (r : Nat) (token : String) : Prop :=
  σ.browser.refresh r = .sent token ∨
    arrives calls reqs σ (Origin.refresh r).process = true ∧
      reqs (Origin.refresh r).process = .refresh token

/-- **The invariant.** -/
structure HonestInv (σ : System) : Prop where
  delivered : ∀ r token, Presented calls reqs σ r token → Delivered σ token
  once : ∀ r r' token, Presented calls reqs σ r token → Presented calls reqs σ r' token → r = r'
  unanswered : ∀ r tokens, σ.browser.store = some tokens →
    Presented calls reqs σ r tokens.refreshToken → σ.browser.refresh r = .sent tokens.refreshToken
  renewing : ∀ r, (σ.server.loc (Origin.refresh r).process).renewing

end Property

section Steps

variable {H : UserService.Helpers} {tab : Nat → Nat} {calls : Nat → Call}
  {reqs : Nat → UserService.Request} {users : Table User User.id} {nextUserId : Nat}
  {σ σ' : System} {a : Act} {β : Browser} {b : Action} {captured : Nat → Option String}

theorem not_presented_init {r : Nat} {token : String} :
    ¬ Presented calls reqs (init users nextUserId) r token := by
  rintro (hsent | ⟨harrives, -⟩)
  · cases hsent
  · exact (Wired.init.refresh r harrives).1 rfl

theorem HonestInv.init : HonestInv calls reqs (init users nextUserId) where
  delivered := fun _ _ hp => absurd hp not_presented_init
  once := fun _ _ _ hp => absurd hp not_presented_init
  unanswered := fun _ _ _ hp => absurd hp not_presented_init
  renewing := fun _ => trivial

/-- What the browser has presented after a step: what it had before, or the stored token. -/
theorem presented_of_client {r : Nat} {token : String}
    (hs : ApiClient.step tab calls σ.browser b = some β)
    (hp : Presented calls reqs ⟨β, σ.server, arrives calls reqs σ, captured⟩ r token) :
    Presented calls reqs σ r token ∨
      β.refresh r = .sent token ∧ Renews tab calls σ.browser b r token := by
  have hnow : β.refresh r = .sent token ∨ Presented calls reqs σ r token := by
    rcases hp with hsent | ⟨harrives, hreq⟩
    · exact Or.inl hsent
    · rcases arrives_of_client.mp harrives with hawaits | hbefore
      · obtain ⟨token', hsent, hreq'⟩ := sent_of_awaits hawaits
        obtain rfl := UserService.Request.refresh.inj (hreq.symm.trans hreq')
        exact Or.inl hsent
      · exact Or.inr (Or.inr ⟨hbefore, hreq⟩)
  rcases hnow with hsent | hbefore
  · rcases sent_of_step hs hsent with hbefore | ⟨-, hrenews⟩
    · exact Or.inl (Or.inl hbefore)
    · exact Or.inr ⟨hsent, hrenews⟩
  · exact Or.inl hbefore

/-- A step of the browser. A refresh is sent only where no other presents the token. -/
theorem HonestInv.client (h : HonestInv calls reqs σ) (hw : Wired calls reqs σ)
    (hids : ∀ u ∈ users, u.id < nextUserId)
    (hrun : Run (UserService.sessions H reqs).step always (UserService.init users nextUserId)
      σ.server)
    (hok : Unshared tab calls σ (.client b)) (hreplies : replies calls σ b = true)
    (hs : ApiClient.step tab calls σ.browser b = some β)
    (hdelivered : ∀ {token}, Delivered σ token →
      Delivered ⟨β, σ.server, arrives calls reqs σ, captured⟩ token) :
    HonestInv calls reqs ⟨β, σ.server, arrives calls reqs σ, captured⟩ := by
  -- in both cases it is a token that had been delivered before
  have hold : ∀ {r token},
      Presented calls reqs ⟨β, σ.server, arrives calls reqs σ, captured⟩ r token →
      Delivered σ token := by
    intro r token hp
    rcases presented_of_client hs hp with hp | ⟨-, ⟨tokens, hstore, rfl⟩, -⟩
    · exact h.delivered r token hp
    · exact hw.stored tokens hstore
  -- a token that is about to be presented has been presented by nobody
  have hnew : ∀ {r r' token}, Presented calls reqs σ r token → ¬ Renews tab calls σ.browser b r' token := by
    rintro r r' token hp ⟨⟨tokens, hstore, rfl⟩, c, header, body, rfl, hloc, hflight, hauth, hallow⟩
    exact hok ⟨header, body, hloc⟩ hauth hallow hflight tokens hstore r
      (h.unanswered r tokens hstore hp)
  refine ⟨fun r token hp => hdelivered (hold hp), ?_, ?_, h.renewing⟩
  · intro r r' token hp hp'
    rcases presented_of_client hs hp with hp | ⟨-, hrenews⟩
    · rcases presented_of_client hs hp' with hp' | ⟨-, hrenews'⟩
      · exact h.once r r' token hp hp'
      · exact absurd hrenews' (hnew hp)
    · rcases presented_of_client hs hp' with hp' | ⟨-, hrenews'⟩
      · exact absurd hrenews (hnew hp')
      · obtain ⟨-, c, _, _, rfl, -⟩ := hrenews
        obtain ⟨-, c', _, _, heq, -⟩ := hrenews'
        exact (Action.answer.inj heq).2.2
  · intro r tokens hstore hp
    have hstore : β.store = some tokens := hstore
    rcases store_of_client hreplies hs with
      hnone | ⟨hsame, hne⟩ | ⟨p, u, tokens', hissued, hloc, hunread, -⟩
    · cases hnone.symm.trans hstore
    · -- the store has not changed, and neither has a refresh that waits for its answer
      rcases presented_of_client hs hp with hbefore | ⟨hsent, -⟩
      · have hsent := h.unanswered r tokens (hsame.symm.trans hstore) hbefore
        cases refreshStep_of_step hs r with
        | same heq => exact heq.trans hsent
        | sends _ _ _ _ _ hidle => cases hidle.symm.trans hsent
        | answered ha => exact absurd ha (hne _ _)
        | settled hhandled => cases hhandled.symm.trans hsent
      · exact hsent
    · -- nobody can have presented a token that has just arrived
      obtain rfl := Option.some.inj (hissued.symm.trans hstore)
      obtain ⟨q, u', c', hdone, hread⟩ := hold hp
      obtain rfl := UserService.session_unique hids hrun hdone hloc rfl
      exact absurd hread hunread

/-- The token that a refresh presents has not been rotated. -/
theorem HonestInv.fresh {r : Nat} {token : String} (h : HonestInv calls reqs σ) (hw : Wired calls reqs σ)
    (hstrangers : Unstolen H reqs) (hids : ∀ u ∈ users, u.id < nextUserId)
    (hrun : Run (UserService.sessions H reqs).step always (UserService.init users nextUserId)
      σ.server)
    (hp : Presented calls reqs σ r token)
    (hreq : reqs (Origin.refresh r).process = .refresh token)
    (hstart : σ.server.loc (Origin.refresh r).process = .start) :
    ∀ stored ∈ σ.server.base.db.tokens, stored.tokenHash = H.hashRefreshToken token →
      stored.rotatedAt = none := by
  intro stored hmem hhash
  by_contra hrotated
  have hchains := UserService.reachable_chains hids hrun
  have holds := UserService.reachable_holds hids hrun
  obtain ⟨q, j, ⟨token', hreq', hhash'⟩, hrecorded⟩ :=
    (hchains.rotated stored hmem).mp (Option.isSome_iff_ne_none.mpr hrotated)
  -- whoever has rotated it is not at its start
  have hstarted : ∀ {p}, σ.server.loc p = .start → ¬ UserService.Recorded σ.server.base.log p j := by
    intro p hp
    have hat := holds.assertions p
    rw [hp] at hat
    exact UserService.not_recorded_of_start hat.2 j
  have hq : σ.server.loc q ≠ .start := fun hp => hstarted hp hrecorded
  have harrives := hw.started q hq
  rcases hw.renews q token' harrives hreq' with ⟨r', rfl⟩ | ⟨n, rfl⟩
  · -- a refresh of the browser: both tokens were delivered, and a hash is handed out once
    have hp' : Presented calls reqs σ r' token' := Or.inr ⟨harrives, hreq'⟩
    obtain ⟨p₁, u₁, c₁, hdone₁, -⟩ := h.delivered r token hp
    obtain ⟨p₂, u₂, c₂, hdone₂, -⟩ := h.delivered r' token' hp'
    obtain rfl := UserService.session_unique hids hrun hdone₁ hdone₂ (hhash.symm.trans hhash')
    obtain ⟨-, -, rfl⟩ :=
      UserService.Reply.session.inj (UserService.Loc.done.inj (hdone₁.symm.trans hdone₂))
    obtain rfl := h.once r r' token hp hp'
    exact hq hstart
  · exact hstrangers n r token' token hreq' hreq (hhash'.symm.trans hhash)

/-- A step of the server. The token that is read has not been rotated. -/
theorem HonestInv.server {p : Nat}
    {s : State UserService.Db UserService.Ext UserService.Write UserService.Loc}
    {e : ReadCommitted.Act UserService.Oracle Empty} (h : HonestInv calls reqs σ) (hw : Wired calls reqs σ)
    (hstrangers : Unstolen H reqs) (hids : ∀ u ∈ users, u.id < nextUserId)
    (hrun : Run (UserService.sessions H reqs).step always (UserService.init users nextUserId)
      σ.server)
    (hmover : e.mover = some p) (harrives : arrives calls reqs σ p = true)
    (hs : (UserService.sessions H reqs).step σ.server e = some s)
    (hdelivered : ∀ {token}, Delivered σ token → Delivered { σ with server := s } token) :
    HonestInv calls reqs { σ with server := s } := by
  -- the browser has not presented anything new
  refine ⟨fun r token hp => hdelivered (h.delivered r token hp), h.once, h.unanswered, fun r => ?_⟩
  by_cases hr : (Origin.refresh r).process = p
  · subst hr
    obtain ⟨-, token, hreq, -⟩ := hw.refresh r harrives
    refine UserService.renewing_of_step hs hmover hreq (h.renewing r) fun hstart stored hfind => ?_
    have hat := (UserService.reachable_holds hids hrun).assertions (Origin.refresh r).process
    rw [hstart] at hat
    have hview : (UserService.sessions H reqs).view σ.server (Origin.refresh r).process
        = σ.server.base.db := by
      rw [Machine.view, hat.1, Machine.applyAll_nil]
    rw [hview] at hfind
    obtain ⟨hmem, hhash⟩ := Table.find?_some hfind
    exact h.fresh hw hstrangers hids hrun (Or.inr ⟨harrives, hreq⟩) hreq hstart stored hmem
      (eq_of_beq hhash)
  · show (s.loc (Origin.refresh r).process).renewing
    rw [loc_of_server hmover hs hr]
    exact h.renewing r

/-- **Step lemma.** -/
theorem HonestInv.step (h : HonestInv calls reqs σ) (hw : Wired calls reqs σ)
    (hstrangers : Unstolen H reqs) (hids : ∀ u ∈ users, u.id < nextUserId)
    (hrun : Run (UserService.sessions H reqs).step always (UserService.init users nextUserId)
      σ.server)
    (hok : Unshared tab calls σ a) (hs : step H tab calls reqs σ a = some σ') :
    HonestInv calls reqs σ' := by
  cases effect_of_step hs with
  | client hreplies hstep => exact h.client hw hids hrun hok hreplies hstep fun hd => hd.step hs
  | server hmover harrives hstep =>
    exact h.server hw hstrangers hids hrun hmover harrives hstep fun hd => hd.step hs

/-- The invariant holds in every run that meets the condition. -/
theorem HonestInv.of_run (hstrangers : Unstolen H reqs) (hids : ∀ u ∈ users, u.id < nextUserId)
    (hrun : Run (BrowserSessions.step H tab calls reqs) (Unshared tab calls)
      (BrowserSessions.init users nextUserId) σ) : HonestInv calls reqs σ :=
  hrun.invariant_reached (fun _ _ _ hrun' h hok hs => h.step (Wired.of_run hrun') hstrangers hids
    (server_of_run hrun') hok hs) HonestInv.init

/-- **An honest browser is not suspected**, as long as no two tabs refresh the same token at the
    same time. -/
theorem unsuspected_of_run (hstrangers : Unstolen H reqs) (hids : ∀ u ∈ users, u.id < nextUserId)
    (hrun : Run (BrowserSessions.step H tab calls reqs) (Unshared tab calls)
      (BrowserSessions.init users nextUserId) σ) : Unsuspected σ :=
  fun r => ((HonestInv.of_run hstrangers hids hrun).renewing r).not_revokesAll

end Steps

/-! ## Two tabs -/

section TwoTabs

/-- Alice logs in, and then has two tabs open. -/
def loginAndTwoTabs (c : Nat) : Call := if c = 0 then .login else .request ⟨true, true⟩

/-- Call 2 is made in a second tab. -/
def twoTabs (c : Nat) : Nat := if c = 2 then 1 else 0

/-- Every refresh presents the token of the login. -/
def aliceRequests (p : Nat) : UserService.Request :=
  match origin p with
  | .refresh _ => .refresh "t1"
  | _ => .login "alice@example.com" "secret"

/-- The access token expires while both tabs ask for something. -/
def bothRefused : List Act :=
  [.client (.start 1), .client (.start 2), .client (.answer 1 (.response 401) 0),
   .client (.answer 2 (.response 401) 1)]

/-- Both tabs refresh the same token, and the server reads it for the second after rotating it for
    the first. -/
def sharedToken : List Act := opening ++ bothRefused ++ rotation 0 "t2" ++ [serve (.refresh 1) ""]

theorem sharedToken_runs :
    (exec (step UserService.plainHelpers twoTabs loginAndTwoTabs aliceRequests)
      (init UserService.aliceOnly 2) sharedToken).isSome = true := by
  decide

/-- The second tab is taken for a thief. -/
def suspected : System :=
  (exec (step UserService.plainHelpers twoTabs loginAndTwoTabs aliceRequests)
    (init UserService.aliceOnly 2) sharedToken).get sharedToken_runs

/-- Nobody but the browser has her token. -/
theorem aliceRequests_unstolen : Unstolen UserService.plainHelpers aliceRequests := by
  intro n r token token' hreq
  rw [aliceRequests, origin_process] at hreq
  cases hreq

/-- Two tabs, one token: the server takes the second for a thief. -/
theorem not_unsuspected :
    ¬ ∀ (tab : Nat → Nat) (calls : Nat → Call) (reqs : Nat → UserService.Request) (σ : System),
      Unstolen UserService.plainHelpers reqs →
      Run (step UserService.plainHelpers tab calls reqs) always (init UserService.aliceOnly 2) σ →
      Unsuspected σ := by
  intro hall
  have hunsuspected := hall twoTabs loginAndTwoTabs aliceRequests suspected aliceRequests_unstolen
    (Run.exec_get sharedToken_runs)
  have hloc : suspected.server.loc (Origin.refresh 1).process
      = .revokeScan 1 (.thrown (.app (unauthorized
          "Refresh token has already been used; all sessions have been revoked"))) := by
    decide
  refine hunsuspected 1 ?_
  rw [hloc]
  trivial

/-- An action that may start a refresh. -/
def refuses : Act → Bool
  | .client (.answer _ (.response 401) _) => true
  | _ => false

/-- A step that starts no refresh meets the condition. -/
theorem unshared_of_not_refuses {tab : Nat → Nat} {calls : Nat → Call} {σ : System} {a : Act}
    (ha : refuses a = false) : Unshared tab calls σ a := by
  unfold Unshared
  split
  · cases ha
  · trivial

/-- One tab has logged in and makes a request. -/
def asking : List Act := opening ++ [.client (.start 1)]

theorem asking_runs :
    (exec (step UserService.plainHelpers twoTabs loginAndTwoTabs aliceRequests)
      (init UserService.aliceOnly 2) asking).isSome = true := by
  decide

/-- The state after `asking`. -/
def asked : System :=
  (exec (step UserService.plainHelpers twoTabs loginAndTwoTabs aliceRequests)
    (init UserService.aliceOnly 2) asking).get asking_runs

/-- Its access token has expired. -/
def refusal : Act := .client (.answer 1 (.response 401) 0)

theorem refusal_runs :
    (step UserService.plainHelpers twoTabs loginAndTwoTabs aliceRequests asked refusal).isSome
      = true := by
  decide

/-- The tab has sent a refresh, with no other under way. -/
def refused : System :=
  (step UserService.plainHelpers twoTabs loginAndTwoTabs aliceRequests asked refusal).get
    refusal_runs

/-- Only the first tab has asked for something. -/
def renewal : List Act :=
  rotation 0 "t2" ++
    [.client (.refreshed 0 (.response 200 (.json (.success (some ⟨alice, "t2"⟩))))),
     .client (.settle 0), .client (.resume 1)]

theorem renewal_runs :
    (exec (step UserService.plainHelpers twoTabs loginAndTwoTabs aliceRequests) refused
      renewal).isSome = true := by
  decide

/-- One tab renews its session unsuspected. -/
theorem unsuspected_of_renewal :
    Unsuspected ((exec (step UserService.plainHelpers twoTabs loginAndTwoTabs aliceRequests) refused
      renewal).get renewal_runs) := by
  have hquiet : ∀ {as : List Act}, (∀ a ∈ as, refuses a = false) →
      ∀ a ∈ as, ∀ σ, Unshared twoTabs loginAndTwoTabs σ a :=
    fun h a ha σ => unshared_of_not_refuses (h a ha)
  have hasked := Run.of_exec_ok (hquiet (show ∀ a ∈ asking, refuses a = false by decide))
    (Option.some_get asking_runs).symm
  have hrenewal := Run.of_exec_ok (hquiet (show ∀ a ∈ renewal, refuses a = false by decide))
    (Option.some_get renewal_runs).symm
  have hidle : asked.browser.refresh = fun _ => .idle := rfl
  have hrefusal : Unshared twoTabs loginAndTwoTabs asked refusal := by
    intro _ _ _ _ tokens _ r hsent
    rw [hidle] at hsent
    cases hsent
  exact unsuspected_of_run aliceRequests_unstolen (by decide)
    ((hasked.tail hrefusal (Option.some_get refusal_runs).symm).trans hrenewal)

end TwoTabs

end SmartPatents.BrowserSessions
