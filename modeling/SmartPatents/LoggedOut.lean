/-
  Does logging out end the session?

  `authService.logout` takes the refresh token out of the store BEFORE it asks the server, and the
  server revokes the row with exactly this hash, if it is not revoked yet.  A refresh of the same
  token in between wins: the row has been rotated, so that there is nothing to revoke and the answer
  is 200, while the successor lives on (`not_loggedOut`).  The fetch that logs out can start such a
  refresh itself, when its access token has expired: it is repeated with its original body.

  `loggedOut_of_run`: if no refresh has rotated the row, or is past its checks on it, when the
  server carries out the UPDATE of a logout (`Undisturbed`), the chain of the token has no live
  token when the logout completes, nor later.  A revoked row that nobody is about to rotate stays
  so (`Retired.step`), and it is the end of its chain (`Retired.ended`).

  The browser keeps no record of which token a logout was for; `captured` is a ghost that
  remembers what the logout found in the store as it started.  The invariant (`LogoutInv`) says
  that the fetches of the logout carry this token (`Carries`), that the process serving them is at
  a location of this logout, and that once it is past its UPDATE the token is retired.

  A step of the browser changes where a logout is (`LogoutInv.client`), a step of the server what
  has become of its row (`LogoutInv.server`); the condition is used in one place, at the UPDATE.
  `not_loggedOut` is a run of the login, two refreshes and the logout in which all answers are
  what the server gives, and the third token of the chain is live in the end.
-/
import SmartPatents.BrowserSessions

namespace SmartPatents.UserService

open ReadCommitted Runs Relation

variable {h : Helpers} {reqs : Nat → Request} {p : Nat} {σ σ' : State Db Ext Write Loc}
  {a : Act Oracle Empty} {token : String}

/-! ## Retired tokens -/

/-- No refresh that has passed its checks is about to rotate the row with this id. -/
def Untouched (σ : State Db Ext Write Loc) (id : Nat) : Prop :=
  ∀ q stored, (σ.loc q).rotating = some stored → stored.id ≠ id

/-- The row of the token is revoked, and will never be rotated. -/
def Retired (h : Helpers) (σ : State Db Ext Write Loc) (token : String) : Prop :=
  ∃ row ∈ σ.base.db.tokens, row.tokenHash = h.hashRefreshToken token ∧ row.rotatedAt = none ∧
    row.revokedAt.isSome ∧ Untouched σ row.id

/-- No token is live in the rotation chain of this token. -/
def Ended (h : Helpers) (reqs : Nat → Request) (σ : State Db Ext Write Loc) (token : String) :
    Prop :=
  ∀ row ∈ σ.base.db.tokens, row.tokenHash = h.hashRefreshToken token →
    ∀ q, Chain h reqs σ.base.db σ.base.log q row.id →
      ∀ s ∈ σ.base.db.tokens, Chain h reqs σ.base.db σ.base.log q s.id → ¬ s.live

/-- A retired token is the end of its chain. -/
theorem Retired.ended (hr : Retired h σ token)
    (hchains : ChainInv h reqs σ.base.db σ.base.log) : Ended h reqs σ token := by
  rintro row' hrow' hhash' q ⟨hopens, i, hi, hdesc⟩ s hs ⟨-, j, hj, hdesc'⟩ hlive
  obtain ⟨row, hrow, hhash, hunrotated, hrevoked, -⟩ := hr
  obtain rfl := hchains.hash row' hrow' row hrow (hhash'.trans hhash.symm)
  obtain rfl := hchains.first hopens hi hj
  have huniq : Relator.RightUnique (Successor h reqs σ.base.db σ.base.log) :=
    fun _ _ _ hb hc => hchains.successor_unique hb hc
  -- of the two, one descends from the other, and neither has a successor
  have hsame : row'.id = s.id := by
    rcases hdesc.total_of_right_unique huniq hdesc' with hrow | hs'
    · rcases hrow.cases_head with hid | ⟨k, hk, -⟩
      · exact hid
      · have hrotated := (hchains.rotated_iff hrow').mpr ⟨k, hk⟩
        rw [hunrotated] at hrotated
        cases hrotated
    · exact (hchains.end_of_live hs hlive hs').symm
  obtain rfl := Table.eq_of_key hrow' hs hsame
  rw [hlive.2] at hrevoked
  cases hrevoked

/-- A step does not bring a refresh of a revoked row past its checks. -/
theorem Untouched.step {row : RefreshToken} {σ₀ : State Db Ext Write Loc}
    (H : Outline.Holds (sessions h reqs) BaseInv (At h reqs) (TokenTx h reqs) σ₀ σ)
    (hrow : row ∈ σ.base.db.tokens) (hrevoked : row.revokedAt.isSome) (hu : Untouched σ row.id)
    (hs : (sessions h reqs).step σ a = some σ') : Untouched σ' row.id := by
  obtain ⟨p, hp, hfrom⟩ := loc_of_step hs
  intro q stored hrot
  by_cases hq : q = p
  · subst hq
    cases hloc : σ'.loc q with
    | rotate s user =>
      -- it has just passed its checks, so the row it has read is not revoked
      rw [hloc] at hfrom hrot
      obtain rfl := Option.some.inj hrot
      obtain ⟨hstart, hmem, hlive⟩ := hfrom
      have hat := H.assertions q
      rw [hstart] at hat
      have hmem : s ∈ σ.base.db.tokens := by
        rw [Machine.view, hat.1, Machine.applyAll_nil] at hmem
        exact hmem
      intro hid
      obtain rfl := Table.eq_of_key hmem hrow hid
      rw [hlive] at hrevoked
      cases hrevoked
    | successor s user =>
      rw [hloc] at hfrom hrot
      obtain rfl := Option.some.inj hrot
      have hbefore : σ.loc q = .rotate s user := hfrom
      exact hu q s (by rw [hbefore]; rfl)
    | rotateCommit s user t =>
      rw [hloc] at hfrom hrot
      obtain rfl := Option.some.inj hrot
      have hbefore : σ.loc q = .successor s user := hfrom
      exact hu q s (by rw [hbefore]; rfl)
    | _ =>
      rw [hloc] at hrot
      cases hrot
  · rw [(Machine.frame_of_step _ hs (Act.mover_ne hp hq)).1] at hrot
    exact hu q stored hrot

/-- A transaction does not rotate a row that nobody is about to rotate. -/
theorem Retired.commit {row : RefreshToken} {ws : List Write} (hrow : row ∈ σ.base.db.tokens)
    (hunrotated : row.rotatedAt = none) (hrevoked : row.revokedAt.isSome)
    (hu : Untouched σ row.id) (htx : TokenTx h reqs p σ.base.db σ.base.log ws)
    (hissues : ∀ t, Write.insertToken t ∈ ws → Issues (σ.loc p) ws t) :
    ∃ x ∈ (after σ.base.db ws).tokens, Later row x ∧ x.rotatedAt = none ∧ x.revokedAt.isSome := by
  cases htx with
  | createUser => exact ⟨row, hrow, Later.refl row, hunrotated, hrevoked⟩
  | @issue t hreq ht =>
    refine ⟨row, mem_after_singleton.mpr (Or.inr ⟨hrow, ?_⟩), Later.refl row, hunrotated, hrevoked⟩
    rintro t' ht'
    obtain rfl := Option.some.inj ht'
    exact (ht.fresh row hrow).1
  | @rotate token' old t at_ hreq hold hhash hrot howner ht =>
    -- the row that is rotated is the one that the refresh has read
    have hne : row.id ≠ old.id := by
      cases hissues t (List.mem_cons_of_mem _ (List.mem_singleton.mpr rfl)) with
      | opened _ _ hws => cases hws
      | @rotated stored user t' old' at' hloc _ _ hlater hws =>
        obtain ⟨hupdate, -⟩ := List.cons.inj hws
        have heq : rotated old at_ = rotated old' at' := Write.updateToken.inj hupdate
        have hid : (rotated old at_).id = (rotated old' at').id := congrArg RefreshToken.id heq
        have hid : old.id = old'.id := hid
        have hstored : stored.id ≠ row.id := hu p stored (by rw [hloc]; rfl)
        rw [hid, hlater.id]
        exact hstored.symm
    refine ⟨row, mem_after_pair.mpr (Or.inr ⟨mem_after_singleton.mpr (Or.inr ⟨hrow, ?_⟩), ?_⟩),
      Later.refl row, hunrotated, hrevoked⟩
    · rintro t' ht'
      obtain rfl := Option.some.inj ht'
      exact hne
    · rintro t' ht'
      obtain rfl := Option.some.inj ht'
      exact (ht.fresh row hrow).1
  | revoke hws =>
    obtain ⟨x, hx, hsx⟩ := (revoked_rows hws).2 row hrow
    exact ⟨x, hx, hsx.later, hsx.rotatedAt.trans hunrotated, hsx.later.revokedAt hrevoked⟩

/-- **Step lemma.** -/
theorem Retired.step {σ₀ : State Db Ext Write Loc}
    (H : Outline.Holds (sessions h reqs) BaseInv (At h reqs) (TokenTx h reqs) σ₀ σ)
    (hr : Retired h σ token) (hs : (sessions h reqs).step σ a = some σ') : Retired h σ' token := by
  obtain ⟨row, hrow, hhash, hunrotated, hrevoked, hu⟩ := hr
  have hu' := hu.step H hrow hrevoked hs
  cases dbStep_of_step H hs with
  | quiet hdb _ => exact ⟨row, hdb ▸ hrow, hhash, hunrotated, hrevoked, hu'⟩
  | commit _ htx hdb _ hissues _ =>
    obtain ⟨x, hx, hlater, hxrot, hxrev⟩ :=
      Retired.commit hrow hunrotated hrevoked hu htx hissues
    exact ⟨x, hdb ▸ hx, hlater.tokenHash.trans hhash, hxrot, hxrev, hlater.id ▸ hu'⟩

/-! ## The UPDATE of a logout -/

/-- Where a logout with a token can be. -/
def Loc.loggingOut (userId : Nat) (token : String) : Loc → Prop
  | .start | .throwing _ | .done _ => True
  | .logoutOne userId' token' => userId' = userId ∧ token' = token
  | _ => False

/-- The UPDATE of a logout is its last statement. -/
theorem logoutOne_next (userId : Nat) (token : String) (o : Oracle) (d : Db) (x : Ext) :
    (logoutOne h userId token o d x).2.2 = .done .ok := by
  unfold logoutOne
  split
  · rfl
  · split <;> rfl

/-- A logout with a token comes to its UPDATE. -/
theorem loggingOut_of_start {caller : Caller} {r : Request} {o : Oracle} {d : Db} {x : Ext}
    (hreq : r = .logout caller (some token)) :
    (start h r o d x).2.2.loggingOut caller.userId token ∧ (start h r o d x).2.2 ≠ .done .ok := by
  rw [hreq]
  show (logoutUser caller (some token) x).2.2.loggingOut caller.userId token ∧
    (logoutUser caller (some token) x).2.2 ≠ .done .ok
  unfold logoutUser
  split
  · exact ⟨⟨rfl, rfl⟩, (fun h => by cases h)⟩
  · exact ⟨trivial, (fun h => by cases h)⟩

/-- A logout with a token answers 200 after its UPDATE only. -/
theorem loggingOut_of_step {caller : Caller} (hs : (sessions h reqs).step σ a = some σ')
    (hmover : a.mover = some p) (hreq : reqs p = .logout caller (some token))
    (hl : (σ.loc p).loggingOut caller.userId token) :
    (σ'.loc p).loggingOut caller.userId token ∧
      (σ'.loc p = .done .ok → σ.loc p = .logoutOne caller.userId token ∧ ∃ o, a = .run p o) := by
  have hnext := Machine.next_of_step _ hs hmover
  generalize σ'.loc p = m at hnext ⊢
  have hfailed : (sessions h reqs).failed.loggingOut caller.userId token ∧
      ((sessions h reqs).failed = .done .ok →
        σ.loc p = .logoutOne caller.userId token ∧ ∃ o, a = .run p o) :=
    ⟨trivial, fun h => by cases h⟩
  cases hloc : σ.loc p with
  | start =>
    have hcode : (sessions h reqs).code p (σ.loc p) = .auto (start h (reqs p)) := by
      rw [hloc]
      rfl
    rcases hnext.of_auto hcode with ⟨o, -, rfl⟩ | rfl
    -- a token in the body: the UPDATE is still to come
    · obtain ⟨hstart, hne⟩ := loggingOut_of_start hreq
      exact ⟨hstart, fun hdone => absurd hdone hne⟩
    · exact hloc ▸ hfailed
  | logoutOne userId token' =>
    rw [hloc] at hl
    obtain ⟨rfl, rfl⟩ := hl
    have hcode : (sessions h reqs).code p (σ.loc p)
        = .auto (logoutOne h caller.userId token') := by
      rw [hloc]
      rfl
    rcases hnext.of_auto hcode with ⟨o, rfl, rfl⟩ | rfl
    · rw [logoutOne_next]
      exact ⟨trivial, fun _ => ⟨rfl, o, rfl⟩⟩
    · exact hloc ▸ hfailed
  | throwing e =>
    have hcode : (sessions h reqs).code p (σ.loc p) = .rollback (.done (.thrown e)) := by
      rw [hloc]
      rfl
    rcases hnext.of_rollback hcode with rfl | rfl
    · exact ⟨trivial, fun h => by cases h⟩
    · exact hloc ▸ hfailed
  | done r =>
    have hcode : (sessions h reqs).code p (σ.loc p) = .halt := by
      rw [hloc]
      rfl
    exact (hnext.of_halt hcode).elim
  | _ =>
    rw [hloc] at hl
    exact hl.elim

/-- The UPDATE retires the token, if nobody is ahead of it. -/
theorem retired_of_logoutOne {userId : Nat} {o : Oracle} {σ₀ : State Db Ext Write Loc}
    (H : Outline.Holds (sessions h reqs) BaseInv (At h reqs) (TokenTx h reqs) σ₀ σ)
    (hs : (sessions h reqs).step σ (.run p o) = some σ') (hloc : σ.loc p = .logoutOne userId token)
    (hexists : ∃ row ∈ σ.base.db.tokens, row.tokenHash = h.hashRefreshToken token)
    (hok : ∀ row ∈ σ.base.db.tokens, row.tokenHash = h.hashRefreshToken token →
      (row.userId = userId ∨ row.revokedAt.isSome) ∧ row.rotatedAt = none ∧ Untouched σ row.id) :
    Retired h σ' token := by
  have hown : own p σ.pend = [] := by
    have hat := H.assertions p
    rw [hloc] at hat
    exact hat
  have hview : (sessions h reqs).view σ p = σ.base.db := by
    rw [Machine.view, hown, Machine.applyAll_nil]
  -- the row that the UPDATE finds
  obtain ⟨row, hfind⟩ : ∃ row, σ.base.db.tokenByHash (h.hashRefreshToken token) = some row := by
    cases hfind : σ.base.db.tokenByHash (h.hashRefreshToken token) with
    | some row => exact ⟨row, rfl⟩
    | none =>
      obtain ⟨row, hrow, hhash⟩ := hexists
      have hne := Table.find?_none hfind row hrow
      rw [hhash, beq_self_eq_true] at hne
      cases hne
  obtain ⟨hrow, hhash⟩ := Table.find?_some hfind
  have hhash : row.tokenHash = h.hashRefreshToken token := eq_of_beq hhash
  obtain ⟨howner, hunrotated, hu⟩ := hok row hrow hhash
  have hcode : (sessions h reqs).code p (σ.loc p) = .auto (logoutOne h userId token) := by
    rw [hloc]
    rfl
  have hu' : ∀ {s : State Db Ext Write Loc},
      s.loc = goto σ.loc p (logoutOne h userId token o σ.base.db σ.base.world).2.2 →
      Untouched s row.id := by
    intro s heq q stored hrot
    rw [heq, logoutOne_next] at hrot
    by_cases hq : q = p
    · rw [hq, goto_self] at hrot
      cases hrot
    · rw [goto_ne _ _ hq] at hrot
      exact hu q stored hrot
  cases Machine.effect_of_step _ hs with
  | stmt hcode' => cases hcode.symm.trans hcode'
  | commit hcode' => cases hcode.symm.trans hcode'
  | rollback hcode' => cases hcode.symm.trans hcode'
  | @read _ _ f hcode' hnone =>
    obtain rfl := Instr.auto.inj (hcode.symm.trans hcode')
    rw [hview] at hnone
    have hrevoked : row.revokedAt.isSome := by
      rcases howner with howner | hrevoked
      · -- a row of the caller that is not revoked would have been written
        by_contra hlive
        have hguard : (row.userId = userId && row.revokedAt.isNone) = true := by
          simp only [howner, decide_true, Bool.true_and, Option.isNone_iff_eq_none]
          exact Option.not_isSome_iff_eq_none.mp hlive
        simp only [logoutOne, hfind, hguard, if_true] at hnone
        cases hnone
      · exact hrevoked
    exact ⟨row, hrow, hhash, hunrotated, hrevoked, hu' (by rw [hview])⟩
  | @auto _ _ f hcode' _ hsome =>
    obtain rfl := Instr.auto.inj (hcode.symm.trans hcode')
    rw [hview] at hsome
    have hwrites : (logoutOne h userId token o σ.base.db σ.base.world).1
        = [.updateToken { row with revokedAt := some o.now }] := by
      simp only [logoutOne, hfind] at hsome ⊢
      split
      · rfl
      · rename_i hguard
        rw [if_neg hguard] at hsome
        exact absurd rfl hsome
    refine ⟨{ row with revokedAt := some o.now }, ?_, hhash, hunrotated, rfl, hu' (by rw [hview])⟩
    show _ ∈ (after σ.base.db (logoutOne h userId token o
      ((sessions h reqs).view σ p) σ.base.world).1).tokens
    rw [hview, hwrites]
    exact mem_after_singleton.mpr (Or.inl rfl)

end SmartPatents.UserService

namespace SmartPatents.BrowserSessions

open Runs ReadCommitted ApiClient

/-! ## The property -/

section Property

variable (h : UserService.Helpers) (calls : Nat → Call) (reqs : Nat → UserService.Request)

/-- A logout that the server has answered 2xx has ended the session of the token that it found. -/
def LoggedOut (σ : System) : Prop :=
  ∀ c token data, calls c = .logout → σ.captured c = some token →
    σ.browser.call c = .done (.resolved data) → UserService.Ended h reqs σ.server token

/-- When the server carries out the UPDATE of a logout of this browser, the row of the token is the
    caller's or revoked, no refresh has rotated it, and none is about to. -/
def Undisturbed (σ : System) : Act → Prop
  | .server (.run p _) =>
    match σ.server.loc p with
    | .logoutOne userId token =>
      (∀ n, origin p ≠ .other n) → ∀ row ∈ σ.server.base.db.tokens,
        row.tokenHash = h.hashRefreshToken token →
          (row.userId = userId ∨ row.revokedAt.isSome) ∧ row.rotatedAt = none ∧
            UserService.Untouched σ.server row.id
    | _ => True
  | _ => True

/-- Process `p` serves a fetch of call `c`. -/
def Serves (c p : Nat) : Prop := p = (Origin.call c).process ∨ p = (Origin.retry c).process

/-- The logout has been answered 2xx. -/
def Accepted (l : CallLoc) : Prop :=
  (∃ status, l = .parsing status ∧ isOk status = true) ∨ ∃ data, l = .done (.resolved data)

/-- The fetches of a logout have the token in their body that it has found. -/
structure Carries (token : Option String) (l : CallLoc) : Prop where
  fetching : ∀ header body, l = .fetching header body → body = token
  awaiting : ∀ r body, l = .awaiting r body → body = token
  retrying : ∀ header body, l = .retrying header body → body = token

/-- Before and afterwards there is no body to carry it. -/
theorem carries_idle (token : Option String) : Carries token .idle := by
  constructor
  · intro _ _ h
    cases h
  · intro _ _ h
    cases h
  · intro _ _ h
    cases h

/-- A call that reads its body has sent its token. -/
theorem carries_parsing (token : Option String) (status : Nat) :
    Carries token (.parsing status) := by
  constructor
  · intro _ _ h
    cases h
  · intro _ _ h
    cases h
  · intro _ _ h
    cases h

theorem carries_done (token : Option String) (result : Result) : Carries token (.done result) := by
  constructor
  · intro _ _ h
    cases h
  · intro _ _ h
    cases h
  · intro _ _ h
    cases h

/-- **The invariant.** -/
structure LogoutInv (σ : System) : Prop where
  captured : ∀ c token, σ.captured c = some token → Delivered σ token
  carries : ∀ c, calls c = .logout → Carries (σ.captured c) (σ.browser.call c)
  serving : ∀ c p, calls c = .logout → Serves c p → arrives calls reqs σ p = true →
    σ.browser.call c ≠ .idle ∧ ∃ caller, reqs p = .logout caller (σ.captured c) ∧
      ∀ token, σ.captured c = some token → (σ.server.loc p).loggingOut caller.userId token ∧
        (σ.server.loc p = .done .ok → UserService.Retired h σ.server token)
  accepted : ∀ c token, calls c = .logout → σ.captured c = some token →
    Accepted (σ.browser.call c) → UserService.Retired h σ.server token

end Property

section Steps

variable {H : UserService.Helpers} {tab : Nat → Nat} {calls : Nat → Call}
  {reqs : Nat → UserService.Request} {users : Table User User.id} {nextUserId : Nat}
  {σ σ' : System} {a : Act} {β : Browser} {b : Action} {c p : Nat}

/-- A process that serves a logout runs with the token that the fetches carry. -/
theorem logout_of_awaits {token : Option String} (hcarries : Carries token (β.call c))
    (hcall : calls c = .logout) (hserves : Serves c p)
    (hawaits : awaits calls β p (reqs p) = true) :
    β.call c ≠ .idle ∧ ∃ caller, reqs p = .logout caller token := by
  rcases hserves with rfl | rfl
  · simp only [awaits, origin_process, hcall] at hawaits
    split at hawaits
    · rename_i hlogin _ _
      cases hlogin
    · rename_i hsignup _ _
      cases hsignup
    · rename_i caller body caller' body' _ hloc hreq
      obtain ⟨rfl, rfl⟩ : caller = caller' ∧ body = body' := by simpa using hawaits
      refine ⟨fun hidle => (by cases hloc.symm.trans hidle), caller, ?_⟩
      rw [hreq, hcarries.fetching _ _ hloc]
    · cases hawaits
  · simp only [awaits, origin_process, hcall] at hawaits
    split at hawaits
    · rename_i caller body caller' body' _ hloc hreq
      obtain ⟨rfl, rfl⟩ : caller = caller' ∧ body = body' := by simpa using hawaits
      refine ⟨fun hidle => (by cases hloc.symm.trans hidle), caller, ?_⟩
      rw [hreq, hcarries.retrying _ _ hloc]
    · cases hawaits

theorem LogoutInv.init : LogoutInv H calls reqs (init users nextUserId) where
  captured := by
    intro c token hc
    cases hc
  carries := fun _ _ => carries_idle none
  serving := by
    intro c p hcall hserves harrives
    rw [arrives, Bool.or_eq_true] at harrives
    rcases harrives with hawaits | hsent
    · exact absurd rfl (logout_of_awaits (carries_idle none) hcall hserves hawaits).1
    · cases hsent
  accepted := by
    rintro c token - hc
    cases hc

/-! ### The browser -/

/-- A logout captures its token as it starts, and never again. -/
theorem capture_of_ne (hb : b ≠ .start c) : capture calls σ b c = σ.captured c := by
  cases b with
  | start c' =>
    cases hcall : calls c' with
    | logout =>
      simp only [capture, hcall]
      exact goto_ne _ _ fun hc => hb (hc ▸ rfl)
    | _ => simp only [capture, hcall]
  | _ => rfl

/-- It captures the one in the store. -/
theorem capture_start (hcall : calls c = .logout) :
    capture calls σ (.start c) c = σ.browser.store.map AuthTokens.refreshToken := by
  simp only [capture, hcall, goto_self]

/-- A call that has started does not start again. -/
theorem ne_start_of_busy (hs : ApiClient.step tab calls σ.browser b = some β)
    (hbusy : σ.browser.call c ≠ .idle) : b ≠ .start c := by
  rintro rfl
  cases ApiClient.effect_of_step hs with
  | start hidle => exact hbusy hidle

/-- A logout that has been answered is done. -/
theorem finish_logout (hcall : calls c = .logout) (β : Browser) (result : Result) :
    (finish calls β c result).call c = .done result := by
  simp only [finish, hcall, goto_self]

/-- A logout that starts sends both tokens. -/
theorem start_logout (hcall : calls c = .logout) (β : Browser) :
    (start calls β c).call c = .fetching (β.store.map AuthTokens.accessToken)
      (β.store.map AuthTokens.refreshToken) := by
  simp only [start, hcall, goto_self]

/-- A call that has started has not gone back. -/
theorem busy_of_step (hs : ApiClient.step tab calls σ.browser b = some β)
    (hcall : calls c = .logout) (hbusy : σ.browser.call c ≠ .idle) : β.call c ≠ .idle := by
  intro hidle
  cases callStep_of_step hs c with
  | same _ heq => exact hbusy (heq.symm.trans hidle)
  | starts _ hbefore => exact hbusy hbefore
  | headers _ _ hloc => cases hloc.symm.trans hidle
  | waits _ hloc => cases hloc.symm.trans hidle
  | retries _ hloc => cases hloc.symm.trans hidle
  | givesUp _ hloc => cases hloc.symm.trans hidle
  | rejects _ hβ => cases (finish_logout hcall _ _).symm.trans (hβ ▸ hidle)
  | reads _ hβ => cases (finish_logout hcall _ _).symm.trans (hβ ▸ hidle)

/-- A 2xx to a logout is the answer of a process that serves it. -/
theorem serves_of_replies {status r : Nat} (hcall : calls c = .logout) (hok : isOk status = true)
    (hreplies : replies calls σ (.answer c (.response status) r) = true)
    (hbusy : (∃ header body, σ.browser.call c = .fetching header body) ∨
      ∃ header body, σ.browser.call c = .retrying header body) :
    ∃ p, Serves c p ∧ σ.server.loc p = .done .ok := by
  rcases hbusy with ⟨header, body, hloc⟩ | ⟨header, body, hloc⟩
  · simp only [replies, hcall, hok, hloc, decide_eq_true_eq] at hreplies
    exact ⟨_, Or.inl rfl, hreplies⟩
  · simp only [replies, hcall, hok, hloc, decide_eq_true_eq] at hreplies
    exact ⟨_, Or.inr rfl, hreplies⟩

/-- Wherever a logout is, it carries the token that it captured. -/
theorem Carries.client (hi : LogoutInv H calls reqs σ) (hcall : calls c = .logout)
    (hs : ApiClient.step tab calls σ.browser b = some β) :
    Carries (capture calls σ b c) (β.call c) := by
  have hcarries := hi.carries c hcall
  by_cases hb : b = .start c
  · subst hb
    cases ApiClient.effect_of_step hs with
    | start =>
      rw [capture_start hcall, start_logout hcall]
      refine ⟨fun header body heq => ?_, (fun _ _ h => by cases h), (fun _ _ h => by cases h)⟩
      exact (CallLoc.fetching.inj heq).2.symm
  · rw [capture_of_ne hb]
    cases callStep_of_step hs c with
    | same _ heq =>
      rw [heq]
      exact hcarries
    | starts hstart => exact absurd hstart hb
    | @waits header body r hloc hloc' =>
      rw [hloc']
      refine ⟨(fun _ _ h => by cases h), fun r' body' heq => ?_, (fun _ _ h => by cases h)⟩
      obtain ⟨-, rfl⟩ := CallLoc.awaiting.inj heq
      exact hcarries.fetching header body hloc
    -- the second fetch has the body of the first
    | @retries r body header hloc hloc' =>
      rw [hloc']
      refine ⟨(fun _ _ h => by cases h), (fun _ _ h => by cases h), fun header' body' heq => ?_⟩
      obtain ⟨-, rfl⟩ := CallLoc.retrying.inj heq
      exact hcarries.awaiting r body hloc
    | headers _ _ hloc => exact hloc ▸ carries_parsing _ _
    | givesUp _ hloc => exact hloc ▸ carries_parsing _ _
    | rejects _ hβ =>
      rw [hβ, finish_logout hcall]
      exact carries_done _ _
    | reads _ hβ =>
      rw [hβ, finish_logout hcall]
      exact carries_done _ _

/-- A logout is accepted when it was, or when its process has carried out the UPDATE. -/
theorem accepted_of_step {token : String} (hi : LogoutInv H calls reqs σ)
    (hw : Wired calls reqs σ) (hcall : calls c = .logout) (hreplies : replies calls σ b = true)
    (hs : ApiClient.step tab calls σ.browser b = some β)
    (hcaptured : capture calls σ b c = some token) (hacc : Accepted (β.call c)) :
    UserService.Retired H σ.server token := by
  by_cases hb : b = .start c
  · subst hb
    cases ApiClient.effect_of_step hs with
    | start =>
      rw [start_logout hcall] at hacc
      rcases hacc with ⟨status, hloc, -⟩ | ⟨data, hloc⟩
      · cases hloc
      · cases hloc
  · rw [capture_of_ne hb] at hcaptured
    have hno : ∀ {l}, β.call c = l → (∀ status, l = .parsing status → isOk status ≠ true) →
        (∀ data, l ≠ .done (.resolved data)) → UserService.Retired H σ.server token := by
      rintro l rfl hparsing hdone
      rcases hacc with ⟨status, hloc, hok⟩ | ⟨data, hloc⟩
      · exact absurd hok (hparsing status hloc)
      · exact absurd hloc (hdone data)
    cases callStep_of_step hs c with
    | same _ heq => exact hi.accepted c token hcall hcaptured (heq ▸ hacc)
    | starts hstart => exact absurd hstart hb
    | @headers status r ha hbusy hloc =>
      subst ha
      rcases hacc with ⟨status', hloc', hok⟩ | ⟨data, hloc'⟩
      · -- the 2xx comes from a process that has carried out the UPDATE
        obtain rfl := CallLoc.parsing.inj (hloc.symm.trans hloc')
        obtain ⟨p, hserves, hdone⟩ := serves_of_replies hcall hok hreplies hbusy
        have harrives : arrives calls reqs σ p = true :=
          hw.started p fun h => by cases h.symm.trans hdone
        obtain ⟨-, caller, -, hretired⟩ := hi.serving c p hcall hserves harrives
        exact (hretired token hcaptured).2 hdone
      · cases hloc.symm.trans hloc'
    | waits _ hloc => exact hno hloc (fun _ h => by cases h) (fun _ h => by cases h)
    | retries _ hloc => exact hno hloc (fun _ h => by cases h) (fun _ h => by cases h)
    | givesUp _ hloc =>
      -- the 401 of the first fetch is what is left
      refine hno hloc (fun status h hok => ?_) (fun _ h => by cases h)
      obtain rfl := CallLoc.parsing.inj h
      cases hok
    | rejects _ hβ =>
      have hloc := hβ ▸ finish_logout hcall σ.browser _
      exact hno hloc (fun _ h => by cases h) (fun _ h => by cases h)
    | @reads status json hparsing hβ =>
      have hloc : β.call c = .done (parse status json) := hβ ▸ finish_logout hcall σ.browser _
      rcases hacc with ⟨status', hloc', -⟩ | ⟨data, hloc'⟩
      · cases hloc.symm.trans hloc'
      · have hparse := CallLoc.done.inj (hloc.symm.trans hloc')
        exact hi.accepted c token hcall hcaptured
          (Or.inl ⟨status, hparsing, (success_of_parse hparse).1⟩)

/-- A step of the browser. -/
theorem LogoutInv.client (hi : LogoutInv H calls reqs σ) (hw : Wired calls reqs σ)
    (hreplies : replies calls σ b = true) (hs : ApiClient.step tab calls σ.browser b = some β)
    (hdelivered : ∀ {token}, Delivered σ token →
      Delivered ⟨β, σ.server, arrives calls reqs σ, capture calls σ b⟩ token) :
    LogoutInv H calls reqs ⟨β, σ.server, arrives calls reqs σ, capture calls σ b⟩ := by
  refine ⟨?_, fun c hcall => Carries.client hi hcall hs, ?_, ?_⟩
  · intro c token hcaptured
    have hcaptured : capture calls σ b c = some token := hcaptured
    by_cases hb : b = .start c
    · subst hb
      cases hcall : calls c with
      | logout =>
        rw [capture_start hcall] at hcaptured
        obtain ⟨tokens, hstore, rfl⟩ := Option.map_eq_some_iff.mp hcaptured
        -- what a logout finds in the store was delivered
        exact hdelivered (hw.stored tokens hstore)
      | _ =>
        simp only [capture, hcall] at hcaptured
        exact hdelivered (hi.captured c token hcaptured)
    · rw [capture_of_ne hb] at hcaptured
      exact hdelivered (hi.captured c token hcaptured)
  · intro c p hcall hserves harrives
    show β.call c ≠ .idle ∧ ∃ caller, reqs p = .logout caller (capture calls σ b c) ∧ ∀ token,
      capture calls σ b c = some token → _
    by_cases hbefore : arrives calls reqs σ p = true
    · obtain ⟨hbusy, hrest⟩ := hi.serving c p hcall hserves hbefore
      refine ⟨busy_of_step hs hcall hbusy, ?_⟩
      rw [capture_of_ne (ne_start_of_busy hs hbusy)]
      exact hrest
    · -- it has just been sent, and the server has not seen it
      have hawaits := (arrives_of_client.mp harrives).resolve_right hbefore
      obtain ⟨hbusy, caller, hreq⟩ :=
        logout_of_awaits (Carries.client hi hcall hs) hcall hserves hawaits
      have hstart : σ.server.loc p = .start := by
        by_contra hstarted
        exact hbefore (hw.started p hstarted)
      refine ⟨hbusy, caller, hreq, fun token _ => ?_⟩
      show (σ.server.loc p).loggingOut caller.userId token ∧ (σ.server.loc p = .done .ok → _)
      rw [hstart]
      exact ⟨trivial, fun h => by cases h⟩
  · intro c token hcall hcaptured hacc
    show UserService.Retired H σ.server token
    exact accepted_of_step hi hw hcall hreplies hs hcaptured hacc

/-! ### The server -/

/-- What serves a call is no stranger. -/
theorem not_other_of_serves (hserves : Serves c p) (n : Nat) : origin p ≠ .other n := by
  rcases hserves with rfl | rfl
  · rw [origin_process]
    exact fun h => by cases h
  · rw [origin_process]
    exact fun h => by cases h

/-- A step of the server. Undisturbed, the UPDATE of a logout retires its token. -/
theorem LogoutInv.server
    {s : State UserService.Db UserService.Ext UserService.Write UserService.Loc}
    {e : ReadCommitted.Act UserService.Oracle Empty} (hi : LogoutInv H calls reqs σ)
    (hids : ∀ u ∈ users, u.id < nextUserId)
    (hrun : Run (UserService.sessions H reqs).step always (UserService.init users nextUserId)
      σ.server)
    (hok : Undisturbed H σ (.server e)) (hmover : e.mover = some p)
    (hs : (UserService.sessions H reqs).step σ.server e = some s)
    (hdelivered : ∀ {token}, Delivered σ token → Delivered { σ with server := s } token) :
    LogoutInv H calls reqs { σ with server := s } := by
  have holds := UserService.reachable_holds hids hrun
  have hkept : ∀ {token}, UserService.Retired H σ.server token → UserService.Retired H s token :=
    fun hr => hr.step holds hs
  refine ⟨fun c token hc => hdelivered (hi.captured c token hc), hi.carries, ?_,
    fun c token hcall hc hacc => hkept (hi.accepted c token hcall hc hacc)⟩
  intro c q hcall hserves harrives
  obtain ⟨hbusy, caller, hreq, hpath⟩ := hi.serving c q hcall hserves harrives
  refine ⟨hbusy, caller, hreq, fun token hc => ?_⟩
  obtain ⟨hbefore, hretired⟩ := hpath token hc
  by_cases hq : q = p
  · subst hq
    have hreq : reqs q = .logout caller (some token) := hreq.trans (congrArg _ hc)
    obtain ⟨hafter, hdone⟩ := UserService.loggingOut_of_step hs hmover hreq hbefore
    refine ⟨hafter, fun hreplied => ?_⟩
    -- it has just carried out its UPDATE, and the row of a token that was delivered is there
    obtain ⟨hloc, o, rfl⟩ := hdone hreplied
    obtain ⟨p', u, c', hissued, -⟩ := hi.captured c token hc
    refine UserService.retired_of_logoutOne holds hs hloc
      (UserService.row_of_session hids hrun hissued) ?_
    simp only [Undisturbed, hloc] at hok
    exact hok (not_other_of_serves hserves)
  · show (s.loc q).loggingOut caller.userId token ∧ (s.loc q = .done .ok → _)
    rw [loc_of_server hmover hs hq]
    exact ⟨hbefore, fun hdone => hkept (hretired hdone)⟩

/-- **Step lemma.** -/
theorem LogoutInv.step (hi : LogoutInv H calls reqs σ) (hw : Wired calls reqs σ)
    (hids : ∀ u ∈ users, u.id < nextUserId)
    (hrun : Run (UserService.sessions H reqs).step always (UserService.init users nextUserId)
      σ.server)
    (hok : Undisturbed H σ a) (hs : step H tab calls reqs σ a = some σ') :
    LogoutInv H calls reqs σ' := by
  cases effect_of_step hs with
  | client hreplies hstep => exact hi.client hw hreplies hstep fun hd => hd.step hs
  | server hmover _ hstep => exact hi.server hids hrun hok hmover hstep fun hd => hd.step hs

/-- The invariant holds in every run that meets the condition. -/
theorem LogoutInv.of_run (hids : ∀ u ∈ users, u.id < nextUserId)
    (hrun : Run (BrowserSessions.step H tab calls reqs) (Undisturbed H)
      (BrowserSessions.init users nextUserId) σ) : LogoutInv H calls reqs σ :=
  hrun.invariant_reached (fun _ _ _ hrun' hi hok hs => hi.step (Wired.of_run hrun') hids
    (server_of_run hrun') hok hs) LogoutInv.init

/-- **Logging out ends the session**, as long as no refresh of its token is ahead of the UPDATE. -/
theorem loggedOut_of_run (hids : ∀ u ∈ users, u.id < nextUserId)
    (hrun : Run (BrowserSessions.step H tab calls reqs) (Undisturbed H)
      (BrowserSessions.init users nextUserId) σ) : LoggedOut H calls reqs σ := by
  intro c token data hcall hcaptured hdone
  have hretired := (LogoutInv.of_run hids hrun).accepted c token hcall hcaptured
    (Or.inr ⟨data, hdone⟩)
  exact hretired.ended (UserService.reachable_chains hids (server_of_run hrun))

end Steps

/-! ## A logout in time -/

section InTime

/-- Not the UPDATE of a logout. -/
def quiet (σ : System) : Act → Bool
  | .server (.run p _) =>
    match σ.server.loc p with
    | .logoutOne _ _ => false
    | _ => true
  | _ => true

/-- A step that is not the UPDATE of a logout meets the condition. -/
theorem undisturbed_of_quiet {H : UserService.Helpers} {σ : System} {a : Act}
    (ha : quiet σ a = true) : Undisturbed H σ a := by
  unfold quiet at ha
  unfold Undisturbed
  split
  · split
    · rename_i hloc
      simp only [hloc] at ha
      cases ha
    · trivial
  · trivial

/-- Call 0 logs in, every other call logs out. -/
def loginAndLogout (c : Nat) : Call := if c = 0 then .login else .logout

/-- The requests of these two calls, with the token that the login has delivered. -/
def oneByOne (p : Nat) : UserService.Request :=
  match origin p with
  | .call 1 => .logout alice (some "t1")
  | _ => .login "alice@example.com" "secret"

/-- One tab of a browser that logs in and out, over the server. -/
abbrev leaving : System → Act → Option System :=
  step UserService.plainHelpers (fun _ => 0) loginAndLogout oneByOne

/-- The login, and the logout up to its UPDATE. -/
def toUpdate : List Act := opening ++ [.client (.start 1), serve (.call 1) ""]

theorem toUpdate_runs :
    (execOk leaving (fun σ a => quiet σ a = true) (init UserService.aliceOnly 2) toUpdate).isSome
      = true := by
  decide

/-- The state at the UPDATE of the logout, with nothing else going on. -/
def atUpdate : System :=
  (execOk leaving (fun σ a => quiet σ a = true) (init UserService.aliceOnly 2) toUpdate).get
    toUpdate_runs

theorem update_runs : (leaving atUpdate (serve (.call 1) "")).isSome = true := by
  decide

/-- The UPDATE has revoked the row. -/
def updated : System := (leaving atUpdate (serve (.call 1) "")).get update_runs

/-- The browser gets the answer of the logout. -/
def answered : List Act :=
  [.client (.answer 1 (.response 200) 0), .client (.body 1 (.json (.success none)))]

theorem answered_runs :
    (execOk leaving (fun σ a => quiet σ a = true) updated answered).isSome = true := by
  decide

theorem atUpdate_undisturbed :
    Undisturbed UserService.plainHelpers atUpdate (serve (.call 1) "") := by
  have hloc : atUpdate.server.loc (Origin.call 1).process = .logoutOne 1 "t1" := by decide
  have hrows : atUpdate.server.base.db.tokens.rows = [UserService.firstToken] := by decide
  have hlocs : atUpdate.server.loc = goto (goto (goto (fun _ => .start) 1 (.issue UserService.alice))
      1 (.done (.session UserService.alice alice "t1"))) 5 (.logoutOne 1 "t1") := rfl
  have hu : UserService.Untouched atUpdate.server 1 := by
    intro q stored hrot
    rw [hlocs] at hrot
    by_cases h5 : q = 5
    · rw [h5, goto_self] at hrot
      cases hrot
    · rw [goto_ne _ _ h5] at hrot
      by_cases h1 : q = 1
      · rw [h1, goto_self] at hrot
        cases hrot
      · rw [goto_ne _ _ h1, goto_ne _ _ h1] at hrot
        cases hrot
  simp only [Undisturbed, serve, UserService.run, hloc]
  intro _ row hrow _
  have hrow : row ∈ atUpdate.server.base.db.tokens.rows := hrow
  rw [hrows] at hrow
  obtain rfl := List.mem_singleton.mp hrow
  exact ⟨Or.inl rfl, rfl, hu⟩

/-- Once the logout has been answered, no token of its chain is live. -/
theorem loggedOut_of_answered :
    LoggedOut UserService.plainHelpers loginAndLogout oneByOne
      ((execOk leaving (fun σ a => quiet σ a = true) updated answered).get answered_runs) := by
  have hbefore := Run.of_execOk (Option.some_get toUpdate_runs).symm
  have hafter := Run.of_execOk (Option.some_get answered_runs).symm
  have hquiet : ∀ {σ σ' : System}, Run leaving (fun σ a => quiet σ a = true) σ σ' →
      Run leaving (Undisturbed UserService.plainHelpers) σ σ' :=
    fun hrun => hrun.mono fun _ _ => undisturbed_of_quiet
  exact loggedOut_of_run (by decide) (((hquiet hbefore).tail atUpdate_undisturbed
    (Option.some_get update_runs).symm).trans (hquiet hafter))

end InTime

/-! ## A late 401 -/

section Late401

/-- Two requests, and then a logout. -/
def requestsAndLogout (c : Nat) : Call :=
  match c with
  | 0 => .login
  | 3 => .logout
  | _ => .request ⟨true, true⟩

/-- The requests of a session whose token is renewed while the user leaves. -/
def renewing (p : Nat) : UserService.Request :=
  match origin p with
  | .refresh 0 => .refresh "t1"
  | .refresh _ => .refresh "t2"
  | .call 3 => .logout alice (some "t2")
  | _ => .login "alice@example.com" "secret"

/-- The same browser, where a refresh overtakes the logout. -/
abbrev overtaking : System → Act → Option System :=
  step UserService.plainHelpers (fun _ => 0) requestsAndLogout renewing

/-- Both requests are sent with the access token of the login.  The first is refused, and the tab
    gets new tokens; then the 401 to the second arrives, and the tab refreshes once more.  The user
    logs out meanwhile, with an access token that is valid. -/
def lateRefusal : List Act :=
  opening ++
  [.client (.start 1), .client (.start 2), .client (.answer 1 (.response 401) 0)] ++
  rotation 0 "t2" ++
  [.client (.refreshed 0 (.response 200 (.json (.success (some ⟨alice, "t2"⟩))))),
   .client (.settle 0), .client (.answer 2 (.response 401) 1), .client (.start 3)] ++
  rotation 1 "t3" ++
  [serve (.call 3) "", serve (.call 3) "", .client (.answer 3 (.response 200) 2),
   .client (.body 3 (.json (.success none)))]

theorem lateRefusal_runs :
    (exec overtaking (init UserService.aliceOnly 2) lateRefusal).isSome = true := by
  decide

/-- The state after `lateRefusal`: the logout has been answered and the successor lives. -/
def stillLoggedIn : System :=
  (exec overtaking (init UserService.aliceOnly 2) lateRefusal).get lateRefusal_runs

/-- The row of the first token once it has been rotated. -/
def firstRotated : UserService.RefreshToken := UserService.rotated UserService.firstToken 0

/-- The row of its successor. -/
def second : UserService.RefreshToken := ⟨2, 1, "t2", none, none, 604800000⟩

/-- That row rotated in turn. -/
def secondRotated : UserService.RefreshToken := UserService.rotated second 0

/-- The token that survives the logout. -/
def third : UserService.RefreshToken := ⟨3, 1, "t3", none, none, 604800000⟩

/-- A refresh overtakes the UPDATE: the answer is 200, and the successor is live. -/
theorem not_loggedOut :
    ¬ ∀ (calls : Nat → Call) (reqs : Nat → UserService.Request) (σ : System),
      Run (step UserService.plainHelpers (fun _ => 0) calls reqs) always
        (init UserService.aliceOnly 2) σ →
      LoggedOut UserService.plainHelpers calls reqs σ := by
  intro hall
  have hended := hall requestsAndLogout renewing stillLoggedIn (Run.exec_get lateRefusal_runs)
    3 "t2" none rfl (by decide) (by decide)
  -- the chain of the login: t1, t2, t3
  have hfirst : UserService.Recorded stillLoggedIn.server.base.log 1 1 :=
    ⟨[.insertToken UserService.firstToken], UserService.firstToken, by decide, by decide, rfl⟩
  have hsecond : UserService.Successor UserService.plainHelpers renewing
      stillLoggedIn.server.base.db stillLoggedIn.server.base.log 1 2 :=
    ⟨firstRotated, by decide, rfl, 0, ⟨"t1", rfl, rfl⟩,
      [.updateToken firstRotated, .insertToken second], second, by decide, by decide, rfl⟩
  have hthird : UserService.Successor UserService.plainHelpers renewing
      stillLoggedIn.server.base.db stillLoggedIn.server.base.log 2 3 :=
    ⟨secondRotated, by decide, rfl, 4, ⟨"t2", rfl, rfl⟩,
      [.updateToken secondRotated, .insertToken third], third, by decide, by decide, rfl⟩
  exact hended secondRotated (by decide) rfl 1 ⟨rfl, 1, hfirst, .single hsecond⟩ third (by decide)
    ⟨rfl, 1, hfirst, (Relation.ReflTransGen.single hsecond).tail hthird⟩ ⟨rfl, rfl⟩

end Late401

end SmartPatents.BrowserSessions
