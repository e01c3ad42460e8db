/-
  Is revoke-all final?

  `changePassword`, `logoutUser` without a token and the reuse branch of `refreshSession` revoke
  every token of a user in one bulk UPDATE.  It should end every session that began before: no token
  that descends from an earlier login or signup is ever valid again.

  It does not.  A refresh reads its token before its transaction and re-checks only `rotatedAt`
  inside, so a revocation in between goes unnoticed and the successor is issued after it
  (`not_final_refresh`); a login that has compared its password issues its token whatever happened
  since.  Neither row is in the snapshot of the UPDATE.

  The result that holds: if no request of the user is past its checks when a revoke-all commits, and
  none commits a token while a revoke-all is between its snapshot and its commit (`NoOverlap`), then
  revoke-all is final (`final_of_noOverlap`).  Two invariants carry the proof.

    * `Covers` — while a revoke-all runs, the rows it still has to visit are all that is left;
    * `Final`  — afterwards, no request in flight holds on to a chain that began before.

  `Covers` is needed because the bulk UPDATE visits the rows of its snapshot one after the other,
  and may find a row locked; `Final` is what the covered rows turn into when the revoke-all
  commits, and needs no side condition from there on.

  Two schedules stand at the end: one in which the logout comes first, for which the result
  applies, and one in which the refresh goes on after it.
-/
import SmartPatents.SessionChains

namespace SmartPatents.UserService

open ReadCommitted Runs Relation

variable {h : Helpers} {reqs : Nat → Request} {p q : Nat} {d : Db} {ws : List Write}
  {log : List (Nat × List Write)} {σ σ' : State Db Ext Write Loc} {a : Act Oracle Empty}

/-! ## The property and the condition -/

/-- A request that has passed its checks and may still commit a token of the user. -/
def Loc.issuing (userId : Nat) : Loc → Prop
  | .issue user | .rotate _ user | .successor _ user | .rotateCommit _ user _ => user.id = userId
  | _ => False

/-- A revoke-all of the user between its snapshot and its commit. -/
def Loc.revoking (userId : Nat) : Loc → Prop
  | .revokeRows u _ _ _ => u = userId
  | _ => False

/-- No revoke-all commits while a request of its user is past its checks, and no token is committed
    while a revoke-all of its user is under way. -/
def NoOverlap (σ : State Db Ext Write Loc) : Act Oracle Empty → Prop
  | .run p _ =>
    match σ.loc p with
    | .revokeRows userId [] _ _ => ∀ q, ¬ (σ.loc q).issuing userId
    | .issue user | .rotateCommit _ user _ => ∀ q, ¬ (σ.loc q).revoking user.id
    | _ => True
  | _ => True

/-- Revoke-all is final: when request `r` commits a revoke-all of `userId` in `σ₁`, every token of
    that user in a chain whose login or signup had begun is revoked, then (`σ₃ = σ₂`) and later. -/
def RevokeAllFinal (h : Helpers) (reqs : Nat → Request)
    (ok : State Db Ext Write Loc → Act Oracle Empty → Prop) (σ₀ : State Db Ext Write Loc) : Prop :=
  ∀ σ₁ σ₂ σ₃ r o userId at_ reply,
    Run (sessions h reqs).step ok σ₀ σ₁ → σ₁.loc r = .revokeRows userId [] at_ reply →
    ok σ₁ (.run r o) → (sessions h reqs).step σ₁ (.run r o) = some σ₂ →
    Run (sessions h reqs).step ok σ₂ σ₃ →
    ∀ q, σ₁.loc q ≠ .start → ∀ t ∈ σ₃.base.db.tokens, t.userId = userId →
      Chain h reqs σ₃.base.db σ₃.base.log q t.id → t.revokedAt.isSome

/-! ## What one step of a session request does -/

/-- Where a request can have been before it got to a location, on the database `d` it saw. -/
def CameFrom (d : Db) (x : Ext) (l : Loc) : Loc → Prop
  | .start => False
  | .issue user => l = .start ∨ (l = .signupCreate ∧ user.id = x.nextUserId)
  | .rotate stored _ => l = .start ∧ stored ∈ d.tokens ∧ stored.revokedAt = none
  | .successor stored user => l = .rotate stored user
  | .rotateCommit stored user _ => l = .successor stored user
  | .revokeRows userId ids _ reply =>
      (l = .revokeScan userId reply ∧ ids = (liveTokens d userId).map RefreshToken.id) ∨
      ∃ i rest at_, l = .revokeRows userId (i :: rest) at_ reply
  | _ => True

/-- The first statement of a request issues no token. -/
theorem cameFrom_start {r : Request} {o : Oracle} {x : Ext} :
    CameFrom d x .start (start h r o d x).2.2 := by
  unfold start
  split
  · unfold signupUser
    split <;> trivial
  · unfold loginUser
    split
    · trivial
    · split
      · exact Or.inl rfl
      · trivial
  · unfold refreshSession
    split
    · trivial
    · rename_i stored hstored
      split
      · trivial
      · split
        · trivial
        · split
          · trivial
          · rename_i hrev
            split
            · trivial
            · exact ⟨rfl, (Table.find?_some hstored).1, by simpa using hrev⟩
  · unfold logoutUser
    split
    · split <;> trivial
    · trivial
  · unfold changePassword
    split
    · split
      · trivial
      · split <;> trivial
    · trivial

theorem cameFrom_create {r : Request} {o : Oracle} {x : Ext} :
    CameFrom d x .signupCreate (create h r o d x).2.2 := by
  unfold create
  split
  · unfold signupCreate
    dsimp only
    split
    · trivial
    · exact Or.inr ⟨rfl, rfl⟩
  · trivial

/-- Each statement goes on with what it has read or written. -/
theorem cameFrom_code {l : Loc} {f : Oracle → Db → Ext → Outcome} {o : Oracle} {x : Ext}
    (hcode : (code h reqs p l).run? = some f) : CameFrom d x l (f o d x).2.2 := by
  cases l with
  | start =>
    obtain rfl := Option.some.inj hcode
    exact cameFrom_start
  | signupCreate =>
    obtain rfl := Option.some.inj hcode
    exact cameFrom_create
  | issue user =>
    obtain rfl := Option.some.inj hcode
    rcases issueSession_cases (h := h) (o := o) user (session user) d x with
      hr | ⟨t, -, -, -, -, -, hr⟩
    · rw [hr]
      trivial
    · rw [hr]
      trivial
  | rotate stored user =>
    obtain rfl := Option.some.inj hcode
    unfold rotate
    split
    · trivial
    · split
      · exact rfl
      · trivial
  | successor stored user =>
    obtain rfl := Option.some.inj hcode
    rcases issueSession_cases (h := h) (o := o) user (.rotateCommit stored user) d x with
      hr | ⟨t, -, -, -, -, -, hr⟩
    · rw [hr]
      trivial
    · rw [hr]
      exact rfl
  | rotateCommit stored user token => nomatch hcode
  | logoutOne userId token =>
    obtain rfl := Option.some.inj hcode
    unfold logoutOne
    split
    · trivial
    · split <;> trivial
  | newPassword user hash =>
    obtain rfl := Option.some.inj hcode
    change CameFrom d x _ (newPassword user hash d x).2.2
    unfold newPassword
    split <;> trivial
  | revokeScan userId reply =>
    obtain rfl := Option.some.inj hcode
    exact Or.inl ⟨rfl, rfl⟩
  | revokeRows userId ids at_ reply =>
    cases ids with
    | nil => nomatch hcode
    | cons i ids =>
      obtain rfl := Option.some.inj hcode
      unfold revokeRow
      dsimp only
      split
      · exact Or.inr ⟨i, ids, at_, rfl⟩
      · split <;> exact Or.inr ⟨i, ids, at_, rfl⟩
  | throwing e => nomatch hcode
  | done r => nomatch hcode

/-- The mover comes from its old location. -/
theorem loc_of_step (hs : (sessions h reqs).step σ a = some σ') :
    ∃ p, a.mover = some p ∧
      CameFrom ((sessions h reqs).view σ p) σ.base.world (σ.loc p) (σ'.loc p) := by
  cases hmover : a.mover with
  | none =>
    cases a with
    | env e => cases e
    | _ => cases hmover
  | some p =>
    refine ⟨p, rfl, ?_⟩
    have hnext := Machine.next_of_step _ hs hmover
    generalize σ'.loc p = m at hnext ⊢
    cases hnext with
    | stmt hcode => exact cameFrom_code (congrArg Instr.run? hcode)
    | auto hcode => exact cameFrom_code (congrArg Instr.run? hcode)
    | commit hcode =>
      generalize σ.loc p = l at hcode ⊢
      cases commits_of_code hcode <;> trivial
    | rollback hcode =>
      obtain ⟨e, -, rfl⟩ := eq_of_rollback hcode
      trivial
    | fail => trivial

/-- The token that a refresh past its checks is about to rotate. -/
def Loc.rotating : Loc → Option RefreshToken
  | .rotate stored _ | .successor stored _ | .rotateCommit stored _ _ => some stored
  | _ => none

/-- A refresh past its checks knows its row, and may still issue a token of its user. -/
theorem presented_of_rotating {b : Base Db Ext Write} {l : Loc} {stored : RefreshToken}
    (hat : At h reqs p l b ws) (hrot : l.rotating = some stored) :
    (∃ s ∈ b.db.tokens, Later stored s) ∧ l.issuing stored.userId := by
  cases l with
  | rotate s user =>
    obtain rfl := Option.some.inj hrot
    exact ⟨hat.2.row, hat.2.owner⟩
  | successor s user =>
    obtain rfl := Option.some.inj hrot
    exact ⟨hat.1.row, hat.1.owner⟩
  | rotateCommit s user token =>
    obtain rfl := Option.some.inj hrot
    exact ⟨hat.1.row, hat.1.owner⟩
  | _ => cases hrot

/-- A transaction `ws` inserts the token `t` at location `l`. -/
inductive Issues (l : Loc) (ws : List Write) (t : RefreshToken) : Prop
  | opened {user} (hloc : l = .issue user) (howner : t.userId = user.id)
      (hws : ws = [.insertToken t])
  | rotated {stored user token old at_} (hloc : l = .rotateCommit stored user token)
      (howner : t.userId = user.id) (huser : user.id = stored.userId) (hold : Later stored old)
      (hws : ws = [.updateToken (rotated old at_), .insertToken t])

/-- What a step does to the database. -/
inductive DbStep (h : Helpers) (reqs : Nat → Request) (σ : State Db Ext Write Loc)
    (a : Act Oracle Empty) (σ' : State Db Ext Write Loc) : Prop
  | quiet (hdb : σ'.base.db = σ.base.db) (hlog : σ'.base.log = σ.base.log)
  | commit {p o ws} (hmover : a = .run p o) (htx : TokenTx h reqs p σ.base.db σ.base.log ws)
      (hdb : σ'.base.db = after σ.base.db ws) (hlog : σ'.base.log = σ.base.log ++ [(p, ws)])
      (hissues : ∀ t, Write.insertToken t ∈ ws → Issues (σ.loc p) ws t)
      (hnext : (σ'.loc p).rotating = none)

/-- The first statement of a request writes nothing. -/
theorem start_writes {r : Request} {o : Oracle} {x : Ext} : (start h r o d x).1 = [] := by
  unfold start
  split
  · unfold signupUser
    split <;> rfl
  · unfold loginUser
    split
    · rfl
    · split <;> rfl
  · unfold refreshSession
    split
    · rfl
    · split
      · rfl
      · split
        · rfl
        · split
          · rfl
          · split <;> rfl
  · unfold logoutUser
    split
    · split <;> rfl
    · rfl
  · unfold changePassword
    split
    · split
      · rfl
      · split <;> rfl
    · rfl

/-- A statement outside a transaction inserts a token only at `issue`, and none that writes leads
    to a rotation. -/
theorem issues_of_auto {l : Loc} {f : Oracle → Db → Ext → Outcome} {o : Oracle} {x : Ext}
    (hcode : code h reqs p l = .auto f) (hsome : (f o d x).1 ≠ []) :
    (∀ t, Write.insertToken t ∈ (f o d x).1 → Issues l (f o d x).1 t) ∧
    (f o d x).2.2.rotating = none := by
  cases l with
  | start =>
    obtain rfl := Instr.auto.inj hcode
    exact absurd start_writes hsome
  | signupCreate =>
    obtain rfl := Instr.auto.inj hcode
    revert hsome
    unfold create
    split
    · unfold signupCreate
      dsimp only
      split
      · exact fun hsome => absurd rfl hsome
      · exact fun _ => ⟨fun t ht => by simp at ht, rfl⟩
    · exact fun hsome => absurd rfl hsome
  | issue user =>
    obtain rfl := Instr.auto.inj hcode
    rcases issueSession_cases (h := h) (o := o) user (session user) d x with
      hr | ⟨s, -, howner, -, -, -, hr⟩ <;> rw [hr] at hsome ⊢
    · exact absurd rfl hsome
    · refine ⟨fun t ht => ?_, rfl⟩
      obtain rfl : t = s := by simpa using ht
      exact .opened rfl howner rfl
  | logoutOne userId token =>
    obtain rfl := Instr.auto.inj hcode
    revert hsome
    unfold logoutOne
    split
    · exact fun hsome => absurd rfl hsome
    · split
      · exact fun _ => ⟨fun t ht => by simp at ht, rfl⟩
      · exact fun hsome => absurd rfl hsome
  | revokeRows userId ids at_ reply => cases ids <;> nomatch hcode
  | _ => nomatch hcode

/-- A commit inserts a token only at `rotateCommit`. -/
theorem issues_of_commit {b : Base Db Ext Write} {l l' : Loc}
    (hcode : code h reqs p l = .commit l') (hat : At h reqs p l b ws) :
    (∀ t, Write.insertToken t ∈ ws → Issues l ws t) ∧ l'.rotating = none := by
  cases commits_of_code hcode with
  | rotation =>
    obtain ⟨hpres, vs, t, ⟨old, at_, -, hlater, -, rfl⟩, -, huser, -, rfl⟩ := hat
    refine ⟨fun s hs => ?_, rfl⟩
    obtain rfl : s = t := by simpa using hs
    exact .rotated rfl (huser.trans hpres.owner.symm) hpres.owner hlater rfl
  | revocation => exact ⟨fun t ht => absurd ht (no_insert_of_revokes hat.1 t), rfl⟩

/-- What a step does to the tables. -/
theorem dbStep_of_step {σ₀ : State Db Ext Write Loc}
    (H : Outline.Holds (sessions h reqs) BaseInv (At h reqs) (TokenTx h reqs) σ₀ σ)
    (hs : (sessions h reqs).step σ a = some σ') : DbStep h reqs σ a σ' := by
  have O := outline h reqs
  cases Machine.effect_of_step _ hs with
  | stmt => exact .quiet rfl rfl
  | read => exact .quiet rfl rfl
  | rollback => exact .quiet rfl rfl
  | fail => exact .quiet rfl rfl
  | @env e => nomatch e
  | @auto p o f hcode hfree hsome =>
    have hidle := O.idle hcode (H.assertions p)
    simp only [Machine.view, hidle, Machine.applyAll_nil] at hfree hsome ⊢
    obtain ⟨-, ⟨hnone, -⟩ | ⟨-, -, htx, -⟩⟩ :=
      O.auto (o := o) hcode trivial H.inv (hidle ▸ H.assertions p)
    · exact absurd hnone hsome
    · obtain ⟨hissues, hnext⟩ := issues_of_auto hcode hsome
      exact .commit rfl htx rfl rfl hissues (by simpa using hnext)
  | @commit p o l hcode =>
    obtain ⟨hissues, hnext⟩ := issues_of_commit hcode (H.assertions p)
    obtain ⟨-, htx, -⟩ := O.commit hcode trivial H.inv (H.assertions p)
    exact .commit rfl htx rfl rfl hissues (by simpa using hnext)

/-! ## While a revoke-all runs -/

/-- The rows of the user that are not revoked are among `ids`. -/
def Covers (userId : Nat) (ids : List Nat) (d : Db) : Prop :=
  ∀ t ∈ d.tokens, t.userId = userId → t.revokedAt = none → t.id ∈ ids

/-- One row of the bulk UPDATE: it is off the list, and revoked if it has to be. -/
theorem covers_revokeRow {userId i : Nat} {ids : List Nat} {at_ : Time} {reply : Reply} {o : Oracle}
    {x : Ext} (hcov : Covers userId (i :: ids) d) {userId' : Nat} {ids' : List Nat} {at' : Time}
    {reply' : Reply}
    (hnext : (revokeRow userId i ids at_ reply o d x).2.2 = .revokeRows userId' ids' at' reply') :
    Covers userId' ids' (after d (revokeRow userId i ids at_ reply o d x).1) := by
  -- `j` is the row visited; everything else stays on the list
  have herase : ∀ {j} (t : RefreshToken), t.id ∈ i :: ids → t.id ≠ j → t.id ∈ (i :: ids).erase j :=
    fun t hmem hne => (List.mem_erase_of_ne hne).mpr hmem
  revert hnext
  unfold revokeRow
  dsimp only
  generalize (if o.row ∈ ids then o.row else i) = j
  split
  · rename_i hnone
    intro hnext
    obtain ⟨rfl, rfl, rfl, rfl⟩ := Loc.revokeRows.inj hnext
    exact fun t ht hu hrev => herase t (hcov t ht hu hrev) (Table.get?_eq_none.mp hnone t ht)
  · rename_i row hrow
    obtain ⟨hmem, hid⟩ := Table.get?_eq_some.mp hrow
    split
    · intro hnext
      obtain ⟨rfl, rfl, rfl, rfl⟩ := Loc.revokeRows.inj hnext
      intro t ht hu hrev
      rcases mem_after_singleton.mp ht with ht | ⟨ht, hne⟩
      · obtain rfl := Option.some.inj ht
        nomatch hrev
      · exact herase t (hcov t ht hu hrev) fun hj =>
          hne { row with revokedAt := some at_ } rfl (hj.trans hid.symm)
    · rename_i hguard
      intro hnext
      obtain ⟨rfl, rfl, rfl, rfl⟩ := Loc.revokeRows.inj hnext
      intro t ht hu hrev
      refine herase t (hcov t ht hu hrev) fun hj => hguard ?_
      obtain rfl : t = row := Table.eq_of_key ht hmem (hj.trans hid.symm)
      simp [hu, hrev]

/-- A row after some writes is one of them, or an old row that none of them touches. -/
theorem mem_after_cases {x : RefreshToken} : ∀ (ws : List Write) {d : Db}, x ∈ (after d ws).tokens →
    (∃ w ∈ ws, w.token? = some x) ∨
    (x ∈ d.tokens ∧ ∀ w ∈ ws, ∀ t, w.token? = some t → x.id ≠ t.id)
  | [], _, hx => Or.inr ⟨hx, fun w hw => nomatch hw⟩
  | w :: ws, d, hx => by
      rcases mem_after_cases ws (d := apply d w) hx with ⟨v, hv, hvx⟩ | ⟨hx, hno⟩
      · exact Or.inl ⟨v, List.mem_cons_of_mem w hv, hvx⟩
      · rcases mem_tokens_apply.mp hx with hw | ⟨hx, hw⟩
        · exact Or.inl ⟨w, List.mem_cons_self, hw⟩
        · refine Or.inr ⟨hx, fun v hv => ?_⟩
          rcases List.mem_cons.mp hv with rfl | hv
          · exact hw
          · exact hno v hv

/-- A row that revocations leave unrevoked is untouched by them. -/
theorem untouched_of_unrevoked {x : RefreshToken} {d₀ : Db} (hws : ∀ w ∈ ws, Revokes d₀ w)
    (hx : x ∈ (after d ws).tokens) (hrev : x.revokedAt = none) :
    x ∈ d.tokens ∧ ∀ w ∈ ws, ∀ t, w.token? = some t → x.id ≠ t.id := by
  rcases mem_after_cases ws hx with ⟨w, hw, hwx⟩ | hold
  · rcases hws w hw with ⟨u, rfl, -⟩ | ⟨old, -, at_, -, rfl⟩
    · nomatch hwx
    · obtain rfl := Option.some.inj hwx
      nomatch hrev
  · exact hold

/-- The commit of another request that inserts no token of the user keeps the cover. -/
theorem Covers.other {userId : Nat} {ids : List Nat} {vs : List Write}
    (hcov : Covers userId ids (after d ws))
    (htx : TokenTx h reqs q d log vs) (hws : ∀ w ∈ ws, Revokes (after d vs) w)
    (hno : ∀ t, Write.insertToken t ∈ vs → t.userId ≠ userId) :
    Covers userId ids (after (after d vs) ws) := by
  intro t ht hu hrev
  obtain ⟨ht, hno'⟩ := untouched_of_unrevoked hws ht hrev
  rcases htx.back ht with ⟨s, hs, hlater⟩ | hins
  · have hsrev : s.revokedAt = none := by
      cases hsome : s.revokedAt with
      | none => rfl
      | some at_ =>
        have := hlater.revokedAt (by rw [hsome]; rfl)
        rw [hrev] at this
        nomatch this
    rw [hlater.id]
    refine hcov s (mem_after_of_untouched ws hs fun w hw x hx => ?_) (hlater.userId ▸ hu) hsrev
    rw [← hlater.id]
    exact hno' w hw x hx
  · exact absurd hu (hno t hins)

/-- Every revoke-all under way covers the rows of its user. -/
def AllCovered (h : Helpers) (reqs : Nat → Request) (σ : State Db Ext Write Loc) : Prop :=
  ∀ r userId ids at_ reply, σ.loc r = .revokeRows userId ids at_ reply →
    Covers userId ids ((sessions h reqs).view σ r)

/-- The mover itself: it takes its snapshot, or visits a row. -/
theorem covers_of_mover {r userId : Nat} {o : Oracle} {ids : List Nat} {at_ : Time} {reply : Reply}
    (hc : AllCovered h reqs σ) (hs : (sessions h reqs).step σ (.run r o) = some σ')
    (hloc : σ'.loc r = .revokeRows userId ids at_ reply) :
    Covers userId ids ((sessions h reqs).view σ' r) := by
  obtain ⟨p, hp, hfrom⟩ := loc_of_step hs
  obtain rfl : r = p := Option.some.inj hp
  rw [hloc] at hfrom
  rcases hfrom with ⟨hl, rfl⟩ | ⟨i, rest, at', hl⟩
  · have hcode : (sessions h reqs).code r (σ.loc r) = .stmt (revokeScan userId reply) := by
      rw [hl]; rfl
    have hview : (sessions h reqs).view σ' r = (sessions h reqs).view σ r := by
      rw [Machine.stmt_of_step _ hcode hs]
      simp [Machine.view, revokeScan, goOn]
    rw [hview]
    intro t ht hu hrev
    exact List.mem_map.mpr ⟨t, List.mem_filter.mpr ⟨ht, by simp [hu, hrev]⟩, rfl⟩
  · have hcode : (sessions h reqs).code r (σ.loc r)
        = .stmt (revokeRow userId i rest at' reply) := by
      rw [hl]; rfl
    have hσ' := Machine.stmt_of_step _ hcode hs
    have hview : (sessions h reqs).view σ' r = after ((sessions h reqs).view σ r)
        (revokeRow userId i rest at' reply o ((sessions h reqs).view σ r) σ.base.world).1 := by
      rw [hσ']
      simp only [Machine.view, own_append_self, Machine.applyAll_append]
      rfl
    have hnext : (revokeRow userId i rest at' reply o ((sessions h reqs).view σ r) σ.base.world).2.2
        = .revokeRows userId ids at_ reply := by
      rw [hσ'] at hloc
      simpa using hloc
    rw [hview]
    exact covers_revokeRow (hc r userId (i :: rest) at' reply hl) hnext

/-- **Step lemma** for the cover: this is what the second half of `NoOverlap` is for. -/
theorem allCovered_step {σ₀ : State Db Ext Write Loc}
    (H : Outline.Holds (sessions h reqs) BaseInv (At h reqs) (TokenTx h reqs) σ₀ σ)
    (H' : Outline.Holds (sessions h reqs) BaseInv (At h reqs) (TokenTx h reqs) σ₀ σ')
    (hc : AllCovered h reqs σ) (hok : NoOverlap σ a)
    (hs : (sessions h reqs).step σ a = some σ') : AllCovered h reqs σ' := by
  intro r userId ids at_ reply hloc
  obtain ⟨p, hp, hfrom⟩ := loc_of_step hs
  by_cases hrp : r = p
  · subst hrp
    cases a with
    | run r o =>
      obtain rfl := Option.some.inj hp
      exact covers_of_mover hc hs hloc
    | fail r =>
      -- a request that fails is not at `revokeRows` afterwards
      obtain rfl := Option.some.inj hp
      cases Machine.effect_of_step _ hs with
      | fail hcode =>
        simp only [goto_self] at hloc
        nomatch hloc
    | env e => nomatch e
  · obtain ⟨hstay, hown⟩ := Machine.frame_of_step _ hs (Act.mover_ne hp hrp)
    have hlr : σ.loc r = .revokeRows userId ids at_ reply := hstay ▸ hloc
    have hcov := hc r userId ids at_ reply hlr
    have hat' := H'.assertions r
    rw [hloc] at hat'
    simp only [Machine.view, hown]
    cases dbStep_of_step H hs with
    | quiet hdb hlog =>
      rw [hdb]
      exact hcov
    | @commit q o vs hq htx hdb hlog hissues hnext =>
      subst hq
      rw [hdb]
      refine hcov.other htx (fun w hw => ?_) fun t ht hu => ?_
      · rw [← hdb]
        exact hat'.1 w (hown ▸ hw)
      · cases hissues t ht with
        | opened hl howner hws =>
          simp only [NoOverlap, hl] at hok
          exact hok r (by rw [hlr]; exact hu.symm.trans howner)
        | rotated hl howner huser hold hws =>
          simp only [NoOverlap, hl] at hok
          exact hok r (by rw [hlr]; exact hu.symm.trans howner)

/-! ## After a revoke-all has committed -/

/-- The token with id `i` is in a chain that had begun. -/
def FromBegun (h : Helpers) (reqs : Nat → Request) (begun : Nat → Prop) (d : Db)
    (log : List (Nat × List Write)) (i : Nat) : Prop :=
  ∃ q, begun q ∧ Chain h reqs d log q i

/-- Nothing can bring a chain of the user back that belongs to a request in `begun`. -/
structure Final (h : Helpers) (reqs : Nat → Request) (begun : Nat → Prop) (userId : Nat)
    (σ : State Db Ext Write Loc) : Prop where
  account : Account σ.base.db userId
  started : ∀ q, begun q → σ.loc q ≠ .start
  issuing : ∀ q user, begun q → σ.loc q = .issue user → user.id ≠ userId
  rotating : ∀ q stored, (σ.loc q).rotating = some stored → stored.userId = userId →
    ¬ FromBegun h reqs begun σ.base.db σ.base.log stored.id
  revoked : ∀ t ∈ σ.base.db.tokens, t.userId = userId →
    FromBegun h reqs begun σ.base.db σ.base.log t.id → t.revokedAt.isSome

/-- What a transaction inserts is new, and it opens a chain or replaces the token just rotated. -/
theorem TokenTx.inserted (htx : TokenTx h reqs p d log ws) {t : RefreshToken}
    (ht : Write.insertToken t ∈ ws) :
    Insertable d t ∧
    (((reqs p).opens ∧ ws = [.insertToken t]) ∨
      ∃ token old at_, reqs p = .refresh token ∧ old ∈ d.tokens ∧
        old.tokenHash = h.hashRefreshToken token ∧
        ws = [.updateToken (rotated old at_), .insertToken t]) := by
  cases htx with
  | createUser => simp at ht
  | issue ho hins hnone =>
    obtain rfl := by simpa using ht
    exact ⟨hins, Or.inl ⟨ho, rfl⟩⟩
  | @rotate token old _ at_ hreq hold hhash hrot howner hins =>
    obtain rfl := by simpa using ht
    exact ⟨hins, Or.inr ⟨token, old, at_, hreq, hold, hhash, rfl⟩⟩
  | revoke hws => exact absurd ht (no_insert_of_revokes hws t)

/-- Every token of a chain is in the table. -/
theorem ChainInv.mem_of_chain (hinv : ChainInv h reqs d log) {j : Nat}
    (hc : Chain h reqs d log q j) : ∃ t ∈ d.tokens, t.id = j := by
  obtain ⟨-, i, hi, hdesc⟩ := hc
  cases hdesc with
  | refl => exact hinv.recorded hi
  | tail _ hsucc =>
    obtain ⟨-, -, -, p, -, hj⟩ := hsucc
    exact hinv.recorded hj

/-- A successor is an old one, or the token just inserted for the one just rotated. -/
theorem successor_back (hinv : ChainInv h reqs d log)
    (htx : TokenTx h reqs p d log ws) {i j : Nat}
    (hs : Successor h reqs (after d ws) (log ++ [(p, ws)]) i j) :
    Successor h reqs d log i j ∨
    ∃ old at_ t, ws = [.updateToken (rotated old at_), .insertToken t] ∧ old ∈ d.tokens ∧
      i = old.id ∧ j = t.id := by
  obtain ⟨x, hx, rfl, r, hpres, hrec⟩ := hs
  rcases recorded_concat.mp hrec with hrec | ⟨rfl, t, ht, rfl⟩
  · rcases htx.back hx with ⟨s, hs, hlater⟩ | hins
    · exact Or.inl ⟨s, hs, hlater.id.symm, r, (Presents.congr hlater.tokenHash).mp hpres, hrec⟩
    · exact absurd ⟨hpres, hrec⟩
        (hinv.not_exchanged fun s hs => ((htx.inserted hins).1.fresh s hs).2)
  · have hinv' := hinv.commit htx
    rcases (htx.inserted ht).2 with ⟨ho, -⟩ | ⟨token, old, at_, hreq, hold, hhash, hws⟩
    · exact absurd hpres (not_presents_of_opens ho)
    · refine Or.inr ⟨old, at_, t, hws, hold, ?_, rfl⟩
      -- `x` was presented with the hash of `old`, and a hash belongs to one row
      have hxold : x.tokenHash = old.tokenHash := hpres.hash_eq ⟨token, hreq, hhash⟩
      obtain ⟨y, hy, hlater⟩ := htx.forth hold
      rw [hinv'.hash x hx y hy (hxold.trans hlater.tokenHash.symm), hlater.id]

/-- A chain grows only by the token of its login or signup and by rotation of its own tokens. -/
theorem chain_back (hinv : ChainInv h reqs d log) (htx : TokenTx h reqs p d log ws) {j : Nat}
    (hc : Chain h reqs (after d ws) (log ++ [(p, ws)]) q j) :
    Chain h reqs d log q j ∨
    (∃ t, ws = [.insertToken t] ∧ p = q ∧ j = t.id) ∨
    ∃ old at_ t, ws = [.updateToken (rotated old at_), .insertToken t] ∧ j = t.id ∧
      Chain h reqs d log q old.id := by
  obtain ⟨ho, i, hi, hdesc⟩ := hc
  induction hdesc with
  | refl =>
    rcases recorded_concat.mp hi with hi | ⟨rfl, t, ht, rfl⟩
    · exact Or.inl ⟨ho, i, hi, .refl⟩
    · rcases (htx.inserted ht).2 with ⟨-, hws⟩ | ⟨token, old, at_, hreq, -⟩
      · exact Or.inr (Or.inl ⟨t, hws, rfl, rfl⟩)
      · rw [hreq] at ho
        nomatch ho
  | @tail k j _ hsucc ih =>
    -- the new token has a fresh id, so it is the successor of nothing yet
    have hnew : ∀ t, Write.insertToken t ∈ ws → k = t.id →
        Successor h reqs (after d ws) (log ++ [(p, ws)]) k j → False := by
      intro t ht hk hs
      have hfresh := (htx.inserted ht).1.fresh
      rcases successor_back hinv htx hs with ⟨s, hs, hid, -⟩ | ⟨old, at_, t', -, hold, hid, -⟩
      · exact (hfresh s hs).1 (hid.trans hk)
      · exact (hfresh old hold).1 (hid.symm.trans hk)
    rcases ih with ⟨-, i', hi', hdesc'⟩ | ⟨t, hws, -, hk⟩ | ⟨old, at_, t, hws, hk, -⟩
    · rcases successor_back hinv htx hsucc with hold | ⟨old, at_, t, hws, -, hk, hj⟩
      · exact Or.inl ⟨ho, i', hi', hdesc'.tail hold⟩
      · exact Or.inr (Or.inr ⟨old, at_, t, hws, hj, ho, i', hi', hk ▸ hdesc'⟩)
    · exact (hnew t (by simp [hws]) hk hsucc).elim
    · exact (hnew t (by simp [hws]) hk hsucc).elim

/-- A token in the table stays in, or out of, the chains that had begun. -/
theorem fromBegun_back {begun : Nat → Prop} (hinv : ChainInv h reqs d log)
    (htx : TokenTx h reqs p d log ws) {s : RefreshToken} (hs : s ∈ d.tokens)
    (hf : FromBegun h reqs begun (after d ws) (log ++ [(p, ws)]) s.id) :
    FromBegun h reqs begun d log s.id := by
  obtain ⟨q, hq, hc⟩ := hf
  rcases chain_back hinv htx hc with hc | ⟨t, rfl, -, hid⟩ | ⟨old, at_, t, rfl, hid, -⟩
  · exact ⟨q, hq, hc⟩
  · exact absurd hid ((htx.inserted (by simp)).1.fresh s hs).1
  · exact absurd hid ((htx.inserted (by simp)).1.fresh s hs).1

/-- A token that a transaction inserts into a chain that had begun: either a request in `begun`
    issued it, or it comes from a token of such a chain. -/
theorem fromBegun_inserted {begun : Nat → Prop} (hinv : ChainInv h reqs d log)
    (htx : TokenTx h reqs p d log ws) {t : RefreshToken} (ht : Write.insertToken t ∈ ws)
    (hf : FromBegun h reqs begun (after d ws) (log ++ [(p, ws)]) t.id) :
    (begun p ∧ ws = [.insertToken t]) ∨
    ∃ old at_, ws = [.updateToken (rotated old at_), .insertToken t] ∧
      FromBegun h reqs begun d log old.id := by
  obtain ⟨q, hq, hc⟩ := hf
  rcases chain_back hinv htx hc with hc' | ⟨t', rfl, rfl, -⟩ | ⟨old, at_, t', rfl, -, hc'⟩
  · obtain ⟨s, hs, hid⟩ := hinv.mem_of_chain hc'
    exact absurd hid ((htx.inserted ht).1.fresh s hs).1
  · obtain rfl : t = t' := by simpa using ht
    exact Or.inl ⟨hq, rfl⟩
  · obtain rfl : t = t' := by simpa using ht
    exact Or.inr ⟨old, at_, rfl, q, hq, hc'⟩

section Final

variable {begun : Nat → Prop} {userId : Nat} {σ₀ : State Db Ext Write Loc}

/-- No request in `begun` gets to issue a token for the user: a signup creates a new account. -/
theorem Final.issuing_step (hf : Final h reqs begun userId σ)
    (H : Outline.Holds (sessions h reqs) BaseInv (At h reqs) (TokenTx h reqs) σ₀ σ)
    (hs : (sessions h reqs).step σ a = some σ') (user : User) (hq : begun q)
    (hl : σ'.loc q = .issue user) : user.id ≠ userId := by
  obtain ⟨p, hp, hfrom⟩ := loc_of_step hs
  by_cases hqp : q = p
  · subst hqp
    rw [hl] at hfrom
    rcases hfrom with hstart | ⟨-, hid⟩
    · exact absurd hstart (hf.started q hq)
    · obtain ⟨u, hu, huid⟩ := hf.account
      have hlt := H.inv.userId u hu
      omega
  · have hstay := (Machine.frame_of_step _ hs (Act.mover_ne hp hqp)).1
    exact hf.issuing q user hq (hstay ▸ hl)

/-- No refresh of the user gets past its checks with a token of a chain that had begun. -/
theorem Final.rotating_step (hf : Final h reqs begun userId σ)
    (H : Outline.Holds (sessions h reqs) BaseInv (At h reqs) (TokenTx h reqs) σ₀ σ)
    (hinv : ChainInv h reqs σ.base.db σ.base.log)
    (hs : (sessions h reqs).step σ a = some σ') {stored : RefreshToken}
    (hrot : (σ'.loc q).rotating = some stored) (hu : stored.userId = userId) :
    ¬ FromBegun h reqs begun σ'.base.db σ'.base.log stored.id := by
  obtain ⟨p, hp, hfrom⟩ := loc_of_step hs
  have hdb := dbStep_of_step H hs
  by_cases hqp : q = p
  · subst hqp
    cases hdb with
    | commit hmover htx hdb hlog hissues hnext =>
      subst hmover
      obtain rfl := Option.some.inj hp
      rw [hrot] at hnext
      cases hnext
    | quiet hdb hlog =>
      rw [hdb, hlog]
      cases hl : σ'.loc q with
      | rotate s user =>
        rw [hl] at hrot hfrom
        obtain rfl := Option.some.inj hrot
        obtain ⟨hstart, hmem, hrev⟩ := hfrom
        have hat := H.assertions q
        rw [hstart] at hat
        simp only [Machine.view, hat.1, Machine.applyAll_nil] at hmem
        intro hold
        have hsome := hf.revoked s hmem hu hold
        rw [hrev] at hsome
        cases hsome
      | successor s user =>
        rw [hl] at hrot hfrom
        exact hf.rotating q stored ((congrArg Loc.rotating hfrom).trans hrot) hu
      | rotateCommit s user token =>
        rw [hl] at hrot hfrom
        exact hf.rotating q stored ((congrArg Loc.rotating hfrom).trans hrot) hu
      | _ => rw [hl] at hrot; cases hrot
  · rw [(Machine.frame_of_step _ hs (Act.mover_ne hp hqp)).1] at hrot
    have hno := hf.rotating q stored hrot hu
    cases hdb with
    | quiet hdb hlog =>
      rw [hdb, hlog]
      exact hno
    | commit hmover htx hdb hlog hissues hnext =>
      -- the row of `stored` is in the table
      obtain ⟨⟨s, hs', hlater⟩, -⟩ := presented_of_rotating (H.assertions q) hrot
      rw [hdb, hlog, ← hlater.id]
      intro hold
      exact hno (hlater.id ▸ fromBegun_back hinv htx hs' hold)

/-- The tokens of the chains that had begun stay revoked, and none is added. -/
theorem Final.revoked_step (hf : Final h reqs begun userId σ)
    (H : Outline.Holds (sessions h reqs) BaseInv (At h reqs) (TokenTx h reqs) σ₀ σ)
    (hinv : ChainInv h reqs σ.base.db σ.base.log)
    (hs : (sessions h reqs).step σ a = some σ') {t : RefreshToken} (ht : t ∈ σ'.base.db.tokens)
    (hu : t.userId = userId) (hold : FromBegun h reqs begun σ'.base.db σ'.base.log t.id) :
    t.revokedAt.isSome := by
  cases dbStep_of_step H hs with
  | quiet hdb hlog =>
    rw [hdb] at ht
    rw [hdb, hlog] at hold
    exact hf.revoked t ht hu hold
  | commit hmover htx hdb hlog hissues hnext =>
    rw [hdb] at ht
    rw [hdb, hlog] at hold
    rcases htx.back ht with ⟨s, hs', hlater⟩ | hins
    · rw [hlater.id] at hold
      exact hlater.revokedAt
        (hf.revoked s hs' (hlater.userId ▸ hu) (fromBegun_back hinv htx hs' hold))
    · cases hissues t hins with
      | opened hl howner hws =>
        rcases fromBegun_inserted hinv htx hins hold with ⟨hbegun, -⟩ | ⟨old, at_, hws', -⟩
        · exact absurd (howner.symm.trans hu) (hf.issuing _ _ hbegun hl)
        · rw [hws] at hws'
          nomatch hws'
      | rotated hl howner huser hlater hws =>
        rcases fromBegun_inserted hinv htx hins hold with ⟨-, hws'⟩ | ⟨old, at_, hws', hfrom⟩
        · rw [hws] at hws'
          nomatch hws'
        · rw [hws] at hws'
          obtain ⟨hold', -⟩ := List.cons.inj hws'
          have hid : old.id = _ :=
            (congrArg RefreshToken.id (Write.updateToken.inj hold')).symm.trans hlater.id
          refine absurd (hid ▸ hfrom) (hf.rotating _ _ (by rw [hl]; rfl) ?_)
          exact (huser.symm.trans howner.symm).trans hu

/-- **Step lemma** for `Final`; no side condition is needed any more. -/
theorem Final.step (hf : Final h reqs begun userId σ)
    (H : Outline.Holds (sessions h reqs) BaseInv (At h reqs) (TokenTx h reqs) σ₀ σ)
    (hinv : ChainInv h reqs σ.base.db σ.base.log)
    (hs : (sessions h reqs).step σ a = some σ') : Final h reqs begun userId σ' where
  account := by
    cases dbStep_of_step H hs with
    | quiet hdb hlog => exact hdb ▸ hf.account
    | commit hmover htx hdb => exact hdb ▸ hf.account.after _
  started := by
    intro q hq hl
    obtain ⟨p, hp, hfrom⟩ := loc_of_step hs
    by_cases hqp : q = p
    · subst hqp
      rw [hl] at hfrom
      exact hfrom
    · have hstay := (Machine.frame_of_step _ hs (Act.mover_ne hp hqp)).1
      exact hf.started q hq (hstay ▸ hl)
  issuing := fun q user hq hl => hf.issuing_step H hs user hq hl
  rotating := fun q stored hrot hu => hf.rotating_step H hinv hs hrot hu
  revoked := fun t ht hu hold => hf.revoked_step H hinv hs ht hu hold

end Final

/-! ## The result -/

section Result

variable {users : Table User User.id} {nextUserId : Nat}

/-- In every run without overlap, a revocation covers every token that is live. -/
theorem allCovered_of_run (hids : ∀ u ∈ users, u.id < nextUserId)
    (hrun : Run (sessions h reqs).step NoOverlap (init users nextUserId) σ) :
    AllCovered h reqs σ := by
  refine hrun.invariant_reached (fun σ a σ' hr hcov hok hs => ?_)
    fun r userId ids at_ reply hl => nomatch hl
  have hholds := reachable_holds hids hr.forget
  have hholds' := reachable_holds hids (hr.forget.tail trivial hs)
  exact allCovered_step hholds hholds' hcov hok hs

/-- The commit of a revoke-all, with nothing in flight, makes the chains that had begun final. -/
theorem final_of_commit (hids : ∀ u ∈ users, u.id < nextUserId) {σ₁ σ₂ : State Db Ext Write Loc}
    {r userId : Nat} {o : Oracle} {at_ : Time} {reply : Reply}
    (hrun : Run (sessions h reqs).step NoOverlap (init users nextUserId) σ₁)
    (hloc : σ₁.loc r = .revokeRows userId [] at_ reply) (hok : NoOverlap σ₁ (.run r o))
    (hs : (sessions h reqs).step σ₁ (.run r o) = some σ₂) :
    Final h reqs (fun q => σ₁.loc q ≠ .start) userId σ₂ := by
  have H := reachable_holds hids hrun.forget
  have hcov := allCovered_of_run hids hrun r userId [] at_ reply hloc
  have hat := H.assertions r
  rw [hloc] at hat
  simp only [NoOverlap, hloc] at hok
  have hcode : (sessions h reqs).code r (σ₁.loc r) = .commit (.done reply) := by rw [hloc]; rfl
  cases Machine.effect_of_step _ hs with
  | @commit _ _ l hl =>
    obtain rfl := Instr.commit.inj (hcode.symm.trans hl)
    have hother : ∀ {q l}, goto σ₁.loc r (.done reply) q = l → l ≠ .done reply →
        σ₁.loc q = l := by
      intro q l hq hne
      by_cases hqr : q = r
      · rw [hqr, goto_self] at hq
        exact absurd hq.symm hne
      · rwa [goto_ne _ _ hqr] at hq
    constructor
    case account => exact hat.2.1.after _
    case started => exact fun q hq hl' => hq (hother hl' (fun hc => nomatch hc))
    case issuing =>
      intro q user _ hl' hu
      exact hok q (by rw [hother hl' (fun hc => nomatch hc)]; exact hu)
    case rotating =>
      intro q stored hrot hu
      -- a refresh past its checks is exactly what the condition excludes
      replace hrot : (goto σ₁.loc r (.done reply) q).rotating = some stored := hrot
      have hlq : (σ₁.loc q).rotating = some stored := by
        by_cases hqr : q = r
        · rw [hqr, goto_self] at hrot
          cases hrot
        · rwa [goto_ne _ _ hqr] at hrot
      have hissuing := (presented_of_rotating (H.assertions q) hlq).2
      exact absurd (hu ▸ hissuing) (hok q)
    case revoked =>
      intro t ht hu _
      cases hrev : t.revokedAt with
      | some _ => rfl
      | none => nomatch hcov t ht hu hrev
  | stmt hl => nomatch hcode.symm.trans hl
  | read hl => nomatch hcode.symm.trans hl
  | auto hl => nomatch hcode.symm.trans hl
  | rollback hl => nomatch hcode.symm.trans hl

/-- **Revoke-all is final** along every run in which no revoke-all overlaps with a request of the
    same user that is past its checks. -/
theorem final_of_noOverlap (hids : ∀ u ∈ users, u.id < nextUserId) :
    RevokeAllFinal h reqs NoOverlap (init users nextUserId) := by
  intro σ₁ σ₂ σ₃ r o userId at_ reply hrun₁ hloc hok hs hrun₃ q hq t ht hu hchain
  have hrun₂ := hrun₁.forget.tail trivial hs
  have hfinal : Final h reqs (fun q => σ₁.loc q ≠ .start) userId σ₃ := by
    refine hrun₃.invariant_reached (fun σ a σ' hr hf _ hs => ?_)
      (final_of_commit hids hrun₁ hloc hok hs)
    have hreached := hrun₂.trans hr.forget
    exact hf.step (reachable_holds hids hreached) (reachable_chains hids hreached) hs
  exact hfinal.revoked t ht hu ⟨q, hq, hchain⟩

end Result

/-! ## A refresh that overlaps -/

/-- Request 0 logs Alice in, 1 refreshes the token she gets, 2 logs her out everywhere. -/
def refreshAndLogout : Nat → Request
  | 0 => .login "alice@example.com" "secret"
  | 1 => .refresh "t1"
  | _ => .logout ⟨1, .user⟩ none

/-- The system of the schedules below. -/
abbrev overlap : Machine Db Ext Write Row Oracle Empty Loc :=
  sessions plainHelpers refreshAndLogout

instance (userId : Nat) : ∀ l : Loc, Decidable (l.issuing userId)
  | .issue user | .rotate _ user | .successor _ user | .rotateCommit _ user _ =>
    inferInstanceAs (Decidable (user.id = userId))
  | .start | .signupCreate | .logoutOne .. | .newPassword .. | .revokeScan .. | .revokeRows ..
  | .throwing _ | .done _ => .isFalse id

instance (userId : Nat) : ∀ l : Loc, Decidable (l.revoking userId)
  | .revokeRows u _ _ _ => inferInstanceAs (Decidable (u = userId))
  | .start | .signupCreate | .issue _ | .rotate .. | .successor .. | .rotateCommit ..
  | .logoutOne .. | .newPassword .. | .revokeScan .. | .throwing _ | .done _ => .isFalse id

/-- What `NoOverlap` asks of a request at some location, when only the requests `ps` move. -/
def Loc.apart (ps : List Nat) (σ : State Db Ext Write Loc) : Loc → Prop
  | .revokeRows userId [] _ _ => ∀ q ∈ ps, ¬ (σ.loc q).issuing userId
  | .issue user | .rotateCommit _ user _ => ∀ q ∈ ps, ¬ (σ.loc q).revoking user.id
  | _ => True

instance (ps : List Nat) (σ : State Db Ext Write Loc) : ∀ l : Loc, Decidable (l.apart ps σ)
  | .revokeRows userId [] _ _ =>
    inferInstanceAs (Decidable (∀ q ∈ ps, ¬ (σ.loc q).issuing userId))
  | .issue user | .rotateCommit _ user _ =>
    inferInstanceAs (Decidable (∀ q ∈ ps, ¬ (σ.loc q).revoking user.id))
  | .revokeRows _ (_ :: _) _ _ | .start | .signupCreate | .rotate .. | .successor ..
  | .logoutOne .. | .newPassword .. | .revokeScan .. | .throwing _ | .done _ => .isTrue trivial

/-- Only the requests `ps` move, and they do not overlap. -/
def NoOverlapAmong (ps : List Nat) (σ : State Db Ext Write Loc) : Act Oracle Empty → Prop
  | .run p _ => p ∈ ps ∧ (σ.loc p).apart ps σ
  | .fail _ => False
  | .env e => e.elim

instance (ps : List Nat) (σ : State Db Ext Write Loc) : ∀ a, Decidable (NoOverlapAmong ps σ a)
  | .run p _ => inferInstanceAs (Decidable (p ∈ ps ∧ (σ.loc p).apart ps σ))
  | .fail _ => .isFalse id
  | .env e => e.elim

/-- The others have not started, so they overlap with nobody. -/
theorem noOverlap_of_among {ps : List Nat} (hidle : ∀ q, q ∉ ps → σ.loc q = .start)
    (hok : NoOverlapAmong ps σ a) : NoOverlap σ a := by
  have hissuing : ∀ {userId}, (∀ q ∈ ps, ¬ (σ.loc q).issuing userId) →
      ∀ q, ¬ (σ.loc q).issuing userId := by
    intro userId hamong q
    by_cases hq : q ∈ ps
    · exact hamong q hq
    · rw [hidle q hq]
      exact id
  have hrevoking : ∀ {userId}, (∀ q ∈ ps, ¬ (σ.loc q).revoking userId) →
      ∀ q, ¬ (σ.loc q).revoking userId := by
    intro userId hamong q
    by_cases hq : q ∈ ps
    · exact hamong q hq
    · rw [hidle q hq]
      exact id
  cases a with
  | run p o =>
    obtain ⟨-, hapart⟩ := hok
    simp only [NoOverlap]
    split
    · rename_i hloc
      rw [hloc] at hapart
      exact hissuing hapart
    · rename_i hloc
      rw [hloc] at hapart
      exact hrevoking hapart
    · rename_i hloc
      rw [hloc] at hapart
      exact hrevoking hapart
    · trivial
  | fail p => trivial
  | env e => trivial

/-- A run in which only some processes move overlaps with nobody else. -/
theorem run_of_among {ps : List Nat} (hidle : ∀ q, q ∉ ps → σ.loc q = .start)
    (hrun : Run (sessions h reqs).step (NoOverlapAmong ps) σ σ') :
    Run (sessions h reqs).step NoOverlap σ σ' ∧ ∀ q, q ∉ ps → σ'.loc q = .start := by
  have hstep : ∀ σ a σ', (∀ q, q ∉ ps → σ.loc q = .start) → NoOverlapAmong ps σ a →
      (sessions h reqs).step σ a = some σ' → ∀ q, q ∉ ps → σ'.loc q = .start := by
    intro σ a σ' hidle hok hs q hq
    have hmover : a.mover ≠ some q := by
      cases a with
      | run p o =>
        intro hp
        exact hq (Option.some.inj hp ▸ hok.1)
      | fail p => exact hok.elim
      | env e => exact e.elim
    exact (Machine.frame_of_step _ hs hmover).1.trans (hidle q hq)
  exact ⟨hrun.mono_of_invariant hstep (fun _ _ => noOverlap_of_among) hidle,
    hrun.invariant hstep hidle⟩

/-- Alice has logged in, and the logout has revoked her token and is about to commit. -/
def logoutFirst : List (Act Oracle Empty) :=
  [run 0 0 "", run 0 0 "t1", run 2 2 "", run 2 2 "", run 2 2 ""]

theorem logoutFirst_runs : (execOk overlap.step (NoOverlapAmong [0, 1, 2]) (init aliceOnly 2)
    logoutFirst).isSome = true := by
  decide

/-- The revocation is about to commit, with nothing else under way. -/
def beforeCommit : State Db Ext Write Loc :=
  (execOk overlap.step (NoOverlapAmong [0, 1, 2]) (init aliceOnly 2) logoutFirst).get
    logoutFirst_runs

theorem beforeCommit_commits : (overlap.step beforeCommit (run 2 2 "")).isSome = true := by
  decide

/-- It has committed. -/
def afterCommit : State Db Ext Write Loc :=
  (overlap.step beforeCommit (run 2 2 "")).get beforeCommit_commits

theorem refreshTooLate_runs : (execOk overlap.step (NoOverlapAmong [0, 1, 2]) afterCommit
    [run 1 3 "", run 1 3 ""]).isSome = true := by
  decide

/-- The refresh comes after the commit. -/
def afterRefresh : State Db Ext Write Loc :=
  (execOk overlap.step (NoOverlapAmong [0, 1, 2]) afterCommit [run 1 3 "", run 1 3 ""]).get
    refreshTooLate_runs

/-- The token of the login, as it was issued. -/
def firstToken : RefreshToken := ⟨1, 1, "t1", none, none, 604800000⟩

/-- Alice's login is over for good: her token is revoked when the logout has committed, and it is when
    a refresh has tried it. -/
theorem final_of_refreshAndLogout :
    { firstToken with revokedAt := some 2 } ∈ afterRefresh.base.db.tokens ∧
      ∀ t ∈ afterRefresh.base.db.tokens, t.id = firstToken.id → t.revokedAt.isSome := by
  have hamong : Run overlap.step (NoOverlapAmong [0, 1, 2]) (init aliceOnly 2) beforeCommit :=
    Run.of_execOk (Option.some_get logoutFirst_runs).symm
  obtain ⟨hbefore, hidle⟩ := run_of_among (fun _ _ => rfl) hamong
  have hcommits : overlap.step beforeCommit (run 2 2 "") = some afterCommit :=
    (Option.some_get beforeCommit_commits).symm
  have hok : NoOverlap beforeCommit (run 2 2 "") := noOverlap_of_among hidle (by decide)
  have hidle' : ∀ q, q ∉ [0, 1, 2] → afterCommit.loc q = .start := by
    intro q hq
    have hmover : (run 2 2 "").mover ≠ some q := by
      rintro hq2
      obtain rfl := Option.some.inj hq2
      exact hq (by decide)
    exact (Machine.frame_of_step _ hcommits hmover).1.trans (hidle q hq)
  obtain ⟨hafter, -⟩ := run_of_among hidle'
    (Run.of_execOk (Option.some_get refreshTooLate_runs).symm)
  refine ⟨by decide, fun t ht hid => ?_⟩
  have huser : ∀ t ∈ afterRefresh.base.db.tokens, t.userId = 1 := by decide
  refine final_of_noOverlap (by decide) _ _ _ 2 _ 1 2 .ok hbefore (by decide) hok hcommits hafter 0
    (by decide) t ht (huser t ht) ⟨rfl, 1, ?_, ?_⟩
  · exact ⟨[.insertToken firstToken], firstToken, by decide, by decide, rfl⟩
  · exact hid ▸ .refl

/-- The refresh has passed its checks, the logout has revoked the only token and is about to
    commit. -/
def logoutPending : List (Act Oracle Empty) :=
  [run 0 0 "", run 0 0 "t1", run 1 1 "", run 2 2 "", run 2 2 "", run 2 2 ""]

/-- The refresh goes on after the logout has committed. -/
def refreshGoesOn : List (Act Oracle Empty) := [run 1 3 "", run 1 3 "t2", run 1 3 ""]

theorem logoutPending_runs :
    (exec overlap.step (init aliceOnly 2) logoutPending).isSome = true := by
  decide

theorem logoutCommits :
    (overlap.step ((exec overlap.step (init aliceOnly 2) logoutPending).get logoutPending_runs)
      (run 2 2 "")).isSome = true := by
  decide

theorem refreshGoesOn_runs :
    (exec overlap.step ((overlap.step ((exec overlap.step (init aliceOnly 2) logoutPending).get
      logoutPending_runs) (run 2 2 "")).get logoutCommits) refreshGoesOn).isSome = true := by
  decide

/-- The token of the login after its rotation. -/
def firstRotated : RefreshToken := rotated { firstToken with revokedAt := some 2 } 3

/-- Its successor, issued after the revocation has committed. -/
def secondToken : RefreshToken := ⟨2, 1, "t2", none, none, 604800003⟩

/-- The successor of Alice's token is live, although a logout of all her sessions committed after
    her login and before the successor was issued. -/
theorem not_final_refresh :
    ¬ RevokeAllFinal plainHelpers refreshAndLogout always (init aliceOnly 2) := by
  intro hfinal
  have hrev := hfinal _ _ _ 2 { now := 2, salt := 0, token := "", row := 0 } 1 2 .ok
    (Run.exec_get logoutPending_runs) (by decide) trivial (Option.some_get logoutCommits).symm
    (Run.exec_get refreshGoesOn_runs) 0 (by decide) secondToken (by decide) rfl
    ⟨rfl, 1, ⟨[.insertToken firstToken], firstToken, by decide, by decide, rfl⟩,
      .single ⟨firstRotated, by decide, rfl, 1, ⟨"t1", rfl, rfl⟩,
        [.updateToken firstRotated, .insertToken secondToken], secondToken, by decide, by decide,
        rfl⟩⟩
  nomatch hrev

end SmartPatents.UserService
