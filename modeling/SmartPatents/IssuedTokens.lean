/-
  A refresh token is handed out once.

  A request that answers with a session has committed the row of its token (`logged_of_session`),
  and the hashes of committed rows are pairwise different, because the column is unique and no row
  is ever deleted (`HashInv`).  So two requests that answer with tokens of one hash are one request
  (`session_unique`), and a row belongs to the request that has answered with its token.

  This is where the browser and the server meet: what a browser got as the answer of one request
  was never in the answer of another one (`BrowserSessions`).

  `HashInv` is an invariant of the log (a hash that was committed is still in a row, and one
  request has committed it), and `TokensLogged` one of the requests: a token that a request
  answers with, or is about to, has been committed by it.  Both are kept by every step, and
  `session_unique` puts them together.
-/
import SmartPatents.RevokeAll

namespace SmartPatents.UserService

open ReadCommitted Runs

variable {h : Helpers} {reqs : Nat → Request} {p q : Nat} {d : Db} {ws : List Write}
  {log : List (Nat × List Write)} {σ σ' : State Db Ext Write Loc} {a : Act Oracle Empty}

/-! ## Hashes in the log -/

/-- Process `p` has committed a row with this hash. -/
def Logged (log : List (Nat × List Write)) (p : Nat) (hash : String) : Prop :=
  ∃ ws t, (p, ws) ∈ log ∧ Write.insertToken t ∈ ws ∧ t.tokenHash = hash

/-- What is logged after a commit was logged before, or is of this commit. -/
theorem logged_concat {vs : List Write} {hash : String} :
    Logged (log ++ [(q, vs)]) p hash ↔
      Logged log p hash ∨ p = q ∧ ∃ t, Write.insertToken t ∈ vs ∧ t.tokenHash = hash := by
  constructor
  · rintro ⟨ws, t, hmem, ht, hhash⟩
    rcases List.mem_append.mp hmem with hmem | hmem
    · exact Or.inl ⟨ws, t, hmem, ht, hhash⟩
    · obtain ⟨rfl, rfl⟩ := Prod.mk.inj (List.mem_singleton.mp hmem)
      exact Or.inr ⟨rfl, t, ht, hhash⟩
  · rintro (⟨ws, t, hmem, ht, hhash⟩ | ⟨rfl, t, ht, hhash⟩)
    · exact ⟨ws, t, List.mem_append_left _ hmem, ht, hhash⟩
    · exact ⟨vs, t, List.mem_append_right _ List.mem_cons_self, ht, hhash⟩

/-- A log only grows. -/
theorem Logged.mono {log' : List (Nat × List Write)} {hash : String} (hl : Logged log p hash)
    (hpre : log <+: log') : Logged log' p hash := by
  obtain ⟨ws, t, hmem, ht, hhash⟩ := hl
  exact ⟨ws, t, hpre.subset hmem, ht, hhash⟩

/-- A token that was committed is still a row, and only one request has committed it. -/
structure HashInv (d : Db) (log : List (Nat × List Write)) : Prop where
  /-- A committed row stays. -/
  kept : ∀ {p hash}, Logged log p hash → ∃ t ∈ d.tokens, t.tokenHash = hash
  once : ∀ {p q hash}, Logged log p hash → Logged log q hash → p = q

/-- A transaction inserts one token at most. -/
theorem insert_of_tokenTx (htx : TokenTx h reqs p d log ws) :
    (∀ t, ¬ Write.insertToken t ∈ ws) ∨
      ∃ t, Insertable d t ∧ t ∈ (after d ws).tokens ∧ ∀ s, Write.insertToken s ∈ ws → s = t := by
  cases htx with
  | createUser => exact Or.inl fun t ht => by simp at ht
  | @issue t hreq ht =>
    exact Or.inr ⟨t, ht, mem_after_singleton.mpr (Or.inl rfl), fun s hs => by simpa using hs⟩
  | @rotate token old t at_ hreq hold hhash hrot howner ht =>
    exact Or.inr ⟨t, ht, mem_after_pair.mpr (Or.inl rfl), fun s hs => by simpa using hs⟩
  | revoke hws => exact Or.inl (no_insert_of_revokes hws)

/-- **Step lemma**: a new hash is one that no row has. -/
theorem HashInv.commit (hinv : HashInv d log) (htx : TokenTx h reqs p d log ws) :
    HashInv (after d ws) (log ++ [(p, ws)]) := by
  have hforth : ∀ {q hash}, Logged log q hash → ∃ t ∈ (after d ws).tokens, t.tokenHash = hash := by
    intro q hash hl
    obtain ⟨s, hs, hhash⟩ := hinv.kept hl
    obtain ⟨x, hx, hsx⟩ := htx.forth hs
    exact ⟨x, hx, hsx.tokenHash.trans hhash⟩
  rcases insert_of_tokenTx htx with hnone | ⟨t, hins, hmem, honly⟩
  · -- nothing new in the books
    have hlog : ∀ {q hash}, Logged (log ++ [(p, ws)]) q hash → Logged log q hash := by
      intro q hash hl
      rcases logged_concat.mp hl with hl | ⟨-, t, ht, -⟩
      · exact hl
      · exact absurd ht (hnone t)
    exact ⟨fun hl => hforth (hlog hl), fun hp hq => hinv.once (hlog hp) (hlog hq)⟩
  · have hlog : ∀ {q hash}, Logged (log ++ [(p, ws)]) q hash →
        Logged log q hash ∨ q = p ∧ t.tokenHash = hash := by
      intro q hash hl
      rcases logged_concat.mp hl with hl | ⟨hq, s, hs, hhash⟩
      · exact Or.inl hl
      · exact Or.inr ⟨hq, honly s hs ▸ hhash⟩
    -- the hash of the new row is nobody's, for every hash in the books has a row
    have hfresh : ∀ {q}, ¬ Logged log q t.tokenHash := by
      intro q hl
      obtain ⟨s, hs, hhash⟩ := hinv.kept hl
      exact (hins.fresh s hs).2 hhash
    refine ⟨fun hl => ?_, fun hp hq => ?_⟩
    · rcases hlog hl with hl | ⟨-, hhash⟩
      · exact hforth hl
      · exact ⟨t, hmem, hhash⟩
    · rcases hlog hp with hp | ⟨rfl, hhash⟩
      · rcases hlog hq with hq | ⟨-, hhash⟩
        · exact hinv.once hp hq
        · exact absurd (hhash ▸ hp) hfresh
      · rcases hlog hq with hq | ⟨hq, -⟩
        · exact absurd (hhash ▸ hq) hfresh
        · exact hq.symm

/-- In every run each hash was committed once, and is still there. -/
theorem reachable_hashes {users : Table User User.id} {nextUserId : Nat}
    (hids : ∀ u ∈ users, u.id < nextUserId)
    (hrun : Run (sessions h reqs).step always (init users nextUserId) σ) :
    HashInv σ.base.db σ.base.log := by
  have H := reachable_holds hids hrun
  rw [H.replay]
  refine H.serial.invariant ⟨?_, ?_⟩ fun hinv htx => hinv.commit htx
  · rintro p hash ⟨ws, t, hmem, -⟩
    cases hmem
  · rintro p q hash ⟨ws, t, hmem, -⟩
    cases hmem

/-! ## Answers -/

/-- What `issueSession` inserts is the hash of the token that it hands on. -/
theorem issueSession_token (user : User) (next : String → Loc) (o : Oracle) (d : Db) (x : Ext) :
    issueSession h user next o d x
        = ([], { x with nextTokenId := x.nextTokenId + 1 }, .throwing (.prisma "P2002")) ∨
    (∃ t, t.tokenHash = h.hashRefreshToken o.token ∧
      Write.insertToken t ∈ (issueSession h user next o d x).1) ∧
      (issueSession h user next o d x).2.2 = next o.token := by
  simp only [issueSession]
  cases d.tokenByHash (h.hashRefreshToken o.token) with
  | some s => exact Or.inl rfl
  | none => exact Or.inr ⟨⟨_, rfl, List.mem_cons_self⟩, rfl⟩

/-- No session is answered by the first statement. -/
theorem start_next {r : Request} {o : Oracle} {x : Ext} (u : User) (c : Caller) (t : String) :
    (start h r o d x).2.2 ≠ .done (.session u c t) := by
  unfold start
  split
  · unfold signupUser
    split <;> exact fun h => by cases h
  · unfold loginUser
    split
    · exact fun h => by cases h
    · split <;> exact fun h => by cases h
  · unfold refreshSession
    split
    · exact fun h => by cases h
    · split
      · exact fun h => by cases h
      · split
        · exact fun h => by cases h
        · split
          · exact fun h => by cases h
          · split <;> exact fun h => by cases h
  · unfold logoutUser
    split
    · split <;> exact fun h => by cases h
    · exact fun h => by cases h
  · unfold changePassword
    split
    · split
      · exact fun h => by cases h
      · split <;> exact fun h => by cases h
    · exact fun h => by cases h

/-- A statement outside a transaction that answers with a session has inserted its token. -/
theorem insert_of_auto {l : Loc} {f : Oracle → Db → Ext → Outcome} {o : Oracle} {x : Ext}
    (hcode : code h reqs p l = .auto f) {u : User} {c : Caller} {t : String}
    (hnext : (f o d x).2.2 = .done (.session u c t)) :
    ∃ row, row.tokenHash = h.hashRefreshToken t ∧ Write.insertToken row ∈ (f o d x).1 := by
  cases l with
  | start =>
    obtain rfl := Instr.auto.inj hcode
    -- no request is answered with a session by its first statement
    exact absurd hnext (start_next u c t)
  | signupCreate =>
    obtain rfl := Instr.auto.inj hcode
    revert hnext
    unfold create
    split
    · unfold signupCreate
      dsimp only
      split <;> exact fun h => by cases h
    -- a logout is answered without one
    · exact fun h => by cases h
  | issue user =>
    obtain rfl := Instr.auto.inj hcode
    rcases issueSession_token user (session user) o d x with hr | ⟨hrow, hsession⟩
    · rw [hr] at hnext
      cases hnext
    · rw [hsession] at hnext
      obtain ⟨-, -, rfl⟩ := Reply.session.inj (Loc.done.inj hnext)
      exact hrow
  | logoutOne userId token =>
    obtain rfl := Instr.auto.inj hcode
    revert hnext
    unfold logoutOne
    split
    · exact fun h => by cases h
    · split <;> exact fun h => by cases h
  | revokeRows userId ids at_ reply => cases ids <;> cases hcode
  | _ => cases hcode

/-- A statement of a transaction gives no answer. -/
theorem stmt_next {l : Loc} {f : Oracle → Db → Ext → Outcome} {o : Oracle} {x : Ext}
    (hcode : code h reqs p l = .stmt f) (r : Reply) : (f o d x).2.2 ≠ .done r := by
  cases l with
  | rotate stored user =>
    obtain rfl := Instr.stmt.inj hcode
    unfold rotate
    split
    · exact fun h => by cases h
    · split <;> exact fun h => by cases h
  | successor stored user =>
    obtain rfl := Instr.stmt.inj hcode
    -- inside a transaction the answer waits for the commit
    rcases issueSession_token user (.rotateCommit stored user) o d x with hr | ⟨-, hnext⟩
    · rw [hr]
      exact fun h => by cases h
    · rw [hnext]
      exact fun h => by cases h
  | newPassword user hash =>
    obtain rfl := Instr.stmt.inj hcode
    show (newPassword user hash d x).2.2 ≠ .done r
    unfold newPassword
    split <;> exact fun h => by cases h
  | revokeScan userId reply =>
    obtain rfl := Instr.stmt.inj hcode
    exact fun h => by cases h
  | revokeRows userId ids at_ reply =>
    cases ids with
    | nil => cases hcode
    | cons i ids =>
      obtain rfl := Instr.stmt.inj hcode
      unfold revokeRow
      dsimp only
      split
      · exact fun h => by cases h
      · split <;> exact fun h => by cases h
  | _ => cases hcode

/-- The commit of a rotation comes after the insertion of the successor. -/
theorem insert_of_stmt {l : Loc} {f : Oracle → Db → Ext → Outcome} {o : Oracle} {x : Ext}
    (hcode : code h reqs p l = .stmt f) {stored : RefreshToken} {user : User} {t : String}
    (hnext : (f o d x).2.2 = .rotateCommit stored user t) :
    ∃ row, row.tokenHash = h.hashRefreshToken t ∧ Write.insertToken row ∈ (f o d x).1 := by
  have hfrom : CameFrom d x l (f o d x).2.2 := cameFrom_code (congrArg Instr.run? hcode)
  rw [hnext] at hfrom
  obtain rfl : l = .successor stored user := hfrom
  obtain rfl := Instr.stmt.inj hcode
  rcases issueSession_token user (.rotateCommit stored user) o d x with hr | ⟨hrow, hsession⟩
  · rw [hr] at hnext
    cases hnext
  · obtain ⟨-, -, rfl⟩ := Loc.rotateCommit.inj (hsession.symm.trans hnext)
    exact hrow

/-- The tokens that requests answer with, or are about to, are in the books. -/
structure TokensLogged (h : Helpers) (σ : State Db Ext Write Loc) : Prop where
  answered : ∀ p u c t, σ.loc p = .done (.session u c t) →
    Logged σ.base.log p (h.hashRefreshToken t)
  pending : ∀ p stored user t, σ.loc p = .rotateCommit stored user t →
    ∃ row, row.tokenHash = h.hashRefreshToken t ∧ Write.insertToken row ∈ own p σ.pend

theorem TokensLogged.init {users : Table User User.id} {nextUserId : Nat} :
    TokensLogged h (init users nextUserId) where
  answered := by
    intro p u c t hloc
    cases hloc
  pending := by
    intro p stored user t hloc
    cases hloc

/-- A refresh that gets to its commit has inserted the successor. -/
theorem pending_of_mover {stored : RefreshToken} {user : User} {t : String}
    (hs : (sessions h reqs).step σ a = some σ') (hmover : a.mover = some p)
    (hloc : σ'.loc p = .rotateCommit stored user t) :
    ∃ row, row.tokenHash = h.hashRefreshToken t ∧ Write.insertToken row ∈ own p σ'.pend := by
  obtain ⟨p', hp', hfrom⟩ := loc_of_step hs
  obtain rfl := Option.some.inj (hp'.symm.trans hmover)
  rw [hloc] at hfrom
  have hbefore : σ.loc p' = .successor stored user := hfrom
  have hcode : (sessions h reqs).code p' (σ.loc p')
      = .stmt (issueSession h user (.rotateCommit stored user)) := by
    rw [hbefore]
    rfl
  cases a with
  | run q o =>
    obtain rfl := Option.some.inj hmover
    rw [Machine.stmt_of_step _ hcode hs] at hloc ⊢
    obtain ⟨row, hhash, hmem⟩ := insert_of_stmt hcode ((goto_self _ _ _).symm.trans hloc)
    refine ⟨row, hhash, ?_⟩
    rw [own_append_self]
    exact List.mem_append_right _ hmem
  | fail q =>
    obtain rfl := Option.some.inj hmover
    cases Machine.effect_of_step _ hs with
    | fail => cases (goto_self _ _ _).symm.trans hloc
  | env e => cases e

/-- What a commit answers with, it has committed. -/
theorem answered_of_commit {b : Base Db Ext Write} {l l' : Loc} {u : User} {c : Caller} {t : String}
    (hcode : code h reqs p l = .commit l') (hat : At h reqs p l b ws)
    (hpending : ∀ stored user t, l = .rotateCommit stored user t →
      ∃ row, row.tokenHash = h.hashRefreshToken t ∧ Write.insertToken row ∈ ws)
    (hdone : l' = .done (.session u c t)) :
    ∃ row, row.tokenHash = h.hashRefreshToken t ∧ Write.insertToken row ∈ ws := by
  cases commits_of_code hcode with
  | @rotation stored user token =>
    obtain ⟨-, -, rfl⟩ := Reply.session.inj (Loc.done.inj hdone)
    exact hpending stored user token rfl
  | revocation => exact absurd (Loc.done.inj hdone) (hat.2.2 u c t)

/-- A request that answers with a session has committed its token. -/
theorem answered_of_mover {σ₀ : State Db Ext Write Loc} {u : User} {c : Caller} {t : String}
    (H : Outline.Holds (sessions h reqs) BaseInv (At h reqs) (TokenTx h reqs) σ₀ σ)
    (ht : TokensLogged h σ) (hs : (sessions h reqs).step σ a = some σ')
    (hmover : a.mover = some p) (hloc : σ'.loc p = .done (.session u c t)) :
    Logged σ'.base.log p (h.hashRefreshToken t) := by
  cases Machine.effect_of_step _ hs with
  | stmt hcode =>
    obtain rfl := Option.some.inj hmover
    exact absurd ((goto_self _ _ _).symm.trans hloc) (stmt_next hcode _)
  | read hcode hnone =>
    obtain rfl := Option.some.inj hmover
    obtain ⟨row, -, hmem⟩ := insert_of_auto hcode ((goto_self _ _ _).symm.trans hloc)
    rw [hnone] at hmem
    cases hmem
  | auto hcode =>
    obtain rfl := Option.some.inj hmover
    obtain ⟨row, hhash, hmem⟩ := insert_of_auto hcode ((goto_self _ _ _).symm.trans hloc)
    -- a login: the INSERT has committed by itself
    exact logged_concat.mpr (Or.inr ⟨rfl, row, hmem, hhash⟩)
  | @commit p' o l hcode =>
    obtain rfl := Option.some.inj hmover
    obtain ⟨row, hhash, hmem⟩ := answered_of_commit hcode (H.assertions p')
      (fun stored user t => ht.pending p' stored user t) ((goto_self _ _ _).symm.trans hloc)
    exact logged_concat.mpr (Or.inr ⟨rfl, row, hmem, hhash⟩)
  | @rollback p' o l hcode =>
    obtain rfl := Option.some.inj hmover
    obtain ⟨e, -, rfl⟩ := eq_of_rollback hcode
    cases (goto_self _ _ _).symm.trans hloc
  | fail =>
    obtain rfl := Option.some.inj hmover
    cases (goto_self _ _ _).symm.trans hloc
  | @env e => cases e

/-- **Step lemma.** -/
theorem TokensLogged.step {σ₀ : State Db Ext Write Loc}
    (H : Outline.Holds (sessions h reqs) BaseInv (At h reqs) (TokenTx h reqs) σ₀ σ)
    (ht : TokensLogged h σ) (hs : (sessions h reqs).step σ a = some σ') : TokensLogged h σ' := by
  obtain ⟨p, hp, -⟩ := loc_of_step hs
  have hothers : ∀ q, q ≠ p → σ'.loc q = σ.loc q ∧ own q σ'.pend = own q σ.pend :=
    fun q hq => Machine.frame_of_step _ hs (Act.mover_ne hp hq)
  constructor
  · intro q u c t hloc
    by_cases hq : q = p
    · exact answered_of_mover H ht hs (hq ▸ hp) hloc
    · rw [(hothers q hq).1] at hloc
      exact (ht.answered q u c t hloc).mono (Machine.log_of_step _ hs)
  · intro q stored user t hloc
    by_cases hq : q = p
    · exact pending_of_mover hs (hq ▸ hp) hloc
    · rw [(hothers q hq).1] at hloc
      rw [(hothers q hq).2]
      exact ht.pending q stored user t hloc

/-- In every run a token that was answered is committed. -/
theorem reachable_logged {users : Table User User.id} {nextUserId : Nat}
    (hids : ∀ u ∈ users, u.id < nextUserId)
    (hrun : Run (sessions h reqs).step always (init users nextUserId) σ) : TokensLogged h σ :=
  hrun.invariant_reached (fun _ _ _ hrun' ht _ hs => ht.step (reachable_holds hids hrun') hs)
    TokensLogged.init

section Sessions

variable {users : Table User User.id} {nextUserId : Nat} {u u' : User} {c c' : Caller}
  {t t' : String}

/-- **A token is handed out once**: answers whose tokens have one hash are answers of one
    request. -/
theorem session_unique (hids : ∀ u ∈ users, u.id < nextUserId)
    (hrun : Run (sessions h reqs).step always (init users nextUserId) σ)
    (hp : σ.loc p = .done (.session u c t)) (hq : σ.loc q = .done (.session u' c' t'))
    (hhash : h.hashRefreshToken t = h.hashRefreshToken t') : p = q := by
  have ht := reachable_logged hids hrun
  have hlogged := ht.answered q u' c' t' hq
  rw [← hhash] at hlogged
  exact (reachable_hashes hids hrun).once (ht.answered p u c t hp) hlogged

/-- A token that was handed out has a row. -/
theorem row_of_session (hids : ∀ u ∈ users, u.id < nextUserId)
    (hrun : Run (sessions h reqs).step always (init users nextUserId) σ)
    (hp : σ.loc p = .done (.session u c t)) :
    ∃ row ∈ σ.base.db.tokens, row.tokenHash = h.hashRefreshToken t :=
  (reachable_hashes hids hrun).kept ((reachable_logged hids hrun).answered p u c t hp)

end Sessions

end SmartPatents.UserService
