/-
  What a committed session transaction is.

  `TokenTx` lists the four kinds of transaction the session machine commits: an account, a token of
  a login or signup, a rotation, a revocation.  `outline` shows that the statement-level machine
  commits nothing else, whatever the interleaving; from there on sessions are a SERIAL log of
  `TokenTx` (`reachable_holds`), and neither row locks nor program points appear again.

  A bulk revocation is a list of single-row writes (`Revokes`), as the database locks and changes
  one row after the other; a row that somebody else has revoked or rotated in between is visited
  in its new state.  An account is committed before its first token, in a transaction of its own.

  The assertion of each location (`At`) is short, because little survives between two statements:
  a refresh knows the row it has read in some later version (`Presented`, `Later`), a login that
  its user has an account, and a request that has not committed a token that none is recorded for
  it (`Recorded`).
-/
import SmartPatents.Lib.Writes
import SmartPatents.UserService

namespace SmartPatents.UserService

open ReadCommitted Runs

/-! ## Rows only move forward -/

/-- `t` is a later version of the row `s`: its identity is fixed, timestamps are never cleared. -/
structure Later (s t : RefreshToken) : Prop where
  id : t.id = s.id
  userId : t.userId = s.userId
  tokenHash : t.tokenHash = s.tokenHash
  rotatedAt : s.rotatedAt.isSome → t.rotatedAt.isSome
  revokedAt : s.revokedAt.isSome → t.revokedAt.isSome

/-- A row is a later state of itself. -/
theorem Later.refl (s : RefreshToken) : Later s s := ⟨rfl, rfl, rfl, fun h => h, fun h => h⟩

/-- The database after a list of writes. -/
abbrev after (d : Db) (ws : List Write) : Db := ws.foldl apply d

/-- The token row a write leaves behind. -/
def Write.token? : Write → Option RefreshToken
  | .insertToken t | .updateToken t => some t
  | _ => none

/-- A token row after a write is the one written, or one with another id. -/
theorem mem_tokens_apply {d : Db} {w : Write} {x : RefreshToken} :
    x ∈ (apply d w).tokens ↔
      w.token? = some x ∨ (x ∈ d.tokens ∧ ∀ t, w.token? = some t → x.id ≠ t.id) := by
  cases w with
  | insertUser u => simp [apply, Write.token?]
  | updateUser u => simp [apply, Write.token?]
  | insertToken t => simp [apply, Write.token?, Table.mem_put, eq_comm]
  | updateToken t => simp [apply, Write.token?, Table.mem_put, eq_comm]

theorem mem_after_singleton {d : Db} {w : Write} {x : RefreshToken} :
    x ∈ (after d [w]).tokens ↔
      w.token? = some x ∨ (x ∈ d.tokens ∧ ∀ t, w.token? = some t → x.id ≠ t.id) :=
  mem_tokens_apply

theorem mem_after_pair {d : Db} {w v : Write} {x : RefreshToken} :
    x ∈ (after d [w, v]).tokens ↔
      v.token? = some x ∨ (x ∈ (after d [w]).tokens ∧ ∀ t, v.token? = some t → x.id ≠ t.id) :=
  mem_tokens_apply

/-- A row that no write touches stays. -/
theorem mem_after_of_untouched {s : RefreshToken} (ws : List Write) {d : Db} (hs : s ∈ d.tokens)
    (hno : ∀ w ∈ ws, ∀ t, w.token? = some t → s.id ≠ t.id) : s ∈ (after d ws).tokens :=
  List.foldlRecOn (motive := fun d => s ∈ d.tokens) ws apply hs
    fun _ hs w hw => mem_tokens_apply.mpr (Or.inr ⟨hs, hno w hw⟩)

/-! ## Revocations -/

/-- One write of a bulk revocation: a row of `d` that was not revoked gets its timestamp.
    `changePassword` also rewrites the account. -/
def Revokes (d : Db) (w : Write) : Prop :=
  (∃ u, w = .updateUser u ∧ ∃ v ∈ d.users, v.id = u.id) ∨
  ∃ old ∈ d.tokens, ∃ at_, old.revokedAt = none ∧
    w = .updateToken { old with revokedAt := some at_ }

/-- `x` is the row `s`, possibly revoked by now. -/
def Revoked (s x : RefreshToken) : Prop :=
  x = s ∨ ∃ at_, s.revokedAt = none ∧ x = { s with revokedAt := some at_ }

/-- To revoke a row keeps all else of it. -/
theorem Revoked.later {s x : RefreshToken} (h : Revoked s x) : Later s x := by
  rcases h with rfl | ⟨at_, hs, rfl⟩
  · exact Later.refl x
  · exact ⟨rfl, rfl, rfl, fun h => h, fun h => rfl⟩

theorem Revoked.rotatedAt {s x : RefreshToken} (h : Revoked s x) : x.rotatedAt = s.rotatedAt := by
  rcases h with rfl | ⟨at_, hs, rfl⟩ <;> rfl

theorem Revoked.id_eq {s x : RefreshToken} (h : Revoked s x) : x.id = s.id := h.later.id

/-- A revocation changes rows only by revoking them, whatever part of it has been applied. -/
theorem revokes_rows {d₀ : Db} : ∀ (ws : List Write) {d : Db}, (∀ w ∈ ws, Revokes d₀ w) →
    (∀ x ∈ d.tokens, ∃ s ∈ d₀.tokens, Revoked s x) →
    (∀ s ∈ d₀.tokens, ∃ x ∈ d.tokens, Revoked s x) →
    (∀ x ∈ (after d ws).tokens, ∃ s ∈ d₀.tokens, Revoked s x) ∧
    (∀ s ∈ d₀.tokens, ∃ x ∈ (after d ws).tokens, Revoked s x)
  | [], _, _, hback, hforth => ⟨hback, hforth⟩
  | w :: ws, d, hws, hback, hforth => by
      refine revokes_rows ws (fun v hv => hws v (List.mem_cons_of_mem w hv)) ?_ ?_
      · intro x hx
        rcases hws w List.mem_cons_self with ⟨u, rfl, -⟩ | ⟨old, hold, at_, hnone, rfl⟩
        · exact hback x hx
        · rcases mem_tokens_apply.mp hx with hx | ⟨hx, -⟩
          · obtain rfl : _ = x := Option.some.inj hx
            exact ⟨old, hold, Or.inr ⟨at_, hnone, rfl⟩⟩
          · exact hback x hx
      · intro s hs
        obtain ⟨x, hx, hsx⟩ := hforth s hs
        rcases hws w List.mem_cons_self with ⟨u, rfl, -⟩ | ⟨old, hold, at_, hnone, rfl⟩
        · exact ⟨x, hx, hsx⟩
        · by_cases hid : s.id = old.id
          -- the row of this write
          · obtain rfl : s = old := Table.eq_of_key hs hold hid
            exact ⟨_, mem_tokens_apply.mpr (Or.inl rfl), Or.inr ⟨at_, hnone, rfl⟩⟩
          · refine ⟨x, mem_tokens_apply.mpr (Or.inr ⟨hx, fun t ht => ?_⟩), hsx⟩
            obtain rfl : _ = t := Option.some.inj ht
            rw [hsx.id_eq]
            exact hid

/-- The rows before and after a revocation. -/
theorem revoked_rows {d : Db} {ws : List Write} (hws : ∀ w ∈ ws, Revokes d w) :
    (∀ x ∈ (after d ws).tokens, ∃ s ∈ d.tokens, Revoked s x) ∧
    (∀ s ∈ d.tokens, ∃ x ∈ (after d ws).tokens, Revoked s x) :=
  revokes_rows ws hws (fun x hx => ⟨x, hx, Or.inl rfl⟩) fun s hs => ⟨s, hs, Or.inl rfl⟩

/-! ## Accounts stay -/

/-- There is an account with this id. -/
def Account (d : Db) (userId : Nat) : Prop := ∃ u ∈ d.users, u.id = userId

/-- No statement deletes an account. -/
theorem Account.after {d : Db} {userId : Nat} (ha : Account d userId) :
    ∀ ws : List Write, Account (after d ws) userId
  | [] => ha
  | w :: ws => by
      refine Account.after (d := apply d w) ?_ ws
      obtain ⟨u, hu, hid⟩ := ha
      have hput : ∀ v : User, ∃ u ∈ d.users.put v, u.id = userId := by
        intro v
        by_cases hv : u.id = v.id
        · exact ⟨v, Table.mem_put.mpr (Or.inl rfl), hv ▸ hid⟩
        · exact ⟨u, Table.mem_put.mpr (Or.inr ⟨hu, hv⟩), hid⟩
      cases w with
      | insertUser v => exact hput v
      | updateUser v => exact hput v
      | insertToken t => exact ⟨u, hu, hid⟩
      | updateToken t => exact ⟨u, hu, hid⟩

/-! ## The transactions -/

/-- A login or a signup: a request that opens a chain of tokens. -/
def Request.opens : Request → Bool
  | .signup .. | .login .. => true
  | _ => false

/-- Process `p` has committed a transaction that inserted the token with id `j`. -/
def Recorded (log : List (Nat × List Write)) (p j : Nat) : Prop :=
  ∃ ws t, (p, ws) ∈ log ∧ Write.insertToken t ∈ ws ∧ t.id = j

/-- `t` can be inserted: live, and neither its id nor its hash is taken. -/
structure Insertable (d : Db) (t : RefreshToken) : Prop where
  rotatedAt : t.rotatedAt = none
  revokedAt : t.revokedAt = none
  fresh : ∀ s ∈ d.tokens, s.id ≠ t.id ∧ s.tokenHash ≠ t.tokenHash
  owner : Account d t.userId

/-- What the guarded rotation leaves in the row. -/
def rotated (old : RefreshToken) (at_ : Time) : RefreshToken :=
  { old with rotatedAt := some at_, revokedAt := some at_ }

/-- The transactions of request `p`, committed on database `d` after `log`. -/
inductive TokenTx (h : Helpers) (reqs : Nat → Request) (p : Nat) (d : Db)
    (log : List (Nat × List Write)) : List Write → Prop
  | createUser {u} (hnew : ∀ v ∈ d.users, v.id ≠ u.id) (hnone : ∀ j, ¬ Recorded log p j) :
      TokenTx h reqs p d log [.insertUser u]
  | issue {t} (hreq : (reqs p).opens) (ht : Insertable d t) (hnone : ∀ j, ¬ Recorded log p j) :
      TokenTx h reqs p d log [.insertToken t]
  | rotate {token old t at_} (hreq : reqs p = .refresh token) (hold : old ∈ d.tokens)
      (hhash : old.tokenHash = h.hashRefreshToken token) (hrot : old.rotatedAt = none)
      (howner : t.userId = old.userId) (ht : Insertable d t) :
      TokenTx h reqs p d log [.updateToken (rotated old at_), .insertToken t]
  | revoke {ws} (hws : ∀ w ∈ ws, Revokes d w) : TokenTx h reqs p d log ws

variable {h : Helpers} {reqs : Nat → Request} {p q : Nat} {d : Db} {ws vs : List Write}
  {log : List (Nat × List Write)}

/-- Every row of the new database is a later version of an old row, or was inserted. -/
theorem TokenTx.back (htx : TokenTx h reqs p d log ws) {x : RefreshToken}
    (hx : x ∈ (after d ws).tokens) :
    (∃ s ∈ d.tokens, Later s x) ∨ Write.insertToken x ∈ ws := by
  cases htx with
  | createUser hnew hnone => exact Or.inl ⟨x, hx, Later.refl x⟩
  | @issue t hreq ht hnone =>
    rcases mem_after_singleton.mp hx with hx | ⟨hx, -⟩
    · obtain rfl : t = x := Option.some.inj hx
      exact Or.inr (List.mem_singleton.mpr rfl)
    · exact Or.inl ⟨x, hx, Later.refl x⟩
  | @rotate token old t at_ hreq hold hhash hrot howner ht =>
    rcases mem_after_pair.mp hx with hx | ⟨hx, -⟩
    · obtain rfl : t = x := Option.some.inj hx
      exact Or.inr (List.mem_cons_of_mem _ (List.mem_singleton.mpr rfl))
    · rcases mem_after_singleton.mp hx with hx | ⟨hx, -⟩
      · obtain rfl : rotated old at_ = x := Option.some.inj hx
        exact Or.inl ⟨old, hold, rfl, rfl, rfl, fun _ => rfl, fun _ => rfl⟩
      · exact Or.inl ⟨x, hx, Later.refl x⟩
  | revoke hws =>
    obtain ⟨s, hs, hsx⟩ := (revoked_rows hws).1 x hx
    exact Or.inl ⟨s, hs, hsx.later⟩

/-- A rotation leaves a later version of every row. -/
theorem later_of_rotated {old : RefreshToken} {at_ : Time} (hold : old ∈ d.tokens)
    {s : RefreshToken} (hs : s ∈ d.tokens) :
    ∃ x ∈ (after d [.updateToken (rotated old at_)]).tokens, Later s x := by
  by_cases hid : s.id = old.id
  · obtain rfl : s = old := Table.eq_of_key hs hold hid
    exact ⟨rotated s at_, mem_after_singleton.mpr (Or.inl rfl), rfl, rfl, rfl, fun _ => rfl,
      fun _ => rfl⟩
  · refine ⟨s, mem_after_singleton.mpr (Or.inr ⟨hs, fun t ht => ?_⟩), Later.refl s⟩
    obtain rfl : rotated old at_ = t := Option.some.inj ht
    exact hid

/-- A rotation loses no row. -/
theorem later_of_exchange {old t : RefreshToken} {at_ : Time} (hold : old ∈ d.tokens)
    (ht : Insertable d t) {s : RefreshToken} (hs : s ∈ d.tokens) :
    ∃ x ∈ (after d [.updateToken (rotated old at_), .insertToken t]).tokens, Later s x := by
  obtain ⟨x, hx, hsx⟩ : ∃ x ∈ (after d [.updateToken (rotated old at_)]).tokens, Later s x :=
    later_of_rotated hold hs
  refine ⟨x, mem_after_pair.mpr (Or.inr ⟨hx, fun t' ht' => ?_⟩), hsx⟩
  obtain rfl : t = t' := Option.some.inj ht'
  rw [hsx.id]
  exact (ht.fresh s hs).1

/-- Every old row has a later version in the new database. -/
theorem TokenTx.forth (htx : TokenTx h reqs p d log ws) {s : RefreshToken} (hs : s ∈ d.tokens) :
    ∃ x ∈ (after d ws).tokens, Later s x := by
  cases htx with
  | createUser hnew hnone => exact ⟨s, hs, Later.refl s⟩
  | @issue t hreq ht hnone =>
    refine ⟨s, mem_after_singleton.mpr (Or.inr ⟨hs, fun t' ht' => ?_⟩), Later.refl s⟩
    obtain rfl : t = t' := Option.some.inj ht'
    exact (ht.fresh s hs).1
  | rotate hreq hold hhash hrot howner ht => exact later_of_exchange hold ht hs
  | revoke hws =>
    obtain ⟨x, hx, hsx⟩ := (revoked_rows hws).2 s hs
    exact ⟨x, hx, hsx.later⟩

/-! ## The outline -/

/-- Ids below the sequences are all that is in use; only account holders have access tokens. -/
structure Inv (d : Db) (x : Ext) : Prop where
  tokenId : ∀ t ∈ d.tokens, t.id < x.nextTokenId
  userId : ∀ u ∈ d.users, u.id < x.nextUserId
  signed : ∀ c ∈ x.signed, Account d c.userId

/-- The invariant as a condition on the shared state. -/
abbrev BaseInv (b : Base Db Ext Write) : Prop := Inv b.db b.world

/-- Sequences only advance. -/
structure Advances (x x' : Ext) : Prop where
  token : x.nextTokenId ≤ x'.nextTokenId
  user : x.nextUserId ≤ x'.nextUserId

/-- What a refresh request knows about the row it has read. -/
structure Presented (h : Helpers) (r : Request) (d : Db) (stored : RefreshToken) (user : User) :
    Prop where
  req : ∃ token, r = .refresh token ∧ stored.tokenHash = h.hashRefreshToken token
  row : ∃ s ∈ d.tokens, Later stored s
  owner : user.id = stored.userId
  account : Account d user.id

/-- The writes of a rotation under way. -/
def Rotates (d : Db) (stored : RefreshToken) (ws : List Write) : Prop :=
  ∃ old at_, old ∈ d.tokens ∧ Later stored old ∧ old.rotatedAt = none ∧
    ws = [.updateToken (rotated old at_)]

/-- The assertion at every location: what request `p` may rely on, and its uncommitted writes. -/
def At (h : Helpers) (reqs : Nat → Request) (p : Nat) : Loc → Base Db Ext Write → List Write → Prop
  | .start, b, ws => ws = [] ∧ ∀ e ∈ b.log, e.1 ≠ p
  | .signupCreate, b, ws => ws = [] ∧ (reqs p).opens ∧ ∀ j, ¬ Recorded b.log p j
  | .issue user, b, ws =>
      ws = [] ∧ (reqs p).opens ∧ (∀ j, ¬ Recorded b.log p j) ∧ Account b.db user.id
  | .rotate stored user, b, ws => ws = [] ∧ Presented h (reqs p) b.db stored user
  | .successor stored user, b, ws =>
      Presented h (reqs p) b.db stored user ∧ Rotates b.db stored ws
  | .rotateCommit stored user _, b, ws =>
      Presented h (reqs p) b.db stored user ∧
      ∃ vs t, Rotates b.db stored vs ∧ Insertable b.db t ∧ t.userId = stored.userId ∧
        t.id < b.world.nextTokenId ∧ ws = vs ++ [.insertToken t]
  | .logoutOne _ _, _, ws => ws = []
  | .newPassword user _, b, ws => ws = [] ∧ Account b.db user.id
  | .revokeScan userId reply, b, ws =>
      (∀ w ∈ ws, Revokes b.db w) ∧ Account b.db userId ∧ ∀ u a r, reply ≠ .session u a r
  | .revokeRows userId _ _ reply, b, ws =>
      (∀ w ∈ ws, Revokes b.db w) ∧ Account b.db userId ∧ ∀ u a r, reply ≠ .session u a r
  | .throwing _, _, _ => True
  | .done (.session _ _ _), b, ws =>
      ws = [] ∧ ∀ token, reqs p = .refresh token → ∃ j, Recorded b.log p j
  | .done _, _, ws => ws = []

/-! ## Other transactions do not break an assertion -/

/-- What is recorded stays recorded. -/
theorem recorded_mono {p q j : Nat} {log : List (Nat × List Write)} {vs : List Write}
    (hj : Recorded log p j) : Recorded (log ++ [(q, vs)]) p j := by
  obtain ⟨ws, t, hmem, ht, hid⟩ := hj
  exact ⟨ws, t, List.mem_append_left _ hmem, ht, hid⟩

/-- A recorded token is an older one, or one of the newest transaction. -/
theorem recorded_concat {p q j : Nat} {log : List (Nat × List Write)} {vs : List Write} :
    Recorded (log ++ [(q, vs)]) p j ↔
      Recorded log p j ∨ (p = q ∧ ∃ t, Write.insertToken t ∈ vs ∧ t.id = j) := by
  constructor
  · rintro ⟨ws, t, hmem, ht, hid⟩
    rcases List.mem_append.mp hmem with hmem | hmem
    · exact Or.inl ⟨ws, t, hmem, ht, hid⟩
    · obtain ⟨rfl, rfl⟩ := Prod.mk.inj (List.mem_singleton.mp hmem)
      exact Or.inr ⟨rfl, t, ht, hid⟩
  · rintro (hj | ⟨rfl, t, ht, hid⟩)
    · exact recorded_mono hj
    · exact ⟨vs, t, List.mem_append_right _ List.mem_cons_self, ht, hid⟩

/-- A commit of somebody else records nothing for this request. -/
theorem not_recorded_concat {p q : Nat} (hpq : p ≠ q)
    (hnone : ∀ j, ¬ Recorded log p j) : ∀ j, ¬ Recorded (log ++ [(q, vs)]) p j := by
  intro j hj
  rcases recorded_concat.mp hj with hj | ⟨hq, -⟩
  · exact hnone j hj
  · exact hpq hq

/-- Transactions that hold no clashing locks write different token rows. -/
theorem ids_ne_of_apart (hap : (sessions h reqs).Apart ws vs) {w v : Write} {s t : RefreshToken}
    (hw : w ∈ ws) (hv : v ∈ vs) (hs : w.token? = some s) (ht : v.token? = some t) :
    s.id ≠ t.id := by
  have hclash := hap w hw v hv
  intro hid
  cases w <;> cases v <;>
    simp_all [Write.token?, Machine.clash, sessions, locks, Lock.clash]

/-- Nor do they insert equal hashes. -/
theorem hashes_ne_of_apart (hap : (sessions h reqs).Apart ws vs) {s t : RefreshToken}
    (hs : Write.insertToken s ∈ ws) (ht : Write.insertToken t ∈ vs) :
    s.tokenHash ≠ t.tokenHash := by
  have hclash := hap _ hs _ ht
  intro hhash
  simp [Machine.clash, sessions, locks, Lock.clash, hhash] at hclash

/-- A row that a pending write replaces is not touched by a transaction apart from it. -/
theorem mem_after_of_apart (hap : (sessions h reqs).Apart ws vs) {w : Write}
    {old new : RefreshToken} (hw : w ∈ ws) (hnew : w.token? = some new) (hid : new.id = old.id)
    (hold : old ∈ d.tokens) : old ∈ (after d vs).tokens := by
  refine mem_after_of_untouched vs hold fun v hv t ht => ?_
  rw [← hid]
  exact ids_ne_of_apart hap hw hv hnew ht

theorem Later.trans {s t u : RefreshToken} (hst : Later s t) (htu : Later t u) : Later s u where
  id := htu.id.trans hst.id
  userId := htu.userId.trans hst.userId
  tokenHash := htu.tokenHash.trans hst.tokenHash
  rotatedAt := fun h => htu.rotatedAt (hst.rotatedAt h)
  revokedAt := fun h => htu.revokedAt (hst.revokedAt h)

/-- What a refresh has read of its row is still true of a later state of it. -/
theorem Presented.after {r : Request} {stored : RefreshToken} {user : User}
    (hp : Presented h r d stored user) (htx : TokenTx h reqs q d log vs) :
    Presented h r (after d vs) stored user := by
  obtain ⟨s, hs, hlater⟩ := hp.row
  obtain ⟨x, hx, hsx⟩ := htx.forth hs
  exact ⟨hp.req, ⟨x, hx, hlater.trans hsx⟩, hp.owner, hp.account.after vs⟩

/-- Another transaction cannot rotate a row whose lock is held. -/
theorem Rotates.after {stored : RefreshToken} (hr : Rotates d stored ws)
    (hap : (sessions h reqs).Apart ws vs) : Rotates (after d vs) stored ws := by
  obtain ⟨old, at_, hold, hlater, hrot, rfl⟩ := hr
  exact ⟨old, at_, mem_after_of_apart hap List.mem_cons_self rfl rfl hold, hlater, hrot, rfl⟩

theorem Insertable.after {t : RefreshToken} (ht : Insertable d t)
    (htx : TokenTx h reqs q d log vs) (hap : (sessions h reqs).Apart ws vs)
    (hmem : Write.insertToken t ∈ ws) : Insertable (after d vs) t where
  rotatedAt := ht.rotatedAt
  revokedAt := ht.revokedAt
  owner := ht.owner.after vs
  fresh := by
    intro x hx
    rcases htx.back hx with ⟨s, hs, hlater⟩ | hins
    · rw [hlater.id, hlater.tokenHash]
      exact ht.fresh s hs
    · exact ⟨(ids_ne_of_apart hap hmem hins rfl rfl).symm, (hashes_ne_of_apart hap hmem hins).symm⟩

theorem Revokes.after {w : Write} (hw : Revokes d w) (hap : (sessions h reqs).Apart ws vs)
    (hmem : w ∈ ws) : Revokes (after d vs) w := by
  rcases hw with ⟨u, rfl, hu⟩ | ⟨old, hold, at_, hnone, rfl⟩
  · exact Or.inl ⟨u, rfl, Account.after hu vs⟩
  · exact Or.inr ⟨old, mem_after_of_apart hap hmem rfl rfl hold, at_, hnone, rfl⟩

/-- The assertion of `p` survives a transaction of another request. -/
theorem at_other {l : Loc} {b : Base Db Ext Write} (hpq : p ≠ q) (hat : At h reqs p l b ws)
    (htx : TokenTx h reqs q b.db b.log vs) (hap : (sessions h reqs).Apart ws vs) :
    At h reqs p l ((sessions h reqs).commitBase b q vs) ws := by
  cases l with
  -- none of its own transactions has committed, nor does this one count
  | start =>
    refine ⟨hat.1, fun e he => ?_⟩
    rcases List.mem_append.mp he with he | he
    · exact hat.2 e he
    · rw [List.mem_singleton.mp he]
      exact hpq.symm
  | signupCreate => exact ⟨hat.1, hat.2.1, not_recorded_concat hpq hat.2.2⟩
  | issue user =>
    exact ⟨hat.1, hat.2.1, not_recorded_concat hpq hat.2.2.1, hat.2.2.2.after vs⟩
  | rotate stored user => exact ⟨hat.1, hat.2.after htx⟩
  | successor stored user => exact ⟨hat.1.after htx, hat.2.after hap⟩
  | rotateCommit stored user token =>
    obtain ⟨hpres, us, t, hrot, hins, huser, hlt, rfl⟩ := hat
    have hapl : (sessions h reqs).Apart us vs :=
      fun w hw => hap w (List.mem_append_left _ hw)
    exact ⟨hpres.after htx, us, t, hrot.after hapl,
      hins.after htx hap (List.mem_append_right _ List.mem_cons_self), huser, hlt, rfl⟩
  | logoutOne userId token => exact hat
  | newPassword user hash => exact ⟨hat.1, hat.2.after vs⟩
  | revokeScan userId reply =>
    exact ⟨fun w hw => (hat.1 w hw).after hap hw, hat.2.1.after vs, hat.2.2⟩
  | revokeRows userId ids at_ reply =>
    exact ⟨fun w hw => (hat.1 w hw).after hap hw, hat.2.1.after vs, hat.2.2⟩
  | throwing e => trivial
  | done r =>
    cases r with
    | session u a t =>
      refine ⟨hat.1, fun token hreq => ?_⟩
      obtain ⟨j, hj⟩ := hat.2 token hreq
      exact ⟨j, recorded_mono hj⟩
    | ok => exact hat
    | thrown e => exact hat

/-! ## Every statement leads to the next assertion -/

theorem Advances.refl (x : Ext) : Advances x x := ⟨Nat.le_refl _, Nat.le_refl _⟩

/-- A bulk revocation inserts no token. -/
theorem no_insert_of_revokes (hws : ∀ w ∈ ws, Revokes d w) (t : RefreshToken) :
    ¬ Write.insertToken t ∈ ws := by
  intro hmem
  rcases hws _ hmem with ⟨u, hu, -⟩ | ⟨old, -, at_, -, hold⟩
  · nomatch hu
  · nomatch hold

/-- A user found after some writes was there before, or one of them wrote it. -/
theorem mem_users_after (ws : List Write) {d : Db} {u : User} (hu : u ∈ (after d ws).users) :
    u ∈ d.users ∨ Write.insertUser u ∈ ws ∨ Write.updateUser u ∈ ws := by
  have hback := Writes.back apply (P := fun d => u ∈ d.users)
    (Q := fun w => w = Write.insertUser u ∨ w = Write.updateUser u) (fun w _ d hu => ?_) hu
  · rcases hback with hu | ⟨w, hw, rfl | rfl⟩
    · exact Or.inl hu
    · exact Or.inr (Or.inl hw)
    · exact Or.inr (Or.inr hw)
  · cases w with
    | insertUser v =>
      rcases Table.mem_put.mp hu with rfl | ⟨hu, -⟩
      · exact Or.inr (Or.inl rfl)
      · exact Or.inl hu
    | updateUser v =>
      rcases Table.mem_put.mp hu with rfl | ⟨hu, -⟩
      · exact Or.inr (Or.inr rfl)
      · exact Or.inl hu
    | insertToken t => exact Or.inl hu
    | updateToken t => exact Or.inl hu

/-- A transaction keeps the invariant if what it inserts got its id from a sequence. -/
theorem Inv.commit {x : Ext} (hinv : Inv d x) (htx : TokenTx h reqs p d log ws)
    (htok : ∀ t, Write.insertToken t ∈ ws → t.id < x.nextTokenId)
    (huser : ∀ u, Write.insertUser u ∈ ws → u.id < x.nextUserId) : Inv (after d ws) x where
  tokenId := by
    intro t ht
    rcases htx.back ht with ⟨s, hs, hlater⟩ | hins
    · rw [hlater.id]
      exact hinv.tokenId s hs
    · exact htok t hins
  userId := by
    intro u hu
    rcases mem_users_after ws hu with hu | hu | hu
    · exact hinv.userId u hu
    · exact huser u hu
    · cases htx with
      | createUser => simp at hu
      | issue => simp at hu
      | rotate => simp at hu
      | revoke hws =>
        rcases hws _ hu with ⟨v, hv, w, hw, hid⟩ | ⟨old, -, at_, -, hold⟩
        · obtain rfl := Write.updateUser.inj hv
          rw [← hid]
          exact hinv.userId w hw
        · nomatch hold
  signed := fun c hc => (hinv.signed c hc).after ws

section Statements

variable {b : Base Db Ext Write} {o : Oracle}

/-- A statement that only reads. -/
theorem auto_goOn {l : Loc} (hinv : Inv b.db b.world) (hat : At h reqs p l b []) :
    AutoOk (sessions h reqs) BaseInv (At h reqs) (TokenTx h reqs) Advances p b (goOn b.world l) :=
  ⟨Advances.refl _, Or.inl ⟨rfl, hinv, hat⟩⟩

/-- A statement of a transaction that writes nothing hands its assertion on. -/
theorem stmt_goOn {l : Loc} (hinv : Inv b.db b.world) (hat : At h reqs p l b ws) :
    StmtOk BaseInv (At h reqs) Advances p b ws (goOn b.world l) :=
  ⟨Advances.refl _, hinv, by simpa [goOn] using hat⟩

/-- A request that has committed nothing has recorded nothing. -/
theorem not_recorded_of_start (hlog : ∀ e ∈ b.log, e.1 ≠ p) (j : Nat) : ¬ Recorded b.log p j := by
  rintro ⟨ws, t, hmem, -⟩
  exact hlog _ hmem rfl

/-- The first statement of a session request writes nothing; a refresh or a change of password opens
    its transaction. -/
theorem auto_start (hinv : Inv b.db b.world) (hat : At h reqs p .start b []) :
    AutoOk (sessions h reqs) BaseInv (At h reqs) (TokenTx h reqs) Advances p b
      (start h (reqs p) o b.db b.world) := by
  have hnone := not_recorded_of_start hat.2
  unfold start
  split
  · rename_i hreq
    unfold signupUser
    split
    · exact auto_goOn hinv trivial
    · exact auto_goOn hinv ⟨rfl, by rw [hreq]; rfl, hnone⟩
  · rename_i hreq
    unfold loginUser
    split
    · exact auto_goOn hinv trivial
    · rename_i user huser
      split
      · exact auto_goOn hinv
          ⟨rfl, by rw [hreq]; rfl, hnone, user, (Table.find?_some huser).1, rfl⟩
      · exact auto_goOn hinv trivial
  · rename_i token hreq
    unfold refreshSession
    split
    · exact auto_goOn hinv trivial
    · rename_i stored hstored
      have hmem := (Table.find?_some hstored).1
      have hhash := eq_of_beq (Table.find?_some hstored).2
      split
      · exact auto_goOn hinv trivial
      · rename_i user huser
        obtain ⟨hu, hid⟩ := Table.get?_eq_some.mp huser
        split
        · exact auto_goOn hinv
            ⟨fun w hw => by simp at hw, ⟨user, hu, hid⟩, fun u a r => by simp⟩
        · split
          · exact auto_goOn hinv trivial
          · split
            · exact auto_goOn hinv trivial
            · exact auto_goOn hinv ⟨rfl, ⟨token, hreq, hhash⟩, ⟨stored, hmem, Later.refl _⟩, hid,
                user, hu, rfl⟩
  · rename_i caller token hreq
    unfold logoutUser
    split
    · rename_i hsigned
      split
      · exact auto_goOn hinv rfl
      · exact auto_goOn hinv
          ⟨fun w hw => by simp at hw, hinv.signed _ hsigned, fun u a r => by simp⟩
    · exact auto_goOn hinv trivial
  · rename_i caller current new hreq
    unfold changePassword
    split
    · split
      · exact auto_goOn hinv trivial
      · rename_i user huser
        split
        · exact auto_goOn hinv ⟨rfl, user, (Table.get?_eq_some.mp huser).1, rfl⟩
        · exact auto_goOn hinv trivial
    · exact auto_goOn hinv trivial

/-- A signup commits its user alone. -/
theorem auto_signupCreate (hinv : Inv b.db b.world) (hat : At h reqs p .signupCreate b []) :
    AutoOk (sessions h reqs) BaseInv (At h reqs) (TokenTx h reqs) Advances p b
      (create h (reqs p) o b.db b.world) := by
  obtain ⟨-, hopens, hnone⟩ := hat
  unfold create
  split
  · rename_i name email password hreq
    have hadv : Advances b.world { b.world with nextUserId := b.world.nextUserId + 1 } :=
      ⟨Nat.le_refl _, Nat.le_succ _⟩
    have hinv' : Inv b.db { b.world with nextUserId := b.world.nextUserId + 1 } :=
      ⟨hinv.tokenId, fun u hu => Nat.lt_succ_of_lt (hinv.userId u hu), hinv.signed⟩
    unfold signupCreate
    split
    · exact ⟨hadv, Or.inl ⟨rfl, hinv', trivial⟩⟩
    · have htx : TokenTx h reqs p b.db b.log [.insertUser
          { id := b.world.nextUserId, name := name, email := email,
            passwordHash := h.hashPassword o.salt password, role := .user }] :=
        .createUser (fun v hv => Nat.ne_of_lt (hinv.userId v hv)) hnone
      refine ⟨hadv, Or.inr ⟨by simp, ?_, htx, rfl, hopens, fun j hj => ?_, ?_⟩⟩
      · exact hinv'.commit htx (fun t ht => by simp at ht)
          fun u hu => by simp at hu; exact hu ▸ Nat.lt_succ_self _
      · rcases recorded_concat.mp hj with hj | ⟨-, t, ht, -⟩
        · exact hnone j hj
        · simp at ht
      · exact ⟨_, Table.mem_put.mpr (Or.inl rfl), rfl⟩
  · exact auto_goOn hinv trivial

/-- What `issueSession` inserts, and where it goes when the hash is taken. -/
theorem issueSession_cases (user : User) (next : String → Loc) (d : Db) (x : Ext) :
    issueSession h user next o d x
        = ([], { x with nextTokenId := x.nextTokenId + 1 }, .throwing (.prisma "P2002")) ∨
    ∃ t : RefreshToken, t.id = x.nextTokenId ∧ t.userId = user.id ∧ t.rotatedAt = none ∧
      t.revokedAt = none ∧ (∀ s ∈ d.tokens, s.tokenHash ≠ t.tokenHash) ∧
      issueSession h user next o d x
        = ([.insertToken t],
           { x with nextTokenId := x.nextTokenId + 1, signed := ⟨user.id, user.role⟩ :: x.signed },
           next o.token) := by
  simp only [issueSession]
  cases hfind : d.tokenByHash (h.hashRefreshToken o.token) with
  | some s => exact Or.inl rfl
  | none =>
    refine Or.inr ⟨_, rfl, rfl, rfl, rfl, fun s hs => ?_, rfl⟩
    simpa using Table.find?_none hfind s hs

/-- The sequences have moved, and a new access token is signed for an account holder. -/
theorem Inv.issued {x : Ext} {c : Caller} (hinv : Inv d x) (hc : Account d c.userId) :
    Inv d { x with nextTokenId := x.nextTokenId + 1, signed := c :: x.signed } where
  tokenId := fun t ht => Nat.lt_succ_of_lt (hinv.tokenId t ht)
  userId := hinv.userId
  signed := by
    intro c' hc'
    rcases List.mem_cons.mp hc' with rfl | hc'
    · exact hc
    · exact hinv.signed c' hc'

/-- A token id that is drawn and not used leaves a gap, and no harm. -/
theorem Inv.skipped {x : Ext} (hinv : Inv d x) :
    Inv d { x with nextTokenId := x.nextTokenId + 1 } :=
  ⟨fun t ht => Nat.lt_succ_of_lt (hinv.tokenId t ht), hinv.userId, hinv.signed⟩

/-- A login or signup commits one token that opens a chain. -/
theorem auto_issue {user : User} (hinv : Inv b.db b.world) (hat : At h reqs p (.issue user) b []) :
    AutoOk (sessions h reqs) BaseInv (At h reqs) (TokenTx h reqs) Advances p b
      (issueSession h user (session user) o b.db b.world) := by
  obtain ⟨-, hopens, hnone, hacc⟩ := hat
  rcases issueSession_cases user (session user) b.db b.world with
    hr | ⟨t, hid, huser, hrot, hrev, hhash, hr⟩
  · rw [hr]
    exact ⟨⟨Nat.le_succ _, Nat.le_refl _⟩, Or.inl ⟨rfl, hinv.skipped, trivial⟩⟩
  · rw [hr]
    have hins : Insertable b.db t :=
      ⟨hrot, hrev, fun s hs => ⟨by have := hinv.tokenId s hs; omega, hhash s hs⟩, huser ▸ hacc⟩
    have htx : TokenTx h reqs p b.db b.log [.insertToken t] := .issue hopens hins hnone
    refine ⟨⟨Nat.le_succ _, Nat.le_refl _⟩, Or.inr ⟨by simp, ?_, htx, rfl, fun token hreq => ?_⟩⟩
    · refine (hinv.issued hacc).commit htx (fun s hs => ?_) fun u hu => by simp at hu
      obtain rfl : s = t := by simpa using hs
      exact hid ▸ Nat.lt_succ_self _
    · rw [hreq] at hopens
      nomatch hopens

/-- The UPDATE of a rotation lands on a row that is neither rotated nor revoked, or throws. -/
theorem stmt_rotate {stored : RefreshToken} {user : User} (hinv : Inv b.db b.world)
    (hat : At h reqs p (.rotate stored user) b ws) :
    StmtOk BaseInv (At h reqs) Advances p b ws (rotate stored user o (after b.db ws) b.world) := by
  obtain ⟨rfl, hpres⟩ := hat
  unfold rotate
  split
  · exact stmt_goOn hinv trivial
  · rename_i row hrow
    obtain ⟨hmem, hid⟩ := Table.get?_eq_some.mp hrow
    split
    · rename_i hrot
      obtain ⟨s, hs, hlater⟩ := hpres.row
      obtain rfl : row = s := Table.eq_of_key hmem hs (hid.trans hlater.id.symm)
      exact ⟨Advances.refl _, hinv, hpres, row, o.now, hmem, hlater, by simpa using hrot, rfl⟩
    · exact stmt_goOn hinv trivial

/-- The successor goes into the transaction of the rotation. -/
theorem stmt_successor {stored : RefreshToken} {user : User} (hinv : Inv b.db b.world)
    (hat : At h reqs p (.successor stored user) b ws) :
    StmtOk BaseInv (At h reqs) Advances p b ws
      (issueSession h user (.rotateCommit stored user) o (after b.db ws) b.world) := by
  obtain ⟨hpres, hrotates⟩ := hat
  rcases issueSession_cases user (.rotateCommit stored user) (after b.db ws) b.world with
    hr | ⟨t, hid, huser, hrot, hrev, hhash, hr⟩
  · rw [hr]
    exact ⟨⟨Nat.le_succ _, Nat.le_refl _⟩, hinv.skipped, trivial⟩
  · rw [hr]
    refine ⟨⟨Nat.le_succ _, Nat.le_refl _⟩, hinv.issued hpres.account, hpres, ws, t, hrotates, ?_,
      huser.trans hpres.owner, hid ▸ Nat.lt_succ_self _, rfl⟩
    refine ⟨hrot, hrev, fun s hs => ⟨by have := hinv.tokenId s hs; omega, ?_⟩,
      huser ▸ hpres.account⟩
    -- the new hash was free after the rotation, and the rotation changes no hash
    obtain ⟨old, at_, hold, -, -, rfl⟩ := hrotates
    obtain ⟨x, hx, hsx⟩ : ∃ x ∈ (after b.db [.updateToken (rotated old at_)]).tokens, Later s x :=
      later_of_rotated hold hs
    rw [← hsx.tokenHash]
    exact hhash x hx

/-- A logout of one session commits the revocation of its row, or nothing. -/
theorem auto_logoutOne {userId : Nat} {token : String} (hinv : Inv b.db b.world) :
    AutoOk (sessions h reqs) BaseInv (At h reqs) (TokenTx h reqs) Advances p b
      (logoutOne h userId token o b.db b.world) := by
  unfold logoutOne
  split
  · exact auto_goOn hinv rfl
  · rename_i row hrow
    split
    · rename_i hguard
      have hmem := (Table.find?_some hrow).1
      have hrev : row.revokedAt = none := by simp at hguard; exact hguard.2
      have htx : TokenTx h reqs p b.db b.log [.updateToken { row with revokedAt := some o.now }] :=
        .revoke fun w hw => Or.inr ⟨row, hmem, o.now, hrev, List.mem_singleton.mp hw⟩
      refine ⟨Advances.refl _, Or.inr ⟨by simp, ?_, htx, rfl⟩⟩
      exact hinv.commit htx (fun t ht => by simp at ht) fun u hu => by simp at hu
    · exact auto_goOn hinv rfl

/-- The new hash is the first write of its transaction. -/
theorem stmt_newPassword {user : User} {hash : String} (hinv : Inv b.db b.world)
    (hat : At h reqs p (.newPassword user hash) b ws) :
    StmtOk BaseInv (At h reqs) Advances p b ws (newPassword user hash (after b.db ws) b.world) := by
  obtain ⟨rfl, hacc⟩ := hat
  unfold newPassword
  split
  · exact stmt_goOn hinv trivial
  · rename_i row hrow
    refine ⟨Advances.refl _, hinv, fun w hw => Or.inl ⟨_, List.mem_singleton.mp hw, ?_⟩, hacc,
      fun u a r => by simp⟩
    exact ⟨row, (Table.get?_eq_some.mp hrow).1, rfl⟩

/-- One row of the bulk UPDATE. It is revoked at the time of the scan, if it is not yet. -/
theorem stmt_revokeRow {userId i : Nat} {ids : List Nat} {at_ : Time} {reply : Reply}
    (hinv : Inv b.db b.world) (hat : At h reqs p (.revokeRows userId (i :: ids) at_ reply) b ws) :
    StmtOk BaseInv (At h reqs) Advances p b ws
      (revokeRow userId i ids at_ reply o (after b.db ws) b.world) := by
  obtain ⟨hws, hacc, hreply⟩ := hat
  unfold revokeRow
  dsimp only
  split
  · exact stmt_goOn hinv ⟨hws, hacc, hreply⟩
  · rename_i row hrow
    split
    · rename_i hguard
      have hrev : row.revokedAt = none := by simp at hguard; exact hguard.2
      refine ⟨Advances.refl _, hinv, fun w hw => ?_, hacc, hreply⟩
      rcases List.mem_append.mp hw with hw | hw
      · exact hws w hw
      · -- the row is not revoked yet, so this transaction has not written it
        obtain ⟨s, hs, rfl | ⟨at', -, rfl⟩⟩ :=
          (revoked_rows hws).1 row (Table.get?_eq_some.mp hrow).1
        · exact Or.inr ⟨row, hs, at_, hrev, List.mem_singleton.mp hw⟩
        · nomatch hrev
    · exact stmt_goOn hinv ⟨hws, hacc, hreply⟩

end Statements

/-- What a refresh commits: one row rotated, and one token inserted. -/
theorem tokenTx_of_rotateCommit {b : Base Db Ext Write} {stored : RefreshToken} {user : User}
    {token : String} (hat : At h reqs p (.rotateCommit stored user token) b ws) :
    TokenTx h reqs p b.db b.log ws ∧ ∃ t, Write.insertToken t ∈ ws ∧
      (∀ s, Write.insertToken s ∈ ws → s = t) ∧ t.id < b.world.nextTokenId ∧
      ∀ u, ¬ Write.insertUser u ∈ ws := by
  obtain ⟨hpres, vs, t, ⟨old, at_, hold, hlater, hrot, rfl⟩, hins, huser, hlt, rfl⟩ := hat
  obtain ⟨presented, hreq, hhash⟩ := hpres.req
  have howner := huser.trans hlater.userId.symm
  refine ⟨.rotate hreq hold (hlater.tokenHash.trans hhash) hrot howner hins, t, by simp,
    fun s hs => by simpa using hs, hlt, fun u hu => by simp at hu⟩

/-- **The outline of the session machine.** -/
theorem outline (h : Helpers) (reqs : Nat → Request) :
    Outline (sessions h reqs) (fun _ _ _ => True) BaseInv (At h reqs) (TokenTx h reqs) Advances where
  stmt := by
    intro p l f b ws o hcode _ hinv hat
    cases l with
    | rotate stored user =>
      obtain rfl := Instr.stmt.inj hcode
      exact stmt_rotate hinv hat
    | successor stored user =>
      obtain rfl := Instr.stmt.inj hcode
      exact stmt_successor hinv hat
    | newPassword user hash =>
      obtain rfl := Instr.stmt.inj hcode
      exact stmt_newPassword hinv hat
    | revokeScan userId reply =>
      obtain rfl := Instr.stmt.inj hcode
      exact stmt_goOn hinv hat
    | revokeRows userId ids at_ reply =>
      cases ids with
      | nil => nomatch hcode
      | cons i ids =>
        obtain rfl := Instr.stmt.inj hcode
        exact stmt_revokeRow hinv hat
    | _ => nomatch hcode
  idle := by
    intro p l f b ws hcode hat
    cases l with
    | start => exact hat.1
    | signupCreate => exact hat.1
    | issue user => exact hat.1
    | logoutOne userId token => exact hat
    | revokeRows userId ids at_ reply => cases ids <;> nomatch hcode
    | _ => nomatch hcode
  auto := by
    intro p l f b o hcode _ hinv hat
    cases l with
    | start =>
      obtain rfl := Instr.auto.inj hcode
      exact auto_start hinv hat
    | signupCreate =>
      obtain rfl := Instr.auto.inj hcode
      exact auto_signupCreate hinv hat
    | issue user =>
      obtain rfl := Instr.auto.inj hcode
      exact auto_issue hinv hat
    | logoutOne userId token =>
      obtain rfl := Instr.auto.inj hcode
      exact auto_logoutOne hinv
    | revokeRows userId ids at_ reply => cases ids <;> nomatch hcode
    | _ => nomatch hcode
  commit := by
    intro p l l' b ws hcode _ hinv hat
    cases commits_of_code hcode with
    | rotation =>
      obtain ⟨htx, t, ht, huniq, hlt, huser⟩ := tokenTx_of_rotateCommit hat
      refine ⟨hinv.commit htx (fun s hs => huniq s hs ▸ hlt) fun u hu => absurd hu (huser u), htx,
        rfl, fun _ _ => ⟨t.id, recorded_concat.mpr (Or.inr ⟨rfl, t, ht, rfl⟩)⟩⟩
    | @revocation userId at_ reply =>
      have htx : TokenTx h reqs p b.db b.log ws := .revoke hat.1
      refine ⟨hinv.commit htx (fun t ht => absurd ht (no_insert_of_revokes hat.1 t))
        fun u hu => ?_, htx, ?_⟩
      · rcases hat.1 _ hu with ⟨v, hv, -⟩ | ⟨old, -, at_, -, hold⟩
        · nomatch hv
        · nomatch hold
      · cases reply with
        | session u a r => exact absurd rfl (hat.2.2 u a r)
        | ok => rfl
        | thrown e => rfl
  rollback := by
    intro p l l' b ws hcode hat
    obtain ⟨e, rfl, rfl⟩ := eq_of_rollback hcode
    rfl
  fail := fun _ => rfl
  env := fun {e} => nomatch e
  world := by
    intro p l b x' ws hext hat
    cases l with
    | rotateCommit stored user token =>
      obtain ⟨hpres, vs, t, hrot, hins, huser, hlt, hws⟩ := hat
      exact ⟨hpres, vs, t, hrot, hins, huser, Nat.lt_of_lt_of_le hlt hext.token, hws⟩
    | done r => cases r <;> exact hat
    | _ => exact hat
  other := fun hpq _ hat htx hap => at_other hpq hat htx hap

/-- Nothing has run: accounts below the sequence, no token. -/
theorem holds_init {users : Table User User.id} {nextUserId : Nat}
    (hids : ∀ u ∈ users, u.id < nextUserId) :
    Outline.Holds (sessions h reqs) BaseInv (At h reqs) (TokenTx h reqs) (init users nextUserId)
      (init users nextUserId) := by
  refine Outline.holds_init rfl rfl ⟨fun t ht => ?_, hids, fun c hc => ?_⟩ fun p => ⟨rfl, ?_⟩
  · exact absurd ht (Table.not_mem_empty t)
  · nomatch hc
  · intro e he
    nomatch he

/-- Every reachable state: the assertions, and a serial log of `TokenTx`. -/
theorem reachable_holds {users : Table User User.id} {nextUserId : Nat}
    (hids : ∀ u ∈ users, u.id < nextUserId) {σ : State Db Ext Write Loc}
    (hrun : Run (sessions h reqs).step always (init users nextUserId) σ) :
    Outline.Holds (sessions h reqs) BaseInv (At h reqs) (TokenTx h reqs) (init users nextUserId) σ :=
  (outline h reqs).sound (holds_init hids) (hrun.mono fun σ a _ => by cases a <;> trivial)

end SmartPatents.UserService
