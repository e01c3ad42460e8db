/-
  Rotation chains are linear.

  Every login or signup opens a chain of refresh tokens: `refreshSession` retires the token it is
  given and issues a successor.  Whatever the interleaving of the session requests, a token has at
  most one successor, exactly the rotated ones have one, and a chain never has two live tokens.

  The argument is about the serial log of `TokenTx` only.  `ChainInv` is the invariant: the log
  records which request committed which token, the request that presented a token is determined by
  the token's hash, and a hash is used once.  `ChainInv.commit` is its step lemma, one case for
  each kind of transaction.

  A chain is not stored anywhere.  `Successor` reads the link between two tokens off the log and
  the requests: the request that presented the one has committed the other.  The consequences are
  put together in `LinearChains`.

  Nothing is assumed of the hash but that the column is unique: two tokens with one hash would be
  one row.
-/
import SmartPatents.SessionTx
import Mathlib.Logic.Relation

namespace SmartPatents.UserService

open ReadCommitted Runs Relation

variable {h : Helpers} {reqs : Nat → Request} {p q : Nat} {d : Db} {ws : List Write}
  {log : List (Nat × List Write)}

/-! ## Successors and chains -/

/-- Request `p` presents the token `t` to `refreshSession`. -/
def Presents (h : Helpers) (reqs : Nat → Request) (p : Nat) (t : RefreshToken) : Prop :=
  ∃ token, reqs p = .refresh token ∧ t.tokenHash = h.hashRefreshToken token

/-- Request `p` presented the token `t` and has committed the token with id `j`. -/
def Exchanged (h : Helpers) (reqs : Nat → Request) (log : List (Nat × List Write))
    (t : RefreshToken) (p j : Nat) : Prop :=
  Presents h reqs p t ∧ Recorded log p j

/-- The token with id `j` was issued in exchange for the one with id `i`. -/
def Successor (h : Helpers) (reqs : Nat → Request) (d : Db) (log : List (Nat × List Write))
    (i j : Nat) : Prop :=
  ∃ t ∈ d.tokens, t.id = i ∧ ∃ p, Exchanged h reqs log t p j

/-- The tokens of the login or signup `q`: the one it issued, and all that descend from it. -/
def Chain (h : Helpers) (reqs : Nat → Request) (d : Db) (log : List (Nat × List Write))
    (q j : Nat) : Prop :=
  (reqs q).opens ∧ ∃ i, Recorded log q i ∧ ReflTransGen (Successor h reqs d log) i j

/-- Neither rotated nor revoked. -/
def RefreshToken.live (t : RefreshToken) : Prop := t.rotatedAt = none ∧ t.revokedAt = none

/-! ## The invariant -/

/-- Every committed token opened a chain or succeeded one that is rotated, and each of these
    happened once. -/
structure ChainInv (h : Helpers) (reqs : Nat → Request) (d : Db) (log : List (Nat × List Write)) :
    Prop where
  hash : ∀ s ∈ d.tokens, ∀ t ∈ d.tokens, s.tokenHash = t.tokenHash → s = t
  revoked : ∀ t ∈ d.tokens, t.rotatedAt.isSome → t.revokedAt.isSome
  recorded : ∀ {p j}, Recorded log p j → ∃ t ∈ d.tokens, t.id = j
  /-- A request that committed a token opened a chain or presented a token that is now rotated. -/
  source : ∀ {p j}, Recorded log p j →
    (reqs p).opens ∨ ∃ t ∈ d.tokens, Exchanged h reqs log t p j
  first : ∀ {p i j}, (reqs p).opens → Recorded log p i → Recorded log p j → i = j
  unique : ∀ {t p q i j}, t ∈ d.tokens → Exchanged h reqs log t p i → Exchanged h reqs log t q j →
    p = q ∧ i = j
  rotated : ∀ t ∈ d.tokens, t.rotatedAt.isSome ↔ ∃ p j, Exchanged h reqs log t p j

/-- Only the hash of a token is presented. -/
theorem Presents.congr {s t : RefreshToken} (hst : t.tokenHash = s.tokenHash) :
    Presents h reqs p t ↔ Presents h reqs p s := by
  simp only [Presents, hst]

/-- One request presents one hash. -/
theorem Presents.hash_eq {s t : RefreshToken} (hs : Presents h reqs p s)
    (ht : Presents h reqs p t) : s.tokenHash = t.tokenHash := by
  obtain ⟨token, hreq, hhash⟩ := hs
  obtain ⟨token', hreq', hhash'⟩ := ht
  obtain rfl := Request.refresh.inj (hreq.symm.trans hreq')
  exact hhash.trans hhash'.symm

/-- A request that opens a chain presents no token. -/
theorem not_presents_of_opens {t : RefreshToken} (ho : (reqs p).opens) :
    ¬ Presents h reqs p t := by
  rintro ⟨token, hreq, -⟩
  rw [hreq] at ho
  nomatch ho

/-- A hash that no row has was presented by nobody who committed. -/
theorem ChainInv.not_exchanged {t : RefreshToken} {j : Nat} (hinv : ChainInv h reqs d log)
    (hfresh : ∀ s ∈ d.tokens, s.tokenHash ≠ t.tokenHash) : ¬ Exchanged h reqs log t p j := by
  rintro ⟨hpres, hrec⟩
  rcases hinv.source hrec with ho | ⟨s, hs, hse, -⟩
  · exact not_presents_of_opens ho hpres
  · exact hfresh s hs (hse.hash_eq hpres)

theorem chainInv_init {users : Table User User.id} :
    ChainInv h reqs { users := users, tokens := Table.empty } [] where
  hash := fun s hs => absurd hs (Table.not_mem_empty s)
  revoked := fun t ht => absurd ht (Table.not_mem_empty t)
  recorded := fun ⟨_, _, hmem, _⟩ => nomatch hmem
  source := fun ⟨_, _, hmem, _⟩ => nomatch hmem
  first := fun _ ⟨_, _, hmem, _⟩ => nomatch hmem
  unique := fun ht => absurd ht (Table.not_mem_empty _)
  rotated := fun t ht => absurd ht (Table.not_mem_empty t)

/-! ## The step lemma -/

/-- A transaction that inserts no token and only revokes keeps the invariant. -/
theorem ChainInv.quiet {d' : Db} {log' : List (Nat × List Write)} (hinv : ChainInv h reqs d log)
    (hback : ∀ x ∈ d'.tokens, ∃ s ∈ d.tokens, Revoked s x)
    (hforth : ∀ s ∈ d.tokens, ∃ x ∈ d'.tokens, Revoked s x)
    (hlog : ∀ p j, Recorded log' p j ↔ Recorded log p j) : ChainInv h reqs d' log' := by
  have hex : ∀ {s x p j}, Revoked s x →
      (Exchanged h reqs log' x p j ↔ Exchanged h reqs log s p j) := by
    intro s x p j hsx
    rw [Exchanged, Exchanged, hlog, Presents.congr hsx.later.tokenHash]
  constructor
  case hash =>
    intro x hx y hy hxy
    obtain ⟨s, hs, hsx⟩ := hback x hx
    obtain ⟨t, ht, hty⟩ := hback y hy
    have hst : s = t :=
      hinv.hash s hs t ht (by rw [← hsx.later.tokenHash, hxy, hty.later.tokenHash])
    refine Table.eq_of_key hx hy ?_
    rw [hsx.id_eq, hty.id_eq, hst]
  case revoked =>
    intro x hx hrot
    obtain ⟨s, hs, hsx⟩ := hback x hx
    rw [hsx.rotatedAt] at hrot
    exact hsx.later.revokedAt (hinv.revoked s hs hrot)
  case recorded =>
    intro p j hj
    obtain ⟨s, hs, hid⟩ := hinv.recorded ((hlog p j).mp hj)
    obtain ⟨x, hx, hsx⟩ := hforth s hs
    exact ⟨x, hx, hsx.id_eq.trans hid⟩
  case source =>
    intro p j hj
    rcases hinv.source ((hlog p j).mp hj) with ho | ⟨s, hs, he⟩
    · exact Or.inl ho
    · obtain ⟨x, hx, hsx⟩ := hforth s hs
      exact Or.inr ⟨x, hx, (hex hsx).mpr he⟩
  case first =>
    intro p i j ho hi hj
    exact hinv.first ho ((hlog p i).mp hi) ((hlog p j).mp hj)
  case unique =>
    intro x p q i j hx hi hj
    obtain ⟨s, hs, hsx⟩ := hback x hx
    exact hinv.unique hs ((hex hsx).mp hi) ((hex hsx).mp hj)
  case rotated =>
    intro x hx
    obtain ⟨s, hs, hsx⟩ := hback x hx
    rw [hsx.rotatedAt, hinv.rotated s hs]
    exact exists_congr fun p => exists_congr fun j => (hex hsx).symm

/-- A transaction of `p` that inserts the token `t`, and retires the token that `p` presents. -/
structure Grows (h : Helpers) (reqs : Nat → Request) (p : Nat) (d d' : Db) (t : RefreshToken) :
    Prop where
  new : t ∈ d'.tokens
  fresh : Insertable d t
  /-- Every other row is an old one; it is rotated if it was, or if it is the one presented. -/
  back : ∀ x ∈ d'.tokens, x = t ∨ ∃ s ∈ d.tokens, Later s x ∧
    (x.rotatedAt.isSome ↔ s.rotatedAt.isSome ∨ Presents h reqs p s)
  forth : ∀ s ∈ d.tokens, ∃ x ∈ d'.tokens, Later s x
  revoked : ∀ x ∈ d'.tokens, x.rotatedAt.isSome → x.revokedAt.isSome
  source : (reqs p).opens ∨ ∃ s ∈ d.tokens, Presents h reqs p s
  /-- The token presented had not been rotated. -/
  unrotated : ∀ s ∈ d.tokens, Presents h reqs p s → s.rotatedAt = none
  self : ¬ Presents h reqs p t

/-- The rows of a login or signup. -/
theorem grows_issue {t : RefreshToken} (hinv : ChainInv h reqs d log) (ho : (reqs p).opens)
    (ht : Insertable d t) : Grows h reqs p d (after d [.insertToken t]) t where
  new := mem_after_singleton.mpr (Or.inl rfl)
  fresh := ht
  back := by
    intro x hx
    rcases mem_after_singleton.mp hx with hx | ⟨hx, -⟩
    · exact Or.inl (Option.some.inj hx).symm
    · refine Or.inr ⟨x, hx, Later.refl x, ?_⟩
      simp [not_presents_of_opens ho]
  forth := by
    intro s hs
    refine ⟨s, mem_after_singleton.mpr (Or.inr ⟨hs, fun t' ht' => ?_⟩), Later.refl s⟩
    obtain rfl : t = t' := Option.some.inj ht'
    exact (ht.fresh s hs).1
  revoked := by
    intro x hx hrot
    rcases mem_after_singleton.mp hx with hx | ⟨hx, -⟩
    · obtain rfl : t = x := Option.some.inj hx
      rw [ht.rotatedAt] at hrot
      nomatch hrot
    · exact hinv.revoked x hx hrot
  source := Or.inl ho
  unrotated := fun s _ hs => absurd hs (not_presents_of_opens ho)
  self := not_presents_of_opens ho

/-- The rows of a rotation. -/
theorem grows_rotate {token : String} {old t : RefreshToken} {at_ : Time}
    (hinv : ChainInv h reqs d log) (hreq : reqs p = .refresh token) (hold : old ∈ d.tokens)
    (hhash : old.tokenHash = h.hashRefreshToken token) (hrot : old.rotatedAt = none)
    (ht : Insertable d t) :
    Grows h reqs p d (after d [.updateToken (rotated old at_), .insertToken t]) t := by
  have hpres : Presents h reqs p old := ⟨token, hreq, hhash⟩
  have honly : ∀ s ∈ d.tokens, Presents h reqs p s → s = old :=
    fun s hs hs' => hinv.hash s hs old hold (hs'.hash_eq hpres)
  have hback : ∀ x ∈ (after d [.updateToken (rotated old at_), .insertToken t]).tokens,
      x = t ∨ x = rotated old at_ ∨ (x ∈ d.tokens ∧ x.id ≠ old.id) := by
    intro x hx
    rcases mem_after_pair.mp hx with hx | ⟨hx, -⟩
    · exact Or.inl (Option.some.inj hx).symm
    · rcases mem_after_singleton.mp hx with hx | ⟨hx, hid⟩
      · exact Or.inr (Or.inl (Option.some.inj hx).symm)
      · exact Or.inr (Or.inr ⟨hx, hid (rotated old at_) rfl⟩)
  constructor
  case new => exact mem_after_pair.mpr (Or.inl rfl)
  case fresh => exact ht
  case forth => exact fun s hs => later_of_exchange hold ht hs
  case back =>
    intro x hx
    rcases hback x hx with rfl | rfl | ⟨hx, hid⟩
    · exact Or.inl rfl
    · exact Or.inr ⟨old, hold, ⟨rfl, rfl, rfl, fun _ => rfl, fun _ => rfl⟩, by simp [rotated, hpres]⟩
    · have hnot : ¬ Presents h reqs p x := fun hp => hid (honly x hx hp ▸ rfl)
      exact Or.inr ⟨x, hx, Later.refl x, by simp [hnot]⟩
  case revoked =>
    intro x hx hxrot
    rcases hback x hx with rfl | rfl | ⟨hx, -⟩
    · rw [ht.rotatedAt] at hxrot
      nomatch hxrot
    · rfl
    · exact hinv.revoked x hx hxrot
  case source => exact Or.inr ⟨old, hold, hpres⟩
  case unrotated => exact fun s hs hs' => honly s hs hs' ▸ hrot
  case self => exact fun hp => (ht.fresh old hold).2 (hpres.hash_eq hp)

/-- A transaction that inserts a token keeps the invariant. -/
theorem ChainInv.grow {d' : Db} {t : RefreshToken} {log' : List (Nat × List Write)}
    (hinv : ChainInv h reqs d log) (hg : Grows h reqs p d d' t)
    (hfirst : (reqs p).opens → ∀ j, ¬ Recorded log p j)
    (hlog : ∀ q j, Recorded log' q j ↔ Recorded log q j ∨ (q = p ∧ t.id = j)) :
    ChainInv h reqs d' log' := by
  -- what an old row was exchanged for, and what is new about it
  have hex : ∀ {s x q j}, Later s x → (Exchanged h reqs log' x q j ↔
      Exchanged h reqs log s q j ∨ (q = p ∧ t.id = j ∧ Presents h reqs p s)) := by
    intro s x q j hsx
    rw [Exchanged, Exchanged, hlog, Presents.congr hsx.tokenHash]
    constructor
    · rintro ⟨hp, hj | ⟨rfl, hj⟩⟩
      · exact Or.inl ⟨hp, hj⟩
      · exact Or.inr ⟨rfl, hj, hp⟩
    · rintro (⟨hp, hj⟩ | ⟨rfl, hj, hp⟩)
      · exact ⟨hp, Or.inl hj⟩
      · exact ⟨hp, Or.inr ⟨rfl, hj⟩⟩
  have hnew : ∀ {q j}, ¬ Exchanged h reqs log' t q j := by
    rintro q j ⟨hp, hj⟩
    rcases (hlog q j).mp hj with hj | ⟨rfl, -⟩
    · exact hinv.not_exchanged (fun s hs => (hg.fresh.fresh s hs).2) ⟨hp, hj⟩
    · exact hg.self hp
  constructor
  case hash =>
    intro x hx y hy hxy
    rcases hg.back x hx with rfl | ⟨s, hs, hsx, -⟩
    · rcases hg.back y hy with rfl | ⟨r, hr, hry, -⟩
      · rfl
      · exact absurd (hry.tokenHash.symm.trans hxy.symm) (hg.fresh.fresh r hr).2
    · rcases hg.back y hy with rfl | ⟨r, hr, hry, -⟩
      · exact absurd (hsx.tokenHash.symm.trans hxy) (hg.fresh.fresh s hs).2
      · have hsr : s = r := hinv.hash s hs r hr (by rw [← hsx.tokenHash, hxy, hry.tokenHash])
        exact Table.eq_of_key hx hy (by rw [hsx.id, hry.id, hsr])
  case revoked => exact hg.revoked
  case recorded =>
    intro q j hj
    rcases (hlog q j).mp hj with hj | ⟨rfl, hid⟩
    · obtain ⟨s, hs, hid⟩ := hinv.recorded hj
      obtain ⟨x, hx, hsx⟩ := hg.forth s hs
      exact ⟨x, hx, hsx.id.trans hid⟩
    · exact ⟨t, hg.new, hid⟩
  case source =>
    intro q j hj
    rcases (hlog q j).mp hj with hj' | ⟨rfl, hid⟩
    · rcases hinv.source hj' with ho | ⟨s, hs, he⟩
      · exact Or.inl ho
      · obtain ⟨x, hx, hsx⟩ := hg.forth s hs
        exact Or.inr ⟨x, hx, (hex hsx).mpr (Or.inl he)⟩
    · rcases hg.source with ho | ⟨s, hs, hp⟩
      · exact Or.inl ho
      · obtain ⟨x, hx, hsx⟩ := hg.forth s hs
        exact Or.inr ⟨x, hx, (hex hsx).mpr (Or.inr ⟨rfl, hid, hp⟩)⟩
  case first =>
    intro q i j ho hi hj
    rcases (hlog q i).mp hi with hi | ⟨rfl, hi⟩
    · rcases (hlog q j).mp hj with hj | ⟨rfl, -⟩
      · exact hinv.first ho hi hj
      · exact absurd hi (hfirst ho i)
    · rcases (hlog q j).mp hj with hj | ⟨-, hj⟩
      · exact absurd hj (hfirst ho j)
      · exact hi.symm.trans hj
  case unique =>
    intro x q r i j hx hi hj
    rcases hg.back x hx with rfl | ⟨s, hs, hsx, -⟩
    · exact absurd hi hnew
    · -- a token exchanged before is rotated, and a rotated token is not exchanged now
      have hold : ∀ {q j}, Exchanged h reqs log s q j → ¬ Presents h reqs p s := by
        intro q j he hp
        have hsome := (hinv.rotated s hs).mpr ⟨q, j, he⟩
        rw [hg.unrotated s hs hp] at hsome
        nomatch hsome
      rcases (hex hsx).mp hi with hei | ⟨hq, hti, hp⟩
      · rcases (hex hsx).mp hj with hej | ⟨-, -, hp⟩
        · exact hinv.unique hs hei hej
        · exact absurd hp (hold hei)
      · rcases (hex hsx).mp hj with hej | ⟨hr, htj, -⟩
        · exact absurd hp (hold hej)
        · exact ⟨hq.trans hr.symm, hti.symm.trans htj⟩
  case rotated =>
    intro x hx
    rcases hg.back x hx with rfl | ⟨s, hs, hsx, hrot⟩
    · refine ⟨fun hsome => ?_, fun ⟨q, j, he⟩ => absurd he hnew⟩
      rw [hg.fresh.rotatedAt] at hsome
      nomatch hsome
    · rw [hrot, hinv.rotated s hs]
      constructor
      · rintro (⟨q, j, he⟩ | hp)
        · exact ⟨q, j, (hex hsx).mpr (Or.inl he)⟩
        · exact ⟨p, t.id, (hex hsx).mpr (Or.inr ⟨rfl, rfl, hp⟩)⟩
      · rintro ⟨q, j, he⟩
        rcases (hex hsx).mp he with he | ⟨-, -, hp⟩
        · exact Or.inl ⟨q, j, he⟩
        · exact Or.inr hp

/-- What the newest transaction recorded, when it inserts one token. -/
theorem recorded_insert {t : RefreshToken}
    (ht : ∀ s, Write.insertToken s ∈ ws ↔ s = t) (q j : Nat) :
    Recorded (log ++ [(p, ws)]) q j ↔ Recorded log q j ∨ (q = p ∧ t.id = j) := by
  rw [recorded_concat]
  simp only [ht, exists_eq_left]

/-- What the newest transaction recorded, when it inserts none. -/
theorem recorded_quiet (hws : ∀ s, ¬ Write.insertToken s ∈ ws) (q j : Nat) :
    Recorded (log ++ [(p, ws)]) q j ↔ Recorded log q j := by
  rw [recorded_concat]
  simp only [hws, false_and, exists_false, and_false, or_false]

/-- **Step lemma**: every transaction keeps the invariant. -/
theorem ChainInv.commit (hinv : ChainInv h reqs d log) (htx : TokenTx h reqs p d log ws) :
    ChainInv h reqs (after d ws) (log ++ [(p, ws)]) := by
  cases htx with
  | createUser hnew hnone =>
    exact hinv.quiet (fun x hx => ⟨x, hx, Or.inl rfl⟩) (fun s hs => ⟨s, hs, Or.inl rfl⟩)
      (recorded_quiet fun s hs => by simp at hs)
  | issue ho ht hnone =>
    exact hinv.grow (grows_issue hinv ho ht) (fun _ => hnone) (recorded_insert fun s => by simp)
  | rotate hreq hold hhash hrot howner ht =>
    refine hinv.grow (grows_rotate hinv hreq hold hhash hrot ht) (fun ho => ?_)
      (recorded_insert fun s => by simp)
    rw [hreq] at ho
    nomatch ho
  | revoke hws =>
    obtain ⟨hback, hforth⟩ := revoked_rows hws
    exact hinv.quiet hback hforth (recorded_quiet (no_insert_of_revokes hws))

/-! ## Every reachable state -/

/-- What it means that rotation chains are linear. -/
structure LinearChains (h : Helpers) (reqs : Nat → Request) (σ : State Db Ext Write Loc) : Prop where
  one_successor : ∀ i j k, Successor h reqs σ.base.db σ.base.log i j →
    Successor h reqs σ.base.db σ.base.log i k → j = k
  rotated_iff : ∀ t ∈ σ.base.db.tokens,
    t.rotatedAt.isSome ↔ ∃ j, Successor h reqs σ.base.db σ.base.log t.id j
  rotated_revoked : ∀ t ∈ σ.base.db.tokens, t.rotatedAt.isSome → t.revokedAt.isSome
  one_live : ∀ q, ∀ s ∈ σ.base.db.tokens, ∀ t ∈ σ.base.db.tokens,
    Chain h reqs σ.base.db σ.base.log q s.id → Chain h reqs σ.base.db σ.base.log q t.id →
    s.live → t.live → s = t
  one_session : ∀ p q token, reqs p = .refresh token → reqs q = .refresh token →
    (∃ u a r, σ.loc p = .done (.session u a r)) → (∃ u a r, σ.loc q = .done (.session u a r)) →
    p = q

/-- A token has one successor at most. -/
theorem ChainInv.successor_unique (hinv : ChainInv h reqs d log) {i j k : Nat}
    (hj : Successor h reqs d log i j) (hk : Successor h reqs d log i k) : j = k := by
  obtain ⟨s, hs, hsi, p, hp⟩ := hj
  obtain ⟨t, ht, hti, q, hq⟩ := hk
  obtain rfl : s = t := Table.eq_of_key hs ht (hsi.trans hti.symm)
  exact (hinv.unique hs hp hq).2

theorem ChainInv.rotated_iff (hinv : ChainInv h reqs d log) {t : RefreshToken}
    (ht : t ∈ d.tokens) : t.rotatedAt.isSome ↔ ∃ j, Successor h reqs d log t.id j := by
  rw [hinv.rotated t ht]
  constructor
  · rintro ⟨p, j, he⟩
    exact ⟨j, t, ht, rfl, p, he⟩
  · rintro ⟨j, s, hs, hid, p, he⟩
    obtain rfl : s = t := Table.eq_of_key hs ht hid
    exact ⟨p, j, he⟩

/-- A token that was exchanged is not live. -/
theorem ChainInv.end_of_live (hinv : ChainInv h reqs d log) {t : RefreshToken} (ht : t ∈ d.tokens)
    (hlive : t.live) {j : Nat} (hdesc : ReflTransGen (Successor h reqs d log) t.id j) :
    t.id = j := by
  rcases hdesc.cases_head with hid | ⟨k, hk, -⟩
  · exact hid
  · have hsome := (hinv.rotated_iff ht).mpr ⟨k, hk⟩
    rw [hlive.1] at hsome
    nomatch hsome

/-- A chain has one live token: of two, one descends from the other. -/
theorem ChainInv.one_live (hinv : ChainInv h reqs d log) {s t : RefreshToken}
    (hs : s ∈ d.tokens) (ht : t ∈ d.tokens) (hcs : Chain h reqs d log q s.id)
    (hct : Chain h reqs d log q t.id) (hls : s.live) (hlt : t.live) : s = t := by
  obtain ⟨ho, i, hi, hdi⟩ := hcs
  obtain ⟨-, j, hj, hdj⟩ := hct
  obtain rfl := hinv.first ho hi hj
  have huniq : Relator.RightUnique (Successor h reqs d log) :=
    fun _ _ _ hb hc => hinv.successor_unique hb hc
  refine Table.eq_of_key hs ht ?_
  rcases hdi.total_of_right_unique huniq hdj with hst | hts
  · exact hinv.end_of_live hs hls hst
  · exact (hinv.end_of_live ht hlt hts).symm

/-- In every run the chains are linear. -/
theorem reachable_chains {users : Table User User.id} {nextUserId : Nat}
    (hids : ∀ u ∈ users, u.id < nextUserId) {σ : State Db Ext Write Loc}
    (hrun : Run (sessions h reqs).step always (init users nextUserId) σ) :
    ChainInv h reqs σ.base.db σ.base.log := by
  have H := reachable_holds hids hrun
  rw [H.replay]
  exact H.serial.invariant chainInv_init fun hinv htx => hinv.commit htx

/-- A refresh that answered with a session has committed a token. -/
theorem recorded_of_session {users : Table User User.id} {nextUserId : Nat}
    (hids : ∀ u ∈ users, u.id < nextUserId) {σ : State Db Ext Write Loc}
    (hrun : Run (sessions h reqs).step always (init users nextUserId) σ) {token : String}
    (hreq : reqs p = .refresh token) (hdone : ∃ u a r, σ.loc p = .done (.session u a r)) :
    ∃ t ∈ σ.base.db.tokens, ∃ j, Exchanged h reqs σ.base.log t p j := by
  obtain ⟨u, a, r, hloc⟩ := hdone
  have hat := (reachable_holds hids hrun).assertions p
  rw [hloc] at hat
  obtain ⟨j, hj⟩ := hat.2 token hreq
  rcases (reachable_chains hids hrun).source hj with ho | ⟨t, ht, he⟩
  · rw [hreq] at ho
    nomatch ho
  · exact ⟨t, ht, j, he⟩

/-- **Rotation chains are linear** in every state any interleaving can reach. -/
theorem linearChains_of_run {users : Table User User.id} {nextUserId : Nat}
    (hids : ∀ u ∈ users, u.id < nextUserId) {σ : State Db Ext Write Loc}
    (hrun : Run (sessions h reqs).step always (init users nextUserId) σ) :
    LinearChains h reqs σ := by
  have hinv := reachable_chains hids hrun
  refine ⟨fun i j k hj hk => hinv.successor_unique hj hk, fun t ht => hinv.rotated_iff ht,
    hinv.revoked, fun q s hs t ht hcs hct hls hlt => hinv.one_live hs ht hcs hct hls hlt, ?_⟩
  intro p q token hp hq hdp hdq
  obtain ⟨s, hs, i, hi⟩ := recorded_of_session hids hrun hp hdp
  obtain ⟨t, ht, j, hj⟩ := recorded_of_session hids hrun hq hdq
  have hst : s.tokenHash = t.tokenHash :=
    hi.1.hash_eq (by simpa only [Presents, hp, hq] using hj.1)
  obtain rfl := hinv.hash s hs t ht hst
  exact (hinv.unique hs hi hj).1

/-! ## Two refreshes race for one token -/

/-- Stand-ins for bcrypt and SHA-256. -/
def plainHelpers : Helpers where
  hashPassword := fun _ password => password
  verifyPassword := fun password hash => password == hash
  hashRefreshToken := fun token => token
  refreshTokenTtlDays := 7

/-- The user of the runs. -/
def alice : User := ⟨1, "Alice", "alice@example.com", "secret", .user⟩

/-- The table with her account. -/
def aliceOnly : Table User User.id := ⟨[alice], by decide⟩

/-- The statement of request `p`, at time `now`, drawing `token` if it needs one. -/
def run (p : Nat) (now : Time) (token : String) : Act Oracle Empty :=
  .run p { now := now, salt := 0, token := token, row := 0 }

/-- Request 0 logs in, the others refresh with the token it gets. -/
def racingRefreshes : Nat → Request
  | 0 => .login "alice@example.com" "secret"
  | _ => .refresh "t1"

/-- Both refreshes read the token before either rotates it. -/
def refreshRace : List (Act Oracle Empty) :=
  [run 0 0 "", run 0 0 "t1", run 1 1 "", run 2 1 "", run 1 2 "", run 1 2 "t2", run 1 2 "",
   run 2 3 "", run 2 3 ""]

theorem refreshRace_runs :
    (exec (sessions plainHelpers racingRefreshes).step (init aliceOnly 2) refreshRace).isSome
      = true := by
  decide

/-- Two refreshes of one token: one of them is refused. -/
theorem linearChains_of_refreshRace :
    LinearChains plainHelpers racingRefreshes
      ((exec (sessions plainHelpers racingRefreshes).step (init aliceOnly 2) refreshRace).get
        refreshRace_runs) :=
  linearChains_of_run (by decide) (Run.exec_get refreshRace_runs)

end SmartPatents.UserService
