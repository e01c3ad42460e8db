/-
  Whose hand changes an account.

  Any number of requests of any kind run at once, statement by statement.  Whatever they do, the row
  of an account changes in two ways only (`Change`), one column group at a time:

    * its name and email, by `PATCH /users/me` with a signed token of the account itself;
    * its password hash, by `PUT /users/me/password` with a signed token of the account itself, and
      only after the request has proved that it knows a password of the account (`Proved`).

  Nobody else's request touches it, an administrator's no more than a stranger's, and neither kind
  of write undoes a concurrent one of the other kind: the transaction of `changePassword` holds the
  lock of the row from its UPDATE to its commit (`Pending.row`).

  `Proved` speaks about the run itself: at some moment on the way, the password that the request
  was given was one of the account's.  It need not be so any more when the new one is committed,
  since another change may have come first.

  `Performs` sorts the statements of all requests into the few that matter to accounts, and
  `Change` is what is left of them in a committed step.
-/
import SmartPatents.Privileges

namespace SmartPatents.Api

open ReadCommitted Runs Access Storage
open UserService (Helpers)

/-! ## The USER rows -/

/-- The row that a write leaves in the USER table. -/
def Write.user? : Write → Option User
  | .session (.insertUser u) | .session (.updateUser u) | .insertAdmin u _ => some u
  | _ => none

section Users

variable {d d' : Db} {w : Write} {u v : User}

/-- To replace the users of a database is to have those users. -/
theorem users_withUsers (users : Table User User.id) (h : d'.accounts = d.withUsers users) :
    d'.users = users := by
  have hrows : d'.users.rows = users.rows := by
    show d'.accounts.rows.map Account.toUser = users.rows
    rw [h, Db.withUsers, List.map_map]
    exact List.map_id _
  cases hd : d'.users
  cases users
  rw [hd] at hrows
  cases hrows
  rfl

/-- A write that is about no user leaves the users alone. -/
theorem users_apply_of_none (h : w.user? = none) : (apply d w).users = d.users := by
  cases w with
  | session w =>
    cases w with
    | insertUser u => nomatch h
    | updateUser u => nomatch h
    | insertToken t => exact users_withUsers d.users rfl
    | updateToken t => exact users_withUsers d.users rfl
  | catalogue w =>
    exact (users_withUsers (Catalogue.apply d.catalogue w).users rfl).trans
      (users_catalogue d.catalogue w)
  | insertAdmin u creator => nomatch h

/-- A user after a write is the one written, or one with another id. -/
theorem mem_users_apply_of_some (h : w.user? = some u) :
    v ∈ (apply d w).users ↔ v = u ∨ (v ∈ d.users ∧ v.id ≠ u.id) := by
  cases w with
  | session w =>
    cases w with
    | insertUser u' =>
      obtain rfl := Option.some.inj h
      rw [users_withUsers (d.users.put u') rfl]
      exact Table.mem_put
    | updateUser u' =>
      obtain rfl := Option.some.inj h
      rw [users_withUsers (d.users.put u') rfl]
      exact Table.mem_put
    | insertToken t => nomatch h
    | updateToken t => nomatch h
  | catalogue w => nomatch h
  | insertAdmin u' creator =>
    obtain rfl := Option.some.inj h
    show v ∈ (d.accounts.put ⟨u', some creator⟩).rows.map Account.toUser ↔ _
    constructor
    · intro hv
      obtain ⟨a, ha, rfl⟩ := List.mem_map.mp hv
      rcases Table.mem_put.mp ha with rfl | ⟨ha, hne⟩
      · exact Or.inl rfl
      · exact Or.inr ⟨List.mem_map_of_mem ha, hne⟩
    · rintro (rfl | ⟨hv, hne⟩)
      · exact List.mem_map.mpr ⟨_, Table.mem_put.mpr (Or.inl rfl), rfl⟩
      · obtain ⟨a, ha, rfl⟩ := List.mem_map.mp hv
        exact List.mem_map.mpr ⟨a, Table.mem_put.mpr (Or.inr ⟨ha, hne⟩), rfl⟩

/-- A row of the new table is an old one, or was written. -/
theorem user_back (ws : List Write) (hv : v ∈ (ws.foldl apply d).users) :
    v ∈ d.users ∨ ∃ w ∈ ws, w.user? = some v := by
  refine Writes.back apply (P := fun d => v ∈ d.users) (fun w _ d hv => ?_) hv
  cases hw : w.user? with
  | none => exact Or.inl (users_apply_of_none hw ▸ hv)
  | some u =>
    rcases (mem_users_apply_of_some hw).mp hv with rfl | ⟨hv, -⟩
    · exact Or.inr rfl
    · exact Or.inl hv

/-- No account goes away. -/
theorem user_forth (ws : List Write) (hv : v ∈ d.users) :
    ∃ v' ∈ (ws.foldl apply d).users, v'.id = v.id := by
  refine List.foldlRecOn (motive := fun d => ∃ v' ∈ d.users, v'.id = v.id) ws apply ⟨v, hv, rfl⟩
    fun _ ⟨v', hv', hid⟩ w _ => ?_
  cases hw : w.user? with
  | none => exact ⟨v', (users_apply_of_none hw).symm ▸ hv', hid⟩
  | some u =>
    by_cases hu : v'.id = u.id
    · exact ⟨u, (mem_users_apply_of_some hw).mpr (Or.inl rfl), hu.symm.trans hid⟩
    · exact ⟨v', (mem_users_apply_of_some hw).mpr (Or.inr ⟨hv', hu⟩), hid⟩

/-- Writes that are about no user, one after another. -/
theorem users_after (ws : List Write) (h : ∀ w ∈ ws, w.user? = none) :
    (ws.foldl apply d).users = d.users :=
  Writes.keeps apply (fun d : Db => d.users) fun w hw _ => users_apply_of_none (h w hw)

end Users

/-! ## What a statement does to the USER table -/

/-- The request changes the password of account `id` to one with the hash `hash`.  It has a signed
    token of the account, and its `currentPassword` has been checked (`V`). -/
def ChangesPassword (h : Helpers) (V : Nat → String → Prop) (signed : List Caller) (r : Request)
    (id : Nat) (hash : String) : Prop :=
  ∃ http role current new salt, r = .users http ∧
    controller http = some (.changePassword ⟨id, role⟩ current new) ∧ ⟨id, role⟩ ∈ signed ∧
    V id current ∧ hash = h.hashPassword salt new

/-- The request edits the profile of account `id`, with a signed token of the account. -/
def EditsProfile (signed : List Caller) (r : Request) (id : Nat) (http : HttpRequest) : Prop :=
  r = .users http ∧ http.route = .updateMe ∧
    ∃ role, http.claims = some ⟨id, role⟩ ∧ ⟨id, role⟩ ∈ signed

/-- What a profile edit makes of a row. -/
def withProfile (http : HttpRequest) (row : User) : User :=
  { row with name := (http.body "name").getD row.name, email := (http.body "email").getD row.email }

/-- What a request knows at a location. -/
def Knows (h : Helpers) (V : Nat → String → Prop) (signed : List Caller) (r : Request) : Loc → Prop
  | .session (.newPassword user hash) => ChangesPassword h V signed r user.id hash
  | .updateProfile => ∃ http, r = .users http ∧ http.route = .updateMe
  | .updateUser id => ∃ http, EditsProfile signed r id http
  | _ => True

/-- The revocation of a password change, with the new hash written and not committed. -/
def Revoking : Loc → Prop
  | .session (.revokeScan _ _) | .session (.revokeRows _ _ _ _) => True
  | _ => False

/-- A statement that leaves the rows of the accounts alone. -/
structure Silent (h : Helpers) (V : Nat → String → Prop) (r : Request) (x : Ext) (out : Outcome) :
    Prop where
  writes : ∀ w ∈ out.1, w.user? = none
  signed : x.sessions.signed ⊆ out.2.1.sessions.signed
  knows : Knows h V out.2.1.sessions.signed r out.2.2

/-- What a statement inside a transaction may do to the rows `users`. -/
inductive Prepares (h : Helpers) (V : Nat → String → Prop) (r : Request) (x : Ext)
    (users : Table User User.id) : Outcome → Prop
  | silent {out} (hsilent : Silent h V r x out) : Prepares h V r x users out
  | password {hash row reply} (hchanges : ChangesPassword h V x.sessions.signed r row.id hash)
      (hrow : row ∈ users) :
      Prepares h V r x users ([.session (.updateUser { row with passwordHash := hash })], x,
        .session (.revokeScan row.id reply))

/-- The same for a statement that commits by itself. -/
inductive Touches (h : Helpers) (V : Nat → String → Prop) (r : Request) (x : Ext)
    (users : Table User User.id) : Outcome → Prop
  | silent {out} (hsilent : Silent h V r x out) : Touches h V r x users out
  | insert {w u x' l'} (hw : w.user? = some u) (hid : u.id = x.sessions.nextUserId)
      (hsigned : x.sessions.signed ⊆ x'.sessions.signed)
      (hknows : Knows h V x'.sessions.signed r l') : Touches h V r x users ([w], x', l')
  | profile {http row reply} (hedits : EditsProfile x.sessions.signed r row.id http)
      (hrow : row ∈ users) :
      Touches h V r x users ([.session (.updateUser (withProfile http row))], x, .done reply)

section Statements

variable {h : Helpers} {V V' : Nat → String → Prop} {r : Request} {d : Db} {x : Ext} {l : Loc}
  {users : Table User User.id} {signed signed' : List Caller} {s : UserService.Request} {p : Nat}

/-- A password change stays justified as more is proved and signed. -/
theorem ChangesPassword.mono {id : Nat} {hash : String}
    (hc : ChangesPassword h V signed r id hash) (hV : ∀ id current, V id current → V' id current)
    (hsub : signed ⊆ signed') : ChangesPassword h V' signed' r id hash := by
  obtain ⟨http, role, current, new, salt, hreq, hcontroller, hsigned, hproved, hhash⟩ := hc
  exact ⟨http, role, current, new, salt, hreq, hcontroller, hsub hsigned, hV _ _ hproved, hhash⟩

theorem EditsProfile.mono {id : Nat} {http : HttpRequest} (he : EditsProfile signed r id http)
    (hsub : signed ⊆ signed') : EditsProfile signed' r id http := by
  obtain ⟨hreq, hroute, role, hclaims, hsigned⟩ := he
  exact ⟨hreq, hroute, role, hclaims, hsub hsigned⟩

theorem Knows.mono (hk : Knows h V signed r l) (hV : ∀ id current, V id current → V' id current)
    (hsub : signed ⊆ signed') : Knows h V' signed' r l := by
  cases l with
  | session l =>
    cases l with
    | newPassword user hash => exact ChangesPassword.mono hk hV hsub
    | _ => trivial
  | updateProfile => exact hk
  | updateUser id =>
    obtain ⟨http, hedits⟩ := hk
    exact ⟨http, hedits.mono hsub⟩
  | _ => trivial

/-- A statement that only reads is silent. -/
theorem silent_goOn (hknows : Knows h V x.sessions.signed r l) : Silent h V r x (goOn x l) :=
  ⟨fun _ hw => (List.not_mem_nil hw).elim, List.Subset.refl _, hknows⟩

theorem touches_goOn (hknows : Knows h V x.sessions.signed r l) :
    Touches h V r x users (goOn x l) :=
  .silent (silent_goOn hknows)

theorem touches_throw (e : AppError) : Touches h V r x users (throw_ x e) := touches_goOn trivial

theorem touches_violates (c : String) : Touches h V r x users (violates x c) := touches_goOn trivial

/-! ### Session requests -/

/-- A session statement that leaves the accounts alone. -/
theorem silent_session {out : UserService.Outcome}
    (hws : ∀ w ∈ out.1, (Write.session w).user? = none)
    (hsigned : x.sessions.signed ⊆ out.2.1.signed)
    (hknows : Knows h V out.2.1.signed r (.session out.2.2)) :
    Silent h V r x (ofSession x out) := by
  refine ⟨fun w hw => ?_, hsigned, hknows⟩
  obtain ⟨v, hv, rfl⟩ := List.mem_map.mp hw
  exact hws v hv

theorem silent_session_goOn {l : UserService.Loc} {y : UserService.Ext}
    (hsigned : x.sessions.signed ⊆ y.signed) (hknows : Knows h V y.signed r (.session l)) :
    Silent h V r x (ofSession x (UserService.goOn y l)) :=
  silent_session (fun _ hw => (List.not_mem_nil hw).elim) hsigned hknows

/-- One that writes a refresh token. -/
theorem silent_session_token {w : UserService.Write} {l : UserService.Loc}
    (hw : (Write.session w).user? = none) (hknows : Knows h V x.sessions.signed r (.session l)) :
    Silent h V r x (ofSession x ([w], x.sessions, l)) :=
  silent_session (fun _ hv => List.mem_singleton.mp hv ▸ hw) (List.Subset.refl _) hknows

/-- The password is checked against the row that is there. -/
theorem silent_changePassword {o : UserService.Oracle} {http : HttpRequest} {caller : Caller}
    {current new : String} (hreq : r = .users http)
    (hcontroller : controller http = some (.changePassword caller current new))
    (hV : ∀ v ∈ d.users, ∀ current, h.verifyPassword current v.passwordHash = true →
      V v.id current) :
    Silent h V r x
      (ofSession x (UserService.changePassword h caller current new o d.sessions x.sessions)) := by
  unfold UserService.changePassword
  split
  · rename_i hsigned
    split
    · exact silent_session_goOn (List.Subset.refl _) trivial
    · rename_i user huser
      obtain ⟨hmem, hid⟩ := Table.get?_eq_some.mp huser
      split
      · rename_i hverified
        refine silent_session_goOn (List.Subset.refl _)
          ⟨http, caller.role, current, new, o.salt, hreq, ?_, ?_, hV user hmem _ hverified, rfl⟩
        · rw [hcontroller, hid]
        · rw [hid]
          exact hsigned
      · exact silent_session_goOn (List.Subset.refl _) trivial
  · exact silent_session_goOn (List.Subset.refl _) trivial

/-- The first statement of a session request writes no user, and a change of password goes on only
    if the current one has been verified. -/
theorem silent_start {o : UserService.Oracle} {http : HttpRequest} (hreq : r = .users http)
    (hcontroller : controller http = some s)
    (hV : ∀ v ∈ d.users, ∀ current, h.verifyPassword current v.passwordHash = true →
      V v.id current) :
    Silent h V r x (ofSession x (UserService.start h s o d.sessions x.sessions)) := by
  have hgo : ∀ l, Knows h V x.sessions.signed r (.session l) →
      Silent h V r x (ofSession x (UserService.goOn x.sessions l)) := fun l hl =>
    silent_session_goOn (List.Subset.refl _) hl
  cases s with
  | signup name email password =>
    simp only [UserService.start, UserService.signupUser]
    split <;> exact hgo _ trivial
  | login email password =>
    simp only [UserService.start, UserService.loginUser]
    split
    · exact hgo _ trivial
    · split <;> exact hgo _ trivial
  | refresh token =>
    simp only [UserService.start, UserService.refreshSession]
    split
    · exact hgo _ trivial
    · split
      · exact hgo _ trivial
      · split
        · exact hgo _ trivial
        · split
          · exact hgo _ trivial
          · split <;> exact hgo _ trivial
  | logout caller token =>
    simp only [UserService.start, UserService.logoutUser]
    split
    · split <;> exact hgo _ trivial
    · exact hgo _ trivial
  | changePassword caller current new => exact silent_changePassword hreq hcontroller hV

/-- Issuing tokens writes no user. -/
theorem silent_issueSession {o : UserService.Oracle} {u : User} {next : String → UserService.Loc}
    (hnext : ∀ token signed, Knows h V signed r (.session (next token))) :
    Silent h V r x
      (ofSession x (UserService.issueSession h u next o d.sessions x.sessions)) := by
  unfold UserService.issueSession
  dsimp only
  split
  · exact silent_session_goOn (List.Subset.refl _) trivial
  · refine silent_session (fun w hw => ?_) (List.subset_cons_self _ _) (hnext _ _)
    rw [List.mem_singleton.mp hw]
    rfl

/-- A signup adds an account and changes none. -/
theorem touches_signupCreate {o : UserService.Oracle} {name email password : String} :
    Touches h V r x users
      (ofSession x (UserService.signupCreate h name email password o d.sessions x.sessions)) := by
  unfold UserService.signupCreate
  dsimp only
  split
  · exact .silent (silent_session_goOn (List.Subset.refl _) trivial)
  · exact .insert rfl rfl (List.Subset.refl _) trivial

/-- In a transaction the new password is written first, over the hash that was verified. -/
theorem prepares_of_stmt {l : UserService.Loc}
    {f : UserService.Oracle → UserService.Db → UserService.Ext → UserService.Outcome}
    (o : UserService.Oracle) (hcode : UserService.code h (fun _ => s) p l = .stmt f)
    (hnot : ¬ Revoking (.session l)) (hknows : Knows h V x.sessions.signed r (.session l)) :
    Prepares h V r x d.users (ofSession x (f o d.sessions x.sessions)) := by
  have hgo : ∀ l, Knows h V x.sessions.signed r (.session l) →
      Prepares h V r x d.users (ofSession x (UserService.goOn x.sessions l)) := fun l hl =>
    .silent (silent_session_goOn (List.Subset.refl _) hl)
  cases l with
  | rotate stored user =>
    obtain rfl := Instr.stmt.inj hcode
    unfold UserService.rotate
    split
    · exact hgo _ trivial
    · split
      · exact .silent (silent_session_token rfl trivial)
      · exact hgo _ trivial
  | successor stored user =>
    obtain rfl := Instr.stmt.inj hcode
    exact .silent (silent_issueSession fun _ _ => trivial)
  | newPassword user hash =>
    obtain rfl := Instr.stmt.inj hcode
    dsimp only [UserService.newPassword]
    split
    · exact hgo _ trivial
    · rename_i row hrow
      obtain ⟨hmem, hid⟩ := Table.get?_eq_some.mp hrow
      -- the row of the account as it is now
      change User.id row = User.id user at hid
      have hchanges : ChangesPassword h V x.sessions.signed r row.id hash := hid ▸ hknows
      rw [← hid]
      exact .password hchanges hmem
  | revokeScan userId reply => exact (hnot trivial).elim
  | revokeRows userId ids at_ reply => exact (hnot trivial).elim
  | _ => cases hcode

/-- Outside a transaction no session statement changes an account. -/
theorem touches_of_auto {l : UserService.Loc} {http : HttpRequest}
    {f : UserService.Oracle → UserService.Db → UserService.Ext → UserService.Outcome}
    (o : UserService.Oracle) (hcode : UserService.code h (fun _ => s) p l = .auto f)
    (hreq : r = .users http) (hcontroller : controller http = some s)
    (hV : ∀ v ∈ d.users, ∀ current, h.verifyPassword current v.passwordHash = true →
      V v.id current) :
    Touches h V r x users (ofSession x (f o d.sessions x.sessions)) := by
  cases l with
  | start =>
    obtain rfl := Instr.auto.inj hcode
    exact .silent (silent_start hreq hcontroller hV)
  | signupCreate =>
    obtain rfl := Instr.auto.inj hcode
    cases s with
    | signup name email password => exact touches_signupCreate
    | _ => exact .silent (silent_session_goOn (List.Subset.refl _) trivial)
  | issue user =>
    obtain rfl := Instr.auto.inj hcode
    exact .silent (silent_issueSession fun _ _ => trivial)
  | logoutOne userId token =>
    obtain rfl := Instr.auto.inj hcode
    unfold UserService.logoutOne
    split
    · exact .silent (silent_session_goOn (List.Subset.refl _) trivial)
    · split
      · exact .silent (silent_session_token rfl trivial)
      · exact .silent (silent_session_goOn (List.Subset.refl _) trivial)
  | revokeRows userId ids at_ reply => cases ids <;> cases hcode
  | _ => cases hcode

/-! ### Profiles and admins -/

/-- Behind `requireAuth` the caller is one that the server has signed a token for. -/
theorem touches_requireAuth {claims : Option Caller} {next : Caller → Outcome}
    (hnext : ∀ caller, claims = some caller → caller ∈ x.sessions.signed →
      Touches h V r x users (next caller)) : Touches h V r x users (requireAuth claims x next) := by
  unfold requireAuth
  split
  · exact touches_throw _
  · rename_i caller
    split
    · rename_i hsigned
      exact hnext caller rfl hsigned
    · exact touches_throw _

theorem touches_requireRole {allowedRoles : List Role} {caller : Caller} {next : Outcome}
    (hnext : Touches h V r x users next) :
    Touches h V r x users (requireRole allowedRoles caller x next) := by
  unfold requireRole
  split
  · exact hnext
  · exact touches_throw _

/-- An edit of a profile changes name and address of one row, and those only. -/
theorem touches_updateUser {http : HttpRequest} {userId : Nat}
    (hedits : EditsProfile x.sessions.signed r userId http) :
    Touches h V r x d.users (updateUser userId (http.body "name") (http.body "email") d x) := by
  unfold updateUser
  split
  · exact touches_violates _
  · rename_i row hrow
    obtain ⟨hmem, hid⟩ := Table.get?_eq_some.mp hrow
    dsimp only
    split
    · exact touches_violates _
    · change User.id row = userId at hid
      exact .profile (hid ▸ hedits) hmem

theorem touches_updateProfile {http : HttpRequest} {userId : Nat}
    (hedits : EditsProfile x.sessions.signed r userId http) :
    Touches h V r x d.users
      (updateProfile userId (http.body "name") (http.body "email") d x) := by
  unfold updateProfile
  split
  · exact touches_updateUser hedits
  · split
    · exact touches_goOn ⟨http, hedits⟩
    · split
      · exact touches_throw _
      · exact touches_goOn ⟨http, hedits⟩

/-- The check of the address only reads. -/
theorem touches_createAdmin {email : String} {createdBy : Nat} :
    Touches h V r x users (createAdmin email createdBy d x) := by
  unfold createAdmin
  split
  · exact touches_throw _
  · exact touches_goOn trivial

/-- The creation of an admin changes no account that exists. -/
theorem touches_insertAdmin {o : Oracle} {name email password : String} {createdBy : Nat} :
    Touches h V r x users (insertAdmin h name email password createdBy o d x) := by
  unfold insertAdmin
  dsimp only
  split
  · exact .silent ⟨fun _ hw => (List.not_mem_nil hw).elim, List.Subset.refl _, trivial⟩
  · exact .silent ⟨fun _ hw => (List.not_mem_nil hw).elim, List.Subset.refl _, trivial⟩
  · exact .insert rfl rfl (List.Subset.refl _) trivial

/-! ### All of them -/

/-- `V` holds of the passwords of the rows. -/
def Proves (h : Helpers) (V : Nat → String → Prop) (d : Db) : Prop :=
  ∀ v ∈ d.users, ∀ current, h.verifyPassword current v.passwordHash = true → V v.id current

/-- A statement of the revocation: it writes refresh tokens, and the revocation goes on. -/
structure Revokes (x : Ext) (out : Outcome) : Prop where
  writes : ∀ w ∈ out.1, w.user? = none
  world : out.2.1 = x
  revoking : Revoking out.2.2

/-- **What the code of request `r` does at a location**, as far as accounts are concerned. -/
inductive Performs (h : Helpers) (r : Request) (l : Loc) : Instr Db Ext Write Oracle Loc → Prop
  | stmt {f} (hout : ¬ Revoking l → ∀ V o d x, Proves h V d → Knows h V x.sessions.signed r l →
      Prepares h V r x d.users (f o d x))
      (hrevokes : Revoking l → ∀ o d x, Revokes x (f o d x)) : Performs h r l (.stmt f)
  | auto {f} (hout : ∀ V o d x, Proves h V d → Knows h V x.sessions.signed r l →
      Touches h V r x d.users (f o d x)) (hnot : ¬ Revoking l) : Performs h r l (.auto f)
  | commit {l'} (hknows : ∀ V signed, Knows h V signed r l') : Performs h r l (.commit l')
  | rollback {l'} (hknows : ∀ V signed, Knows h V signed r l') : Performs h r l (.rollback l')
  | halt : Performs h r l .halt

theorem revokes_goOn {l : UserService.Loc} (hrevoking : Revoking (.session l)) :
    Revokes x (ofSession x (UserService.goOn x.sessions l)) :=
  ⟨fun _ hw => (List.not_mem_nil hw).elim, rfl, hrevoking⟩

/-- The statements of a bulk revocation write tokens only. -/
theorem revokes_of_stmt {l : UserService.Loc}
    {f : UserService.Oracle → UserService.Db → UserService.Ext → UserService.Outcome}
    (hcode : UserService.code h (fun _ => s) p l = .stmt f) (hrevoking : Revoking (.session l))
    (o : UserService.Oracle) (d : UserService.Db) (x : Ext) :
    Revokes x (ofSession x (f o d x.sessions)) := by
  cases l with
  | revokeScan userId reply =>
    obtain rfl := Instr.stmt.inj hcode
    exact revokes_goOn trivial
  | revokeRows userId ids at_ reply =>
    cases ids with
    | nil => cases hcode
    | cons i ids =>
      obtain rfl := Instr.stmt.inj hcode
      simp only [UserService.revokeRow]
      split
      · exact revokes_goOn trivial
      · split
        · exact ⟨fun w hw => by rw [List.mem_singleton.mp hw]; rfl, rfl, trivial⟩
        · exact revokes_goOn trivial
  | _ => exact hrevoking.elim

/-- Every statement of a session request, with what it may do to an account. -/
theorem performs_session {http : HttpRequest} (hcontroller : controller http = some s)
    (l : UserService.Loc) :
    Performs h (.users http) (.session l) (ofSessions (UserService.code h (fun _ => s) p l)) := by
  cases hcode : UserService.code h (fun _ => s) p l with
  | stmt f =>
    exact .stmt (fun hnot V o d x _ hknows => prepares_of_stmt o.session hcode hnot hknows)
      fun hrevoking o d x => revokes_of_stmt hcode hrevoking o.session d.sessions x
  | auto f =>
    refine .auto (fun V o d x hV _ => touches_of_auto o.session hcode rfl hcontroller hV)
      fun hrevoking => ?_
    cases l with
    | revokeScan userId reply => cases hcode
    | revokeRows userId ids at_ reply => cases ids <;> cases hcode
    | _ => exact hrevoking
  | commit l' =>
    refine .commit fun V signed => ?_
    cases UserService.commits_of_code hcode <;> trivial
  | rollback l' =>
    refine .rollback fun V signed => ?_
    obtain ⟨e, -, rfl⟩ := UserService.eq_of_rollback hcode
    trivial
  | halt => exact .halt

theorem performs_users (http : HttpRequest) (l : Loc) :
    Performs h (.users http) l (usersCode h http p l) := by
  cases l with
  | session l =>
    rw [usersCode]
    split
    · rename_i s hcontroller
      exact performs_session hcontroller l
    · exact .halt
  | updateProfile =>
    refine .auto (fun V o d x _ hknows => ?_) id
    obtain ⟨http', hreq, hroute⟩ := hknows
    obtain rfl := Request.users.inj hreq
    exact touches_requireAuth fun caller hclaims hsigned => touches_requireRole
      (touches_updateProfile ⟨rfl, hroute, caller.role, hclaims, hsigned⟩)
  | updateUser userId =>
    refine .auto (fun V o d x _ hknows => ?_) id
    obtain ⟨http', hedits⟩ := hknows
    obtain rfl := Request.users.inj hedits.1
    exact touches_updateUser hedits
  | createAdmin =>
    rw [usersCode]
    split
    · exact .auto (fun V o d x _ _ => touches_requireAuth fun caller _ _ =>
        touches_requireRole touches_createAdmin) id
    · exact .halt
  | insertAdmin creator =>
    rw [usersCode]
    split
    · exact .auto (fun V o d x _ _ => touches_insertAdmin) id
    · exact .halt
  | catalogue l => exact .halt
  | done reply => exact .halt

theorem performs (h : Helpers) (cfg : Config) (sameName : String → String → Bool)
    (reqs : Nat → Request) (p : Nat) (l : Loc) :
    Performs h (reqs p) l ((api h cfg sameName reqs).code p l) := by
  have husers : Performs h (reqs p) l (requestCode h (reqs p) p l) := by
    cases reqs p with
    | users http => exact performs_users http l
    | catalogue r => exact .halt
  have hcatalogue : ∀ V x (out : List Catalogue.Write × Catalogue.Ext × Catalogue.Loc),
      Silent h V (reqs p) x
        (out.1.map .catalogue, { x with catalogue := out.2.1 }, .catalogue out.2.2) := by
    intro V x out
    refine ⟨fun w hw => ?_, List.Subset.refl _, trivial⟩
    obtain ⟨v, -, rfl⟩ := List.mem_map.mp hw
    rfl
  cases l with
  | catalogue l =>
    show Performs _ _ _ (ofCatalogue (Catalogue.code cfg sameName (catalogueRequests reqs) p l))
    cases Catalogue.code cfg sameName (catalogueRequests reqs) p l with
    | stmt f => exact .stmt (fun _ V o d x _ _ => .silent (hcatalogue V x _)) False.elim
    | auto f => exact .auto (fun V o d x _ _ => .silent (hcatalogue V x _)) id
    | commit l' => exact .commit fun _ _ => trivial
    | rollback l' => exact .rollback fun _ _ => trivial
    | halt => exact .halt
  | _ => exact husers

end Statements

/-! ## Every step -/

/-- What an open transaction is about to do to the USER table: nothing, or a change of password
    that holds the lock of its row. -/
inductive Pending (h : Helpers) (V : Nat → String → Prop) (signed : List Caller)
    (users : Table User User.id) (r : Request) (l : Loc) : Write → Prop
  | silent {w} (hw : w.user? = none) : Pending h V signed users r l w
  | password {row hash} (hrow : row ∈ users) (hrevoking : Revoking l)
      (hchanges : ChangesPassword h V signed r row.id hash) :
      Pending h V signed users r l (.session (.updateUser { row with passwordHash := hash }))

/-- What request `r` may make of the row of an account. -/
inductive Change (h : Helpers) (V : Nat → String → Prop) (signed : List Caller) (r : Request)
    (row : User) : User → Prop
  | profile {http} (hedits : EditsProfile signed r row.id http) :
      Change h V signed r row (withProfile http row)
  | password {hash} (hchanges : ChangesPassword h V signed r row.id hash) :
      Change h V signed r row { row with passwordHash := hash }

/-- A write that makes a new account, or changes a row as `Change` allows. -/
def Lands (h : Helpers) (V : Nat → String → Prop) (signed : List Caller)
    (users : Table User User.id) (r : Request) (w : Write) : Prop :=
  ∀ u, w.user? = some u →
    (∀ v ∈ users, v.id ≠ u.id) ∨ ∃ row ∈ users, row.id = u.id ∧ Change h V signed r row u

/-- What is known of every request. -/
structure Tracked (h : Helpers) (cfg : Config) (sameName : String → String → Bool)
    (V : Nat → String → Prop) (reqs : Nat → Request) (σ : State Db Ext Write Loc) : Prop where
  inv : Inv reqs σ
  apart : ∀ p q, p ≠ q → (api h cfg sameName reqs).Apart (own p σ.pend) (own q σ.pend)
  pend : ∀ p w, (p, w) ∈ σ.pend →
    Pending h V σ.base.world.sessions.signed σ.base.db.users (reqs p) (σ.loc p) w
  knows : ∀ p, Knows h V σ.base.world.sessions.signed (reqs p) (σ.loc p)

section Step

variable {h : Helpers} {cfg : Config} {sameName : String → String → Bool}
  {V V' : Nat → String → Prop} {reqs : Nat → Request} {r : Request} {l l' : Loc}
  {σ σ' : State Db Ext Write Loc} {p : Nat} {d : Db} {signed signed' : List Caller}
  {users : Table User User.id} {row u : User} {w : Write} {ws vs : List Write}

theorem knows_of_revoking (hrevoking : Revoking l) : Knows h V signed r l := by
  cases l with
  | session l =>
    cases l with
    | newPassword user hash => exact hrevoking.elim
    | _ => trivial
  | updateProfile => exact hrevoking.elim
  | updateUser id => exact hrevoking.elim
  | _ => trivial

/-- The row of a write is locked. -/
theorem lock_of_user (hw : w.user? = some u) : ⟨.session (.user u.id), false⟩ ∈ locks w := by
  cases w with
  | session w =>
    cases w with
    | insertUser u' => exact Option.some.inj hw ▸ List.mem_cons_self
    | updateUser u' => exact Option.some.inj hw ▸ List.mem_cons_self
    | insertToken t => nomatch hw
    | updateToken t => nomatch hw
  | catalogue w => nomatch hw
  | insertAdmin u' creator => exact Option.some.inj hw ▸ List.mem_cons_self

/-- Two transactions do not write the row of one account. -/
theorem id_ne_of_apart {v : Write} {u' : User} (hapart : (api h cfg sameName reqs).Apart ws vs)
    (hw : w ∈ ws) (hv : v ∈ vs) (hu : w.user? = some u) (hu' : v.user? = some u') :
    u.id ≠ u'.id := by
  intro hid
  have hlock : ⟨.session (.user u.id), false⟩ ∈ locks v := hid ▸ lock_of_user hu'
  exact hapart.excludes hw hv (lock_of_user hu) false hlock

/-- A row that is not written stays. -/
theorem user_stays (hrow : row ∈ d.users) (hws : ∀ w ∈ ws, ∀ u, w.user? = some u → u.id ≠ row.id) :
    row ∈ (ws.foldl apply d).users := by
  obtain ⟨row', hrow', hid⟩ := user_forth ws hrow
  rcases user_back ws hrow' with hold | ⟨w, hw, hu⟩
  · exact Table.eq_of_key hold hrow hid ▸ hrow'
  · exact absurd hid (hws w hw row' hu)

/-- **What a committed transaction does to the row of an account.** -/
theorem change_of_writes (hws : ∀ w ∈ ws, Lands h V signed d.users r w) (hrow : row ∈ d.users) :
    ∃ row' ∈ (ws.foldl apply d).users, row' = row ∨ Change h V signed r row row' := by
  obtain ⟨row', hrow', hid⟩ := user_forth ws hrow
  refine ⟨row', hrow', ?_⟩
  rcases user_back ws hrow' with hold | ⟨w, hw, hu⟩
  · exact Or.inl (Table.eq_of_key hold hrow hid)
  · rcases hws w hw row' hu with hnew | ⟨row₀, hrow₀, hid₀, hchange⟩
    · exact absurd hid.symm (hnew row hrow)
    · rw [Table.eq_of_key hrow hrow₀ (hid.symm.trans hid₀.symm)]
      exact Or.inr hchange

/-- What is pending stays justified. -/
theorem Pending.mono (hpend : Pending h V signed users r l w)
    (hV : ∀ id current, V id current → V' id current) (hsub : signed ⊆ signed') :
    Pending h V' signed' users r l w := by
  cases hpend with
  | silent hw => exact .silent hw
  | password hrow hrevoking hchanges => exact .password hrow hrevoking (hchanges.mono hV hsub)

/-- The transactions of the others do not get in the way. -/
theorem Pending.other (hpend : Pending h V signed d.users r l w)
    (hapart : (api h cfg sameName reqs).Apart ws [w]) :
    Pending h V signed (ws.foldl apply d).users r l w := by
  cases hpend with
  | silent hw => exact .silent hw
  | @password row hash hrow hrevoking hchanges =>
    refine .password (user_stays hrow fun v hv u hu => ?_) hrevoking hchanges
    have hwritten : Write.user? (.session (.updateUser { row with passwordHash := hash })) =
        some { row with passwordHash := hash } := rfl
    have hne := id_ne_of_apart hapart hv (List.mem_singleton.mpr rfl) hu hwritten
    exact hne

/-- What is pending lands as a change that is justified. -/
theorem Pending.lands (hpend : Pending h V signed users r l w) : Lands h V signed users r w := by
  intro u hu
  cases hpend with
  | silent hw => cases hw.symm.trans hu
  | @password row hash hrow hrevoking hchanges =>
    obtain rfl := Option.some.inj hu
    exact Or.inr ⟨row, hrow, rfl, .password hchanges⟩

/-- Nothing about a user is pending outside a change of password. -/
theorem Pending.silent_of_not (hpend : Pending h V signed users r l w) (hnot : ¬ Revoking l) :
    w.user? = none := by
  cases hpend with
  | silent hw => exact hw
  | password hrow hrevoking hchanges => exact absurd hrevoking hnot

/-- Process `p` moves, and `ws` is committed. -/
theorem Tracked.move {b : Base Db Ext Write} {pend : List (Nat × Write)}
    (ht : Tracked h cfg sameName V reqs σ) (hV : ∀ id current, V id current → V' id current)
    (hinv : Inv reqs ⟨b, pend, goto σ.loc p l⟩) (hdb : b.db = ws.foldl apply σ.base.db)
    (hsub : σ.base.world.sessions.signed ⊆ b.world.sessions.signed)
    (hws : ∀ q, q ≠ p → (api h cfg sameName reqs).Apart ws (own q σ.pend))
    (hapart : ∀ q q', q ≠ q' → (api h cfg sameName reqs).Apart (own q pend) (own q' pend))
    (hknows : Knows h V' b.world.sessions.signed (reqs p) l)
    (hpend : ∀ q w, (q, w) ∈ pend → (q ≠ p ∧ (q, w) ∈ σ.pend) ∨
      (q = p ∧ Pending h V' b.world.sessions.signed b.db.users (reqs p) l w)) :
    Tracked h cfg sameName V' reqs ⟨b, pend, goto σ.loc p l⟩ := by
  refine ⟨hinv, hapart, fun q w hw => ?_, ?_⟩
  · rcases hpend q w hw with ⟨hq, hold⟩ | ⟨rfl, hnew⟩
    · show Pending h V' _ b.db.users (reqs q) (goto σ.loc p l q) w
      rw [goto_ne _ _ hq, hdb]
      have hw' : (api h cfg sameName reqs).Apart ws [w] := fun v hv v' hv' => by
        rw [List.mem_singleton.mp hv']
        exact hws q hq v hv w (mem_own.mpr hold)
      exact ((ht.pend q w hold).mono hV hsub).other hw'
    · show Pending h V' _ b.db.users (reqs q) (goto σ.loc q l q) w
      rw [goto_self]
      exact hnew
  · exact forall_goto (P := fun q l => Knows h V' b.world.sessions.signed (reqs q) l) hknows
      fun q _ => (ht.knows q).mono hV hsub

/-- The new hash stays written while the sessions are revoked. -/
theorem Pending.goOn (hpend : Pending h V signed users r l w) (hrevoking : Revoking l') :
    Pending h V signed users r l' w := by
  cases hpend with
  | silent hw => exact .silent hw
  | password hrow _ hchanges => exact .password hrow hrevoking hchanges

/-- A request that has not written a new hash reads the committed accounts. -/
theorem Tracked.view (ht : Tracked h cfg sameName V reqs σ) (hnot : ¬ Revoking (σ.loc p)) :
    ((api h cfg sameName reqs).view σ p).users = σ.base.db.users :=
  users_after _ fun w hw => (ht.pend p w (mem_own.mp hw)).silent_of_not hnot

/-- A process that writes nothing to the database goes on outside a revocation, or in it. -/
theorem Tracked.stmt {f : Oracle → Db → Ext → Outcome} {o : Oracle}
    (ht : Tracked h cfg sameName V reqs σ) (hV : ∀ id current, V id current → V' id current)
    (hproves : Proves h V' σ.base.db)
    (hcode : (api h cfg sameName reqs).code p (σ.loc p) = .stmt f) {out : Outcome}
    (hout : f o ((api h cfg sameName reqs).view σ p) σ.base.world = out)
    (hfree : (api h cfg sameName reqs).blocked p σ.pend out.1 = false)
    (hinv : Inv reqs ⟨{ σ.base with world := out.2.1 }, σ.pend ++ out.1.map (p, ·),
      goto σ.loc p out.2.2⟩) :
    Tracked h cfg sameName V' reqs ⟨{ σ.base with world := out.2.1 },
      σ.pend ++ out.1.map (p, ·), goto σ.loc p out.2.2⟩ := by
  have hex := performs h cfg sameName reqs p (σ.loc p)
  rw [hcode] at hex
  have hnone : ∀ q, q ≠ p → (api h cfg sameName reqs).Apart [] (own q σ.pend) :=
    fun _ _ _ hw => (List.not_mem_nil hw).elim
  have happend := Outline.apart_append ht.apart hfree
  cases hex with
  | stmt hprepares hrevokes =>
    by_cases hrevoking : Revoking (σ.loc p)
    · obtain ⟨hwrites, hworld, hstays⟩ := hout ▸ hrevokes hrevoking o _ _
      refine ht.move hV hinv rfl (hworld ▸ List.Subset.refl _) hnone happend
        (knows_of_revoking hstays) fun q w hw => ?_
      rcases mem_append_writes.mp hw with hold | ⟨rfl, hnew⟩
      · by_cases hq : q = p
        · subst hq
          refine Or.inr ⟨rfl, ?_⟩
          exact ((ht.pend q w hold).mono hV (hworld ▸ List.Subset.refl _)).goOn hstays
        · exact Or.inl ⟨hq, hold⟩
      · exact Or.inr ⟨rfl, .silent (hwrites w hnew)⟩
    · have hview := ht.view hrevoking
      have hprep := hprepares hrevoking V' o ((api h cfg sameName reqs).view σ p) σ.base.world
        (fun v hv => hproves v (hview ▸ hv)) ((ht.knows p).mono hV (List.Subset.refl _))
      rw [hview, hout] at hprep
      -- so far the transaction has not written to the USER table
      have hearlier : ∀ q w, (q, w) ∈ σ.pend → (q ≠ p ∧ (q, w) ∈ σ.pend) ∨
          (q = p ∧ w.user? = none) := fun q w hold => by
        by_cases hq : q = p
        · subst hq
          exact Or.inr ⟨rfl, (ht.pend q w hold).silent_of_not hrevoking⟩
        · exact Or.inl ⟨hq, hold⟩
      cases hprep with
      | silent hsilent =>
        refine ht.move hV hinv rfl hsilent.signed hnone happend hsilent.knows fun q w hw => ?_
        rcases mem_append_writes.mp hw with hold | ⟨rfl, hnew⟩
        · exact (hearlier q w hold).imp id fun ⟨hq, hw⟩ => ⟨hq, .silent hw⟩
        · exact Or.inr ⟨rfl, .silent (hsilent.writes w hnew)⟩
      | password hchanges hrow =>
        refine ht.move hV hinv rfl (List.Subset.refl _) hnone happend trivial fun q w hw => ?_
        rcases mem_append_writes.mp hw with hold | ⟨rfl, hnew⟩
        · exact (hearlier q w hold).imp id fun ⟨hq, hw⟩ => ⟨hq, .silent hw⟩
        · rw [List.mem_singleton.mp hnew]
          exact Or.inr ⟨rfl, .password hrow trivial hchanges⟩

/-- A statement that commits by itself makes an account, or edits a profile. -/
theorem Tracked.auto {f : Oracle → Db → Ext → Outcome} {o : Oracle}
    (ht : Tracked h cfg sameName V reqs σ) (hV : ∀ id current, V id current → V' id current)
    (hproves : Proves h V' σ.base.db)
    (hcode : (api h cfg sameName reqs).code p (σ.loc p) = .auto f) {out : Outcome}
    (hout : f o ((api h cfg sameName reqs).view σ p) σ.base.world = out)
    (hfree : (api h cfg sameName reqs).blocked p σ.pend out.1 = false)
    {b : Base Db Ext Write} (hdb : b.db = out.1.foldl apply σ.base.db) (hworld : b.world = out.2.1)
    (hinv : Inv reqs ⟨b, σ.pend, goto σ.loc p out.2.2⟩) :
    Tracked h cfg sameName V' reqs ⟨b, σ.pend, goto σ.loc p out.2.2⟩ ∧
      ∀ w ∈ out.1, Lands h V σ.base.world.sessions.signed σ.base.db.users (reqs p) w := by
  have hex := performs h cfg sameName reqs p (σ.loc p)
  rw [hcode] at hex
  cases hex with
  | auto htouches hnot =>
    have hview := ht.view hnot
    have htouch := htouches V' o ((api h cfg sameName reqs).view σ p) σ.base.world
      (fun v hv => hproves v (hview ▸ hv)) ((ht.knows p).mono hV (List.Subset.refl _))
    rw [hview, hout] at htouch
    have hmove : σ.base.world.sessions.signed ⊆ out.2.1.sessions.signed →
        Knows h V' out.2.1.sessions.signed (reqs p) out.2.2 →
        Tracked h cfg sameName V' reqs ⟨b, σ.pend, goto σ.loc p out.2.2⟩ := by
      intro hsigned hknows
      refine ht.move hV hinv hdb (hworld ▸ hsigned) (fun q hq => Machine.apart_of_free hfree hq) ht.apart
        (hworld ▸ hknows) fun q w hw => ?_
      by_cases hq : q = p
      · subst hq
        exact Or.inr ⟨rfl, .silent ((ht.pend q w hw).silent_of_not hnot)⟩
      · exact Or.inl ⟨hq, hw⟩
    cases htouch with
    | silent hsilent =>
      refine ⟨hmove hsilent.signed hsilent.knows, fun w hw u hu => ?_⟩
      cases (hsilent.writes w hw).symm.trans hu
    | insert hw hid hsigned hknows =>
      refine ⟨hmove hsigned hknows, fun w' hw' u' hu' => Or.inl fun v hv => ?_⟩
      rw [List.mem_singleton.mp hw', hw] at hu'
      obtain rfl := Option.some.inj hu'
      -- ids come from the sequence
      obtain ⟨s, hs, hsid, -⟩ := hasRole_of_mem hv
      have hlt := ht.inv.sound.ids s hs
      omega
    | @profile http row reply hedits hrow =>
      refine ⟨hmove (List.Subset.refl _) trivial, fun w' hw' u' hu' => Or.inr ?_⟩
      rw [List.mem_singleton.mp hw'] at hu'
      obtain rfl := Option.some.inj hu'
      exact ⟨row, hrow, rfl, .profile hedits⟩

/-- The transaction of `p` ends, with the writes `ws` committed. -/
theorem Tracked.finish {b : Base Db Ext Write} (ht : Tracked h cfg sameName V reqs σ)
    (hV : ∀ id current, V id current → V' id current) (hws : ws ⊆ own p σ.pend)
    (hinv : Inv reqs ⟨b, drop p σ.pend, goto σ.loc p l⟩) (hdb : b.db = ws.foldl apply σ.base.db)
    (hworld : b.world = σ.base.world)
    (hknows : Knows h V' σ.base.world.sessions.signed (reqs p) l) :
    Tracked h cfg sameName V' reqs ⟨b, drop p σ.pend, goto σ.loc p l⟩ :=
  ht.move hV hinv hdb (hworld ▸ List.Subset.refl _)
    (fun q hq w hw v hv => ht.apart p q (Ne.symm hq) w (hws hw) v hv)
    (Outline.apart_drop ht.apart p) (hworld ▸ hknows)
    fun _ _ hw => Or.inl ⟨(mem_drop.mp hw).2, (mem_drop.mp hw).1⟩

/-- **Step lemma.** -/
theorem Tracked.step {a : Act Oracle PatentService.Upload}
    (ht : Tracked h cfg sameName V reqs σ) (hV : ∀ id current, V id current → V' id current)
    (hproves : Proves h V' σ.base.db) (hs : (api h cfg sameName reqs).step σ a = some σ') :
    Tracked h cfg sameName V' reqs σ' ∧ ∀ row ∈ σ.base.db.users, ∃ row' ∈ σ'.base.db.users,
      row' = row ∨ ∃ p, a.mover = some p ∧
        Change h V σ.base.world.sessions.signed (reqs p) row row' := by
  have hinv := (ht.inv.step hs).1
  cases Machine.effect_of_step _ hs with
  | @stmt p o f hcode hfree =>
    exact ⟨ht.stmt hV hproves hcode rfl hfree hinv, fun row hrow => ⟨row, hrow, Or.inl rfl⟩⟩
  | @read p o f hcode hnone =>
    refine ⟨(ht.auto hV hproves hcode rfl ?_ ?_ rfl hinv).1, fun row hrow => ⟨row, hrow, Or.inl rfl⟩⟩
    · rw [hnone]
      rfl
    · rw [hnone]
      rfl
  | @auto p o f hcode hfree hsome =>
    obtain ⟨hnext, hlands⟩ := ht.auto hV hproves hcode rfl hfree rfl rfl hinv
    refine ⟨hnext, fun row hrow => ?_⟩
    obtain ⟨row', hrow', hchange⟩ := change_of_writes hlands hrow
    exact ⟨row', hrow', hchange.imp id fun hchange => ⟨p, rfl, hchange⟩⟩
  | @commit p o l' hcode =>
    have hex := performs h cfg sameName reqs p (σ.loc p)
    rw [hcode] at hex
    cases hex with
    | commit hknows =>
      refine ⟨ht.finish hV (List.Subset.refl _) hinv rfl rfl (hknows _ _), fun row hrow => ?_⟩
      obtain ⟨row', hrow', hchange⟩ := change_of_writes
        (fun w hw => (ht.pend p w (mem_own.mp hw)).lands) hrow
      exact ⟨row', hrow', hchange.imp id fun hchange => ⟨p, rfl, hchange⟩⟩
  | @rollback p o l' hcode =>
    have hex := performs h cfg sameName reqs p (σ.loc p)
    rw [hcode] at hex
    cases hex with
    | rollback hknows =>
      exact ⟨ht.finish hV (List.nil_subset _) hinv rfl rfl (hknows _ _),
        fun row hrow => ⟨row, hrow, Or.inl rfl⟩⟩
  | @fail p hcode =>
    exact ⟨ht.finish hV (List.nil_subset _) hinv rfl rfl trivial,
      fun row hrow => ⟨row, hrow, Or.inl rfl⟩⟩
  | @env e x henv =>
    obtain ⟨y, -, rfl⟩ := Option.map_eq_some_iff.mp henv
    exact ⟨⟨hinv, ht.apart, fun q w hw => (ht.pend q w hw).mono hV (List.Subset.refl _),
      fun q => (ht.knows q).mono hV (List.Subset.refl _)⟩, fun row hrow => ⟨row, hrow, Or.inl rfl⟩⟩

end Step

/-! ## Every run -/

/-- At some moment of the run that has led from `init` to `σ`, `current` was a password of account
    `id`. -/
def Proved (h : Helpers) (cfg : Config) (sameName : String → String → Bool) (reqs : Nat → Request)
    (init σ : State Db Ext Write Loc) (id : Nat) (current : String) : Prop :=
  ∃ τ, Run (api h cfg sameName reqs).step always init τ ∧
    Run (api h cfg sameName reqs).step always τ σ ∧
    ∃ v ∈ τ.base.db.users, v.id = id ∧ h.verifyPassword current v.passwordHash = true

section Runs

variable {h : Helpers} {cfg : Config} {sameName : String → String → Bool} {reqs : Nat → Request}
  {σ σ' : State Db Ext Write Loc} {a : Act Oracle PatentService.Upload}
  {accounts : Table Account Account.key} {nextUserId : Nat}

theorem tracked_init {V : Nat → String → Prop} (hids : ∀ a ∈ accounts, a.id < nextUserId) :
    Tracked h cfg sameName V reqs (init reqs accounts nextUserId) := by
  refine ⟨(lineage_init (api h cfg sameName reqs) reqs accounts hids).inv,
    fun _ _ _ _ hw => (List.not_mem_nil hw).elim, fun _ _ hw => (List.not_mem_nil hw).elim,
    fun p => ?_⟩
  show Knows h V _ (reqs p) (startOf (reqs p))
  cases reqs p with
  | catalogue r => trivial
  | users http =>
    rw [startOf]
    split
    · rename_i hroute
      exact ⟨http, rfl, hroute⟩
    · trivial
    · trivial

/-- A step of a run; the passwords proved so far stay proved. -/
theorem Tracked.step_of_run {τ : State Db Ext Write Loc}
    (hrun : Run (api h cfg sameName reqs).step always τ σ)
    (ht : Tracked h cfg sameName (Proved h cfg sameName reqs τ σ) reqs σ)
    (hs : (api h cfg sameName reqs).step σ a = some σ') :
    Tracked h cfg sameName (Proved h cfg sameName reqs τ σ') reqs σ' ∧
      ∀ row ∈ σ.base.db.users, ∃ row' ∈ σ'.base.db.users,
        row' = row ∨ ∃ p, a.mover = some p ∧ Change h (Proved h cfg sameName reqs τ σ)
          σ.base.world.sessions.signed (reqs p) row row' :=
  ht.step (fun _ _ ⟨ρ, hρ, hρσ, hproof⟩ => ⟨ρ, hρ, hρσ.tail trivial hs, hproof⟩)
    (fun v hv _ hverified => ⟨σ, hrun, Run.single trivial hs, v, hv, rfl, hverified⟩) hs

/-- In every run, every pending write about a user is justified by the requests that came before. -/
theorem tracked_of_run (hids : ∀ a ∈ accounts, a.id < nextUserId)
    (hrun : Run (api h cfg sameName reqs).step always (init reqs accounts nextUserId) σ) :
    Tracked h cfg sameName (Proved h cfg sameName reqs (init reqs accounts nextUserId) σ) reqs σ :=
  hrun.invariant_reached (I := fun σ => Tracked h cfg sameName
      (Proved h cfg sameName reqs (init reqs accounts nextUserId) σ) reqs σ)
    (fun _ _ _ hτ ht _ hs => (ht.step_of_run hτ hs).1) (tracked_init hids)

/-- **Every run**: an account stays, and a step changes its name and email on behalf of its owner
    only, and its password hash on behalf of its owner who knows a password of it.  Neither change
    takes back another. -/
theorem change_of_run (hids : ∀ a ∈ accounts, a.id < nextUserId)
    (hrun : Run (api h cfg sameName reqs).step always (init reqs accounts nextUserId) σ)
    (hs : (api h cfg sameName reqs).step σ a = some σ') :
    ∀ row ∈ σ.base.db.users, ∃ row' ∈ σ'.base.db.users, row' = row ∨ ∃ p, a.mover = some p ∧
      Change h (Proved h cfg sameName reqs (init reqs accounts nextUserId) σ)
        σ.base.world.sessions.signed (reqs p) row row' :=
  ((tracked_of_run hids hrun).step_of_run hrun hs).2

end Runs

/-! ## A new password and a new name at once -/

/-- The body of both requests. -/
def newForm (field : String) : Option String :=
  if field = "currentPassword" then some "secret"
  else if field = "newPassword" then some "changed"
  else if field = "name" then some "Groot"
  else none

/-- Root logs in, changes the password and renames itself. -/
def renewal : Nat → Request
  | 0 => .users ⟨.login, credentials, none⟩
  | 1 => .users ⟨.changePassword, newForm, some ⟨1, .admin⟩⟩
  | _ => .users ⟨.updateMe, newForm, some ⟨1, .admin⟩⟩

/-- The new hash is written, and not yet committed. -/
def renewing : List (Act Oracle PatentService.Upload) := steps 0 2 ++ steps 1 4

theorem renewing_runs :
    (exec (api UserService.plainHelpers PatentService.pdfOnly (· == ·) renewal).step
      (init renewal seeded 2) renewing).isSome = true := by
  decide

/-- A session whose refresh is about to commit. -/
def beforeRenewal : State Db Ext Write Loc :=
  (exec (api UserService.plainHelpers PatentService.pdfOnly (· == ·) renewal).step
    (init renewal seeded 2) renewing).get renewing_runs

/-- The COMMIT of the password. -/
def commitRenewal : Act Oracle PatentService.Upload :=
  .run 1 ⟨⟨5, 0, "token", 0⟩, ⟨5, "uuid", true⟩⟩

/-- The name has to wait for it. -/
def renameFirst : Act Oracle PatentService.Upload :=
  .run 2 ⟨⟨5, 0, "token", 0⟩, ⟨5, "uuid", true⟩⟩

theorem commitRenewal_steps :
    ((api UserService.plainHelpers PatentService.pdfOnly (· == ·) renewal).step beforeRenewal
      commitRenewal).isSome = true := by
  decide

/-- The refresh has committed. -/
def afterRenewal : State Db Ext Write Loc :=
  ((api UserService.plainHelpers PatentService.pdfOnly (· == ·) renewal).step beforeRenewal
    commitRenewal).get commitRenewal_steps

/-- A password change commits, and a renaming whose transaction would cross it waits. -/
theorem change_of_renewing :
    ((api UserService.plainHelpers PatentService.pdfOnly (· == ·) renewal).step beforeRenewal
        renameFirst).isNone = true ∧
      beforeRenewal.base.db.users.rows.map User.passwordHash = ["secret"] ∧
      afterRenewal.base.db.users.rows.map User.passwordHash = ["changed"] ∧
      ∀ row ∈ beforeRenewal.base.db.users, ∃ row' ∈ afterRenewal.base.db.users,
        row' = row ∨ ∃ p, commitRenewal.mover = some p ∧
          Change UserService.plainHelpers
            (Proved UserService.plainHelpers PatentService.pdfOnly (· == ·) renewal
              (init renewal seeded 2) beforeRenewal)
            beforeRenewal.base.world.sessions.signed (renewal p) row row' := by
  have hids : ∀ a ∈ seeded.rows, a.id < 2 := by decide
  exact ⟨by decide, by decide, by decide,
    change_of_run hids (Run.exec_get renewing_runs) (Option.some_get commitRenewal_steps).symm⟩

end SmartPatents.Api
