/-
  Nobody becomes an admin but by an admin.

  Of an account, three columns decide what it may do: its id, its role and its creator (`Standing`).
  The standings of the table only ever grow at the end (`standings_of_step`).  A signup appends a
  user without a creator.  An admin is appended by `createAdmin` alone, whose guard believes the role
  in the caller's access token; and a token carries the role of a row that was read (`Inv.signed`),
  which is still the role of that row, since no request changes it.

  What a request holds on to between two statements, an account or the id of a creator, is part of
  the invariant (`Holds`), and so is what open transactions are about to write (`Quiet`).

  The three parts of `Unescalated`:

  * `admins`: an admin was there at the start, or some transaction of the log has created it on
    behalf of an admin;
  * `tokens`: a token that was signed carries the role of the account it names;
  * `forest`: the links of the admins to their creators lead back to one that was there at the
    start.

  The machine is that of all endpoints (`Api`), and bodies are whatever a client sends: a `role`
  in a body is read by no request.  The creator of an account and its role are written once, when
  the row is inserted.
-/
import SmartPatents.Api
import SmartPatents.SessionChains
import SmartPatents.PatentHistory

namespace SmartPatents.Api

open ReadCommitted Runs Access Storage
open UserService (Helpers)

/-! ## Standings -/

/-- The columns of an account that decide what it may do. -/
structure Standing where
  id : Nat
  role : Role
  createdBy : Option Nat
deriving DecidableEq

/-- What decides about the rights of an account. -/
def Account.standing (a : Account) : Standing := ⟨a.id, a.role, a.createdBy⟩

/-- The standings of all accounts. -/
def standings (d : Db) : List Standing := d.accounts.rows.map Account.standing

/-- There is an account with this id and this role. -/
def HasRole (ss : List Standing) (id : Nat) (role : Role) : Prop :=
  ∃ s ∈ ss, s.id = id ∧ s.role = role

/-- A write that adds no account and changes no role. -/
def Quiet (ss : List Standing) : Write → Prop
  | .session (.insertUser _) => False
  | .session (.updateUser u) => HasRole ss u.id u.role
  | .insertAdmin _ _ => False
  | _ => True

section Standings

variable {d : Db} {ss ss' : List Standing} {id : Nat} {role : Role} {u : User} {w : Write}

/-- Standings are only added, so a role once held is held. -/
theorem HasRole.mono (h : HasRole ss id role) (hsub : ss ⊆ ss') : HasRole ss' id role := by
  obtain ⟨s, hs, hid, hrole⟩ := h
  exact ⟨s, hsub hs, hid, hrole⟩

/-- A write that gives nobody a standing still gives none later. -/
theorem Quiet.mono (h : Quiet ss w) (hsub : ss ⊆ ss') : Quiet ss' w := by
  cases w with
  | session w =>
    cases w with
    | updateUser u => exact HasRole.mono h hsub
    | _ => exact h
  | _ => exact h

/-- An account has the role of its row. -/
theorem hasRole_of_mem (hu : u ∈ d.users) : HasRole (standings d) u.id u.role := by
  obtain ⟨a, ha, rfl⟩ := List.mem_map.mp hu
  exact ⟨a.standing, List.mem_map_of_mem ha, rfl, rfl⟩

theorem createdBy_of_mem {a : Account} (ha : a ∈ d.accounts) : d.createdBy a.id = a.createdBy := by
  have hrow : d.accounts.get? a.id = some a := Table.get?_of_mem ha
  rw [Db.createdBy, hrow]
  rfl

/-- The standings after the rows have become `users`. -/
theorem standings_withUsers (users : Table User User.id) (d' : Db)
    (h : d'.accounts = d.withUsers users) :
    standings d' = users.rows.map fun u => ⟨u.id, u.role, d.createdBy u.id⟩ := by
  rw [standings, h, Db.withUsers, List.map_map]
  rfl

/-- The standings, read off the rows of the users. -/
theorem standings_eq (d : Db) :
    standings d = d.users.rows.map fun u => ⟨u.id, u.role, d.createdBy u.id⟩ := by
  rw [standings, Db.users, List.map_map]
  refine List.map_congr_left fun a ha => ?_
  show a.standing = ⟨a.id, a.role, d.createdBy a.id⟩
  rw [createdBy_of_mem ha]
  rfl

/-- An update of a row that keeps its role. -/
theorem standings_updateUser (h : HasRole (standings d) u.id u.role) :
    standings (apply d (.session (.updateUser u))) = standings d := by
  rw [standings_withUsers (d.users.put u) _ rfl, standings_eq d]
  obtain ⟨s, hs, hid, hrole⟩ := h
  obtain ⟨a, ha, rfl⟩ := List.mem_map.mp hs
  have hmem : a.toUser ∈ d.users := List.mem_map_of_mem ha
  have hkey : ∃ v ∈ d.users.rows, v.id = u.id := ⟨a.toUser, hmem, hid⟩
  have hrows : (d.users.put u).rows = d.users.rows.map fun v => if v.id = u.id then u else v := by
    rw [Table.put, dif_pos hkey]
  rw [hrows, List.map_map]
  refine List.map_congr_left fun v hv => ?_
  show Standing.mk (if v.id = u.id then u else v).id (if v.id = u.id then u else v).role
    (d.createdBy (if v.id = u.id then u else v).id) = ⟨v.id, v.role, d.createdBy v.id⟩
  by_cases hvu : v.id = u.id
  · have hva : v = a.toUser := Table.eq_of_key hv hmem (hvu.trans hid.symm)
    have hvrole : v.role = u.role := by rw [hva]; exact hrole
    rw [if_pos hvu, hvu, hvrole]
  · rw [if_neg hvu]

/-- A signup adds a standing with nobody behind it. -/
theorem standings_insertUser (hnew : ∀ s ∈ standings d, s.id ≠ u.id) :
    standings (apply d (.session (.insertUser u))) = standings d ++ [⟨u.id, u.role, none⟩] := by
  have hfresh : ∀ a ∈ d.accounts, a.key ≠ u.id := fun a ha =>
    hnew a.standing (List.mem_map_of_mem ha)
  have hrows : (d.users.put u).rows = d.users.rows ++ [u] := Table.rows_put_of_new fun v hv => by
    obtain ⟨a, ha, rfl⟩ := List.mem_map.mp hv
    exact hfresh a ha
  have hnone : d.createdBy u.id = none := by
    have hrow : d.accounts.get? u.id = none := Table.get?_eq_none.mpr hfresh
    rw [Db.createdBy, hrow]
    rfl
  rw [standings_withUsers (d.users.put u) _ rfl, hrows, List.map_append, List.map_singleton, hnone,
    ← standings_eq]

/-- The creation of an admin adds one with its creator. -/
theorem standings_insertAdmin {creator : Nat} (hnew : ∀ s ∈ standings d, s.id ≠ u.id) :
    standings (apply d (.insertAdmin u creator)) = standings d ++ [⟨u.id, u.role, some creator⟩] := by
  have hfresh : ∀ a ∈ d.accounts, a.key ≠ Account.key ⟨u, some creator⟩ := fun a ha =>
    hnew a.standing (List.mem_map_of_mem ha)
  show ((d.accounts.put ⟨u, some creator⟩).rows).map Account.standing = _
  rw [Table.rows_put_of_new hfresh, List.map_append]
  rfl

/-- No write of the catalogue touches an account. -/
theorem users_catalogue (d : SmartPatents.Db) (w : Catalogue.Write) :
    (Catalogue.apply d w).users = d.users := by
  cases w with
  | patent w => cases w <;> rfl
  | _ => rfl

/-- **A quiet write leaves the standings alone.** -/
theorem standings_quiet (h : Quiet (standings d) w) : standings (apply d w) = standings d := by
  cases w with
  | session w =>
    cases w with
    | insertUser u => exact h.elim
    | updateUser u => exact standings_updateUser h
    | insertToken t => exact (standings_withUsers d.users _ rfl).trans (standings_eq d).symm
    | updateToken t => exact (standings_withUsers d.users _ rfl).trans (standings_eq d).symm
  | catalogue w =>
    have hrows := users_catalogue d.catalogue w
    exact (standings_withUsers (Catalogue.apply d.catalogue w).users _ rfl).trans
      (hrows ▸ (standings_eq d).symm)
  | insertAdmin u creator => exact h.elim

/-- Quiet writes leave the standings as they are. -/
theorem standings_after {ws : List Write} (h : ∀ w ∈ ws, Quiet (standings d) w) :
    standings (ws.foldl apply d) = standings d :=
  List.foldlRecOn (motive := fun d' => standings d' = standings d) ws apply rfl
    fun _ hd w hw => (standings_quiet (hd.symm ▸ h w hw)).trans hd

end Standings

/-! ## What a statement grants -/

/-- The request is a `createAdmin` on behalf of `creator`. -/
def Creates (r : Request) (creator : Nat) : Prop :=
  ∃ http, r = .users http ∧ http.route = .createAdmin ∧ http.claims = some ⟨creator, .admin⟩

/-- What a request holds on to at a location: an account that it has read, or a creator. -/
def Holds (ss : List Standing) (r : Request) : Loc → Prop
  | .session (.issue u) | .session (.rotate _ u) | .session (.successor _ u)
  | .session (.rotateCommit _ u _) | .session (.newPassword u _) => HasRole ss u.id u.role
  | .createAdmin => ∃ http, r = .users http ∧ http.route = .createAdmin
  | .insertAdmin creator => HasRole ss creator .admin ∧ Creates r creator
  | _ => True

/-- Ids come from the sequence, and a signed token carries the role of its user. -/
structure Sound (ss : List Standing) (x : UserService.Ext) : Prop where
  ids : ∀ s ∈ ss, s.id < x.nextUserId
  signed : ∀ c ∈ x.signed, HasRole ss c.userId c.role

/-- A statement that grants nothing to anybody. -/
structure Calm (ss : List Standing) (r : Request) (out : Outcome) : Prop where
  writes : ∀ w ∈ out.1, Quiet ss w
  sound : Sound ss out.2.1.sessions
  holds : Holds ss r out.2.2

/-- What a statement may do to the standings. -/
inductive Grants (ss : List Standing) (r : Request) (x : Ext) : Outcome → Prop
  | calm {out} (h : Calm ss r out) : Grants ss r x out
  | signup {u x'} (hrole : u.role = .user) (hid : u.id = x.sessions.nextUserId)
      (hnext : x'.sessions.nextUserId = x.sessions.nextUserId + 1)
      (hsigned : x'.sessions.signed = x.sessions.signed) :
      Grants ss r x ([.session (.insertUser u)], x', .session (.issue u))
  | admin {u creator x' reply} (hrole : u.role = .admin) (hid : u.id = x.sessions.nextUserId)
      (hnext : x'.sessions.nextUserId = x.sessions.nextUserId + 1)
      (hsigned : x'.sessions.signed = x.sessions.signed) (hcreator : HasRole ss creator .admin)
      (hreq : Creates r creator) :
      Grants ss r x ([.insertAdmin u creator], x', .done reply)

section Statements

variable {h : Helpers} {ss ss' : List Standing} {r : Request} {d : Db} {x : Ext} {l : Loc}
  {s : UserService.Request} {p : Nat}

/-- What a request knows about its caller stays true. -/
theorem Holds.mono (hholds : Holds ss r l) (hsub : ss ⊆ ss') : Holds ss' r l := by
  cases l with
  | session l =>
    cases l with
    | issue u => exact HasRole.mono hholds hsub
    | rotate t u => exact HasRole.mono hholds hsub
    | successor t u => exact HasRole.mono hholds hsub
    | rotateCommit t u token => exact HasRole.mono hholds hsub
    | newPassword u hash => exact HasRole.mono hholds hsub
    | _ => trivial
  | insertAdmin creator => exact ⟨hholds.1.mono hsub, hholds.2⟩
  | createAdmin => exact hholds
  | _ => trivial

/-- A statement that only reads is calm. -/
theorem calm_goOn (hsound : Sound ss x.sessions) (hholds : Holds ss r l) :
    Calm ss r (goOn x l) :=
  ⟨fun _ hw => (List.not_mem_nil hw).elim, hsound, hholds⟩

theorem calm_throw (hsound : Sound ss x.sessions) (e : AppError) : Calm ss r (throw_ x e) :=
  calm_goOn hsound trivial

theorem calm_violates (hsound : Sound ss x.sessions) (c : String) : Calm ss r (violates x c) :=
  calm_goOn hsound trivial

/-! ### Session requests -/

/-- The outcome of a session statement, as one of the API. -/
def ofSession (x : Ext) (out : UserService.Outcome) : Outcome :=
  (out.1.map .session, { x with sessions := out.2.1 }, .session out.2.2)

theorem calm_session {out : UserService.Outcome} (hws : ∀ w ∈ out.1, Quiet ss (.session w))
    (hsound : Sound ss out.2.1) (hholds : Holds ss r (.session out.2.2)) :
    Calm ss r (ofSession x out) where
  writes := by
    intro w hw
    obtain ⟨v, hv, rfl⟩ := List.mem_map.mp hw
    exact hws v hv
  sound := hsound
  holds := hholds

/-- A session statement that writes nothing. -/
theorem calm_session_goOn {l : UserService.Loc} {y : UserService.Ext} (hsound : Sound ss y)
    (hholds : Holds ss r (.session l)) : Calm ss r (ofSession x (UserService.goOn y l)) :=
  calm_session (fun _ hw => (List.not_mem_nil hw).elim) hsound hholds

/-- The first statement of a session request. -/
theorem calm_start {o : UserService.Oracle} (hsound : Sound (standings d) x.sessions) :
    Calm (standings d) r (ofSession x (UserService.start h s o d.sessions x.sessions)) := by
  have hthrow : ∀ e, Calm (standings d) r
      (ofSession x (UserService.throw_ x.sessions e)) := fun e => calm_session_goOn hsound trivial
  cases s with
  | signup name email password =>
    simp only [UserService.start, UserService.signupUser]
    split
    · exact hthrow _
    · exact calm_session_goOn hsound trivial
  | login email password =>
    simp only [UserService.start, UserService.loginUser]
    split
    · exact hthrow _
    · rename_i user huser
      split
      -- the session is for the row that was found
      · exact calm_session_goOn hsound (hasRole_of_mem (Table.find?_some huser).1)
      · exact hthrow _
  | refresh token =>
    simp only [UserService.start, UserService.refreshSession]
    split
    · exact hthrow _
    · split
      · exact calm_session_goOn hsound trivial
      · rename_i user huser
        split
        · exact calm_session_goOn hsound trivial
        · split
          · exact hthrow _
          · split
            · exact hthrow _
            -- the role is read again, not taken from the old token
            · exact calm_session_goOn hsound (hasRole_of_mem (Table.get?_eq_some.mp huser).1)
  | logout caller token =>
    simp only [UserService.start, UserService.logoutUser]
    split
    · split
      · exact calm_session_goOn hsound trivial
      · exact calm_session_goOn hsound trivial
    · exact hthrow _
  | changePassword caller current new =>
    simp only [UserService.start, UserService.changePassword]
    split
    · split
      · exact hthrow _
      · rename_i user huser
        split
        · exact calm_session_goOn hsound (hasRole_of_mem (Table.get?_eq_some.mp huser).1)
        · exact hthrow _
    · exact hthrow _

/-- `issueSession` signs a token for the account it is given. -/
theorem calm_issueSession {o : UserService.Oracle} {u : User} {next : String → UserService.Loc}
    (hsound : Sound (standings d) x.sessions) (hu : HasRole (standings d) u.id u.role)
    (hnext : ∀ token, Holds (standings d) r (.session (next token))) :
    Calm (standings d) r
      (ofSession x (UserService.issueSession h u next o d.sessions x.sessions)) := by
  unfold UserService.issueSession
  dsimp only
  split
  · exact calm_session_goOn ⟨hsound.ids, hsound.signed⟩ trivial
  · refine calm_session (fun w hw => ?_) ⟨hsound.ids, fun c hc => ?_⟩ (hnext _)
    · rw [List.mem_singleton.mp hw]
      trivial
    · rcases List.mem_cons.mp hc with rfl | hc
      · exact hu
      · exact hsound.signed c hc

/-- A signup grants the role of a user, and to a new account. -/
theorem grants_signupCreate {o : UserService.Oracle} {name email password : String}
    (hsound : Sound (standings d) x.sessions) :
    Grants (standings d) r x
      (ofSession x (UserService.signupCreate h name email password o d.sessions x.sessions)) := by
  unfold UserService.signupCreate
  dsimp only
  split
  · exact .calm (calm_session_goOn
      ⟨fun s hs => Nat.lt_succ_of_lt (hsound.ids s hs), hsound.signed⟩ trivial)
  · exact .signup rfl rfl rfl rfl

/-- A statement inside a transaction grants nothing. -/
theorem calm_of_stmt {l : UserService.Loc}
    {f : UserService.Oracle → UserService.Db → UserService.Ext → UserService.Outcome}
    (o : UserService.Oracle) (hcode : UserService.code h (fun _ => s) p l = .stmt f)
    (hsound : Sound (standings d) x.sessions) (hholds : Holds (standings d) r (.session l)) :
    Calm (standings d) r (ofSession x (f o d.sessions x.sessions)) := by
  cases l with
  | rotate stored user =>
    obtain rfl := Instr.stmt.inj hcode
    unfold UserService.rotate
    split
    · exact calm_session_goOn hsound trivial
    · split
      · refine calm_session (fun w hw => ?_) hsound hholds
        rw [List.mem_singleton.mp hw]
        trivial
      · exact calm_session_goOn hsound trivial
  | successor stored user =>
    obtain rfl := Instr.stmt.inj hcode
    exact calm_issueSession hsound hholds fun _ => hholds
  | newPassword user hash =>
    obtain rfl := Instr.stmt.inj hcode
    dsimp only [UserService.newPassword]
    split
    · exact calm_session_goOn hsound trivial
    · rename_i row hrow
      refine calm_session (fun w hw => ?_) hsound trivial
      rw [List.mem_singleton.mp hw]
      -- the UPDATE changes the password hash only
      exact hasRole_of_mem (u := row) (Table.get?_eq_some.mp hrow).1
  | revokeScan userId reply =>
    obtain rfl := Instr.stmt.inj hcode
    exact calm_session_goOn hsound trivial
  | revokeRows userId ids at_ reply =>
    cases ids with
    | nil => cases hcode
    | cons i ids =>
      obtain rfl := Instr.stmt.inj hcode
      simp only [UserService.revokeRow]
      split
      · exact calm_session_goOn hsound trivial
      · split
        · refine calm_session (fun w hw => ?_) hsound trivial
          rw [List.mem_singleton.mp hw]
          trivial
        · exact calm_session_goOn hsound trivial
  | _ => cases hcode

/-- No other statement of the sessions grants more. -/
theorem grants_of_auto {l : UserService.Loc}
    {f : UserService.Oracle → UserService.Db → UserService.Ext → UserService.Outcome}
    (o : UserService.Oracle) (hcode : UserService.code h (fun _ => s) p l = .auto f)
    (hsound : Sound (standings d) x.sessions) (hholds : Holds (standings d) r (.session l)) :
    Grants (standings d) r x (ofSession x (f o d.sessions x.sessions)) := by
  cases l with
  | start =>
    obtain rfl := Instr.auto.inj hcode
    exact .calm (calm_start hsound)
  | signupCreate =>
    obtain rfl := Instr.auto.inj hcode
    cases s with
    | signup name email password => exact grants_signupCreate hsound
    | _ => exact .calm (calm_session_goOn hsound trivial)
  | issue user =>
    obtain rfl := Instr.auto.inj hcode
    exact .calm (calm_issueSession hsound hholds fun _ => trivial)
  | logoutOne userId token =>
    obtain rfl := Instr.auto.inj hcode
    refine .calm ?_
    unfold UserService.logoutOne
    split
    · exact calm_session_goOn hsound trivial
    · split
      · refine calm_session (fun w hw => ?_) hsound trivial
        rw [List.mem_singleton.mp hw]
        trivial
      · exact calm_session_goOn hsound trivial
  | revokeRows userId ids at_ reply => cases ids <;> cases hcode
  | _ => cases hcode

/-- A session transaction ends with the request. -/
theorem holds_of_end {l l' : UserService.Loc}
    (hcode : UserService.code h (fun _ => s) p l = .commit l' ∨
      UserService.code h (fun _ => s) p l = .rollback l') : Holds ss r (.session l') := by
  rcases hcode with hcode | hcode
  · cases UserService.commits_of_code hcode <;> trivial
  · obtain ⟨e, -, rfl⟩ := UserService.eq_of_rollback hcode
    trivial

/-! ### Profiles and admins -/

/-- Behind `requireAuth` the caller's token is genuine, so the role in it was once the account's. -/
theorem calm_requireAuth {claims : Option Caller} {next : Caller → Outcome}
    (hsound : Sound (standings d) x.sessions)
    (hnext : ∀ caller, claims = some caller → HasRole (standings d) caller.userId caller.role →
      Calm (standings d) r (next caller)) : Calm (standings d) r (requireAuth claims x next) := by
  unfold requireAuth
  split
  · exact calm_throw hsound _
  · rename_i caller
    split
    · rename_i hsigned
      exact hnext caller rfl (hsound.signed caller hsigned)
    · exact calm_throw hsound _

/-- Behind `requireRole` the caller has one of the roles. -/
theorem calm_requireRole {allowedRoles : List Role} {caller : Caller} {next : Outcome}
    (hsound : Sound (standings d) x.sessions)
    (hnext : caller.role ∈ allowedRoles → Calm (standings d) r next) :
    Calm (standings d) r (requireRole allowedRoles caller x next) := by
  unfold requireRole
  split
  · rename_i hrole
    exact hnext hrole
  · exact calm_throw hsound _

/-- An edit of a profile keeps role and creator. -/
theorem calm_updateUser {userId : Nat} {name email : Option String}
    (hsound : Sound (standings d) x.sessions) :
    Calm (standings d) r (updateUser userId name email d x) := by
  unfold updateUser
  split
  · exact calm_violates hsound _
  · rename_i row hrow
    dsimp only
    split
    · exact calm_violates hsound _
    · refine ⟨fun w hw => ?_, hsound, trivial⟩
      rw [List.mem_singleton.mp hw]
      -- the new row has the id and the role of the old one
      exact hasRole_of_mem (u := row) (Table.get?_eq_some.mp hrow).1

theorem calm_updateProfile {userId : Nat} {name email : Option String}
    (hsound : Sound (standings d) x.sessions) :
    Calm (standings d) r (updateProfile userId name email d x) := by
  unfold updateProfile
  split
  · exact calm_updateUser hsound
  · split
    · exact calm_goOn hsound trivial
    · split
      · exact calm_throw hsound _
      · exact calm_goOn hsound trivial

/-- `createAdmin` gets past its guard with the claims of an admin. -/
theorem calm_createAdmin {http : HttpRequest} {email : String}
    (hsound : Sound (standings d) x.sessions) (hroute : http.route = .createAdmin)
    (hreq : r = .users http) :
    Calm (standings d) r
      (requireAdmin http.claims x fun caller => createAdmin email caller.userId d x) := by
  refine calm_requireAuth hsound fun caller hclaims hrole => calm_requireRole hsound fun hadmin => ?_
  have hrole' : caller.role = .admin := List.mem_singleton.mp hadmin
  unfold createAdmin
  split
  · exact calm_throw hsound _
  · have hcaller : http.claims = some ⟨caller.userId, .admin⟩ := by rw [hclaims, ← hrole']
    exact calm_goOn hsound ⟨hrole' ▸ hrole, http, hreq, hroute, hcaller⟩

/-- An admin is created by a caller who has been checked to be one. -/
theorem grants_insertAdmin {o : Oracle} {name email password : String} {creator : Nat}
    (hsound : Sound (standings d) x.sessions) (hholds : Holds (standings d) r (.insertAdmin creator)) :
    Grants (standings d) r x (insertAdmin h name email password creator o d x) := by
  have hadvanced : Sound (standings d)
      { x.sessions with nextUserId := x.sessions.nextUserId + 1 } :=
    ⟨fun s hs => Nat.lt_succ_of_lt (hsound.ids s hs), hsound.signed⟩
  unfold insertAdmin
  dsimp only
  split
  · exact .calm (calm_violates hadvanced _)
  · exact .calm (calm_violates hadvanced _)
  · exact .admin rfl rfl rfl rfl hholds.1 hholds.2

/-! ### All of them -/

/-- A catalogue statement. -/
theorem calm_catalogue {out : List Catalogue.Write × Catalogue.Ext × Catalogue.Loc}
    (hsound : Sound (standings d) x.sessions) :
    Calm (standings d) r
      (out.1.map .catalogue, { x with catalogue := out.2.1 }, .catalogue out.2.2) where
  writes := by
    intro w hw
    obtain ⟨v, -, rfl⟩ := List.mem_map.mp hw
    trivial
  sound := hsound
  holds := trivial

/-- **What the code of request `r` does at a location**, as far as standings are concerned. -/
inductive Executes (r : Request) (l : Loc) : Instr Db Ext Write Oracle Loc → Prop
  | stmt {f} (hout : ∀ o d x, Sound (standings d) x.sessions → Holds (standings d) r l →
      Calm (standings d) r (f o d x)) : Executes r l (.stmt f)
  | auto {f} (hout : ∀ o d x, Sound (standings d) x.sessions → Holds (standings d) r l →
      Grants (standings d) r x (f o d x)) : Executes r l (.auto f)
  | commit {l'} (hholds : ∀ ss, Holds ss r l') : Executes r l (.commit l')
  | rollback {l'} (hholds : ∀ ss, Holds ss r l') : Executes r l (.rollback l')
  | halt : Executes r l .halt

/-- Every statement of a session request grants no more than its route may. -/
theorem executes_session (http : HttpRequest) (l : UserService.Loc) :
    Executes (.users http) (.session l) (ofSessions (UserService.code h (fun _ => s) p l)) := by
  cases hcode : UserService.code h (fun _ => s) p l with
  | stmt f => exact .stmt fun o d x hsound hholds => calm_of_stmt o.session hcode hsound hholds
  | auto f => exact .auto fun o d x hsound hholds => grants_of_auto o.session hcode hsound hholds
  | commit l' => exact .commit fun ss => holds_of_end (Or.inl hcode)
  | rollback l' => exact .rollback fun ss => holds_of_end (Or.inr hcode)
  | halt => exact .halt

theorem executes_users (http : HttpRequest) (l : Loc) :
    Executes (.users http) l (usersCode h http p l) := by
  cases l with
  | session l =>
    rw [usersCode]
    split
    · exact executes_session http l
    · exact .halt
  | updateProfile =>
    exact .auto fun o d x hsound _ => .calm (calm_requireAuth hsound fun _ _ _ =>
      calm_requireRole hsound fun _ => calm_updateProfile hsound)
  | updateUser userId => exact .auto fun o d x hsound _ => .calm (calm_updateUser hsound)
  | createAdmin =>
    rw [usersCode]
    split
    · refine .auto fun o d x hsound hholds => .calm ?_
      obtain ⟨http', hreq, hroute⟩ := hholds
      obtain rfl := Request.users.inj hreq
      exact calm_createAdmin hsound hroute rfl
    · exact .halt
  | insertAdmin creator =>
    rw [usersCode]
    split
    · exact .auto fun o d x hsound hholds => grants_insertAdmin hsound hholds
    · exact .halt
  | catalogue l => exact .halt
  | done reply => exact .halt

theorem executes (h : Helpers) (cfg : Config) (sameName : String → String → Bool)
    (reqs : Nat → Request) (p : Nat) (l : Loc) :
    Executes (reqs p) l ((api h cfg sameName reqs).code p l) := by
  have husers : Executes (reqs p) l (requestCode h (reqs p) p l) := by
    cases reqs p with
    | users http => exact executes_users http l
    | catalogue r => exact .halt
  cases l with
  | catalogue l =>
    show Executes _ _ (ofCatalogue (Catalogue.code cfg sameName (catalogueRequests reqs) p l))
    cases Catalogue.code cfg sameName (catalogueRequests reqs) p l with
    | stmt f => exact .stmt fun o d x hsound _ => calm_catalogue hsound
    | auto f => exact .auto fun o d x hsound _ => .calm (calm_catalogue hsound)
    | commit l' => exact .commit fun _ => trivial
    | rollback l' => exact .rollback fun _ => trivial
    | halt => exact .halt
  | _ => exact husers

end Statements

/-! ## Every step -/

/-- What every request rests on. -/
structure Inv (reqs : Nat → Request) (σ : State Db Ext Write Loc) : Prop where
  sound : Sound (standings σ.base.db) σ.base.world.sessions
  pend : ∀ p w, (p, w) ∈ σ.pend → Quiet (standings σ.base.db) w
  holds : ∀ p, Holds (standings σ.base.db) (reqs p) (σ.loc p)

/-- What a step does to the standings. -/
inductive Grows (reqs : Nat → Request) (σ σ' : State Db Ext Write Loc) : Prop
  | same (h : standings σ'.base.db = standings σ.base.db)
  | user {id} (h : standings σ'.base.db = standings σ.base.db ++ [⟨id, .user, none⟩])
  | admin {p u creator}
      (h : standings σ'.base.db = standings σ.base.db ++ [⟨u.id, .admin, some creator⟩])
      (hlog : σ'.base.log = σ.base.log ++ [(p, [.insertAdmin u creator])])
      (hcreator : HasRole (standings σ.base.db) creator .admin) (hreq : Creates (reqs p) creator)
      (hnew : ∀ s ∈ standings σ.base.db, s.id < u.id)

section Step

variable {h : Helpers} {cfg : Config} {sameName : String → String → Bool} {reqs : Nat → Request}
  {σ σ' : State Db Ext Write Loc} {p : Nat}

/-- A process moves, and the standings stay. -/
theorem Inv.move {b : Base Db Ext Write} {pend : List (Nat × Write)} {l : Loc} (hinv : Inv reqs σ)
    (hsame : standings b.db = standings σ.base.db)
    (hsound : Sound (standings σ.base.db) b.world.sessions)
    (hholds : Holds (standings σ.base.db) (reqs p) l)
    (hpend : ∀ q w, (q, w) ∈ pend → (q, w) ∈ σ.pend ∨ Quiet (standings σ.base.db) w) :
    Inv reqs ⟨b, pend, goto σ.loc p l⟩ ∧ Grows reqs σ ⟨b, pend, goto σ.loc p l⟩ := by
  refine ⟨⟨?_, fun q w hw => ?_, ?_⟩, .same hsame⟩
  · rw [hsame]
    exact hsound
  · rw [hsame]
    exact (hpend q w hw).elim (hinv.pend q w) id
  · rw [hsame]
    exact forall_goto (P := fun q => Holds (standings σ.base.db) (reqs q)) hholds
      fun q _ => hinv.holds q

/-- A process moves and adds an account. -/
theorem Inv.append {b : Base Db Ext Write} {l : Loc} {s : Standing} (hinv : Inv reqs σ)
    (hgrown : standings b.db = standings σ.base.db ++ [s])
    (hid : s.id = σ.base.world.sessions.nextUserId)
    (hnext : b.world.sessions.nextUserId = σ.base.world.sessions.nextUserId + 1)
    (hsigned : b.world.sessions.signed = σ.base.world.sessions.signed)
    (hholds : Holds (standings σ.base.db ++ [s]) (reqs p) l) :
    Inv reqs ⟨b, σ.pend, goto σ.loc p l⟩ := by
  have hsub : standings σ.base.db ⊆ standings σ.base.db ++ [s] := List.subset_append_left _ _
  refine ⟨⟨fun t ht => ?_, fun c hc => ?_⟩, fun q w hw => ?_, ?_⟩
  · rw [hnext]
    rw [hgrown] at ht
    rcases List.mem_append.mp ht with ht | ht
    · exact Nat.lt_succ_of_lt (hinv.sound.ids t ht)
    · rw [List.mem_singleton.mp ht, hid]
      exact Nat.lt_succ_self _
  · rw [hsigned] at hc
    rw [hgrown]
    exact (hinv.sound.signed c hc).mono hsub
  · rw [hgrown]
    exact (hinv.pend q w hw).mono hsub
  · rw [hgrown]
    exact forall_goto (P := fun q => Holds (standings σ.base.db ++ [s]) (reqs q)) hholds
      fun q _ => (hinv.holds q).mono hsub

/-- What a process reads has the standings of the table: open transactions are quiet. -/
theorem Inv.view (hinv : Inv reqs σ) (h : Helpers) (cfg : Config)
    (sameName : String → String → Bool) (p : Nat) :
    standings ((api h cfg sameName reqs).view σ p) = standings σ.base.db :=
  standings_after fun w hw => hinv.pend p w (mem_own.mp hw)

/-- A statement that commits by itself. -/
theorem Inv.grants {b : Base Db Ext Write} {out : Outcome} (hinv : Inv reqs σ)
    (hgrants : Grants (standings σ.base.db) (reqs p) σ.base.world out)
    (hdb : b.db = out.1.foldl apply σ.base.db) (hworld : b.world = out.2.1)
    (hlog : out.1 ≠ [] → b.log = σ.base.log ++ [(p, out.1)]) :
    Inv reqs ⟨b, σ.pend, goto σ.loc p out.2.2⟩ ∧
      Grows reqs σ ⟨b, σ.pend, goto σ.loc p out.2.2⟩ := by
  have hnew : ∀ {u : User}, u.id = σ.base.world.sessions.nextUserId →
      ∀ s ∈ standings σ.base.db, s.id < u.id := by
    intro u hid s hs
    rw [hid]
    exact hinv.sound.ids s hs
  cases hgrants with
  | calm hcalm =>
    refine hinv.move ?_ (hworld ▸ hcalm.sound) hcalm.holds fun q w hw => Or.inl hw
    rw [hdb]
    exact standings_after hcalm.writes
  | @signup u x' hrole hid hnext hsigned =>
    have hgrown : standings b.db = standings σ.base.db ++ [⟨u.id, .user, none⟩] := by
      rw [hdb, ← hrole]
      exact standings_insertUser fun s hs => Nat.ne_of_lt (hnew hid s hs)
    subst hworld
    refine ⟨hinv.append hgrown hid hnext hsigned ?_, .user hgrown⟩
    exact ⟨⟨u.id, .user, none⟩, List.mem_append_right _ (List.mem_singleton.mpr rfl), rfl, hrole.symm⟩
  | @admin u creator x' reply hrole hid hnext hsigned hcreator hreq =>
    have hgrown : standings b.db = standings σ.base.db ++ [⟨u.id, .admin, some creator⟩] := by
      rw [hdb, ← hrole]
      exact standings_insertAdmin fun s hs => Nat.ne_of_lt (hnew hid s hs)
    subst hworld
    exact ⟨hinv.append hgrown hid hnext hsigned trivial,
      .admin hgrown (hlog (List.cons_ne_nil _ _)) hcreator hreq (hnew hid)⟩

/-- What a rollback leaves pending was pending before. -/
theorem mem_pend_of_drop {pend : List (Nat × Write)} {ss : List Standing} (q : Nat) (w : Write)
    (hw : (q, w) ∈ drop p pend) : (q, w) ∈ pend ∨ Quiet ss w :=
  Or.inl (mem_drop.mp hw).1

/-- A statement of an open transaction is calm on what it reads. -/
theorem Inv.calm_of_code {f : Oracle → Db → Ext → Outcome} (hinv : Inv reqs σ)
    (hcode : (api h cfg sameName reqs).code p (σ.loc p) = .stmt f) (o : Oracle) :
    Calm (standings σ.base.db) (reqs p)
      (f o ((api h cfg sameName reqs).view σ p) σ.base.world) := by
  have hex := executes h cfg sameName reqs p (σ.loc p)
  rw [hcode] at hex
  cases hex with
  | stmt hout =>
    have hview := hinv.view h cfg sameName p
    have hcalm := hout o ((api h cfg sameName reqs).view σ p) σ.base.world (hview ▸ hinv.sound)
      (hview ▸ hinv.holds p)
    rwa [hview] at hcalm

/-- One that commits by itself grants no more than it may. -/
theorem Inv.grants_of_code {f : Oracle → Db → Ext → Outcome} (hinv : Inv reqs σ)
    (hcode : (api h cfg sameName reqs).code p (σ.loc p) = .auto f) (o : Oracle) :
    Grants (standings σ.base.db) (reqs p) σ.base.world
      (f o ((api h cfg sameName reqs).view σ p) σ.base.world) := by
  have hex := executes h cfg sameName reqs p (σ.loc p)
  rw [hcode] at hex
  cases hex with
  | auto hout =>
    have hview := hinv.view h cfg sameName p
    have hgrants := hout o ((api h cfg sameName reqs).view σ p) σ.base.world (hview ▸ hinv.sound)
      (hview ▸ hinv.holds p)
    rwa [hview] at hgrants

/-- **Step lemma.** -/
theorem Inv.step {a : Act Oracle PatentService.Upload} (hinv : Inv reqs σ)
    (hs : (api h cfg sameName reqs).step σ a = some σ') : Inv reqs σ' ∧ Grows reqs σ σ' := by
  cases Machine.effect_of_step _ hs with
  | @stmt p o f hcode hfree =>
    have hcalm := hinv.calm_of_code hcode o
    refine hinv.move rfl hcalm.sound hcalm.holds fun q w hw => ?_
    -- the writes of the statement are as quiet as the earlier ones
    rcases mem_append_writes.mp hw with hw | ⟨-, hw⟩
    · exact Or.inl hw
    · exact Or.inr (hcalm.writes w hw)
  | @read p o f hcode hnone =>
    refine hinv.grants (hinv.grants_of_code hcode o) ?_ rfl fun hsome => absurd hnone hsome
    rw [hnone]
    rfl
  | @auto p o f hcode hfree hsome =>
    exact hinv.grants (hinv.grants_of_code hcode o) rfl rfl fun _ => rfl
  | @commit p o l' hcode =>
    have hex := executes h cfg sameName reqs p (σ.loc p)
    rw [hcode] at hex
    cases hex with
    | commit hholds =>
      refine hinv.move ?_ hinv.sound (hholds _) mem_pend_of_drop
      exact standings_after fun w hw => hinv.pend p w (mem_own.mp hw)
  | @rollback p o l' hcode =>
    have hex := executes h cfg sameName reqs p (σ.loc p)
    rw [hcode] at hex
    cases hex with
    | rollback hholds => exact hinv.move rfl hinv.sound (hholds _) mem_pend_of_drop
  | @fail p hcode => exact hinv.move rfl hinv.sound trivial mem_pend_of_drop
  | @env e x henv =>
    obtain ⟨y, -, rfl⟩ := Option.map_eq_some_iff.mp henv
    exact ⟨⟨hinv.sound, hinv.pend, hinv.holds⟩, .same rfl⟩

end Step

/-! ## No privilege escalation -/

/-- The entry of the log after `pre` is a `createAdmin` on behalf of `creator`, who was an admin in
    the table it ran on, and made the account. -/
structure CreatedBy (reqs : Nat → Request) (d : Db) (p : Nat) (ws : List Write) (s : Standing)
    (creator : Nat) : Prop where
  writes : ∃ u : User, ws = [.insertAdmin u creator] ∧ u.id = s.id
  createdBy : s.createdBy = some creator
  request : Creates (reqs p) creator
  admin : HasRole (standings d) creator .admin

/-- A transaction of the log has created the account on behalf of an admin. -/
def Authorised (M : Machine Db Ext Write Row Oracle PatentService.Upload Loc)
    (reqs : Nat → Request) (d₀ : Db) (log : List (Nat × List Write)) (s : Standing) : Prop :=
  ∃ pre p ws post creator, log = pre ++ (p, ws) :: post ∧
    CreatedBy reqs (M.replay d₀ pre) p ws s creator

/-- The links of the admins lead to an admin of `ss₀`, and an admin is younger than its creator:
    a forest whose roots are these. -/
inductive Descends (ss₀ ss : List Standing) : Nat → Prop
  | root {id} (h : HasRole ss₀ id .admin) : Descends ss₀ ss id
  | child {id creator} (hlink : ⟨id, .admin, some creator⟩ ∈ ss) (hlt : creator < id)
      (h : Descends ss₀ ss creator) : Descends ss₀ ss id

/-- **No privilege escalation.** -/
structure Unescalated (M : Machine Db Ext Write Row Oracle PatentService.Upload Loc)
    (reqs : Nat → Request) (d₀ : Db) (σ : State Db Ext Write Loc) : Prop where
  admins : ∀ s ∈ standings σ.base.db, s.role = .admin →
    s ∈ standings d₀ ∨ Authorised M reqs d₀ σ.base.log s
  tokens : ∀ c ∈ σ.base.world.sessions.signed,
    ∃ a ∈ σ.base.db.accounts, a.id = c.userId ∧ a.role = c.role
  forest : ∀ s ∈ standings σ.base.db, s.role = .admin →
    Descends (standings d₀) (standings σ.base.db) s.id

section Runs

variable {h : Helpers} {cfg : Config} {sameName : String → String → Bool} {reqs : Nat → Request}
  {σ σ' : State Db Ext Write Loc} {d₀ : Db} {ss₀ ss ss' : List Standing}

/-- A line of creators is not broken by newer accounts. -/
theorem Descends.mono {id : Nat} (hdesc : Descends ss₀ ss id) (hsub : ss ⊆ ss') :
    Descends ss₀ ss' id := by
  induction hdesc with
  | root hroot => exact .root hroot
  | child hlink hlt _ ih => exact .child (hsub hlink) hlt ih

theorem Authorised.mono {M : Machine Db Ext Write Row Oracle PatentService.Upload Loc}
    {log log' : List (Nat × List Write)} {s : Standing} (hauth : Authorised M reqs d₀ log s)
    (hlog : log <+: log') : Authorised M reqs d₀ log' s := by
  obtain ⟨pre, p, ws, post, creator, rfl, hcreated⟩ := hauth
  obtain ⟨more, rfl⟩ := hlog
  exact ⟨pre, p, ws, post ++ more, creator, by simp, hcreated⟩

/-- What is known of the accounts. -/
structure Lineage (M : Machine Db Ext Write Row Oracle PatentService.Upload Loc)
    (reqs : Nat → Request) (d₀ : Db) (σ : State Db Ext Write Loc) : Prop where
  inv : Inv reqs σ
  replay : σ.base.db = M.replay d₀ σ.base.log
  admins : ∀ s ∈ standings σ.base.db, s.role = .admin →
    s ∈ standings d₀ ∨ Authorised M reqs d₀ σ.base.log s
  forest : ∀ s ∈ standings σ.base.db, s.role = .admin →
    Descends (standings d₀) (standings σ.base.db) s.id

/-- A step appends to the standings and changes none. -/
theorem Grows.appends (hgrows : Grows reqs σ σ') :
    standings σ.base.db <+: standings σ'.base.db := by
  cases hgrows with
  | same hsame => exact hsame ▸ List.prefix_refl _
  | user hgrown => exact hgrown ▸ List.prefix_append _ _
  | admin hgrown => exact hgrown ▸ List.prefix_append _ _

/-- An admin was there before, or has just been created by one. -/
theorem Grows.admin_back (hgrows : Grows reqs σ σ') {s : Standing}
    (hmem : s ∈ standings σ'.base.db) (hrole : s.role = .admin) :
    s ∈ standings σ.base.db ∨ ∃ p creator, ∃ u : User, s = ⟨u.id, .admin, some creator⟩ ∧
      σ'.base.log = σ.base.log ++ [(p, [.insertAdmin u creator])] ∧
      HasRole (standings σ.base.db) creator .admin ∧ Creates (reqs p) creator ∧
      ∀ t ∈ standings σ.base.db, t.id < u.id := by
  cases hgrows with
  | same hsame => exact Or.inl (hsame ▸ hmem)
  | user hgrown =>
    rw [hgrown] at hmem
    rcases List.mem_append.mp hmem with hmem | hmem
    · exact Or.inl hmem
    · rw [List.mem_singleton.mp hmem] at hrole
      cases hrole
  | @admin p u creator hgrown hlast hcreator hreq hnew =>
    rw [hgrown] at hmem
    rcases List.mem_append.mp hmem with hmem | hmem
    · exact Or.inl hmem
    · exact Or.inr ⟨p, creator, u, List.mem_singleton.mp hmem, hlast, hcreator, hreq, hnew⟩

/-- **Step lemma.** Every admin descends from one of the first, by creations that were authorised.
    -/
theorem Lineage.step {a : Act Oracle PatentService.Upload}
    (hlin : Lineage (api h cfg sameName reqs) reqs d₀ σ)
    (hs : (api h cfg sameName reqs).step σ a = some σ') :
    Lineage (api h cfg sameName reqs) reqs d₀ σ' := by
  obtain ⟨hinv, hgrows⟩ := hlin.inv.step hs
  refine ⟨hinv, Machine.replay_of_step hs hlin.replay, fun s hmem hrole => ?_,
    fun s hmem hrole => ?_⟩
  · rcases hgrows.admin_back hmem hrole with
      hold | ⟨p, creator, u, rfl, hlast, hcreator, hreq, -⟩
    · exact (hlin.admins s hold hrole).imp id fun hauth => hauth.mono (Machine.log_of_step _ hs)
    -- the creator was an admin in the table that the log so far makes
    · refine Or.inr ⟨σ.base.log, p, _, [], creator, hlast, ⟨u, rfl, rfl⟩, rfl, hreq, ?_⟩
      rw [← hlin.replay]
      exact hcreator
  · have hsub := hgrows.appends.subset
    rcases hgrows.admin_back hmem hrole with hold | ⟨p, creator, u, rfl, -, hcreator, -, hnew⟩
    · exact (hlin.forest s hold hrole).mono hsub
    · -- the new admin hangs below its creator, who is older
      obtain ⟨t, ht, rfl, htrole⟩ := hcreator
      exact .child hmem (hnew t ht) ((hlin.forest t ht htrole).mono hsub)

theorem lineage_init (M : Machine Db Ext Write Row Oracle PatentService.Upload Loc)
    (reqs : Nat → Request) (accounts : Table Account Account.key) {nextUserId : Nat}
    (hids : ∀ a ∈ accounts, a.id < nextUserId) :
    Lineage M reqs (init reqs accounts nextUserId).base.db (init reqs accounts nextUserId) := by
  refine ⟨⟨⟨fun s hs => ?_, fun c hc => (List.not_mem_nil hc).elim⟩,
    fun p w hw => (List.not_mem_nil hw).elim, fun p => ?_⟩, rfl, fun s hs _ => Or.inl hs,
    fun s hs hrole => .root ⟨s, hs, rfl, hrole⟩⟩
  · obtain ⟨a, ha, rfl⟩ := List.mem_map.mp hs
    exact hids a ha
  · show Holds _ (reqs p) (startOf (reqs p))
    cases reqs p with
    | catalogue r => trivial
    | users http =>
      rw [startOf]
      split
      · trivial
      · rename_i hroute
        exact ⟨http, rfl, hroute⟩
      · trivial

/-- The lineage says more than that nobody gains rights. -/
theorem Lineage.unescalated {M : Machine Db Ext Write Row Oracle PatentService.Upload Loc}
    (hlin : Lineage M reqs d₀ σ) : Unescalated M reqs d₀ σ where
  admins := hlin.admins
  tokens := by
    intro c hc
    obtain ⟨s, hs, hid, hrole⟩ := hlin.inv.sound.signed c hc
    obtain ⟨a, ha, rfl⟩ := List.mem_map.mp hs
    exact ⟨a, ha, hid, hrole⟩
  forest := hlin.forest

/-- **Every run**: no request changes the role or the creator of an account that exists, and nobody
    becomes an admin but by an admin. -/
theorem unescalated_of_run {accounts : Table Account Account.key} {nextUserId : Nat}
    (hids : ∀ a ∈ accounts, a.id < nextUserId)
    (hrun : Run (api h cfg sameName reqs).step always (init reqs accounts nextUserId) σ) :
    Unescalated (api h cfg sameName reqs) reqs (init reqs accounts nextUserId).base.db σ ∧
      ∀ a σ', (api h cfg sameName reqs).step σ a = some σ' →
        standings σ.base.db <+: standings σ'.base.db := by
  have hlin := hrun.invariant (I := Lineage (api h cfg sameName reqs) reqs
    (init reqs accounts nextUserId).base.db) (fun _ _ _ hlin _ hs => hlin.step hs)
    (lineage_init _ reqs accounts hids)
  exact ⟨hlin.unescalated, fun a σ' hs => (hlin.inv.step hs).2.appends⟩

end Runs

/-! ## An admin creates another -/

/-- Root, who comes from the seed. -/
def seeded : Table Account Account.key :=
  ⟨[⟨⟨1, "Root", "root@example.com", "secret", .admin⟩, none⟩], by decide⟩

/-- The body of a form; it asks for a role, too. -/
def form (field : String) : Option String :=
  if field = "name" then some "Grace"
  else if field = "email" then some "grace@example.com"
  else if field = "password" then some "secret"
  else if field = "role" then some "admin"
  else none

/-- The credentials of root. -/
def credentials (field : String) : Option String :=
  if field = "email" then some "root@example.com"
  else if field = "password" then some "secret"
  else none

/-- Root logs in and creates an admin; someone else signs up with the same form, too late. -/
def promotion : Nat → Request
  | 0 => .users ⟨.login, credentials, none⟩
  | 1 => .users ⟨.createAdmin, form, some ⟨1, .admin⟩⟩
  | _ => .users ⟨.signup, form, none⟩

/-- Some steps of process `p`. -/
def steps (p n : Nat) : List (Act Oracle PatentService.Upload) :=
  List.replicate n (.run p ⟨⟨5, 0, "token", 0⟩, ⟨5, "uuid", true⟩⟩)

/-- Root has logged in and made an admin, and the signup that names no role comes too late. -/
def promoted : List (Act Oracle PatentService.Upload) := steps 0 2 ++ steps 1 2 ++ steps 2 1

theorem promoted_runs :
    (exec (api UserService.plainHelpers PatentService.pdfOnly (· == ·) promotion).step
      (init promotion seeded 2) promoted).isSome = true := by
  decide

/-- There are two admins now. -/
def afterPromotion : State Db Ext Write Loc :=
  (exec (api UserService.plainHelpers PatentService.pdfOnly (· == ·) promotion).step
    (init promotion seeded 2) promoted).get promoted_runs

theorem unescalated_of_promoted :
    standings afterPromotion.base.db = [⟨1, .admin, none⟩, ⟨2, .admin, some 1⟩] ∧
      Unescalated (api UserService.plainHelpers PatentService.pdfOnly (· == ·) promotion) promotion
        (init promotion seeded 2).base.db afterPromotion := by
  have hids : ∀ a ∈ seeded.rows, a.id < 2 := by decide
  exact ⟨by decide, (unescalated_of_run hids (Run.exec_get promoted_runs)).1⟩

end SmartPatents.Api
