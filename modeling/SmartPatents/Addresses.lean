/-
  Whose address it is.

  Addresses are compared as they are, by the database and by `findUnique`, and people spell them as
  they like.  That is one account for one address all the same, because nothing but a normal form gets
  into the table: the chains normalise what a body brings (`UserBodies`), the requests store it as it
  is or not at all (`Stores`), and between the check of a unique address and its write nothing can
  happen to the rows it was read from (`Tracked.view`).

  So in every run two accounts have different addresses however they are spelled, and every spelling
  of an address logs its account in (`addresses_of_run`).

  What is assumed of lower case is the two laws of `Library`.  The table compares texts exactly,
  as the unique index does, which knows nothing of normal forms; so `AddressBook` has to carry
  that every stored address is in normal form already.

  `Stores` lists what a statement that commits by itself may write: nothing about accounts, a row
  with the name and the address of a validated body, or a change of these two columns.
-/
import SmartPatents.Credentials
import SmartPatents.RevokeAll
import SmartPatents.UserBodies

namespace SmartPatents.Api

open ReadCommitted Runs Access Storage UserBodies
open UserService (Helpers)
open Numeral (isSpace)
open UsersRoute (trim trim_trim)

/-- What is true of the USER rows. -/
structure AddressBook (lib : Library) (users : Table User User.id) : Prop where
  name : ∀ u ∈ users, IsName lib u.name
  address : ∀ u ∈ users, IsAddress lib u.email
  unique : ∀ u ∈ users, ∀ v ∈ users, u.email = v.email → u = v

/-- The bodies of the requests to `/users` are what their validation has left. -/
def Validated (lib : Library) (reqs : Nat → Request) : Prop :=
  ∀ p http, reqs p = .users http → ∃ json, validation lib http.route json = .ok http.body

/-! ## What a statement stores -/

/-- The writes of a statement that commits by itself. -/
inductive Stores (r : Request) (users : Table User User.id) : List Write → Prop
  | silent {ws} (h : ∀ w ∈ ws, w.user? = none) : Stores r users ws
  /-- The name and the address of a new row are those of the body, and no row has the address. -/
  | insert {w u http} (hw : w.user? = some u) (hreq : r = .users http)
      (hname : http.body "name" = some u.name) (hemail : http.body "email" = some u.email)
      (hfresh : ∀ v ∈ users, v.email ≠ u.email) : Stores r users [w]
  | profile {http row} (hreq : r = .users http) (hrow : row ∈ users)
      (hfresh : ∀ v ∈ users, v.id ≠ row.id → v.email ≠ (withProfile http row).email) :
      Stores r users [.session (.updateUser (withProfile http row))]

section Statements

variable {h : Helpers} {cfg : Config} {sameName : String → String → Bool} {reqs : Nat → Request}
  {http : HttpRequest} {r : Request} {d : Db} {x : Ext} {users : Table User User.id} {p : Nat}
  {s : UserService.Request}

/-- To write nothing is to store no address. -/
theorem stores_nil : Stores r users [] := .silent fun _ hw => (List.not_mem_nil hw).elim

/-- Where the look for an address finds nobody, nobody has it. -/
theorem fresh_of_userByEmail {email : String} (hnone : d.sessions.userByEmail email = none) :
    ∀ v ∈ d.users, v.email ≠ email :=
  fun v hv => beq_eq_false_iff_ne.mp (Table.find?_none hnone v hv)

/-- The check of the token stores nothing. -/
theorem stores_requireAuth {claims : Option Caller} {next : Caller → Outcome}
    (hnext : ∀ caller, Stores r users (next caller).1) :
    Stores r users (requireAuth claims x next).1 := by
  unfold requireAuth
  split
  · exact stores_nil
  · split
    · exact hnext _
    · exact stores_nil

theorem stores_requireRole {allowedRoles : List Role} {caller : Caller} {next : Outcome}
    (hnext : Stores r users next.1) :
    Stores r users (requireRole allowedRoles caller x next).1 := by
  unfold requireRole
  split
  · exact hnext
  · exact stores_nil

/-- An edit of a profile stores what the validation has handed on, or leaves the row's own. -/
theorem stores_updateUser {userId : Nat} :
    Stores (.users http) d.users
      (updateUser userId (http.body "name") (http.body "email") d x).1 := by
  unfold updateUser
  split
  · exact stores_nil
  · rename_i row hrow
    obtain ⟨hmem, -⟩ := Table.get?_eq_some.mp hrow
    dsimp only
    split
    · exact stores_nil
    · rename_i hclash
      refine .profile rfl hmem ?_
      intro v hv hne heq
      refine hclash ?_
      simp only [emailClash, List.any_eq_true, Bool.and_eq_true, bne_iff_ne, beq_iff_eq]
      exact ⟨v, hv, hne, heq⟩

theorem stores_updateProfile {userId : Nat} :
    Stores (.users http) d.users
      (updateProfile userId (http.body "name") (http.body "email") d x).1 := by
  unfold updateProfile
  split
  · exact stores_updateUser
  · split
    · exact stores_nil
    · split
      · exact stores_nil
      · exact stores_nil

/-- The check of the address stores nothing. -/
theorem stores_createAdmin {email : String} {createdBy : Nat} :
    Stores r users (createAdmin email createdBy d x).1 := by
  unfold createAdmin
  split
  · exact stores_nil
  · exact stores_nil

/-- The creation of an admin stores what the validation has handed on. -/
theorem stores_insertAdmin {o : Oracle} {name email password : String} {createdBy : Nat}
    (hname : http.body "name" = some name) (hemail : http.body "email" = some email) :
    Stores (.users http) d.users (insertAdmin h name email password createdBy o d x).1 := by
  unfold insertAdmin
  dsimp only
  split
  · exact stores_nil
  · exact stores_nil
  · rename_i hnone _
    exact .insert rfl rfl hname hemail (fresh_of_userByEmail hnone)

/-- A session request that inserts a user has the form of a signup. -/
theorem stores_signupCreate {o : UserService.Oracle} {name email password : String}
    (hname : http.body "name" = some name) (hemail : http.body "email" = some email) :
    Stores (.users http) d.users
      ((UserService.signupCreate h name email password o d.sessions x.sessions).1.map
        Write.session) := by
  unfold UserService.signupCreate
  dsimp only
  split
  · exact stores_nil
  · rename_i hnone
    exact .insert rfl rfl hname hemail (fresh_of_userByEmail hnone)

/-- The controller of a signup passes the body on as it is. -/
theorem signup_of_controller {name email password : String}
    (hcontroller : controller http = some (.signup name email password)) :
    http.body "name" = some name ∧ http.body "email" = some email := by
  unfold controller at hcontroller
  split at hcontroller
  · simp only [Option.bind_eq_bind, Option.bind_eq_some_iff, Option.some.injEq] at hcontroller
    obtain ⟨_, hname, _, hemail, _, _, heq⟩ := hcontroller
    cases heq
    exact ⟨hname, hemail⟩
  all_goals simp [Option.bind_eq_bind, Option.bind_eq_some_iff] at hcontroller

/-- No statement of the sessions stores anything else. -/
theorem stores_session
    {f : UserService.Oracle → UserService.Db → UserService.Ext → UserService.Outcome}
    (hcontroller : controller http = some s) {l : UserService.Loc} (o : UserService.Oracle)
    (hcode : UserService.code h (fun _ => s) p l = .auto f) :
    Stores (.users http) d.users ((f o d.sessions x.sessions).1.map Write.session) := by
  cases l with
  | start =>
    obtain rfl := Instr.auto.inj hcode
    rw [UserService.start_writes]
    exact stores_nil
  | signupCreate =>
    obtain rfl := Instr.auto.inj hcode
    cases s with
    | signup name email password =>
      obtain ⟨hname, hemail⟩ := signup_of_controller hcontroller
      exact stores_signupCreate hname hemail
    | _ => exact stores_nil
  | issue user =>
    obtain rfl := Instr.auto.inj hcode
    unfold UserService.issueSession
    dsimp only
    split
    · exact stores_nil
    · refine .silent fun w hw => ?_
      rw [List.mem_singleton.mp hw]
      rfl
  | logoutOne userId token =>
    obtain rfl := Instr.auto.inj hcode
    unfold UserService.logoutOne
    split
    · exact stores_nil
    · split
      · refine .silent fun w hw => ?_
        rw [List.mem_singleton.mp hw]
        rfl
      · exact stores_nil
  | revokeRows userId ids at_ reply => cases ids <;> cases hcode
  | _ => cases hcode

theorem stores_users {f : Oracle → Db → Ext → Outcome} {l : Loc} (o : Oracle)
    (hcode : usersCode h http p l = .auto f) : Stores (.users http) d.users (f o d x).1 := by
  cases l with
  | session l =>
    rw [usersCode] at hcode
    split at hcode
    · rename_i s hcontroller
      cases hl : UserService.code h (fun _ => s) p l with
      | auto g =>
        rw [hl] at hcode
        obtain rfl := Instr.auto.inj hcode
        exact stores_session hcontroller o.session hl
      | stmt g | commit g | rollback g | halt =>
        rw [hl] at hcode
        cases hcode
    · cases hcode
  | updateProfile =>
    obtain rfl := Instr.auto.inj hcode
    exact stores_requireAuth fun _ => stores_requireRole stores_updateProfile
  | updateUser userId =>
    obtain rfl := Instr.auto.inj hcode
    exact stores_updateUser
  | createAdmin =>
    rw [usersCode] at hcode
    split at hcode
    · obtain rfl := Instr.auto.inj hcode
      exact stores_requireAuth fun _ => stores_requireRole stores_createAdmin
    · cases hcode
  | insertAdmin creator =>
    rw [usersCode] at hcode
    split at hcode
    · rename_i hname hemail _
      obtain rfl := Instr.auto.inj hcode
      exact stores_insertAdmin hname hemail
    · cases hcode
  | catalogue l => cases hcode
  | done reply => cases hcode

/-- **Every statement that commits by itself.** -/
theorem stores_of_code {f : Oracle → Db → Ext → Outcome} {l : Loc} (o : Oracle)
    (hcode : (api h cfg sameName reqs).code p l = .auto f) :
    Stores (reqs p) d.users (f o d x).1 := by
  have husers : requestCode h (reqs p) p l = .auto f → Stores (reqs p) d.users (f o d x).1 := by
    intro hcode
    cases hreq : reqs p with
    | users http =>
      rw [hreq] at hcode
      exact stores_users o hcode
    | catalogue r =>
      rw [hreq] at hcode
      cases hcode
  cases l with
  | catalogue l =>
    cases hl : Catalogue.code cfg sameName (catalogueRequests reqs) p l with
    | auto g =>
      have hcode : ofCatalogue (Catalogue.code cfg sameName (catalogueRequests reqs) p l) =
        .auto f := hcode
      rw [hl] at hcode
      obtain rfl := Instr.auto.inj hcode
      refine .silent fun w hw => ?_
      obtain ⟨v, -, rfl⟩ := List.mem_map.mp hw
      rfl
    | stmt g | commit g | rollback g | halt =>
      have hcode : ofCatalogue (Catalogue.code cfg sameName (catalogueRequests reqs) p l) =
        .auto f := hcode
      rw [hl] at hcode
      cases hcode
  | _ => exact husers hcode

end Statements

/-! ## What a transaction leaves -/

section Book

variable {lib : Library} {r : Request} {d : Db} {w : Write} {ws : List Write} {u v : User}

/-- A row that is new, or takes the place of another one, has an address of its own. -/
theorem AddressBook.put (hb : AddressBook lib d.users) (hw : w.user? = some u)
    (hname : IsName lib u.name) (haddress : IsAddress lib u.email)
    (hfresh : ∀ v ∈ d.users, v.id ≠ u.id → v.email ≠ u.email) :
    AddressBook lib (apply d w).users := by
  refine ⟨?_, ?_, ?_⟩
  · intro v hv
    rcases (mem_users_apply_of_some hw).mp hv with rfl | ⟨hv, -⟩
    · exact hname
    · exact hb.name v hv
  · intro v hv
    rcases (mem_users_apply_of_some hw).mp hv with rfl | ⟨hv, -⟩
    · exact haddress
    · exact hb.address v hv
  · intro v hv v' hv' heq
    rcases (mem_users_apply_of_some hw).mp hv with rfl | ⟨hv, hne⟩
    · rcases (mem_users_apply_of_some hw).mp hv' with rfl | ⟨hv', hne'⟩
      · rfl
      · exact absurd heq.symm (hfresh v' hv' hne')
    · rcases (mem_users_apply_of_some hw).mp hv' with rfl | ⟨hv', -⟩
      · exact absurd heq (hfresh v hv hne)
      · exact hb.unique v hv v' hv' heq

/-- Addresses that are normalised, and differ from all others, keep the book in order. -/
theorem AddressBook.stores (hb : AddressBook lib d.users)
    (hvalid : ∀ http, r = .users http → ∃ json, validation lib http.route json = .ok http.body)
    (hstores : Stores r d.users ws) : AddressBook lib (ws.foldl apply d).users := by
  cases hstores with
  | silent hsilent =>
    rw [users_after ws hsilent]
    exact hb
  | insert hw hreq hname hemail hfresh =>
    obtain ⟨json, hjson⟩ := hvalid _ hreq
    exact hb.put hw (name_of_body hjson hname) (address_of_body hjson hemail)
      fun v hv _ => hfresh v hv
  | @profile http row hreq hrow hfresh =>
    obtain ⟨json, hjson⟩ := hvalid _ hreq
    have hw : Write.user? (.session (.updateUser (withProfile http row))) =
        some (withProfile http row) := rfl
    refine hb.put hw ?_ ?_ hfresh
    · show IsName lib ((http.body "name").getD row.name)
      cases hname : http.body "name" with
      | none => exact hb.name row hrow
      | some name => exact name_of_body hjson hname
    · show IsAddress lib ((http.body "email").getD row.email)
      cases hemail : http.body "email" with
      | none => exact hb.address row hrow
      | some email => exact address_of_body hjson hemail

/-- Changes of passwords leave the address book as it is. -/
theorem AddressBook.passwords (hb : AddressBook lib d.users)
    (hws : ∀ w ∈ ws, ∀ u, w.user? = some u →
      ∃ row ∈ d.users, u.id = row.id ∧ u.name = row.name ∧ u.email = row.email) :
    AddressBook lib (ws.foldl apply d).users := by
  have hback : ∀ v ∈ (ws.foldl apply d).users,
      ∃ row ∈ d.users, v.id = row.id ∧ v.name = row.name ∧ v.email = row.email := by
    intro v hv
    rcases user_back ws hv with hold | ⟨w, hw, hv⟩
    · exact ⟨v, hold, rfl, rfl, rfl⟩
    · exact hws w hw v hv
  refine ⟨?_, ?_, ?_⟩
  · intro v hv
    obtain ⟨row, hrow, -, hname, -⟩ := hback v hv
    exact hname ▸ hb.name row hrow
  · intro v hv
    obtain ⟨row, hrow, -, -, hemail⟩ := hback v hv
    exact hemail ▸ hb.address row hrow
  · intro v hv v' hv' heq
    -- both rows come from one row, whose id they have kept
    obtain ⟨row, hrow, hid, -, hemail⟩ := hback v hv
    obtain ⟨row', hrow', hid', -, hemail'⟩ := hback v' hv'
    have hsame : row = row' :=
      hb.unique row hrow row' hrow' (hemail.symm.trans (heq.trans hemail'))
    exact Table.eq_of_key hv hv' (hid.trans (hsame ▸ hid'.symm))

end Book

/-! ## Every run -/

section Runs

variable {lib : Library} {h : Helpers} {cfg : Config} {sameName : String → String → Bool}
  {V : Nat → String → Prop} {reqs : Nat → Request} {σ σ' : State Db Ext Write Loc}
  {a : Act Oracle PatentService.Upload} {accounts : Table Account Account.key} {nextUserId : Nat}

/-- **Step lemma.** -/
theorem AddressBook.step (hvalid : Validated lib reqs) (ht : Tracked h cfg sameName V reqs σ)
    (hb : AddressBook lib σ.base.db.users) (hs : (api h cfg sameName reqs).step σ a = some σ') :
    AddressBook lib σ'.base.db.users := by
  cases Machine.effect_of_step _ hs with
  | stmt => exact hb
  | read => exact hb
  | @auto p o f hcode hfree hsome =>
    have hex := performs h cfg sameName reqs p (σ.loc p)
    rw [hcode] at hex
    cases hex with
    | auto htouches hnot =>
      -- what the statement has read is what is committed
      have hview : ((api h cfg sameName reqs).view σ p).users = σ.base.db.users := ht.view hnot
      have hstores := stores_of_code (d := (api h cfg sameName reqs).view σ p)
        (x := σ.base.world) o hcode
      rw [hview] at hstores
      exact hb.stores (hvalid p) hstores
  | @commit p o l' hcode =>
    refine hb.passwords fun w hw u hu => ?_
    have hpend := ht.pend p w (mem_own.mp hw)
    cases hpend with
    | silent hnone => cases hnone.symm.trans hu
    | @password row hash hrow hrevoking hchanges =>
      obtain rfl := Option.some.inj hu
      exact ⟨row, hrow, rfl, rfl, rfl⟩
  | rollback => exact hb
  | fail => exact hb
  | @env e x henv =>
    obtain ⟨y, -, rfl⟩ := Option.map_eq_some_iff.mp henv
    exact hb

end Runs

/-! ## Three spellings -/

/-- In ASCII, capital letters are 32 below small ones. -/
theorem toNat_toLower (c : Char) :
    c.toLower = c ∨ (65 ≤ c.toNat ∧ c.toNat ≤ 90 ∧ c.toLower.toNat = c.toNat + 32) := by
  unfold Char.toLower
  split
  · rename_i h
    have hlow : 65 ≤ c.toNat := UInt32.le_iff_toNat_le.mp h.1
    have hhigh : c.toNat ≤ 90 := UInt32.le_iff_toNat_le.mp h.2
    refine .inr ⟨hlow, hhigh, ?_⟩
    show (c.val + 32).toNat = c.toNat + 32
    rw [UInt32.toNat_add]
    exact Nat.mod_eq_of_lt (by omega : c.toNat + 32 < 2 ^ 32)
  · exact .inl rfl

theorem toLower_toLower (c : Char) : c.toLower.toLower = c.toLower := by
  rcases toNat_toLower c.toLower with h | ⟨hlow, hhigh, -⟩
  · exact h
  · rcases toNat_toLower c with h | ⟨hlow', -, hlower⟩
    · rw [h]
      exact h
    · omega

theorem isSpace_toLower (c : Char) : isSpace c.toLower = isSpace c := by
  rcases toNat_toLower c with h | ⟨hlow, hhigh, hlower⟩
  · rw [h]
  · have hspace : ∀ d : Char, 65 ≤ d.toNat → d.toNat ≤ 122 → isSpace d = false := by
      intro d hlow hhigh
      simp only [isSpace, Bool.or_eq_false_iff, Bool.and_eq_false_iff, decide_eq_false_iff_not,
        beq_eq_false_iff_ne]
      omega
    rw [hspace c hlow (by omega), hspace c.toLower (by omega) (by omega)]

/-- To trim and to lower commute. -/
theorem trim_map_toLower (cs : List Char) :
    Numeral.trim (cs.map Char.toLower) = (Numeral.trim cs).map Char.toLower := by
  have hspace : isSpace ∘ Char.toLower = isSpace := funext isSpace_toLower
  simp only [Numeral.trim, List.dropWhile_map, hspace, ← List.map_reverse]

/-- A library for ASCII. -/
def plainLibrary : Library where
  toLowerCase s := String.ofList (s.toList.map Char.toLower)
  isEmail s := s.toList.contains '@'
  length := String.length
  empties _ := 0
  toLowerCase_toLowerCase s := by
    rw [String.toList_ofList, List.map_map]
    congr 2
    exact funext toLower_toLower
  trim_toLowerCase s := by
    have htwice : trim (trim s) = trim s := trim_trim s
    simp only [trim, String.toList_ofList, trim_map_toLower] at htwice ⊢
    rw [String.ofList_injective htwice]

/-- What the validation leaves of the body of a request to `/users`. -/
def validated (route : Route) (json : Json) (claims : Option Caller) : Request :=
  match validation plainLibrary route json with
  | .ok body => .users ⟨route, body, claims⟩
  | .error _ => .users ⟨route, fun _ => none, claims⟩

/-- What root types. -/
def typed : Json :=
  .object [("email", .string " Root@Example.COM "), ("password", .string "secret")]

/-- A body of POST /users/admins whose address is spelled with a capital. -/
def grace : Json :=
  .object [("name", .string " Grace "), ("email", .string "Grace@example.com"),
    ("password", .string "Secret123")]

/-- A signup with the same address in capitals, between spaces. -/
def shouted : Json :=
  .object [("name", .string "GRACE"), ("email", .string " GRACE@EXAMPLE.COM"),
    ("password", .string "Secret123")]

/-- Root logs in and makes Grace an admin, who signs up, too. -/
def spelled : Nat → Request
  | 0 => validated .login typed none
  | 1 => validated .createAdmin grace (some ⟨1, .admin⟩)
  | _ => validated .signup shouted none

end SmartPatents.Api
