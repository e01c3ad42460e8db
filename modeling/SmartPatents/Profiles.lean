/-
  Whose profile is it?

  An INVENTOR row is a profile, and `user_id` may link it to an account.  `updateInventor` reads the
  row, compares the link with the caller, and writes a few statements later; so what it writes may
  not be the row it has judged.  It is a row with the same link all the same: no request changes the
  link of a profile, and an id is never used twice (`Entitled`, which is what the check leaves
  behind).

  Hence, whatever runs at once (`profiles_of_run`): a profile is edited by an admin or by the
  account that it is linked to, in its name, email and organization; it is deleted by an admin; and
  an account is linked by itself, when it makes the profile.  Two profiles share no email and no
  account (`Identities`), though both lookups may be out of date when the row is written: the unique
  columns decide.

  `Handles` is what a request may do to a profile, and `Authorised` is the property of one step:
  every row that was there is still there or was handled, and every row that is there now has the
  link it had, or is a new one of its caller.

  No request deletes an account, so the account behind a link exists (`Identities.linked`).
-/
import SmartPatents.Taxonomy
import SmartPatents.Privileges

namespace SmartPatents.Profiles

open ReadCommitted Runs Access Storage Catalogue
open PatentService (Oracle Upload uploadFreely)
open Taxonomy (Placed)

/-! ## The rules -/

/-- The unique columns, and the account behind a link. -/
structure Identities (d : Db) : Prop where
  emails : ∀ i ∈ d.inventors, ∀ j ∈ d.inventors, i.email = j.email → i = j
  accounts : ∀ i ∈ d.inventors, ∀ j ∈ d.inventors, ∀ u, i.userId = some u → j.userId = some u →
    i = j
  linked : ∀ i ∈ d.inventors, ∀ u, i.userId = some u → (d.users.get? u).isSome

/-- `updateInventor` lets the caller edit the profile. -/
def MayEdit (user : Caller) (row : Inventor) : Prop :=
  user.isAdmin = true ∨ row.userId = some user.userId

/-- What request `r` may do to a profile. -/
inductive Handles (r : Request) (row : Inventor) (d' : Db) : Prop
  | edits {user updates} (hreq : r = .reference (.updateInventor user row.id updates))
      (hmay : MayEdit user row) (hrow : editedInventor updates row ∈ d'.inventors)
  | erases {admin} (hreq : r = .reference (.deleteInventor admin row.id))
      (hadmin : admin.isAdmin = true) (hgone : ∀ i ∈ d'.inventors, i.id ≠ row.id)

/-- A step touches a profile on behalf of somebody who may, and links no account but the caller's. -/
structure Authorised (reqs : Nat → Request) (a : Act Oracle Upload) (d d' : Db) : Prop where
  rows : ∀ row ∈ d.inventors, row ∈ d'.inventors ∨
    ∃ p, a.mover = some p ∧ Handles (reqs p) row d'
  links : ∀ row ∈ d'.inventors, (∃ old ∈ d.inventors, old.id = row.id ∧ old.userId = row.userId) ∨
    ∃ p user input, a.mover = some p ∧ reqs p = .reference (.createInventor user input) ∧
      row.userId = if input.linkToMe then some user.userId else none

/-! ## What a statement does to the profiles -/

/-- What the checks of a request have left behind. -/
def Entitled (next : Nat) (inventors : Table Inventor Inventor.id) : Request → Loc → Prop
  | .reference (.updateInventor user id _), .reference .emailClash
  | .reference (.updateInventor user id _), .reference .updateInventor =>
    id < next ∧ ∀ row ∈ inventors, row.id = id → MayEdit user row
  | .reference (.deleteInventor admin _), .reference .countCredits
  | .reference (.deleteInventor admin _), .reference .deleteInventor => admin.isAdmin = true
  | _, _ => True

/-- The statements of a reference request, as far as profiles are concerned. -/
inductive ProfileMove (r : ReferenceRequest) (d : Db) (x : Ext) : Outcome → Prop
  | elsewhere {ws x' l'} (htable : (after d ws).inventors = d.inventors)
      (hids : x.nextInventorId ≤ x'.nextInventorId)
      (hentitled : Entitled x'.nextInventorId d.inventors (.reference r) (.reference l')) :
      ProfileMove r d x (ws, x', .reference l')
  | inserts {user input x' reply} {now : Time} (hreq : r = .createInventor user input)
      (hnext : x'.nextInventorId = x.nextInventorId + 1)
      (hclash : inventorClash d (inventorOf user input x.nextInventorId now) = false)
      (hlinked : ∀ u, (inventorOf user input x.nextInventorId now).userId = some u →
        (d.users.get? u).isSome) :
      ProfileMove r d x ([.insertInventor (inventorOf user input x.nextInventorId now)], x',
        .reference (.done reply))
  | edits {user updates row reply} (hreq : r = .updateInventor user row.id updates)
      (hmay : MayEdit user row) (hrow : row ∈ d.inventors)
      (hclash : inventorClash d (editedInventor updates row) = false) :
      ProfileMove r d x ([.updateInventor row (editedInventor updates row)], x,
        .reference (.done reply))
  | erases {admin id ws reply} (hreq : r = .deleteInventor admin id)
      (hadmin : admin.isAdmin = true) (htable : (after d ws).inventors = d.inventors.erase id) :
      ProfileMove r d x (ws, x, .reference (.done reply))

section Moves

variable {sameName : String → String → Bool} {r : ReferenceRequest} {d d' : Db} {x x' : Ext}
  {l : ReferenceLoc} {next next' : Nat} {inventors : Table Inventor Inventor.id}

/-- A request that has replied writes nothing more. -/
theorem entitled_done (reply : Reply) :
    Entitled next inventors (.reference r) (.reference (.done reply)) := by
  cases r <;> trivial

/-- Throwing leaves the profiles alone. -/
theorem profileMove_throw (e : AppError) : ProfileMove r d x (throw_ x e) :=
  .elsewhere rfl (Nat.le_refl _) (entitled_done _)

theorem profileMove_violates (hids : x.nextInventorId ≤ x'.nextInventorId) (code : String) :
    ProfileMove r d x (violates x' code) :=
  .elsewhere rfl hids (entitled_done _)

theorem profileMove_goOn
    (hentitled : Entitled x.nextInventorId d.inventors (.reference r) (.reference l)) :
    ProfileMove r d x (goOn x l) :=
  .elsewhere rfl (Nat.le_refl _) hentitled

/-- Behind the check of the role, the caller is an admin. -/
theorem profileMove_requireAdmin {admin : Caller} {out : Outcome}
    (hout : admin.isAdmin = true → ProfileMove r d x out) :
    ProfileMove r d x (requireAdmin admin x out) := by
  unfold requireAdmin
  split
  · rename_i hadmin
    exact hout hadmin
  · exact profileMove_throw _

theorem profileMove_assertNameFree {name : String} {t : Option Nat} {l : ReferenceLoc}
    (hentitled : Entitled x.nextInventorId d.inventors (.reference r) (.reference l)) :
    ProfileMove r d x (assertNameFree sameName name t l d x) := by
  unfold assertNameFree
  split
  · exact profileMove_throw _
  · exact profileMove_goOn hentitled

theorem profileMove_getCategoryById {id : Nat} {l : ReferenceLoc}
    (hentitled : Entitled x.nextInventorId d.inventors (.reference r) (.reference l)) :
    ProfileMove r d x (getCategoryById id l d x) := by
  unfold getCategoryById
  split
  · exact profileMove_throw _
  · exact profileMove_goOn hentitled

/-- The check of `updateInventor`: it is about the row that is there now, and about every later row
    with its id. -/
theorem profileMove_updateInventor {user : Caller} {id : Nat} {updates : InventorUpdates}
    (hnumbered : ∀ i ∈ d.inventors, i.id < x.nextInventorId) :
    ProfileMove (.updateInventor user id updates) d x (updateInventor user id updates d x) := by
  unfold updateInventor getInventorById
  split
  · exact profileMove_throw _
  · rename_i inventor hinventor
    split at hinventor
    · cases hinventor
    · rename_i row hrow
      obtain rfl := Except.ok.inj hinventor
      obtain ⟨hmem, rfl⟩ := Table.get?_eq_some.mp hrow
      split
      · exact profileMove_throw _
      · rename_i hforbidden
        have hmay : MayEdit user row := by
          simp only [Bool.and_eq_true, Bool.not_eq_true', bne_iff_ne, ne_eq, not_and,
            Decidable.not_not] at hforbidden
          by_cases hadmin : user.isAdmin = true
          · exact Or.inl hadmin
          · exact Or.inr (hforbidden (Bool.eq_false_iff.mpr hadmin))
        have hentitled : row.id < x.nextInventorId ∧
            ∀ i ∈ d.inventors, i.id = row.id → MayEdit user i := by
          refine ⟨hnumbered row hmem, fun i hi hid => ?_⟩
          rw [Table.eq_of_key hi hmem hid]
          exact hmay
        split
        · exact profileMove_goOn hentitled
        · exact profileMove_goOn hentitled

/-- The first statement: an edit goes on only for an admin or the linked user. -/
theorem profileMove_start (hnumbered : ∀ i ∈ d.inventors, i.id < x.nextInventorId) :
    ProfileMove r d x (start sameName r d x) := by
  cases r with
  | createInventor user input =>
    simp only [start, createInventor]
    split
    · exact profileMove_throw _
    · split
      · exact profileMove_goOn trivial
      · exact profileMove_goOn trivial
  | updateInventor user id updates => exact profileMove_updateInventor hnumbered
  | deleteInventor admin id =>
    refine profileMove_requireAdmin fun hadmin => ?_
    unfold deleteInventor
    split
    · exact profileMove_throw _
    · exact profileMove_goOn hadmin
  | createCategory admin name =>
    exact profileMove_requireAdmin fun _ => profileMove_assertNameFree trivial
  | updateCategory admin id name =>
    exact profileMove_requireAdmin fun _ => profileMove_getCategoryById trivial
  | deleteCategory admin id =>
    exact profileMove_requireAdmin fun _ => profileMove_getCategoryById trivial

/-- A profile is linked to the account of whoever creates it, or to none. -/
theorem profileMove_insertInventor {user : Caller} {input : InventorInput} {o : Oracle} :
    ProfileMove (.createInventor user input) d x (insertInventor user input o d x) := by
  have hids : x.nextInventorId ≤
      { x with nextInventorId := x.nextInventorId + 1 }.nextInventorId := Nat.le_succ _
  unfold insertInventor
  dsimp only
  split
  · exact profileMove_violates hids _
  · rename_i hclash
    split
    · exact profileMove_violates hids _
    · rename_i hnone
      refine .inserts rfl rfl (Bool.eq_false_iff.mpr hclash) fun u hu => ?_
      rw [hu] at hnone
      simpa [Option.isSome_iff_ne_none] using hnone

/-- An edit leaves the link of its row alone. -/
theorem profileMove_writeInventor {user : Caller} {id : Nat} {updates : InventorUpdates}
    (hentitled : ∀ row ∈ d.inventors, row.id = id → MayEdit user row) :
    ProfileMove (.updateInventor user id updates) d x (writeInventor id updates d x) := by
  unfold writeInventor
  split
  · exact profileMove_violates (Nat.le_refl _) _
  · rename_i row hrow
    obtain ⟨hmem, rfl⟩ := Table.get?_eq_some.mp hrow
    dsimp only
    split
    · exact profileMove_violates (Nat.le_refl _) _
    · rename_i hclash
      exact .edits rfl (hentitled row hmem rfl) hmem (Bool.eq_false_iff.mpr hclash)

/-- The DELETE, after the credits. -/
theorem profileMove_eraseInventor {admin : Caller} {id : Nat} (hadmin : admin.isAdmin = true) :
    ProfileMove (.deleteInventor admin id) d x (eraseInventor id d x) := by
  unfold eraseInventor
  split
  · exact profileMove_violates (Nat.le_refl _) _
  · rename_i row hrow
    obtain ⟨-, rfl⟩ := Table.get?_eq_some.mp hrow
    refine .erases rfl hadmin ?_
    have hcredits : (after d ((creditsTo d row.id).map fun l => .patent (.deleteInventor l))).inventors
        = d.inventors := Writes.keeps Catalogue.apply Db.inventors fun w hw d => by
      obtain ⟨l, -, rfl⟩ := List.mem_map.mp hw
      rfl
    rw [after, List.foldl_append]
    show ((after d _).inventors.erase row.id) = _
    rw [hcredits]

/-- The categories that go are no profiles. -/
theorem profileMove_eraseCategory {admin : Caller} {id : Nat} :
    ProfileMove (.deleteCategory admin id) d x (eraseCategory id d x) := by
  unfold eraseCategory
  split
  · exact profileMove_violates (Nat.le_refl _) _
  · rename_i row hrow
    exact .elsewhere (tables_of_cascade d id row).1 (Nat.le_refl _) trivial

/-- The categories have nothing to do with it. -/
theorem profileMove_insertCategory {name : String} : ProfileMove r d x (insertCategory name d x) := by
  have hids : x.nextInventorId ≤
      { x with nextCategoryId := x.nextCategoryId + 1 }.nextInventorId := Nat.le_refl _
  unfold insertCategory
  dsimp only
  split
  · exact profileMove_violates hids _
  · exact .elsewhere rfl (Nat.le_refl _) (entitled_done _)

theorem profileMove_writeCategory {id : Nat} {name : String} :
    ProfileMove r d x (writeCategory id name d x) := by
  unfold writeCategory
  split
  · exact profileMove_violates (Nat.le_refl _) _
  · dsimp only
    split
    · exact profileMove_violates (Nat.le_refl _) _
    · exact .elsewhere rfl (Nat.le_refl _) (entitled_done _)

/-- **Every statement of a reference request is one of these moves.** -/
theorem profileMove_of_code {f : Oracle → Db → Ext → Outcome} (o : Oracle)
    (hcode : referenceCode sameName r l = .auto f)
    (hnumbered : ∀ i ∈ d.inventors, i.id < x.nextInventorId)
    (hentitled : Entitled x.nextInventorId d.inventors (.reference r) (.reference l)) :
    ProfileMove r d x (f o d x) := by
  cases l with
  | start =>
    have hf : (fun _ d x => start sameName r d x) = f := by
      cases r <;> exact Instr.auto.inj hcode
    subst hf
    exact profileMove_start hnumbered
  | accountLinked =>
    cases r with
    | createInventor user input =>
      obtain rfl := Instr.auto.inj hcode
      dsimp only [accountLinked]
      split
      · exact profileMove_throw _
      · exact profileMove_goOn trivial
    | _ => cases hcode
  | insertInventor =>
    cases r with
    | createInventor user input =>
      obtain rfl := Instr.auto.inj hcode
      exact profileMove_insertInventor
    | _ => cases hcode
  | emailClash =>
    cases r with
    | updateInventor user id updates =>
      obtain rfl := Instr.auto.inj hcode
      dsimp only [emailClash]
      split
      · exact profileMove_throw _
      · exact profileMove_goOn hentitled
    | _ => cases hcode
  | updateInventor =>
    cases r with
    | updateInventor user id updates =>
      obtain rfl := Instr.auto.inj hcode
      exact profileMove_writeInventor hentitled.2
    | _ => cases hcode
  | countCredits =>
    cases r with
    | deleteInventor admin id =>
      obtain rfl := Instr.auto.inj hcode
      dsimp only [countCredits]
      split
      · exact profileMove_throw _
      · exact profileMove_goOn hentitled
    | _ => cases hcode
  | deleteInventor =>
    cases r with
    | deleteInventor admin id =>
      obtain rfl := Instr.auto.inj hcode
      exact profileMove_eraseInventor hentitled
    | _ => cases hcode
  | insertCategory =>
    cases r with
    | createCategory admin name =>
      obtain rfl := Instr.auto.inj hcode
      exact profileMove_insertCategory
    | _ => cases hcode
  | nameClash =>
    cases r with
    | updateCategory admin id name =>
      obtain rfl := Instr.auto.inj hcode
      exact profileMove_assertNameFree trivial
    | _ => cases hcode
  | updateCategory =>
    cases r with
    | updateCategory admin id name =>
      obtain rfl := Instr.auto.inj hcode
      exact profileMove_writeCategory
    | _ => cases hcode
  | deleteCategory =>
    cases r with
    | deleteCategory admin id =>
      obtain rfl := Instr.auto.inj hcode
      exact profileMove_eraseCategory
    | _ => cases hcode
  | done reply => cases r <;> cases hcode

end Moves

/-- A reference request stays one. -/
theorem ProfileMove.loc {r : ReferenceRequest} {d : Db} {x : Ext} {out : Outcome}
    (h : ProfileMove r d x out) : ∃ l, out.2.2 = .reference l := by
  cases h <;> exact ⟨_, rfl⟩

/-! ## The profiles after a move -/

/-- What holds of the table, and of every request. -/
structure Kept (reqs : Nat → Request) (d : Db) (next : Nat) (loc : Nat → Loc) : Prop where
  numbered : ∀ i ∈ d.inventors, i.id < next
  identities : Identities d
  entitled : ∀ p, Entitled next d.inventors (reqs p) (loc p)

section Kept

variable {reqs : Nat → Request} {d d' : Db} {next next' : Nat} {loc : Nat → Loc} {p : Nat}
  {a : Act Oracle Upload} {x : Ext} {r : ReferenceRequest} {l : Loc} {out : Outcome}
  {inventors inventors' : Table Inventor Inventor.id} {i : Inventor}

/-- A check stays right as long as the links of the profiles with an old id stay. -/
theorem Entitled.mono {req : Request} (h : Entitled next inventors req l) (hle : next ≤ next')
    (hback : ∀ row' ∈ inventors', row'.id < next → ∃ row ∈ inventors, row.id = row'.id ∧
      row.userId = row'.userId) : Entitled next' inventors' req l := by
  unfold Entitled at h ⊢
  split
  iterate 2
    refine ⟨Nat.lt_of_lt_of_le h.1 hle, fun row' hrow' hid => ?_⟩
    obtain ⟨row, hrow, hid', hlink⟩ := hback row' hrow' (hid ▸ h.1)
    exact (h.2 row hrow (hid'.trans hid)).imp id fun hlinked => hlink ▸ hlinked
  · exact h
  · exact h
  · trivial

/-- The unique constraints, read as conditions on the rows. -/
theorem ne_of_inventorClash (hclash : inventorClash d i = false) :
    ∀ j ∈ d.inventors, j.id ≠ i.id →
      j.email ≠ i.email ∧ ∀ u, i.userId = some u → j.userId ≠ some u := by
  intro j hj hid
  have hnone := List.any_eq_false.mp hclash j hj
  refine ⟨fun hemail => hnone ?_, fun u hu hlink => hnone ?_⟩
  · simp [hid, hemail]
  · simp [hid, hu, hlink]

/-- Whether profiles are unique depends on inventors and users only. -/
theorem Identities.congr (h : Identities d) (htable : d'.inventors = d.inventors)
    (husers : d'.users = d.users) : Identities d' := by
  refine ⟨?_, ?_, ?_⟩
  · rw [htable]
    exact h.emails
  · rw [htable]
    exact h.accounts
  · rw [htable, husers]
    exact h.linked

/-- Fewer profiles are still unique. -/
theorem Identities.erase {id : Nat} (h : Identities d)
    (htable : d'.inventors = d.inventors.erase id) (husers : d'.users = d.users) :
    Identities d' := by
  have hsub : ∀ j ∈ d'.inventors, j ∈ d.inventors := by
    intro j hj
    rw [htable] at hj
    exact (Table.mem_erase.mp hj).1
  refine ⟨fun j hj k hk => h.emails j (hsub j hj) k (hsub k hk),
    fun j hj k hk => h.accounts j (hsub j hj) k (hsub k hk), fun j hj u hu => ?_⟩
  rw [husers]
  exact h.linked j (hsub j hj) u hu

/-- A profile that clashes with none may be written. -/
theorem Identities.put (h : Identities d) (hclash : inventorClash d i = false)
    (hlinked : ∀ u, i.userId = some u → (d.users.get? u).isSome)
    (htable : d'.inventors = d.inventors.put i) (husers : d'.users = d.users) : Identities d' := by
  have hne := ne_of_inventorClash hclash
  refine ⟨?_, ?_, ?_⟩
  · rw [htable]
    intro j hj k hk hemail
    rcases Table.mem_put.mp hj with hj | ⟨hj, hji⟩
    · rcases Table.mem_put.mp hk with hk | ⟨hk, hki⟩
      · exact hj.trans hk.symm
      · exact absurd (hj ▸ hemail.symm) (hne k hk hki).1
    · rcases Table.mem_put.mp hk with hk | ⟨hk, hki⟩
      · exact absurd (hk ▸ hemail) (hne j hj hji).1
      · exact h.emails j hj k hk hemail
  · rw [htable]
    intro j hj k hk u hju hku
    rcases Table.mem_put.mp hj with hj | ⟨hj, hji⟩
    · rcases Table.mem_put.mp hk with hk | ⟨hk, hki⟩
      · exact hj.trans hk.symm
      · exact absurd hku ((hne k hk hki).2 u (hj ▸ hju))
    · rcases Table.mem_put.mp hk with hk | ⟨hk, hki⟩
      · exact absurd hju ((hne j hj hji).2 u (hk ▸ hku))
      · exact h.accounts j hj k hk u hju hku
  · rw [htable, husers]
    intro j hj u hu
    rcases Table.mem_put.mp hj with rfl | ⟨hj, -⟩
    · exact hlinked u hu
    · exact h.linked j hj u hu

/-- A move that leaves the profiles alone. -/
theorem Kept.stay (h : Kept reqs d next loc) (htable : d'.inventors = d.inventors)
    (husers : d'.users = d.users) (hle : next ≤ next')
    (hentitled : Entitled next' d'.inventors (reqs p) l) :
    Kept reqs d' next' (goto loc p l) ∧ Authorised reqs a d d' := by
  refine ⟨⟨fun i hi => ?_, h.identities.congr htable husers,
    forall_goto (P := fun q => Entitled next' d'.inventors (reqs q)) hentitled fun q _ => ?_⟩,
    fun row hrow => Or.inl (htable ▸ hrow), fun row hrow => ?_⟩
  · rw [htable] at hi
    exact Nat.lt_of_lt_of_le (h.numbered i hi) hle
  · rw [htable]
    exact (h.entitled q).mono hle fun row hrow _ => ⟨row, hrow, rfl, rfl⟩
  · rw [htable] at hrow
    exact Or.inl ⟨row, hrow, rfl, rfl⟩

/-- A row that is new, or has the link of the old one. -/
theorem Kept.put (h : Kept reqs d next loc) (hclash : inventorClash d i = false)
    (hlinked : ∀ u, i.userId = some u → (d.users.get? u).isSome)
    (htable : d'.inventors = d.inventors.put i) (husers : d'.users = d.users)
    (hle : next ≤ next') (hbelow : i.id < next')
    (hback : i.id < next → ∃ row ∈ d.inventors, row.id = i.id ∧ row.userId = i.userId)
    (hentitled : Entitled next' d'.inventors (reqs p) l) : Kept reqs d' next' (goto loc p l) := by
  refine ⟨?_, h.identities.put hclash hlinked htable husers,
    forall_goto (P := fun q => Entitled next' d'.inventors (reqs q)) hentitled fun q _ => ?_⟩
  · rw [htable]
    exact below_put h.numbered hle hbelow
  · rw [htable]
    refine (h.entitled q).mono hle fun row' hrow' hlt => ?_
    rcases Table.mem_put.mp hrow' with rfl | ⟨hrow', -⟩
    · exact hback hlt
    · exact ⟨row', hrow', rfl, rfl⟩

/-- A deletion entitles nobody to more. -/
theorem Kept.erase {id : Nat} (h : Kept reqs d next loc)
    (htable : d'.inventors = d.inventors.erase id) (husers : d'.users = d.users)
    (hentitled : Entitled next d'.inventors (reqs p) l) : Kept reqs d' next (goto loc p l) := by
  have hsub : ∀ j ∈ d'.inventors, j ∈ d.inventors := by
    intro j hj
    rw [htable] at hj
    exact (Table.mem_erase.mp hj).1
  exact ⟨fun j hj => h.numbered j (hsub j hj), h.identities.erase htable husers,
    forall_goto (P := fun q => Entitled next d'.inventors (reqs q)) hentitled fun q _ =>
      (h.entitled q).mono (Nat.le_refl _) fun row hrow _ => ⟨row, hsub row hrow, rfl, rfl⟩⟩

/-- **A move of a reference request.** -/
theorem Kept.profileMove (h : Kept reqs d x.nextInventorId loc) (hreq : reqs p = .reference r)
    (hmover : a.mover = some p) (hmove : ProfileMove r d x out) (hd : d' = after d out.1)
    (husers : d'.users = d.users) :
    Kept reqs d' out.2.1.nextInventorId (goto loc p out.2.2) ∧ Authorised reqs a d d' := by
  cases hmove with
  | elsewhere htable hids hentitled =>
    rw [← hd] at htable
    exact h.stay htable husers hids (htable ▸ hreq ▸ hentitled)
  | @inserts user input x' reply now hreq' hnext hclash hlinked =>
    have htable : d'.inventors = d.inventors.put (inventorOf user input x.nextInventorId now) := by
      rw [hd]
      rfl
    have hnew : ∀ row ∈ d.inventors, row.id ≠ x.nextInventorId := fun row hrow =>
      Nat.ne_of_lt (h.numbered row hrow)
    refine ⟨h.put hclash hlinked htable husers ?_ ?_ (fun hlt => absurd hlt (Nat.lt_irrefl _))
      (hreq ▸ entitled_done reply), fun row hrow => Or.inl ?_, fun row hrow => ?_⟩
    · rw [hnext]
      exact Nat.le_succ _
    · rw [hnext]
      exact Nat.lt_succ_self _
    · rw [htable]
      exact Table.mem_put.mpr (Or.inr ⟨hrow, hnew row hrow⟩)
    · rw [htable] at hrow
      rcases Table.mem_put.mp hrow with rfl | ⟨hrow, -⟩
      · exact Or.inr ⟨p, user, input, hmover, hreq' ▸ hreq, rfl⟩
      · exact Or.inl ⟨row, hrow, rfl, rfl⟩
  | @edits user updates row reply hreq' hmay hrow hclash =>
    have htable : d'.inventors = d.inventors.put (editedInventor updates row) := by
      rw [hd]
      rfl
    have hlink : (editedInventor updates row).userId = row.userId := rfl
    refine ⟨h.put hclash (fun u hu => h.identities.linked row hrow u hu) htable husers
      (Nat.le_refl _) (h.numbered row hrow) (fun _ => ⟨row, hrow, rfl, hlink.symm⟩)
      (hreq ▸ entitled_done reply), fun old hold => ?_, fun new hnew => Or.inl ?_⟩
    · by_cases hid : old.id = row.id
      · obtain rfl := Table.eq_of_key hold hrow hid
        have hmem : editedInventor updates old ∈ d'.inventors := by
          rw [htable]
          exact Table.mem_put.mpr (Or.inl rfl)
        exact Or.inr ⟨p, hmover, .edits (hreq.trans (congrArg _ hreq')) hmay hmem⟩
      · rw [htable]
        exact Or.inl (Table.mem_put.mpr (Or.inr ⟨hold, hid⟩))
    · rw [htable] at hnew
      rcases Table.mem_put.mp hnew with rfl | ⟨hnew, -⟩
      · exact ⟨row, hrow, rfl, hlink.symm⟩
      · exact ⟨new, hnew, rfl, rfl⟩
  | @erases admin id ws reply hreq' hadmin htable =>
    rw [← hd] at htable
    refine ⟨h.erase htable husers (hreq ▸ entitled_done reply), fun row hrow => ?_,
      fun row hrow => ?_⟩
    · by_cases hid : row.id = id
      · subst hid
        refine Or.inr ⟨p, hmover, .erases (hreq.trans (congrArg _ hreq')) hadmin fun i hi => ?_⟩
        rw [htable] at hi
        exact (Table.mem_erase.mp hi).2
      · rw [htable]
        exact Or.inl (Table.mem_erase.mpr ⟨hrow, hid⟩)
    · rw [htable] at hrow
      exact Or.inl ⟨row, (Table.mem_erase.mp hrow).1, rfl, rfl⟩

end Kept

/-! ## Runs -/

/-- The invariant of a run: only patent requests are inside the patent machine, and every profile
    belongs to whom it should. -/
structure Inv (reqs : Nat → Request) (σ : State Db Ext Write Loc) : Prop where
  placed : Placed reqs σ
  kept : Kept reqs σ.base.db σ.base.world.nextInventorId σ.loc

section Runs

variable {cfg : Config} {sameName : String → String → Bool} {reqs : Nat → Request}
  {σ σ' : State Db Ext Write Loc} {p : Nat} {a : Act Oracle Upload}

/-- The catalogue writes no account. -/
theorem users_after (ws : List Write) (d : Db) : (after d ws).users = d.users :=
  Writes.keeps Catalogue.apply Db.users fun w _ d => Api.users_catalogue d w

/-- Writes of patent requests leave the profiles alone. -/
theorem inventors_after {ws : List Write} (h : ∀ w ∈ ws, ∃ v, w = .patent v) (d : Db) :
    (after d ws).inventors = d.inventors := by
  refine Writes.keeps Catalogue.apply Db.inventors fun w hw d => ?_
  obtain ⟨v, rfl⟩ := h w hw
  exact (UnderReview.sameReference_after [v] d).inventors

/-- Patent requests write no profile. -/
theorem entitled_patent {next : Nat} {inventors : Table Inventor Inventor.id} {r : Request}
    {l : PatentService.Loc} : Entitled next inventors r (.patent l) := by
  cases r with
  | patent r => trivial
  | reference r => cases r <;> trivial

theorem entitled_failed {next : Nat} {inventors : Table Inventor Inventor.id} {r : Request} :
    Entitled next inventors r .failed := by
  cases r with
  | patent r => trivial
  | reference r => cases r <;> trivial

/-- A patent statement takes no id of an inventor. -/
theorem inventorIds_of_code {l : PatentService.Loc} {f : Oracle → Db → Ext → Outcome}
    (hcode : (catalogue cfg sameName reqs).code p (.patent l) = .stmt f ∨
      (catalogue cfg sameName reqs).code p (.patent l) = .auto f) (o : Oracle) (d : Db) (x : Ext) :
    (f o d x).2.1.nextInventorId = x.nextInventorId := by
  rcases hcode with hcode | hcode
  · obtain ⟨f', -, hf⟩ := Embedding.stmt_inv (T := placed cfg sameName reqs) hcode
    rw [hf]
    rfl
  · obtain ⟨f', -, hf⟩ := Embedding.auto_inv (T := placed cfg sameName reqs) hcode
    rw [hf]
    rfl

/-- A step of a patent request. -/
theorem Inv.patent {b : Base Db Ext Write} {pend : List (Nat × Write)} {l : PatentService.Loc}
    {l' : Loc} (h : Inv reqs σ) (hloc : σ.loc p = .patent l)
    (htable : b.db.inventors = σ.base.db.inventors) (husers : b.db.users = σ.base.db.users)
    (hids : b.world.nextInventorId = σ.base.world.nextInventorId)
    (hentitled : ∀ next inventors, Entitled next inventors (reqs p) l')
    (hpend : ∀ q w, (q, w) ∈ pend → (q, w) ∈ σ.pend ∨ q = p ∧ ∃ v, w = .patent v) :
    Inv reqs ⟨b, pend, goto σ.loc p l'⟩ ∧ Authorised reqs a σ.base.db b.db := by
  obtain ⟨hkept, hauthorised⟩ := h.kept.stay (a := a) (p := p) htable husers
    (Nat.le_of_eq hids.symm) (hentitled _ _)
  exact ⟨⟨h.placed.stay hloc hpend, hkept⟩, hauthorised⟩

/-- A statement of an inventor or category request. -/
theorem Inv.reference {b : Base Db Ext Write} {r : ReferenceRequest} {l : ReferenceLoc}
    {f : Oracle → Db → Ext → Outcome} {o : Oracle} (h : Inv reqs σ)
    (hreq : reqs p = .reference r) (hloc : σ.loc p = .reference l)
    (hcode : referenceCode sameName r l = .auto f) (hmover : a.mover = some p)
    (hdb : b.db = after σ.base.db (f o σ.base.db σ.base.world).1)
    (hworld : b.world = (f o σ.base.db σ.base.world).2.1) :
    Inv reqs ⟨b, σ.pend, goto σ.loc p (f o σ.base.db σ.base.world).2.2⟩ ∧
      Authorised reqs a σ.base.db b.db := by
  have hentitled := h.kept.entitled p
  rw [hreq, hloc] at hentitled
  have hmove := profileMove_of_code o hcode h.kept.numbered hentitled
  obtain ⟨hkept, hauthorised⟩ := h.kept.profileMove hreq hmover hmove hdb
    (hdb ▸ users_after _ _)
  rw [← hworld] at hkept
  refine ⟨⟨h.placed.move (fun l' hl' => ?_) fun q w hw => Or.inl hw, hkept⟩, hauthorised⟩
  obtain ⟨l₂, hl₂⟩ := hmove.loc
  cases hl₂.symm.trans hl'

/-- **Step lemma.** -/
theorem Inv.step (h : Inv reqs σ) (hs : (catalogue cfg sameName reqs).step σ a = some σ') :
    Inv reqs σ' ∧ Authorised reqs a σ.base.db σ'.base.db := by
  have hview : ∀ {p r}, reqs p = .reference r →
      (catalogue cfg sameName reqs).view σ p = σ.base.db := by
    intro p r hreq
    rw [Machine.view, h.placed.own_reference hreq]
    rfl
  cases Machine.effect_of_step _ hs with
  | @stmt p o f hcode hfree =>
    obtain ⟨l, hloc, hex⟩ := Taxonomy.executes_of_code hcode
    rw [hloc] at hcode
    cases hex with
    | stmt hout =>
      have hf := hout o ((catalogue cfg sameName reqs).view σ p) σ.base.world
      obtain ⟨l', hl'⟩ := hf.loc
      refine h.patent hloc rfl rfl (inventorIds_of_code (Or.inl hcode) o _ _)
        (fun _ _ => hl' ▸ entitled_patent) fun q w hw => ?_
      rcases mem_append_writes.mp hw with hw | ⟨rfl, hw⟩
      · exact Or.inl hw
      · exact Or.inr ⟨rfl, hf.writes w hw⟩
  | @read p o f hcode hnone =>
    obtain ⟨l, hloc, hex⟩ := Taxonomy.executes_of_code hcode
    rw [hloc] at hcode
    cases hex with
    | auto hout =>
      have hf := hout o ((catalogue cfg sameName reqs).view σ p) σ.base.world
      obtain ⟨l', hl'⟩ := hf.loc
      exact h.patent hloc rfl rfl (inventorIds_of_code (Or.inr hcode) o _ _)
        (fun _ _ => hl' ▸ entitled_patent) fun q w hw => Or.inl hw
    | reference hreq href =>
      rw [hview hreq] at hnone ⊢
      refine h.reference hreq hloc href rfl ?_ rfl
      rw [hnone]
      rfl
  | @auto p o f hcode hfree hsome =>
    obtain ⟨l, hloc, hex⟩ := Taxonomy.executes_of_code hcode
    rw [hloc] at hcode
    cases hex with
    | auto hout =>
      have hf := hout o ((catalogue cfg sameName reqs).view σ p) σ.base.world
      obtain ⟨l', hl'⟩ := hf.loc
      exact h.patent hloc (inventors_after hf.writes _) (users_after _ _)
        (inventorIds_of_code (Or.inr hcode) o _ _) (fun _ _ => hl' ▸ entitled_patent)
        fun q w hw => Or.inl hw
    | reference hreq href =>
      rw [hview hreq]
      exact h.reference hreq hloc href rfl rfl rfl
  | @commit p o l' hcode =>
    obtain ⟨l, hloc, hex⟩ := Taxonomy.executes_of_code hcode
    cases hex with
    | commit =>
      exact h.patent hloc (inventors_after h.placed.writes _) (users_after _ _) rfl
        (fun _ _ => entitled_patent) Taxonomy.pend_of_drop
  | @rollback p o l' hcode =>
    obtain ⟨l, hloc, hex⟩ := Taxonomy.executes_of_code hcode
    cases hex with
    | rollback =>
      exact h.patent hloc rfl rfl rfl (fun _ _ => entitled_patent) Taxonomy.pend_of_drop
  | @fail p hcode =>
    have hsame : σ.base.db.inventors = σ.base.db.inventors := rfl
    obtain ⟨hkept, hauthorised⟩ := h.kept.stay (p := p) hsame rfl (Nat.le_refl _) entitled_failed
    exact ⟨⟨h.placed.move (fun _ hl => by cases hl) fun q w hw => Or.inl (mem_drop.mp hw).1, hkept⟩,
      hauthorised⟩
  | @env e x henv =>
    obtain ⟨y, -, rfl⟩ := Option.map_eq_some_iff.mp henv
    exact ⟨⟨⟨h.placed.loc, h.placed.pend⟩, h.kept⟩, fun row hrow => Or.inl hrow,
      fun row hrow => Or.inl ⟨row, hrow, rfl, rfl⟩⟩

theorem inv_init (reqs : Nat → Request) (users : Table User User.id) : Inv reqs (init reqs users) := by
  refine ⟨(Taxonomy.inv_init (fun _ _ => false) reqs users).placed,
    fun i hi => (Table.not_mem_empty i hi).elim,
    ⟨fun i hi => (Table.not_mem_empty i hi).elim, fun i hi => (Table.not_mem_empty i hi).elim,
      fun i hi => (Table.not_mem_empty i hi).elim⟩, fun p => ?_⟩
  show Entitled _ _ (reqs p) (startOf (reqs p))
  cases reqs p with
  | patent r => trivial
  | reference r => cases r <;> trivial

/-- **Every run**: two profiles share no email and no account, and every step that touches a profile
    is authorised. -/
theorem profiles_of_run {users : Table User User.id}
    (hrun : Run (catalogue cfg sameName reqs).step always (init reqs users) σ) :
    Identities σ.base.db ∧ ∀ a σ', (catalogue cfg sameName reqs).step σ a = some σ' →
      Authorised reqs a σ.base.db σ'.base.db := by
  have hinv := hrun.invariant (I := Inv reqs) (fun _ _ _ h _ hs => (h.step hs).1)
    (inv_init reqs users)
  exact ⟨hinv.kept.identities, fun a σ' hs => (hinv.step hs).2⟩

end Runs

/-! ## One account, two profiles -/

/-- Ada asks for two profiles at once. -/
def twice : Nat → Request
  | 0 => .reference (.createInventor PatentService.ada ⟨"Ada", "ada@example.com", none, true⟩)
  | _ => .reference (.createInventor PatentService.ada ⟨"Augusta", "augusta@example.com", none, true⟩)

/-- Both look whether the account is linked, then both write. -/
def bothLook : List (Act Oracle Upload) :=
  PatentService.steps 0 2 ++ PatentService.steps 1 2 ++ PatentService.steps 0 1 ++
    PatentService.steps 1 1

theorem bothLook_runs :
    (exec (catalogue PatentService.pdfOnly (· == ·) twice).step
      (init twice PatentService.accounts) bothLook).isSome = true := by
  decide

/-- The second INSERT has been refused. -/
def onlyOne : State Db Ext Write Loc :=
  (exec (catalogue PatentService.pdfOnly (· == ·) twice).step
    (init twice PatentService.accounts) bothLook).get bothLook_runs

/-- Two requests of one user both find no profile: the unique column lets one of them through. -/
theorem profiles_of_bothLook :
    onlyOne.base.db.inventors.rows.map (fun i => (i.userId, i.email)) =
        [(some 1, "ada@example.com")] ∧
      Identities onlyOne.base.db ∧
      ∀ a σ', (catalogue PatentService.pdfOnly (· == ·) twice).step onlyOne a = some σ' →
        Authorised twice a onlyOne.base.db σ'.base.db :=
  ⟨by decide, profiles_of_run (Run.exec_get bothLook_runs)⟩

end SmartPatents.Profiles
