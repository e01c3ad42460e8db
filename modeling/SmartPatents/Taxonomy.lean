/-
  Does the taxonomy have case-duplicates?

  `findByName` compares names ignoring case, and the unique constraint behind it does not.  Lookup
  and write are two statements, so two requests with different spellings of one name can both look,
  both find nothing, and both write (`not_distinct`): a create next to a create, a create next to a
  rename, or two renames.  Identical spellings are harmless, the constraint refuses the second.

  Nothing else goes wrong.  If no name is written while another request is between its lookup and
  its write with a different spelling (`Unrivalled`), no two categories ever have names that are
  equal ignoring case (`distinct_of_run`).  The invariant is what a lookup leaves behind: every
  other row with the name has it in exactly this spelling (`Kept.alone`).

  How the database compares names ignoring case is a parameter (`sameName`), and of it only
  symmetry is used.  Another spelling of a row's own name is no duplicate, as the lookup leaves
  out the row that is to be renamed.

  The condition is sharp: where a name is written next to a rival, the rival is one write away
  from a duplicate (`not_distinct_of_rival`).
-/
import SmartPatents.CatalogueOutline

namespace SmartPatents.Taxonomy

open ReadCommitted Runs Access Storage Catalogue
open PatentService (Oracle Upload uploadFreely)

/-! ## The rule and its condition -/

/-- No two categories have names that are equal ignoring case. -/
def Distinct (sameName : String → String → Bool) (d : Db) : Prop :=
  ∀ c ∈ d.categories, ∀ e ∈ d.categories, sameName c.name e.name = true → c = e

/-- The name that a request writes next, and the row that gets it (`none`: a new one). -/
def pending : Request → Loc → Option (String × Option Nat)
  | .reference (.createCategory _ name), .reference .insertCategory => some (name, none)
  | .reference (.updateCategory _ id name), .reference .updateCategory => some (name, some id)
  | _, _ => none

/-- The row that is to be renamed is still there. -/
def Live (d : Db) (target : Option Nat) : Prop :=
  ∀ id, target = some id → (d.categories.get? id).isSome

/-- The database accepts the write of a name. -/
structure Lands (d : Db) (name : String) (target : Option Nat) : Prop where
  live : Live d target
  free : ∀ e ∈ d.categories, target ≠ some e.id → e.name ≠ name

/-- Nobody else is about to give another row a different spelling of the name. -/
def Unrivalled (sameName : String → String → Bool) (reqs : Nat → Request)
    (σ : State Db Ext Write Loc) : Act Oracle Upload → Prop
  | .run p _ => ∀ n t, pending (reqs p) (σ.loc p) = some (n, t) → Lands σ.base.db n t →
      ∀ q m u, q ≠ p → pending (reqs q) (σ.loc q) = some (m, u) → Live σ.base.db u →
        (∀ id, t = some id → u ≠ some id) → sameName n m = true → n = m
  | _ => True

/-- The category that a rename refers to, once it has been found. -/
def target : Request → Loc → Option Nat
  | .reference (.updateCategory _ id _), .reference .nameClash => some id
  | .reference (.updateCategory _ id _), .reference .updateCategory => some id
  | _, _ => none

/-! ## What a statement does to the categories -/

section Moves

variable {sameName : String → String → Bool} {reqs : Nat → Request} {p : Nat}
  {r : ReferenceRequest} {d : Db} {x x' : Ext} {l : ReferenceLoc}

/-- A location from which no name is written. -/
structure Silent (r : Request) (l : Loc) : Prop where
  pending : pending r l = none
  target : target r l = none

/-- A name that is about to be written aims at the row it is for. -/
theorem target_of_pending {r : Request} {l : Loc} {n : String} {id : Nat}
    (h : pending r l = some (n, some id)) : target r l = some id := by
  unfold pending at h
  split at h
  · cases h
  · simp only [Option.some.injEq, Prod.mk.injEq] at h
    rw [target, h.2]
  · cases h

/-- The statements of a reference request, as far as categories are concerned. -/
inductive CategoryMove (sameName : String → String → Bool) (r : ReferenceRequest)
    (l : ReferenceLoc) (d : Db) (x : Ext) : Outcome → Prop
  | elsewhere {ws x' l'} (htable : (after d ws).categories = d.categories)
      (hids : x.nextCategoryId ≤ x'.nextCategoryId)
      (hsilent : Silent (.reference r) (.reference l')) :
      CategoryMove sameName r l d x (ws, x', .reference l')
  | finds {id l'} (hnone : pending (.reference r) (.reference l') = none)
      (htarget : target (.reference r) (.reference l') = some id)
      (hrow : (d.categories.get? id).isSome) :
      CategoryMove sameName r l d x ([], x, .reference l')
  | looks {name t l'} (hpending : pending (.reference r) (.reference l') = some (name, t))
      (htarget : target (.reference r) (.reference l') = target (.reference r) (.reference l))
      (hfree : ∀ e ∈ d.categories, t ≠ some e.id → sameName e.name name = false) :
      CategoryMove sameName r l d x ([], x, .reference l')
  | writes {name t c ws x' reply}
      (hpending : pending (.reference r) (.reference l) = some (name, t)) (hname : c.name = name)
      (hlands : Lands d name t) (hid : t = some c.id ∨ t = none ∧ c.id = x.nextCategoryId)
      (htable : (after d ws).categories = d.categories.put c)
      (hids : x.nextCategoryId ≤ x'.nextCategoryId) (hbelow : c.id < x'.nextCategoryId) :
      CategoryMove sameName r l d x (ws, x', .reference (.done reply))
  | erases {id ws reply} (htable : (after d ws).categories = d.categories.erase id) :
      CategoryMove sameName r l d x (ws, x, .reference (.done reply))

/-- A request that has replied is about to write nothing. -/
theorem silent_done (reply : Reply) : Silent (.reference r) (.reference (.done reply)) := by
  cases r <;> exact ⟨rfl, rfl⟩

/-- Throwing leaves the categories alone. -/
theorem categoryMove_throw (e : AppError) : CategoryMove sameName r l d x (throw_ x e) :=
  .elsewhere rfl (Nat.le_refl _) (silent_done _)

theorem categoryMove_violates (hids : x.nextCategoryId ≤ x'.nextCategoryId) (code : String) :
    CategoryMove sameName r l d x (violates x' code) :=
  .elsewhere rfl hids (silent_done _)

/-- The check of the role only stands in front. -/
theorem categoryMove_requireAdmin {admin : Caller} {out : Outcome}
    (hout : CategoryMove sameName r l d x out) :
    CategoryMove sameName r l d x (requireAdmin admin x out) := by
  unfold requireAdmin
  split
  · exact hout
  · exact categoryMove_throw _

/-- A lookup that finds nothing. -/
theorem categoryMove_assertNameFree {name : String} {t : Option Nat} {next : ReferenceLoc}
    (hpending : pending (.reference r) (.reference next) = some (name, t))
    (htarget : target (.reference r) (.reference next) = target (.reference r) (.reference l)) :
    CategoryMove sameName r l d x (assertNameFree sameName name t next d x) := by
  unfold assertNameFree
  split
  · exact categoryMove_throw _
  · rename_i hnone
    refine .looks hpending htarget fun e he hne => ?_
    have hno := Table.find?_none hnone e he
    have hexcluded : (t != some e.id) = true := by simpa using hne
    simpa [hexcluded] using hno

/-- A statement that only reads leaves them alone too. -/
theorem categoryMove_goOn (hsilent : Silent (.reference r) (.reference l)) {l' : ReferenceLoc} :
    CategoryMove sameName r l' d x (goOn x l) :=
  .elsewhere rfl (Nat.le_refl _) hsilent

/-- The first statement of a request. -/
theorem categoryMove_start : CategoryMove sameName r .start d x (start sameName r d x) := by
  cases r with
  | createInventor user input =>
    simp only [start, createInventor]
    split
    · exact categoryMove_throw _
    · split
      · exact categoryMove_goOn ⟨rfl, rfl⟩
      · exact categoryMove_goOn ⟨rfl, rfl⟩
  | updateInventor user id updates =>
    simp only [start, updateInventor]
    split
    · exact categoryMove_throw _
    · split
      · exact categoryMove_throw _
      · split
        · exact categoryMove_goOn ⟨rfl, rfl⟩
        · exact categoryMove_goOn ⟨rfl, rfl⟩
  | deleteInventor admin id =>
    refine categoryMove_requireAdmin ?_
    unfold deleteInventor
    split
    · exact categoryMove_throw _
    · exact categoryMove_goOn ⟨rfl, rfl⟩
  | createCategory admin name =>
    exact categoryMove_requireAdmin (categoryMove_assertNameFree rfl rfl)
  | updateCategory admin id name =>
    refine categoryMove_requireAdmin ?_
    unfold getCategoryById
    split
    · exact categoryMove_throw _
    · rename_i row hrow
      have hsome : (d.categories.get? id).isSome := by rw [hrow]; rfl
      exact .finds rfl rfl hsome
  | deleteCategory admin id =>
    refine categoryMove_requireAdmin ?_
    unfold getCategoryById
    split
    · exact categoryMove_throw _
    · exact categoryMove_goOn ⟨rfl, rfl⟩

/-- A new row needs no old one. -/
theorem live_none : Live d none := fun id hid => by cases hid

/-- The unique constraint, read as a condition on the rows. -/
theorem free_of_categoryClash {c : Category} (hclash : ¬ categoryClash d c = true) :
    ∀ e ∈ d.categories, e.id ≠ c.id → e.name ≠ c.name := by
  intro e he hid hname
  refine hclash (List.any_eq_true.mpr ⟨e, he, ?_⟩)
  simp [hid, hname]

/-- An INSERT writes the name that was checked, under an id beyond all others. -/
theorem categoryMove_insert {admin : Caller} {name : String}
    (hnumbered : ∀ c ∈ d.categories, c.id < x.nextCategoryId) :
    CategoryMove sameName (.createCategory admin name) .insertCategory d x
      (insertCategory name d x) := by
  unfold insertCategory
  dsimp only
  split
  · exact categoryMove_violates (Nat.le_succ _) _
  · rename_i hclash
    have hfree : ∀ e ∈ d.categories, none ≠ some e.id → e.name ≠ name := fun e he _ =>
      free_of_categoryClash hclash e he (Nat.ne_of_lt (hnumbered e he))
    exact .writes rfl rfl ⟨live_none, hfree⟩ (Or.inr ⟨rfl, rfl⟩) rfl (Nat.le_succ _)
      (Nat.lt_succ_self _)

/-- An UPDATE writes the name that was checked, into its own row. -/
theorem categoryMove_write {admin : Caller} {id : Nat} {name : String}
    (hnumbered : ∀ c ∈ d.categories, c.id < x.nextCategoryId) :
    CategoryMove sameName (.updateCategory admin id name) .updateCategory d x
      (writeCategory id name d x) := by
  unfold writeCategory
  split
  · exact categoryMove_violates (Nat.le_refl _) _
  · rename_i row hrow
    obtain ⟨hmem, rfl⟩ := Table.get?_eq_some.mp hrow
    dsimp only
    split
    · exact categoryMove_violates (Nat.le_refl _) _
    · rename_i hclash
      have hlive : Live d (some row.id) := by
        intro id hid
        rw [← Option.some.inj hid, hrow]
        rfl
      have hfree : ∀ e ∈ d.categories, some row.id ≠ some e.id → e.name ≠ name :=
        fun e he hne => free_of_categoryClash hclash e he fun hid => hne (congrArg some hid.symm)
      exact .writes (c := { row with name := name }) rfl rfl ⟨hlive, hfree⟩ (Or.inl rfl) rfl
        (Nat.le_refl _) (hnumbered row hmem)

/-- A DELETE writes no name. -/
theorem categoryMove_erase {admin : Caller} {id : Nat} :
    CategoryMove sameName (.deleteCategory admin id) .deleteCategory d x
      (eraseCategory id d x) := by
  unfold eraseCategory
  split
  · exact categoryMove_violates (Nat.le_refl _) _
  · rename_i row hrow
    exact .erases (tables_of_cascade d id row).2.1

/-- The inventors have nothing to do with it. -/
theorem categoryMove_insertInventor {user : Caller} {input : InventorInput} {o : Oracle} :
    CategoryMove sameName (.createInventor user input) l d x (insertInventor user input o d x) := by
  have hids : x.nextCategoryId ≤
      { x with nextInventorId := x.nextInventorId + 1 }.nextCategoryId := Nat.le_refl _
  unfold insertInventor
  dsimp only
  split
  · exact categoryMove_violates hids _
  · split
    · exact categoryMove_violates hids _
    · exact .elsewhere rfl (Nat.le_refl _) ⟨rfl, rfl⟩

theorem categoryMove_writeInventor {user : Caller} {id : Nat} {updates : InventorUpdates} :
    CategoryMove sameName (.updateInventor user id updates) l d x (writeInventor id updates d x) := by
  unfold writeInventor
  split
  · exact categoryMove_violates (Nat.le_refl _) _
  · dsimp only
    split
    · exact categoryMove_violates (Nat.le_refl _) _
    · exact .elsewhere rfl (Nat.le_refl _) ⟨rfl, rfl⟩

/-- The credits that go along with an inventor are no categories. -/
theorem categoryMove_eraseInventor {admin : Caller} {id : Nat} :
    CategoryMove sameName (.deleteInventor admin id) l d x (eraseInventor id d x) := by
  unfold eraseInventor
  split
  · exact categoryMove_violates (Nat.le_refl _) _
  · rename_i row hrow
    refine .elsewhere (Writes.keeps Catalogue.apply Db.categories fun w hw d => ?_) (Nat.le_refl _)
      ⟨rfl, rfl⟩
    rcases List.mem_append.mp hw with hw | hw
    · obtain ⟨l, -, rfl⟩ := List.mem_map.mp hw
      rfl
    · rw [List.mem_singleton.mp hw]
      rfl

/-- **Every statement of a reference request is one of these moves.** -/
theorem categoryMove_of_code {f : Oracle → Db → Ext → Outcome} (o : Oracle)
    (hcode : referenceCode sameName r l = .auto f)
    (hnumbered : ∀ c ∈ d.categories, c.id < x.nextCategoryId) :
    CategoryMove sameName r l d x (f o d x) := by
  cases l with
  | start =>
    have hf : (fun _ d x => start sameName r d x) = f := by
      cases r <;> exact Instr.auto.inj hcode
    subst hf
    exact categoryMove_start
  | accountLinked =>
    cases r with
    | createInventor user input =>
      obtain rfl := Instr.auto.inj hcode
      dsimp only [accountLinked]
      split
      · exact categoryMove_throw _
      · exact categoryMove_goOn ⟨rfl, rfl⟩
    | _ => cases hcode
  | insertInventor =>
    cases r with
    | createInventor user input =>
      obtain rfl := Instr.auto.inj hcode
      exact categoryMove_insertInventor
    | _ => cases hcode
  | emailClash =>
    cases r with
    | updateInventor user id updates =>
      obtain rfl := Instr.auto.inj hcode
      dsimp only [emailClash]
      split
      · exact categoryMove_throw _
      · exact categoryMove_goOn ⟨rfl, rfl⟩
    | _ => cases hcode
  | updateInventor =>
    cases r with
    | updateInventor user id updates =>
      obtain rfl := Instr.auto.inj hcode
      exact categoryMove_writeInventor
    | _ => cases hcode
  | countCredits =>
    cases r with
    | deleteInventor admin id =>
      obtain rfl := Instr.auto.inj hcode
      dsimp only [countCredits]
      split
      · exact categoryMove_throw _
      · exact categoryMove_goOn ⟨rfl, rfl⟩
    | _ => cases hcode
  | deleteInventor =>
    cases r with
    | deleteInventor admin id =>
      obtain rfl := Instr.auto.inj hcode
      exact categoryMove_eraseInventor
    | _ => cases hcode
  | insertCategory =>
    cases r with
    | createCategory admin name =>
      obtain rfl := Instr.auto.inj hcode
      exact categoryMove_insert hnumbered
    | _ => cases hcode
  | nameClash =>
    cases r with
    | updateCategory admin id name =>
      obtain rfl := Instr.auto.inj hcode
      exact categoryMove_assertNameFree rfl rfl
    | _ => cases hcode
  | updateCategory =>
    cases r with
    | updateCategory admin id name =>
      obtain rfl := Instr.auto.inj hcode
      exact categoryMove_write hnumbered
    | _ => cases hcode
  | deleteCategory =>
    cases r with
    | deleteCategory admin id =>
      obtain rfl := Instr.auto.inj hcode
      exact categoryMove_erase
    | _ => cases hcode
  | done reply => cases r <;> cases hcode

end Moves

/-! ## What a lookup leaves behind -/

/-- A request that has looked knows how every other row spells its name. -/
def Knows (sameName : String → String → Bool) (d : Db) (r : Request) (l : Loc) : Prop :=
  ∀ n t, pending r l = some (n, t) → Live d t →
    ∀ e ∈ d.categories, t ≠ some e.id → sameName e.name n = true → e.name = n

/-- The row of a rename has had its id from the sequence. -/
def Aims (next : Nat) (r : Request) (l : Loc) : Prop := ∀ id, target r l = some id → id < next

/-- **The invariant.** -/
structure Kept (sameName : String → String → Bool) (reqs : Nat → Request) (d : Db) (next : Nat)
    (loc : Nat → Loc) : Prop where
  numbered : ∀ c ∈ d.categories, c.id < next
  distinct : Distinct sameName d
  aims : ∀ p, Aims next (reqs p) (loc p)
  knows : ∀ p, Knows sameName d (reqs p) (loc p)

section Kept

variable {sameName : String → String → Bool} {reqs : Nat → Request} {d d' : Db} {next next' : Nat}
  {loc : Nat → Loc} {p : Nat} {r : Request} {l : Loc}

/-- What is known of a row depends on the table only. -/
theorem Live.congr {t : Option Nat} (h : Live d' t) (htable : d'.categories = d.categories) :
    Live d t := by
  intro id hid
  rw [← htable]
  exact h id hid

theorem Distinct.congr (h : Distinct sameName d) (htable : d'.categories = d.categories) :
    Distinct sameName d' := by
  rw [Distinct, htable]
  exact h

theorem Knows.congr (h : Knows sameName d r l) (htable : d'.categories = d.categories) :
    Knows sameName d' r l := by
  intro n t hp hlive
  rw [htable]
  exact h n t hp (hlive.congr htable)

/-- An id below the sequence stays below. -/
theorem Aims.mono (h : Aims next r l) (hnext : next ≤ next') : Aims next' r l :=
  fun id hid => Nat.lt_of_lt_of_le (h id hid) hnext

/-- Who is about to write nothing needs to know nothing. -/
theorem Silent.knows (h : Silent r l) : Knows sameName d r l := by
  intro n t hp
  rw [h.pending] at hp
  cases hp

theorem Silent.aims (h : Silent r l) : Aims next r l := by
  intro id hid
  rw [h.target] at hid
  cases hid

/-- A step that leaves the categories alone. -/
theorem Kept.move (h : Kept sameName reqs d next loc) (htable : d'.categories = d.categories)
    (hnext : next ≤ next') (haims : Aims next' (reqs p) l) (hknows : Knows sameName d' (reqs p) l) :
    Kept sameName reqs d' next' (goto loc p l) where
  numbered := by
    rw [htable]
    exact fun c hc => Nat.lt_of_lt_of_le (h.numbered c hc) hnext
  distinct := h.distinct.congr htable
  aims := forall_goto (P := fun q => Aims next' (reqs q)) haims fun q _ => (h.aims q).mono hnext
  knows := forall_goto (P := fun q => Knows sameName d' (reqs q)) hknows
    fun q _ => (h.knows q).congr htable

/-- A DELETE takes a row away, and no id comes back. -/
theorem Kept.erase {id : Nat} (h : Kept sameName reqs d next loc)
    (htable : d'.categories = d.categories.erase id) (hl : Silent (reqs p) l) :
    Kept sameName reqs d' next (goto loc p l) := by
  have hback : ∀ e ∈ d'.categories, e ∈ d.categories := by
    rw [htable]
    exact fun e he => (Table.mem_erase.mp he).1
  have hlive : ∀ {t}, Live d' t → Live d t := by
    intro t ht i hi
    obtain ⟨e, he⟩ := Option.isSome_iff_exists.mp (ht i hi)
    obtain ⟨hmem, hkey⟩ := Table.get?_eq_some.mp he
    have hrow : d.categories.get? i = some e := Table.get?_eq_some.mpr ⟨hback e hmem, hkey⟩
    rw [hrow]
    rfl
  refine ⟨fun c hc => h.numbered c (hback c hc), ?_, ?_, ?_⟩
  · exact fun c hc e he => h.distinct c (hback c hc) e (hback e he)
  · exact forall_goto (P := fun q => Aims next (reqs q)) hl.aims fun q _ => h.aims q
  · refine forall_goto (P := fun q => Knows sameName d' (reqs q)) hl.knows fun q _ => ?_
    exact fun n t hp ht e he => h.knows q n t hp (hlive ht) e (hback e he)

/-- **A write of a name.**  The writer knows every spelling but the one that the constraint has
    refused; the others keep what they know, unless they are rivals. -/
theorem Kept.put {name : String} {t : Option Nat} {c : Category}
    (hsymm : ∀ a b, sameName a b = true → sameName b a = true)
    (h : Kept sameName reqs d next loc) (htable : d'.categories = d.categories.put c)
    (hnext : next ≤ next') (hbelow : c.id < next') (hname : c.name = name)
    (hpending : pending (reqs p) (loc p) = some (name, t)) (hlands : Lands d name t)
    (hid : t = some c.id ∨ t = none ∧ c.id = next)
    (hrival : ∀ q m u, q ≠ p → pending (reqs q) (loc q) = some (m, u) → Live d u →
      (∀ id, t = some id → u ≠ some id) → sameName name m = true → name = m)
    (hl : Silent (reqs p) l) : Kept sameName reqs d' next' (goto loc p l) := by
  have hrows : ∀ e ∈ d'.categories, e = c ∨ e ∈ d.categories ∧ e.id ≠ c.id := by
    rw [htable]
    exact fun e he => Table.mem_put.mp he
  -- a row other than the one written is not the target
  have hother : ∀ e ∈ d.categories, e.id ≠ c.id → t ≠ some e.id := by
    rintro e he hne rfl
    rcases hid with heq | ⟨hnone, -⟩
    · exact hne (Option.some.inj heq)
    · cases hnone
  have hclean : ∀ e ∈ d.categories, e.id ≠ c.id → sameName e.name c.name = true → False := by
    intro e he hne hsame
    have hdiffer := hlands.free e he (hother e he hne)
    exact hdiffer (h.knows p name t hpending hlands.live e he (hother e he hne) (hname ▸ hsame))
  refine ⟨fun e he => ?_, fun e he e' he' hsame => ?_, ?_, ?_⟩
  · rcases hrows e he with rfl | ⟨he, -⟩
    · exact hbelow
    · exact Nat.lt_of_lt_of_le (h.numbered e he) hnext
  · rcases hrows e he with rfl | ⟨he, hne⟩
    · rcases hrows e' he' with rfl | ⟨he', hne'⟩
      · rfl
      · exact (hclean e' he' hne' (hsymm _ _ hsame)).elim
    · rcases hrows e' he' with rfl | ⟨he', hne'⟩
      · exact (hclean e he hne hsame).elim
      · exact h.distinct e he e' he' hsame
  · exact forall_goto (P := fun q => Aims next' (reqs q)) hl.aims fun q _ => (h.aims q).mono hnext
  · refine forall_goto (P := fun q => Knows sameName d' (reqs q)) hl.knows fun q hq => ?_
    intro m u hp hlive e he hne hsame
    -- a row that the other request renames and that is there now was there before
    have hlive' : Live d u := by
      rintro i rfl
      obtain ⟨e, he⟩ := Option.isSome_iff_exists.mp (hlive i rfl)
      obtain ⟨hmem, rfl⟩ := Table.get?_eq_some.mp he
      have hlt := h.aims q e.id (target_of_pending hp)
      rcases hrows e hmem with rfl | ⟨hmem, -⟩
      · rcases hid with rfl | ⟨-, hfresh⟩
        · exact hlands.live e.id rfl
        · exact absurd hfresh (Nat.ne_of_lt hlt)
      · rw [Table.get?_of_mem hmem]
        rfl
    rcases hrows e he with rfl | ⟨he, -⟩
    · -- the row just written
      have happart : ∀ id, t = some id → u ≠ some id := by
        rintro id rfl
        rcases hid with heq | ⟨hnone, -⟩
        · exact Option.some.inj heq ▸ hne
        · cases hnone
      exact hname.trans (hrival q m u hq hp hlive' happart (hname ▸ hsame))
    · exact h.knows q m u hp hlive' e he hne hsame

/-- **Step lemma**, for a statement of a category request. -/
theorem Kept.categoryMove {r : ReferenceRequest} {l : ReferenceLoc} {x : Ext} {out : Outcome}
    (hsymm : ∀ a b, sameName a b = true → sameName b a = true)
    (h : Kept sameName reqs d x.nextCategoryId loc) (hreq : reqs p = .reference r)
    (hloc : loc p = .reference l) (hmove : CategoryMove sameName r l d x out)
    (hrival : ∀ n t, pending (reqs p) (loc p) = some (n, t) → Lands d n t →
      ∀ q m u, q ≠ p → pending (reqs q) (loc q) = some (m, u) → Live d u →
        (∀ id, t = some id → u ≠ some id) → sameName n m = true → n = m) :
    Kept sameName reqs (after d out.1) out.2.1.nextCategoryId (goto loc p out.2.2) := by
  have hdone : ∀ reply, Silent (reqs p) (.reference (.done reply)) := by
    intro reply
    rw [hreq]
    exact silent_done reply
  cases hmove with
  | elsewhere htable hids hsilent =>
    rw [← hreq] at hsilent
    exact h.move htable hids hsilent.aims hsilent.knows
  | @finds id l' hnone htarget hrow =>
    obtain ⟨row, hrow⟩ := Option.isSome_iff_exists.mp hrow
    obtain ⟨hmem, hkey⟩ := Table.get?_eq_some.mp hrow
    refine h.move rfl (Nat.le_refl _) (fun i hi => ?_) fun n t hp => ?_
    · rw [hreq, htarget] at hi
      rw [← Option.some.inj hi, ← hkey]
      exact h.numbered row hmem
    · rw [hreq, hnone] at hp
      cases hp
  | @looks name t l' hpending htarget hfree =>
    refine h.move rfl (Nat.le_refl _) (fun i hi => ?_) fun n u hp hlive e he hne hsame => ?_
    · rw [hreq, htarget, ← hreq, ← hloc] at hi
      exact h.aims p i hi
    · rw [hreq, hpending] at hp
      obtain ⟨rfl, rfl⟩ := Prod.mk.inj (Option.some.inj hp)
      rw [hfree e he hne] at hsame
      cases hsame
  | writes hpending hname hlands hid htable hids hbelow =>
    rw [← hreq, ← hloc] at hpending
    exact h.put hsymm htable hids hbelow hname hpending hlands hid (hrival _ _ hpending hlands)
      (hdone _)
  | erases htable => exact h.erase htable (hdone _)

end Kept

/-! ## Runs -/

/-- Only patent requests keep a transaction open, and they write no category in it. -/
structure Placed (reqs : Nat → Request) (σ : State Db Ext Write Loc) : Prop where
  loc : ∀ p l, σ.loc p = .patent l → IsPatent reqs p
  pend : ∀ p w, (p, w) ∈ σ.pend → IsPatent reqs p ∧ ∃ v, w = .patent v

section Runs

variable {cfg : Config} {sameName : String → String → Bool} {reqs : Nat → Request}
  {σ σ' : State Db Ext Write Loc} {p : Nat} {o : Oracle}

/-- What a patent statement may lead to. -/
structure PatentOutcome (x : Ext) (out : Outcome) : Prop where
  writes : ∀ w ∈ out.1, ∃ v, w = .patent v
  ids : out.2.1.nextCategoryId = x.nextCategoryId
  loc : ∃ l, out.2.2 = .patent l

/-- A statement of the patents writes patents and goes to a location of theirs. -/
theorem patentOutcome_outcome (x : Ext)
    (out : List PatentService.Write × PatentService.Ext × PatentService.Loc) :
    PatentOutcome x ((placed cfg sameName reqs).outcome x out) where
  writes := by
    intro w hw
    obtain ⟨v, -, rfl⟩ := List.mem_map.mp hw
    exact ⟨v, rfl⟩
  ids := rfl
  loc := ⟨out.2.2, rfl⟩

/-- **The code of the catalogue**, instruction by instruction: a patent request stays with the
    patent service, and the others open no transaction. -/
inductive Executes (sameName : String → String → Bool) (reqs : Nat → Request) (p : Nat) :
    Loc → Instr Db Ext Write Oracle Loc → Prop
  | stmt {l f} (hout : ∀ o d x, PatentOutcome x (f o d x)) :
      Executes sameName reqs p (.patent l) (.stmt f)
  | auto {l f} (hout : ∀ o d x, PatentOutcome x (f o d x)) :
      Executes sameName reqs p (.patent l) (.auto f)
  | commit {l l'} : Executes sameName reqs p (.patent l) (.commit (.patent l'))
  | rollback {l l'} : Executes sameName reqs p (.patent l) (.rollback (.patent l'))
  | reference {r l f} (hreq : reqs p = .reference r) (hcode : referenceCode sameName r l = .auto f) :
      Executes sameName reqs p (.reference l) (.auto f)
  | halt {l} : Executes sameName reqs p l .halt

/-- Every statement of the catalogue, with what it does to the categories. -/
theorem executes (cfg : Config) (sameName : String → String → Bool) (reqs : Nat → Request) (p : Nat)
    (l : Loc) : Executes sameName reqs p l ((catalogue cfg sameName reqs).code p l) := by
  cases l with
  | patent l =>
    cases hcode : (catalogue cfg sameName reqs).code p (.patent l) with
    | stmt f =>
      obtain ⟨f', -, hf⟩ := Embedding.stmt_inv (T := placed cfg sameName reqs) hcode
      refine .stmt fun o d x => ?_
      rw [hf]
      exact patentOutcome_outcome x _
    | auto f =>
      obtain ⟨f', -, hf⟩ := Embedding.auto_inv (T := placed cfg sameName reqs) hcode
      refine .auto fun o d x => ?_
      rw [hf]
      exact patentOutcome_outcome x _
    | commit l' =>
      obtain ⟨l₂, -, rfl⟩ := Embedding.commit_inv (T := placed cfg sameName reqs) hcode
      exact .commit
    | rollback l' =>
      obtain ⟨l₂, -, rfl⟩ := Embedding.rollback_inv (T := placed cfg sameName reqs) hcode
      exact .rollback
    | halt => exact .halt
  | reference l =>
    show Executes sameName reqs p (.reference l) (code cfg sameName reqs p (.reference l))
    cases hreq : reqs p with
    | patent r =>
      rw [code, hreq]
      exact .halt
    | reference r =>
      rw [code, hreq]
      have hcases : (∃ f, referenceCode sameName r l = .auto f) ∨
          referenceCode sameName r l = .halt := referenceCode_cases r l
      rcases hcases with ⟨f, hf⟩ | hhalt
      · show Executes sameName reqs p (.reference l) (referenceCode sameName r l)
        rw [hf]
        exact .reference hreq hf
      · show Executes sameName reqs p (.reference l) (referenceCode sameName r l)
        rw [hhalt]
        exact .halt
  | failed => exact .halt

/-- What the next instruction of a process is, together with where the process is. -/
theorem executes_of_code {σ : State Db Ext Write Loc} {p : Nat}
    {i : Instr Db Ext Write Oracle Loc}
    (hcode : (catalogue cfg sameName reqs).code p (σ.loc p) = i) :
    ∃ l, σ.loc p = l ∧ Executes sameName reqs p l i :=
  ⟨_, rfl, hcode ▸ executes cfg sameName reqs p (σ.loc p)⟩

/-- Writes of patent requests leave the categories alone. -/
theorem categories_after {ws : List Write} (h : ∀ w ∈ ws, ∃ v, w = .patent v) (d : Db) :
    (after d ws).categories = d.categories := by
  refine Writes.keeps Catalogue.apply Db.categories fun w hw d => ?_
  obtain ⟨v, rfl⟩ := h w hw
  exact (UnderReview.sameReference_after [v] d).categories

theorem silent_patent {r : Request} {l : PatentService.Loc} : Silent r (.patent l) := by
  cases r with
  | patent r => exact ⟨rfl, rfl⟩
  | reference r => cases r <;> exact ⟨rfl, rfl⟩

theorem silent_failed {r : Request} : Silent r .failed := by
  cases r with
  | patent r => exact ⟨rfl, rfl⟩
  | reference r => cases r <;> exact ⟨rfl, rfl⟩

/-- The writes of a patent transaction are writes of patents. -/
theorem Placed.writes (h : Placed reqs σ) : ∀ w ∈ own p σ.pend, ∃ v, w = .patent v :=
  fun w hw => (h.pend p w (mem_own.mp hw)).2

/-- A reference request has nothing pending: its statements are their own transactions. -/
theorem Placed.own_reference {r : ReferenceRequest} (h : Placed reqs σ)
    (hreq : reqs p = .reference r) : own p σ.pend = [] := by
  refine List.eq_nil_iff_forall_not_mem.mpr fun w hw => ?_
  obtain ⟨⟨r', hr'⟩, -⟩ := h.pend p w (mem_own.mp hw)
  rw [hreq] at hr'
  cases hr'

/-- What the invariant says of a state. -/
structure Inv (sameName : String → String → Bool) (reqs : Nat → Request)
    (σ : State Db Ext Write Loc) : Prop where
  placed : Placed reqs σ
  kept : Kept sameName reqs σ.base.db σ.base.world.nextCategoryId σ.loc

/-- A step keeps requests and locations of one kind together. -/
theorem Placed.move {b : Base Db Ext Write} {pend : List (Nat × Write)} {l : Loc}
    (h : Placed reqs σ) (hl : ∀ l', l = .patent l' → IsPatent reqs p)
    (hpend : ∀ q w, (q, w) ∈ pend → (q, w) ∈ σ.pend ∨ IsPatent reqs q ∧ ∃ v, w = .patent v) :
    Placed reqs ⟨b, pend, goto σ.loc p l⟩ where
  loc := forall_goto (P := fun q (m : Loc) => ∀ l', m = .patent l' → IsPatent reqs q) hl
    fun q _ => h.loc q
  pend := fun q w hw => (hpend q w hw).elim (h.pend q w) id

/-- Whoever is with the patent service stays there. -/
theorem Placed.stay {b : Base Db Ext Write} {pend : List (Nat × Write)} {l : PatentService.Loc}
    {l' : Loc} (h : Placed reqs σ) (hloc : σ.loc p = .patent l)
    (hpend : ∀ q w, (q, w) ∈ pend → (q, w) ∈ σ.pend ∨ q = p ∧ ∃ v, w = .patent v) :
    Placed reqs ⟨b, pend, goto σ.loc p l'⟩ := by
  have hpatent := h.loc p l hloc
  refine h.move (fun _ _ => hpatent) fun q w hw => ?_
  rcases hpend q w hw with hw | ⟨rfl, hv⟩
  · exact Or.inl hw
  · exact Or.inr ⟨hpatent, hv⟩

/-- What a rollback leaves pending was pending before, in the form `Placed.move` asks for. -/
theorem pend_of_drop {pend : List (Nat × Write)} (q : Nat) (w : Write)
    (hw : (q, w) ∈ drop p pend) : (q, w) ∈ pend ∨ q = p ∧ ∃ v, w = .patent v :=
  Or.inl (mem_drop.mp hw).1

/-- A step of a patent request. -/
theorem Inv.patent {b : Base Db Ext Write} {pend : List (Nat × Write)} {l : PatentService.Loc}
    {l' : Loc} (h : Inv sameName reqs σ) (hloc : σ.loc p = .patent l)
    (htable : b.db.categories = σ.base.db.categories)
    (hids : b.world.nextCategoryId = σ.base.world.nextCategoryId) (hsilent : Silent (reqs p) l')
    (hpend : ∀ q w, (q, w) ∈ pend → (q, w) ∈ σ.pend ∨ q = p ∧ ∃ v, w = .patent v) :
    Inv sameName reqs ⟨b, pend, goto σ.loc p l'⟩ where
  placed := h.placed.stay hloc hpend
  kept := h.kept.move htable (Nat.le_of_eq hids.symm) hsilent.aims hsilent.knows

/-- A statement of a category or inventor request. -/
theorem Inv.reference {b : Base Db Ext Write} {r : ReferenceRequest} {l : ReferenceLoc}
    {out : Outcome} (hsymm : ∀ a b, sameName a b = true → sameName b a = true)
    (h : Inv sameName reqs σ) (hok : Unrivalled sameName reqs σ (.run p o))
    (hreq : reqs p = .reference r) (hloc : σ.loc p = .reference l)
    (hmove : CategoryMove sameName r l σ.base.db σ.base.world out)
    (hdb : b.db = after σ.base.db out.1) (hworld : b.world = out.2.1) :
    Inv sameName reqs ⟨b, σ.pend, goto σ.loc p out.2.2⟩ where
  placed := by
    refine h.placed.move (fun l' hl' => ?_) fun q w hw => Or.inl hw
    cases hmove <;> cases hl'
  kept := by
    show Kept sameName reqs b.db b.world.nextCategoryId (goto σ.loc p out.2.2)
    rw [hdb, hworld]
    exact h.kept.categoryMove hsymm hreq hloc hmove hok

/-- **Step lemma.** -/
theorem Inv.step {a : Act Oracle Upload}
    (hsymm : ∀ a b, sameName a b = true → sameName b a = true) (h : Inv sameName reqs σ)
    (hok : Unrivalled sameName reqs σ a)
    (hs : (catalogue cfg sameName reqs).step σ a = some σ') : Inv sameName reqs σ' := by
  have hview : ∀ {p r}, reqs p = .reference r →
      (catalogue cfg sameName reqs).view σ p = σ.base.db := by
    intro p r hreq
    rw [Machine.view, h.placed.own_reference hreq]
    rfl
  cases Machine.effect_of_step _ hs with
  | @stmt p o f hcode hfree =>
    obtain ⟨l, hloc, hex⟩ := executes_of_code hcode
    cases hex with
    | stmt hout =>
      have hf := hout o ((catalogue cfg sameName reqs).view σ p) σ.base.world
      obtain ⟨l', hl'⟩ := hf.loc
      refine h.patent hloc rfl hf.ids (hl' ▸ silent_patent) fun q w hw => ?_
      rcases mem_append_writes.mp hw with hw | ⟨rfl, hw⟩
      · exact Or.inl hw
      · exact Or.inr ⟨rfl, hf.writes w hw⟩
  | @read p o f hcode hnone =>
    obtain ⟨l, hloc, hex⟩ := executes_of_code hcode
    cases hex with
    | auto hout =>
      have hf := hout o ((catalogue cfg sameName reqs).view σ p) σ.base.world
      obtain ⟨l', hl'⟩ := hf.loc
      exact h.patent hloc rfl hf.ids (hl' ▸ silent_patent) fun q w hw => Or.inl hw
    | reference hreq href =>
      rw [hview hreq] at hnone ⊢
      refine h.reference hsymm hok hreq hloc (categoryMove_of_code o href h.kept.numbered) ?_ rfl
      rw [hnone]
      rfl
  | @auto p o f hcode hfree hsome =>
    obtain ⟨l, hloc, hex⟩ := executes_of_code hcode
    cases hex with
    | auto hout =>
      have hf := hout o ((catalogue cfg sameName reqs).view σ p) σ.base.world
      obtain ⟨l', hl'⟩ := hf.loc
      exact h.patent hloc (categories_after hf.writes _) hf.ids (hl' ▸ silent_patent)
        fun q w hw => Or.inl hw
    | reference hreq href =>
      rw [hview hreq]
      exact h.reference hsymm hok hreq hloc (categoryMove_of_code o href h.kept.numbered) rfl rfl
  | @commit p o l' hcode =>
    obtain ⟨l, hloc, hex⟩ := executes_of_code hcode
    cases hex with
    | commit =>
      exact h.patent hloc (categories_after h.placed.writes _) rfl silent_patent pend_of_drop
  | @rollback p o l' hcode =>
    obtain ⟨l, hloc, hex⟩ := executes_of_code hcode
    cases hex with
    | rollback => exact h.patent hloc rfl rfl silent_patent pend_of_drop
  | @fail p hcode =>
    refine ⟨h.placed.move (fun _ hl => by cases hl) fun q w hw => Or.inl (mem_drop.mp hw).1, ?_⟩
    exact h.kept.move rfl (Nat.le_refl _) silent_failed.aims silent_failed.knows
  | @env e x henv =>
    obtain ⟨y, -, rfl⟩ := Option.map_eq_some_iff.mp henv
    exact ⟨⟨h.placed.loc, h.placed.pend⟩, h.kept⟩

theorem inv_init (sameName : String → String → Bool) (reqs : Nat → Request)
    (users : Table User User.id) : Inv sameName reqs (init reqs users) := by
  have hsilent : ∀ r, Silent r (startOf r) := by
    intro r
    cases r with
    | patent r => exact silent_patent
    | reference r => cases r <;> exact ⟨rfl, rfl⟩
  refine ⟨⟨fun p l hl => ?_, fun p w hw => (List.not_mem_nil hw).elim⟩,
    fun c hc => (Table.not_mem_empty c hc).elim, fun c hc => (Table.not_mem_empty c hc).elim,
    fun p => (hsilent (reqs p)).aims, fun p => (hsilent (reqs p)).knows⟩
  have hl : startOf (reqs p) = .patent l := hl
  cases hreq : reqs p with
  | patent r => exact ⟨r, hreq⟩
  | reference r =>
    rw [hreq] at hl
    cases hl

variable {users : Table User User.id}

/-- In every run of which no two requests write rival names at once, the names are distinct, and
    every name about to be written is free. -/
theorem inv_of_run (hsymm : ∀ a b, sameName a b = true → sameName b a = true)
    (hrun : Run (catalogue cfg sameName reqs).step (Unrivalled sameName reqs) (init reqs users) σ) :
    Inv sameName reqs σ :=
  hrun.invariant (fun _ _ _ h hok hs => h.step hsymm hok hs) (inv_init sameName reqs users)

/-- **Every run in which no name is written over a rival**: no two categories have names that are
    equal ignoring case. -/
theorem distinct_of_run (hsymm : ∀ a b, sameName a b = true → sameName b a = true)
    (hrun : Run (catalogue cfg sameName reqs).step (Unrivalled sameName reqs) (init reqs users) σ) :
    Distinct sameName σ.base.db :=
  (inv_of_run hsymm hrun).kept.distinct

end Runs

/-! ## Rivals -/

section Rivals

variable {cfg : Config} {sameName : String → String → Bool} {reqs : Nat → Request}
  {users : Table User User.id} {σ σ' : State Db Ext Write Loc} {p : Nat} {o : Oracle} {d : Db}
  {x : Ext} {n : String} {t : Option Nat}

/-- A name that differs from all others clashes with none. -/
theorem categoryClash_eq_false {c : Category}
    (hfree : ∀ e ∈ d.categories, e.id ≠ c.id → e.name ≠ c.name) : categoryClash d c = false := by
  refine List.any_eq_false.mpr fun e he hclash => ?_
  obtain ⟨hid, hname⟩ : e.id ≠ c.id ∧ e.name = c.name := by simpa using hclash
  exact hfree e he hid hname

/-- The row that gets a name: one that is there, or a new one with the next id. -/
def Gets (t : Option Nat) (c : Category) (x x' : Ext) : Prop :=
  t = some c.id ∧ x'.nextCategoryId = x.nextCategoryId ∨
    t = none ∧ c.id = x.nextCategoryId ∧ x'.nextCategoryId = x.nextCategoryId + 1

/-- A write that the database accepts is made. -/
theorem put_of_lands {r : ReferenceRequest} {l : ReferenceLoc} {f : Oracle → Db → Ext → Outcome}
    (hcode : referenceCode sameName r l = .auto f)
    (hpending : pending (.reference r) (.reference l) = some (n, t)) (hlands : Lands d n t) :
    ∃ c : Category, c.name = n ∧ Gets t c x (f o d x).2.1 ∧ (f o d x).1 ≠ [] ∧
      (after d (f o d x).1).categories = d.categories.put c := by
  unfold pending at hpending
  split at hpending
  · rename_i admin name hr hl
    obtain rfl := Request.reference.inj hr
    obtain rfl := Loc.reference.inj hl
    obtain ⟨rfl, rfl⟩ := Prod.mk.inj (Option.some.inj hpending)
    obtain rfl := Instr.auto.inj hcode
    have hclash : categoryClash d ⟨x.nextCategoryId, name⟩ = false :=
      categoryClash_eq_false fun e he _ => hlands.free e he fun hnone => by cases hnone
    refine ⟨⟨x.nextCategoryId, name⟩, rfl, ?_⟩
    simp only [insertCategory, hclash]
    exact ⟨Or.inr ⟨rfl, rfl, rfl⟩, List.cons_ne_nil _ _, rfl⟩
  · rename_i admin id name hr hl
    obtain rfl := Request.reference.inj hr
    obtain rfl := Loc.reference.inj hl
    obtain ⟨rfl, rfl⟩ := Prod.mk.inj (Option.some.inj hpending)
    obtain rfl := Instr.auto.inj hcode
    obtain ⟨row, hrow⟩ := Option.isSome_iff_exists.mp (hlands.live id rfl)
    obtain ⟨-, rfl⟩ := Table.get?_eq_some.mp hrow
    have hclash : categoryClash d { row with name := name } = false :=
      categoryClash_eq_false fun e he hne =>
        hlands.free e he fun hid => hne (Option.some.inj hid).symm
    refine ⟨{ row with name := name }, rfl, ?_⟩
    simp only [writeCategory, hrow, hclash]
    exact ⟨Or.inl ⟨rfl, rfl⟩, List.cons_ne_nil _ _, rfl⟩
  · cases hpending

/-- The step of a request whose write the database accepts. -/
theorem put_of_step (hown : own p σ.pend = [])
    (hpending : pending (reqs p) (σ.loc p) = some (n, t)) (hlands : Lands σ.base.db n t)
    (hs : (catalogue cfg sameName reqs).step σ (.run p o) = some σ') :
    ∃ c : Category, c.name = n ∧ Gets t c σ.base.world σ'.base.world ∧
      σ'.base.db.categories = σ.base.db.categories.put c := by
  have hat : ∀ {l}, σ.loc p = l → pending (reqs p) l = some (n, t) := by
    rintro l rfl
    exact hpending
  have hview : (catalogue cfg sameName reqs).view σ p = σ.base.db := by
    rw [Machine.view, hown]
    rfl
  have hno : ∀ {l : PatentService.Loc}, pending (reqs p) (.patent l) ≠ some (n, t) := by
    intro l hp
    rw [(silent_patent (r := reqs p) (l := l)).pending] at hp
    cases hp
  cases Machine.effect_of_step _ hs with
  | stmt hcode =>
    obtain ⟨l, hloc, hex⟩ := executes_of_code hcode
    cases hex with
    | stmt => exact (hno (hat hloc)).elim
  | read hcode hnone =>
    obtain ⟨l, hloc, hex⟩ := executes_of_code hcode
    cases hex with
    | auto => exact (hno (hat hloc)).elim
    | reference hreq href =>
      have hpending := hat hloc
      rw [hreq] at hpending
      obtain ⟨c, -, -, hsome, -⟩ := put_of_lands (o := o) (x := σ.base.world) href hpending hlands
      rw [hview] at hnone
      exact absurd hnone hsome
  | auto hcode =>
    obtain ⟨l, hloc, hex⟩ := executes_of_code hcode
    cases hex with
    | auto => exact (hno (hat hloc)).elim
    | reference hreq href =>
      have hpending := hat hloc
      rw [hreq] at hpending
      obtain ⟨c, hname, hgets, -, htable⟩ :=
        put_of_lands (o := o) (x := σ.base.world) href hpending hlands
      rw [hview]
      exact ⟨c, hname, hgets, htable⟩
  | commit hcode =>
    obtain ⟨l, hloc, hex⟩ := executes_of_code hcode
    cases hex with
    | commit => exact (hno (hat hloc)).elim
  | rollback hcode =>
    obtain ⟨l, hloc, hex⟩ := executes_of_code hcode
    cases hex with
    | rollback => exact (hno (hat hloc)).elim

/-- A request about to write a name has nothing pending. -/
theorem Placed.own_pending (h : Placed reqs σ)
    (hpending : pending (reqs p) (σ.loc p) = some (n, t)) : own p σ.pend = [] := by
  cases hreq : reqs p with
  | patent r =>
    rw [hreq] at hpending
    cases hpending
  | reference r => exact h.own_reference hreq

/-- Writing a row takes none away. -/
theorem Live.put {c : Category} {u : Option Nat} {d' : Db} (h : Live d u)
    (htable : d'.categories = d.categories.put c) : Live d' u := by
  intro id hid
  rw [htable]
  exact isSome_put (h id hid)

/-- **The condition is sharp.**  When a name is written over a rival, the rival is one write away
    from a case-duplicate. -/
theorem not_distinct_of_rival (hsymm : ∀ a b, sameName a b = true → sameName b a = true)
    (hrun : Run (catalogue cfg sameName reqs).step (Unrivalled sameName reqs) (init reqs users) σ)
    (hrival : ¬ Unrivalled sameName reqs σ (.run p o))
    (hs : (catalogue cfg sameName reqs).step σ (.run p o) = some σ') :
    ∃ q, ∀ o' σ'', (catalogue cfg sameName reqs).step σ' (.run q o') = some σ'' →
      ¬ Distinct sameName σ''.base.db := by
  have h := inv_of_run hsymm hrun
  simp only [Unrivalled, not_forall] at hrival
  obtain ⟨n, t, hpending, hlands, q, m, u, hq, hpendingq, hlive, hapart, hsame, hne⟩ := hrival
  refine ⟨q, fun o' σ'' hs' hdistinct => ?_⟩
  obtain ⟨c, rfl, hgets, htable⟩ := put_of_step (h.placed.own_pending hpending) hpending hlands hs
  have hother : ∀ e ∈ σ.base.db.categories, e.id ≠ c.id → t ≠ some e.id := by
    rintro e he hne rfl
    rcases hgets with ⟨heq, -⟩ | ⟨hnone, -⟩
    · exact hne (Option.some.inj heq)
    · cases hnone
  -- the rival has not moved, and the database accepts its spelling
  obtain ⟨hlocq, hownq⟩ := Machine.frame_of_step (catalogue cfg sameName reqs) hs
    (Act.mover_ne (q := q) rfl hq)
  have hlandsq : Lands σ'.base.db m u := by
    refine ⟨hlive.put htable, fun e he _ hname => ?_⟩
    rw [htable] at he
    rcases Table.mem_put.mp he with rfl | ⟨he, hide⟩
    · exact hne hname
    · have hback : sameName e.name c.name = true := hname ▸ hsymm _ _ hsame
      exact hne ((h.kept.knows p _ t hpending hlands.live e he (hother e he hide) hback).symm.trans
        hname)
  obtain ⟨c', rfl, hgets', htable'⟩ := put_of_step (hownq.trans (h.placed.own_pending hpendingq))
    (hlocq ▸ hpendingq) hlandsq hs'
  have hmem : c ∈ σ'.base.db.categories := htable ▸ Table.mem_put.mpr (Or.inl rfl)
  have hdiffer : c.id ≠ c'.id := by
    intro heq
    have hbelow : c.id < σ'.base.world.nextCategoryId := by
      rcases hgets with ⟨rfl, hids⟩ | ⟨-, hid, hids⟩
      · obtain ⟨row, hrow⟩ := Option.isSome_iff_exists.mp (hlands.live c.id rfl)
        obtain ⟨hmem, hkey⟩ := Table.get?_eq_some.mp hrow
        rw [hids, ← hkey]
        exact h.kept.numbered row hmem
      · omega
    rcases hgets' with ⟨rfl, -⟩ | ⟨-, hid', -⟩
    · rcases hgets with ⟨rfl, -⟩ | ⟨-, hid, -⟩
      · exact hapart c.id rfl (congrArg some heq.symm)
      · have hlt := h.kept.aims q c'.id (target_of_pending hpendingq)
        omega
    · omega
  have hc : c ∈ σ''.base.db.categories := htable' ▸ Table.mem_put.mpr (Or.inr ⟨hmem, hdiffer⟩)
  have hc' : c' ∈ σ''.base.db.categories := htable' ▸ Table.mem_put.mpr (Or.inl rfl)
  exact hne (congrArg Category.name (hdistinct c hc c' hc' hsame))

end Rivals

/-! ## Two spellings of one name -/

/-- Requests that write one after the other have no rivals; the first `n` are the ones that run. -/
def InTurn (reqs : Nat → Request) (n : Nat) (σ : State Db Ext Write Loc) (a : Act Oracle Upload) :
    Prop :=
  (∀ p, a.mover = some p → p < n) ∧
    ∀ q < n, a.mover ≠ some q → pending (reqs q) (σ.loc q) = none

instance (reqs : Nat → Request) (n : Nat) (σ : State Db Ext Write Loc) (a : Act Oracle Upload) :
    Decidable (InTurn reqs n σ a) :=
  match h : a.mover with
  | none => decidable_of_iff (∀ q < n, pending (reqs q) (σ.loc q) = none) (by simp [InTurn, h])
  | some p =>
    decidable_of_iff (p < n ∧ ∀ q < n, p ≠ q → pending (reqs q) (σ.loc q) = none)
      (by simp [InTurn, h])

/-- Requests that run one after another are no rivals. -/
theorem run_of_inTurn {cfg : Config} {sameName : String → String → Bool} {reqs : Nat → Request}
    {users : Table User User.id} {n : Nat} {σ : State Db Ext Write Loc}
    (hrun : Run (catalogue cfg sameName reqs).step (InTurn reqs n) (init reqs users) σ) :
    Run (catalogue cfg sameName reqs).step (Unrivalled sameName reqs) (init reqs users) σ := by
  have hstart : ∀ r : Request, pending r (startOf r) = none := by
    intro r
    cases r with
    | patent r => rfl
    | reference r => cases r <;> rfl
  refine hrun.mono_of_invariant (I := fun σ => ∀ q, n ≤ q → σ.loc q = startOf (reqs q)) ?_ ?_
    fun _ _ => rfl
  · intro σ a σ' hI hok hs q hq
    have hne : a.mover ≠ some q := fun hm => Nat.not_lt.mpr hq (hok.1 q hm)
    exact ((catalogue cfg sameName reqs).frame_of_step hs hne).1.trans (hI q hq)
  · intro σ a hI hok
    cases a with
    | run p o =>
      intro name t _ _ q m u hq hpending
      have hnone : pending (reqs q) (σ.loc q) = none := by
        by_cases hlt : q < n
        · exact hok.2 q hlt (Act.mover_ne rfl hq)
        · rw [hI q (Nat.not_lt.mp hlt)]
          exact hstart (reqs q)
      rw [hnone] at hpending
      cases hpending
    | fail p => trivial
    | env e => trivial

/-- Equality of ASCII names ignoring case. -/
def ignoringCase (a b : String) : Bool := a.toList.map Char.toLower == b.toList.map Char.toLower

/-- The comparison without case is symmetric. -/
theorem ignoringCase_symm (a b : String) (h : ignoringCase a b = true) : ignoringCase b a = true := by
  have heq : a.toList.map Char.toLower = b.toList.map Char.toLower := by
    simpa [ignoringCase] using h
  simp [ignoringCase, heq]

/-- Two spellings. -/
def optics : Nat → Request
  | 0 => .reference (.createCategory PatentService.root "Optics")
  | _ => .reference (.createCategory PatentService.root "OPTICS")

/-- One request after the other: the second is refused. -/
def oneByOne : List (Act Oracle Upload) := PatentService.steps 0 2 ++ PatentService.steps 1 1

theorem oneByOne_runs :
    (execOk (catalogue PatentService.pdfOnly ignoringCase optics).step (InTurn optics 2)
      (init optics PatentService.accounts) oneByOne).isSome = true := by
  decide

/-- Two administrators create the same category one after another: the second is refused. -/
theorem distinct_of_oneByOne :
    ∃ σ, exec (catalogue PatentService.pdfOnly ignoringCase optics).step
        (init optics PatentService.accounts) oneByOne = some σ ∧
      Distinct ignoringCase σ.base.db := by
  have hσ := (Option.some_get oneByOne_runs).symm
  exact ⟨_, exec_of_execOk hσ, distinct_of_run ignoringCase_symm (run_of_inTurn (Run.of_execOk hσ))⟩

/-- Both look, then both write. -/
def sideBySide : List (Act Oracle Upload) :=
  PatentService.steps 0 1 ++ PatentService.steps 1 1 ++ PatentService.steps 0 1 ++
    PatentService.steps 1 1

theorem sideBySide_runs :
    (exec (catalogue PatentService.pdfOnly ignoringCase optics).step
      (init optics PatentService.accounts) sideBySide).isSome = true := by
  decide

/-- A taxonomy split in two. -/
def split : State Db Ext Write Loc :=
  (exec (catalogue PatentService.pdfOnly ignoringCase optics).step
    (init optics PatentService.accounts) sideBySide).get sideBySide_runs

/-- Side by side both go through, as the unique index compares exactly. -/
theorem not_distinct :
    ¬ ∀ (cfg : Config) (reqs : Nat → Request) (users : Table User User.id)
      (σ : State Db Ext Write Loc),
      Run (catalogue cfg ignoringCase reqs).step always (init reqs users) σ →
      Distinct ignoringCase σ.base.db := by
  intro hall
  have hdistinct := hall PatentService.pdfOnly optics PatentService.accounts split
    (Run.exec_get sideBySide_runs)
  have hboth : ∃ c ∈ split.base.db.categories.rows, ∃ e ∈ split.base.db.categories.rows,
      ignoringCase c.name e.name = true ∧ c ≠ e := by
    decide
  obtain ⟨c, hc, e, he, hsame, hne⟩ := hboth
  exact hne (hdistinct c hc e he hsame)

end SmartPatents.Taxonomy
