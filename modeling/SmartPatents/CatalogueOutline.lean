/-
  The outline of the catalogue.

  Patent requests keep their outline when inventors and categories come and go next to them
  (`guests`): the statements of the reference services touch no patent, and what they take away,
  the links to a category, no assertion needs.  The foreign keys hold in every interleaving
  (`Referential`), since an INSERT of a link locks the row it refers to.

  A DELETE of an inventor is another matter: it would take credits along that a patent request has
  committed since the count.  `Uncredited` is the side condition that it finds none.

  `guests` is what `Lib.Embedding` asks of services that run next to a machine with an outline
  (`Guests`), so the outline of the patents is used here as it is.  `catalogue_serial` gives the
  log of both: each entry is a transaction of a patent request or of a reference request
  (`ReferenceTx`).

  The parts:

  * `Refers`, `referLayer` — a link is inserted to a row that is there, and the row stays while
    the transaction is open;
  * `ReferenceTx`, `performs_of_code` — what the reference services commit, one lemma for each
    statement;
  * `Referential` — the foreign keys, kept by the transactions of both kinds;
  * `guests`, `outline`, `catalogue_serial` — the patents among the others.
-/
import SmartPatents.Catalogue
import SmartPatents.UnderReview

namespace SmartPatents.PatentService

open ReadCommitted Runs Access Lifecycle Relations Storage PatentEvents

/-! ## What links refer to -/

/-- A link that a write inserts refers to a row that exists. -/
def Refers (d : Db) : Write → Prop
  | .insertCategory l => (d.categories.get? l.categoryId).isSome
  | .insertInventor l => (d.inventors.get? l.inventorId).isSome
  | _ => True

section Refers

variable {r : Request} {d d' : Db} {x : Ext} {o : Oracle} {l : Loc} {res : Outcome} {w : Write}

/-- What a link refers to depends on the inventors and categories only. -/
theorem Refers.congr (h : Refers d w) (hinventors : d'.inventors = d.inventors)
    (hcategories : d'.categories = d.categories) : Refers d' w := by
  cases w with
  | insertCategory l => simpa only [Refers, hcategories] using h
  | insertInventor l => simpa only [Refers, hinventors] using h
  | _ => trivial

/-- **Step lemma.**  A statement inserts no link to a row that it has not seen. -/
theorem Move.refers (hmove : Move r d x o l res) : ∀ w ∈ res.1, Refers d w := by
  intro w hw
  cases hmove with
  | throws hx hws =>
    rcases hws with rfl | ⟨row, rfl⟩
    · nomatch hw
    · rw [List.mem_singleton.mp hw]
      trivial
  | @createLinkCategories user input id links ids hreq hfit =>
    obtain ⟨l, hl, rfl⟩ := List.mem_map.mp hw
    obtain ⟨c, hc, rfl⟩ := List.mem_map.mp hl
    exact hfit.known c hc
  | @updateLinkCategories user id updates patent links ids hreq hfit =>
    obtain ⟨l, hl, rfl⟩ := List.mem_map.mp hw
    obtain ⟨c, hc, rfl⟩ := List.mem_map.mp hl
    exact hfit.known c hc
  | @createLinkInventors user input id links hreq hfit =>
    obtain ⟨l, hl, rfl⟩ := List.mem_map.mp hw
    obtain ⟨c, hc, rfl⟩ := List.mem_map.mp hl
    exact hfit.known c hc
  | @updateLinkInventors user id updates patent links hreq hfit =>
    obtain ⟨l, hl, rfl⟩ := List.mem_map.mp hw
    obtain ⟨c, hc, rfl⟩ := List.mem_map.mp hl
    exact hfit.known c hc
  | updateUnlinkCategories =>
    obtain ⟨l, -, rfl⟩ := List.mem_map.mp hw
    trivial
  | updateUnlinkInventors =>
    obtain ⟨l, -, rfl⟩ := List.mem_map.mp hw
    trivial
  | createInsert =>
    rw [List.mem_singleton.mp hw]
    trivial
  | updateWrite =>
    rw [List.mem_singleton.mp hw]
    trivial
  | submitWrite =>
    rw [List.mem_singleton.mp hw]
    trivial
  | reviewWrite =>
    rw [List.mem_singleton.mp hw]
    trivial
  | reviewCreate =>
    rw [List.mem_singleton.mp hw]
    trivial
  | reviewEnqueue =>
    rw [List.mem_singleton.mp hw]
    trivial
  | deleteWrite =>
    rw [List.mem_singleton.mp hw]
    trivial
  | _ => exact (List.not_mem_nil hw).elim

/-- A link that a write leaves behind was there before, or the write inserts it. -/
theorem link_back_apply {R : Type} {key : R → Nat × Nat} {T : LinkTable key} {l : R}
    (hl : l ∈ T.table (apply d w)) : l ∈ T.table d ∨ w = T.insert l := by
  by_cases hins : ∃ r, w = T.insert r
  · obtain ⟨r, rfl⟩ := hins
    rw [T.apply_insert] at hl
    rcases Table.mem_put.mp hl with rfl | ⟨hl, -⟩
    · exact Or.inr rfl
    · exact Or.inl hl
  · by_cases hdel : ∃ r, w = T.delete r
    · obtain ⟨r, rfl⟩ := hdel
      rw [T.apply_delete] at hl
      exact Or.inl (Table.mem_erase.mp hl).1
    · by_cases hcascade : ∃ old, w = .deletePatent old
      · obtain ⟨old, rfl⟩ := hcascade
        rw [T.apply_cascade] at hl
        exact Or.inl (Table.mem_deleteWhere.mp hl).1
      · rw [T.apply_other d w (fun r hr => hins ⟨r, hr⟩) (fun r hr => hdel ⟨r, hr⟩)
          fun old hold => hcascade ⟨old, hold⟩] at hl
        exact Or.inl hl

/-- A link found after some writes was there before, or one of them inserted it. -/
theorem link_back {R : Type} {key : R → Nat × Nat} {T : LinkTable key} {ws : List Write} {l : R}
    (hl : l ∈ T.table (after d ws)) : l ∈ T.table d ∨ T.insert l ∈ ws := by
  rcases Writes.back apply (P := fun d => l ∈ T.table d) (Q := fun w => w = T.insert l)
    (fun _ _ _ hl => link_back_apply hl) hl with hl | ⟨w, hw, rfl⟩
  · exact Or.inl hl
  · exact Or.inr hw

end Refers

section Layer

variable {J : Nat → Loc → Patent → Prop} {cfg : Config} {reqs : Nat → Request} {p : Nat} {l : Loc}
  {b : Base Db Ext Write} {ws : List Write}

/-- A statement of the patents inserts links to existing rows only, as the foreign keys demand. -/
theorem refers_of_code {f : Oracle → Db → Ext → Outcome} {o : Oracle}
    (hcode : code cfg reqs p l = .auto f ∨ code cfg reqs p l = .stmt f)
    (h : ∀ w ∈ ws, Refers b.db w) :
    ∀ w ∈ ws ++ (f o (after b.db ws) b.world).1, Refers b.db w := by
  intro w hw
  rcases List.mem_append.mp hw with hw | hw
  · exact h w hw
  · have hsame := UnderReview.sameReference_after ws b.db
    exact ((move_of_code hcode).refers w hw).congr hsame.inventors.symm hsame.categories.symm

/-- **The layer of references.**  `Q p` is anything else that is known of request `p`. -/
theorem referLayer (J : Nat → Loc → Patent → Prop) (cfg : Config) (reqs : Nat → Request)
    (Q : Nat → Prop) :
    Layer (patents cfg reqs) (Landing J reqs) Inv (At J reqs) (PatentTx J reqs) (fun _ => True)
      (fun p _ b ws => Q p ∧ ∀ w ∈ ws, Refers b.db w)
      (fun p d _ ws => Q p ∧ ∀ w ∈ ws, Refers d w) (fun _ _ => True) where
  stmt := fun {_ _ _ b _ _} hcode _ _ _ _ h =>
    ⟨trivial, trivial, h.1, refers_of_code (b := b) (Or.inr hcode) h.2⟩
  auto := by
    intro p l f b o hcode _ _ _ _ h
    have hnone := (auto_quiet (J := J) hcode o b.db b.world).none
    exact ⟨trivial, Or.inl ⟨hnone, trivial, h⟩⟩
  commit := fun _ _ _ _ _ _ h => ⟨trivial, h, h.1, fun w hw => (List.not_mem_nil hw).elim⟩
  rollback := fun _ h => ⟨h.1, fun w hw => (List.not_mem_nil hw).elim⟩
  fail := fun h => ⟨h.1, fun w hw => (List.not_mem_nil hw).elim⟩
  env := fun _ _ => ⟨trivial, trivial⟩
  world := fun _ h => h
  other := fun {_ _ _ b _ vs} _ _ _ _ _ h _ _ =>
    have hsame := UnderReview.sameReference_after vs b.db
    ⟨h.1, fun w hw => (h.2 w hw).congr hsame.inventors hsame.categories⟩

end Layer

end SmartPatents.PatentService

namespace SmartPatents.Catalogue

open ReadCommitted Runs Access Storage
open PatentService (Oracle Upload uploadFreely LinkTable categoryLinks credits patentsOver Refers)

/-! ## The transactions of a reference request -/

/-- The database after a list of writes. -/
abbrev after (d : Db) (ws : List Write) : Db := ws.foldl apply d

/-- The DELETE of a category with the links that go along. -/
def cascade (d : Db) (id : Nat) (old : Category) : List Write :=
  (linksTo d id).map (fun l => .patent (.deleteCategory l)) ++ [.deleteCategory old]

/-- The transactions of request `r`.  The DELETE of an inventor has found no credit. -/
inductive ReferenceTx (r : ReferenceRequest) (d : Db) : List Write → Prop
  | createInventor {user input id now} (hreq : r = .createInventor user input)
      (hnew : d.inventors.get? id = none) :
      ReferenceTx r d [.insertInventor (inventorOf user input id now)]
  | updateInventor {user id updates old} (hreq : r = .updateInventor user id updates)
      (hold : d.inventors.get? id = some old) :
      ReferenceTx r d [.updateInventor old (editedInventor updates old)]
  | deleteInventor {admin id old} (hreq : r = .deleteInventor admin id)
      (hold : d.inventors.get? id = some old) (hnone : creditsTo d id = []) :
      ReferenceTx r d [.deleteInventor old]
  | createCategory {admin name id} (hreq : r = .createCategory admin name)
      (hnew : d.categories.get? id = none) : ReferenceTx r d [.insertCategory ⟨id, name⟩]
  | updateCategory {admin id name old} (hreq : r = .updateCategory admin id name)
      (hold : d.categories.get? id = some old) :
      ReferenceTx r d [.updateCategory old { old with name := name }]
  | deleteCategory {admin id old} (hreq : r = .deleteCategory admin id)
      (hold : d.categories.get? id = some old) :
      ReferenceTx r d (cascade d id old)

/-! ### What they change -/

/-- A write of a reference request is to a table of its own, or deletes a link to a category. -/
def Write.OfReference : Write → Prop
  | .patent (.deleteCategory _) => True
  | .patent _ => False
  | _ => True

section Tables

variable {r : ReferenceRequest} {d : Db} {w : Write} {ws : List Write} {id : Nat}

/-- A reference transaction writes no patent, review or event. -/
theorem ReferenceTx.ofReference (h : ReferenceTx r d ws) : ∀ w ∈ ws, w.OfReference := by
  intro w hw
  cases h with
  | deleteCategory =>
    rcases List.mem_append.mp hw with hw | hw
    · obtain ⟨l, -, rfl⟩ := List.mem_map.mp hw
      trivial
    · rw [List.mem_singleton.mp hw]
      trivial
  | _ =>
    rw [List.mem_singleton.mp hw]
    trivial

/-- Accounts, patents, credits, reviews and events stay as they are. -/
theorem ReferenceTx.keeps (h : ReferenceTx r d ws) :
    (after d ws).users = d.users ∧ (after d ws).patents = d.patents ∧
      (after d ws).reviews = d.reviews ∧ (after d ws).patentInventors = d.patentInventors ∧
      (after d ws).outbox = d.outbox := by
  have hkept := Writes.keeps apply (d := d)
    (fun d : Db => (d.users, d.patents, d.reviews, d.patentInventors, d.outbox)) fun w hw d => by
      have hof := h.ofReference w hw
      cases w with
      | patent w =>
        cases w with
        | deleteCategory l => rfl
        | _ => exact hof.elim
      | _ => rfl
  simpa only [Prod.mk.injEq] using hkept

/-- The cascade of a category is a row of DELETEs in PATENT_CATEGORY, and then its own. -/
theorem after_cascade (d : Db) (id : Nat) (old : Category) : after d (cascade d id old) =
    apply (PatentService.after d ((linksTo d id).map categoryLinks.delete))
      (.deleteCategory old) := by
  rw [after, cascade, List.foldl_append, List.foldl_map, PatentService.after, List.foldl_map]
  rfl

/-- What the DELETE of a category leaves behind. -/
theorem tables_of_cascade (d : Db) (id : Nat) (old : Category) :
    (after d (cascade d id old)).inventors = d.inventors ∧
      (after d (cascade d id old)).categories = d.categories.erase old.id ∧
      ∀ l, l ∈ (after d (cascade d id old)).patentCategories ↔
        l ∈ d.patentCategories ∧ l.categoryId ≠ id := by
  have hcascade := after_cascade d id old
  have hsame := UnderReview.sameReference_after ((linksTo d id).map categoryLinks.delete) d
  have hlinks : (after d (cascade d id old)).patentCategories =
      d.patentCategories.eraseAll ((linksTo d id).map PatentCategory.key) := by
    rw [hcascade]
    exact LinkTable.table_after_deletes (T := categoryLinks) (linksTo d id) d
  refine ⟨?_, ?_, fun l => ?_⟩
  · rw [hcascade]
    exact hsame.inventors
  · rw [hcascade]
    exact congrArg (fun t => t.erase old.id) hsame.categories
  · rw [hlinks, Table.mem_eraseAll]
    refine and_congr_right fun hl => not_congr ⟨fun hk => ?_, fun hid => ?_⟩
    · obtain ⟨l', hl', hkey⟩ := List.mem_map.mp hk
      have hid' : l'.categoryId = id := by simpa using (List.mem_filter.mp hl').2
      exact (Prod.mk.inj hkey).2 ▸ hid'
    · exact List.mem_map_of_mem (List.mem_filter.mpr ⟨hl, by simpa using hid⟩)

/-- A patent without a link to the category keeps its links. -/
theorem categoryLinksOf_cascade {patentId : Nat} (old : Category)
    (h : ∀ l ∈ d.categoryLinksOf patentId, l.categoryId ≠ id) :
    (after d (cascade d id old)).categoryLinksOf patentId = d.categoryLinksOf patentId := by
  rw [after_cascade]
  refine LinkTable.ofPatent_after (T := categoryLinks) fun w hw hlink => ?_
  obtain ⟨l, hl, rfl⟩ := List.mem_map.mp hw
  obtain ⟨hl, hid⟩ := List.mem_filter.mp hl
  have hpatent : l.patentId = patentId := Option.some.inj hlink
  exact h l (categoryLinks.mem_ofPatent.mpr ⟨hl, hpatent⟩) (by simpa using hid)

end Tables

/-- The inventor whose DELETE is next. -/
def erases : Request → Loc → Option Nat
  | .reference (.deleteInventor _ id), .reference .deleteInventor => some id
  | _, _ => none

/-- The DELETE of an inventor finds no credit. -/
def Uncredited (reqs : Nat → Request) (p : Nat) (l : Loc) (d : Db) : Prop :=
  ∀ id, erases (reqs p) l = some id → creditsTo d id = []

instance (reqs : Nat → Request) (p : Nat) (l : Loc) (d : Db) : Decidable (Uncredited reqs p l d) :=
  match h : erases (reqs p) l with
  | none => isTrue fun _ hid => by rw [h] at hid; nomatch hid
  | some id => decidable_of_iff (creditsTo d id = []) (by simp [Uncredited, h])

/-- Ids come from the sequences. -/
structure Numbered (d : Db) (x : Ext) : Prop where
  inventors : ∀ i ∈ d.inventors, i.id < x.nextInventorId
  categories : ∀ c ∈ d.categories, c.id < x.nextCategoryId

/-- What a statement of a reference request does.  Only a count of 0 leads to a DELETE. -/
inductive Performs (r : ReferenceRequest) (d : Db) (x : Ext) : Outcome → Prop
  | reads {x' l} (hx : x'.patents = x.patents) (hnumbered : Numbered d x')
      (hnext : ∀ id, erases (.reference r) (.reference l) = some id → creditsTo d id = []) :
      Performs r d x ([], x', .reference l)
  | writes {ws x' reply} (hx : x'.patents = x.patents) (htx : ReferenceTx r d ws)
      (hnumbered : Numbered (after d ws) x') : Performs r d x (ws, x', .reference (.done reply))

section Performs

variable {sameName : String → String → Bool} {reqs : Nat → Request} {p : Nat}
  {r : ReferenceRequest} {d : Db} {x x' : Ext} {l : ReferenceLoc}

theorem erases_eq_none {r : Request} {l : Loc} (hl : l ≠ .reference .deleteInventor) :
    erases r l = none := by
  unfold erases
  split
  · exact absurd rfl hl
  · rfl

/-- Only the DELETE of an inventor has a side condition. -/
theorem uncredited_of_ne {l : Loc} (hl : l ≠ .reference .deleteInventor) :
    Uncredited reqs p l d := by
  intro id hid
  rw [erases_eq_none hl] at hid
  cases hid

/-- A statement that only reads performs nothing. -/
theorem performs_goOn (hx : x'.patents = x.patents) (h : Numbered d x')
    (hl : l ≠ .deleteInventor) : Performs r d x (goOn x' l) :=
  .reads hx h fun _ hid => by
    rw [erases_eq_none (fun hloc => hl (Loc.reference.inj hloc))] at hid
    cases hid

theorem performs_throw (h : Numbered d x) (e : AppError) : Performs r d x (throw_ x e) :=
  performs_goOn rfl h nofun

theorem performs_violates (hx : x'.patents = x.patents) (h : Numbered d x') (code : String) :
    Performs r d x (violates x' code) :=
  performs_goOn hx h nofun

/-- The check of the role only stands in front. -/
theorem performs_requireAdmin {admin : Caller} {out : Outcome} (h : Numbered d x)
    (hout : Performs r d x out) : Performs r d x (requireAdmin admin x out) := by
  unfold requireAdmin
  split
  · exact hout
  · exact performs_throw h _

/-- The look for the name only reads. -/
theorem performs_assertNameFree {name : String} {excludeId : Option Nat} {next : ReferenceLoc}
    (h : Numbered d x) (hnext : next ≠ .deleteInventor) :
    Performs r d x (assertNameFree sameName name excludeId next d x) := by
  unfold assertNameFree
  split
  · exact performs_throw h _
  · exact performs_goOn rfl h hnext

/-- The look for the category only reads. -/
theorem performs_getCategoryById {id : Nat} {next : ReferenceLoc} (h : Numbered d x)
    (hnext : next ≠ .deleteInventor) : Performs r d x (getCategoryById id next d x) := by
  unfold getCategoryById
  split
  · exact performs_throw h _
  · exact performs_goOn rfl h hnext

/-- The first statement of a request only reads. -/
theorem performs_start (h : Numbered d x) : Performs r d x (start sameName r d x) := by
  cases r with
  | createInventor user input =>
    simp only [start, createInventor]
    split
    · exact performs_throw h _
    · split <;> exact performs_goOn rfl h nofun
  | updateInventor user id updates =>
    simp only [start, updateInventor]
    split
    · exact performs_throw h _
    · split
      · exact performs_throw h _
      · split <;> exact performs_goOn rfl h nofun
  | deleteInventor admin id =>
    refine performs_requireAdmin h ?_
    unfold deleteInventor
    split
    · exact performs_throw h _
    · exact performs_goOn rfl h nofun
  | createCategory admin name => exact performs_requireAdmin h (performs_assertNameFree h nofun)
  | updateCategory admin id name =>
    exact performs_requireAdmin h (performs_getCategoryById h nofun)
  | deleteCategory admin id => exact performs_requireAdmin h (performs_getCategoryById h nofun)

/-- A row with the next id of its sequence is new. -/
theorem get?_next {R : Type} {key : R → Nat} {t : Table R key} {n : Nat} (h : ∀ r ∈ t, key r < n) :
    t.get? n = none :=
  Table.get?_eq_none.mpr fun r hr => Nat.ne_of_lt (h r hr)

/-- An id drawn from the sequence is beyond all others. -/
theorem below_put {R : Type} {key : R → Nat} {t : Table R key} {n m : Nat} {new : R}
    (h : ∀ r ∈ t, key r < n) (hle : n ≤ m) (hnew : key new < m) : ∀ r ∈ t.put new, key r < m := by
  intro r hr
  rcases Table.mem_put.mp hr with rfl | ⟨hr, -⟩
  · exact hnew
  · exact Nat.lt_of_lt_of_le (h r hr) hle

/-- The INSERT of an inventor performs a `ReferenceTx`, or nothing. -/
theorem performs_insertInventor {user : Caller} {input : InventorInput} (h : Numbered d x)
    (o : Oracle) :
    Performs (.createInventor user input) d x (insertInventor user input o d x) := by
  have hadvanced : Numbered d { x with nextInventorId := x.nextInventorId + 1 } :=
    ⟨fun i hi => Nat.lt_succ_of_lt (h.inventors i hi), h.categories⟩
  have hsame : { x with nextInventorId := x.nextInventorId + 1 }.patents = x.patents := rfl
  unfold insertInventor
  dsimp only
  split
  · exact performs_violates hsame hadvanced _
  · split
    · exact performs_violates hsame hadvanced _
    · exact .writes rfl (.createInventor rfl (get?_next h.inventors))
        ⟨below_put h.inventors (Nat.le_succ _) (Nat.lt_succ_self _), h.categories⟩

/-- The INSERT of a category. -/
theorem performs_insertCategory {admin : Caller} {name : String} (h : Numbered d x) :
    Performs (.createCategory admin name) d x (insertCategory name d x) := by
  have hadvanced : Numbered d { x with nextCategoryId := x.nextCategoryId + 1 } :=
    ⟨h.inventors, fun c hc => Nat.lt_succ_of_lt (h.categories c hc)⟩
  have hsame : { x with nextCategoryId := x.nextCategoryId + 1 }.patents = x.patents := rfl
  unfold insertCategory
  dsimp only
  split
  · exact performs_violates hsame hadvanced _
  · exact .writes rfl (.createCategory rfl (get?_next h.categories))
      ⟨h.inventors, below_put h.categories (Nat.le_succ _) (Nat.lt_succ_self _)⟩

/-- The UPDATE of an inventor. -/
theorem performs_writeInventor {user : Caller} {id : Nat} {updates : InventorUpdates}
    (h : Numbered d x) :
    Performs (.updateInventor user id updates) d x (writeInventor id updates d x) := by
  unfold writeInventor
  split
  · exact performs_violates rfl h _
  · rename_i row hrow
    dsimp only
    split
    · exact performs_violates rfl h _
    · exact .writes rfl (.updateInventor rfl hrow) ⟨below_put h.inventors (Nat.le_refl _)
        (h.inventors row (Table.get?_eq_some.mp hrow).1), h.categories⟩

/-- The UPDATE of a category. -/
theorem performs_writeCategory {admin : Caller} {id : Nat} {name : String} (h : Numbered d x) :
    Performs (.updateCategory admin id name) d x (writeCategory id name d x) := by
  unfold writeCategory
  split
  · exact performs_violates rfl h _
  · rename_i row hrow
    dsimp only
    split
    · exact performs_violates rfl h _
    · exact .writes rfl (.updateCategory rfl hrow) ⟨h.inventors, below_put h.categories
        (Nat.le_refl _) (h.categories row (Table.get?_eq_some.mp hrow).1)⟩

/-- The DELETE of an inventor whom no committed link credits. -/
theorem performs_eraseInventor {admin : Caller} {id : Nat} (h : Numbered d x)
    (hnone : creditsTo d id = []) :
    Performs (.deleteInventor admin id) d x (eraseInventor id d x) := by
  unfold eraseInventor
  split
  · exact performs_violates rfl h _
  · rename_i row hrow
    rw [hnone]
    exact .writes rfl (.deleteInventor rfl hrow hnone)
      ⟨fun i hi => h.inventors i (Table.mem_erase.mp hi).1, h.categories⟩

/-- The DELETE of a category, with the links to it. -/
theorem performs_eraseCategory {admin : Caller} {id : Nat} (h : Numbered d x) :
    Performs (.deleteCategory admin id) d x (eraseCategory id d x) := by
  unfold eraseCategory
  split
  · exact performs_violates rfl h _
  · rename_i row hrow
    obtain ⟨hinventors, hcategories, -⟩ := tables_of_cascade d id row
    have hnumbered : Numbered (after d (cascade d id row)) x := by
      refine ⟨?_, ?_⟩
      · rw [hinventors]
        exact h.inventors
      · rw [hcategories]
        exact fun c hc => h.categories c (Table.mem_erase.mp hc).1
    exact .writes rfl (.deleteCategory rfl hrow) hnumbered

/-- Every statement of a reference request is its own transaction. -/
theorem referenceCode_cases (r : ReferenceRequest) (l : ReferenceLoc) :
    (∃ f, referenceCode sameName r l = .auto f) ∨ referenceCode sameName r l = .halt := by
  cases l with
  | start => cases r <;> exact Or.inl ⟨_, rfl⟩
  | _ => cases r <;> first | exact Or.inl ⟨_, rfl⟩ | exact Or.inr rfl

/-- **What the code of a reference request does.** -/
theorem performs_of_code {l : ReferenceLoc} {f : Oracle → Db → Ext → Outcome} {o : Oracle}
    (hcode : referenceCode sameName r l = .auto f) (h : Numbered d x)
    (hok : ∀ id, erases (.reference r) (.reference l) = some id → creditsTo d id = []) :
    Performs r d x (f o d x) := by
  cases l with
  | start =>
    have hf : (fun _ d x => start sameName r d x) = f := by
      cases r <;> exact Instr.auto.inj hcode
    subst hf
    exact performs_start h
  | accountLinked =>
    cases r with
    | createInventor user input =>
      obtain rfl := Instr.auto.inj hcode
      dsimp only [accountLinked]
      split
      · exact performs_throw h _
      · exact performs_goOn rfl h nofun
    | _ => nomatch hcode
  | insertInventor =>
    cases r with
    | createInventor user input =>
      obtain rfl := Instr.auto.inj hcode
      exact performs_insertInventor h o
    | _ => nomatch hcode
  | emailClash =>
    cases r with
    | updateInventor user id updates =>
      obtain rfl := Instr.auto.inj hcode
      dsimp only [emailClash]
      split
      · exact performs_throw h _
      · exact performs_goOn rfl h nofun
    | _ => nomatch hcode
  | updateInventor =>
    cases r with
    | updateInventor user id updates =>
      obtain rfl := Instr.auto.inj hcode
      exact performs_writeInventor h
    | _ => nomatch hcode
  | countCredits =>
    cases r with
    | deleteInventor admin id =>
      obtain rfl := Instr.auto.inj hcode
      dsimp only [countCredits]
      split
      · exact performs_throw h _
      · rename_i hcount
        refine .reads rfl h fun id' hid => ?_
        obtain rfl := Option.some.inj hid
        exact List.eq_nil_of_length_eq_zero (Nat.eq_zero_of_not_pos hcount)
    | _ => nomatch hcode
  | deleteInventor =>
    cases r with
    | deleteInventor admin id =>
      obtain rfl := Instr.auto.inj hcode
      exact performs_eraseInventor h (hok id rfl)
    | _ => nomatch hcode
  | insertCategory =>
    cases r with
    | createCategory admin name =>
      obtain rfl := Instr.auto.inj hcode
      exact performs_insertCategory h
    | _ => nomatch hcode
  | nameClash =>
    cases r with
    | updateCategory admin id name =>
      obtain rfl := Instr.auto.inj hcode
      exact performs_assertNameFree h nofun
    | _ => nomatch hcode
  | updateCategory =>
    cases r with
    | updateCategory admin id name =>
      obtain rfl := Instr.auto.inj hcode
      exact performs_writeCategory h
    | _ => nomatch hcode
  | deleteCategory =>
    cases r with
    | deleteCategory admin id =>
      obtain rfl := Instr.auto.inj hcode
      exact performs_eraseCategory h
    | _ => nomatch hcode
  | done reply => cases r <;> nomatch hcode

end Performs

/-! ## Foreign keys -/

/-- Every link refers to rows that exist. -/
structure Referential (d : Db) : Prop where
  credited : ∀ l ∈ d.patentInventors, (d.inventors.get? l.inventorId).isSome
  linked : ∀ l ∈ d.patentCategories, (d.categories.get? l.categoryId).isSome

section Referential

variable {d : Db}

/-- An INSERT or UPDATE takes no key away. -/
theorem isSome_put {R κ : Type} [DecidableEq κ] {key : R → κ} {t : Table R key} {new : R} {k : κ}
    (h : (t.get? k).isSome) : ((t.put new).get? k).isSome := by
  rw [Table.get?_put]
  split
  · rfl
  · exact h

/-- A DELETE takes away its own key only. -/
theorem isSome_erase {R κ : Type} [DecidableEq κ] {key : R → κ} {t : Table R key} {k k' : κ}
    (h : (t.get? k).isSome) (hne : k ≠ k') : ((t.erase k').get? k).isSome := by
  rw [Table.get?_erase, if_neg hne]
  exact h

/-- A reference transaction keeps the foreign keys. -/
theorem Referential.reference {r : ReferenceRequest} {ws : List Write} (h : Referential d)
    (htx : ReferenceTx r d ws) : Referential (after d ws) := by
  cases htx with
  | createInventor => exact ⟨fun l hl => isSome_put (h.credited l hl), h.linked⟩
  | updateInventor => exact ⟨fun l hl => isSome_put (h.credited l hl), h.linked⟩
  | @deleteInventor admin id old hreq hold hnone =>
    refine ⟨fun l hl => isSome_erase (h.credited l hl) fun hid => ?_, h.linked⟩
    obtain rfl : old.id = id := (Table.get?_eq_some.mp hold).2
    have hmem : l ∈ creditsTo d old.id := List.mem_filter.mpr ⟨hl, by simpa using hid⟩
    rw [hnone] at hmem
    nomatch hmem
  | createCategory => exact ⟨h.credited, fun l hl => isSome_put (h.linked l hl)⟩
  | updateCategory => exact ⟨h.credited, fun l hl => isSome_put (h.linked l hl)⟩
  | @deleteCategory admin id old hreq hold =>
    obtain ⟨hinventors, hcategories, hlinks⟩ := tables_of_cascade d id old
    obtain ⟨-, -, -, hcredits, -⟩ := (ReferenceTx.deleteCategory hreq hold).keeps
    refine ⟨?_, fun l hl => ?_⟩
    · rw [hinventors, hcredits]
      exact h.credited
    · obtain ⟨hl, hne⟩ := (hlinks l).mp hl
      rw [hcategories]
      exact isSome_erase (h.linked l hl) ((Table.get?_eq_some.mp hold).2.symm ▸ hne)

/-- So do the writes of a patent transaction, as their links refer to existing rows. -/
theorem Referential.patent {ws : List PatentService.Write} (h : Referential d)
    (hrefers : ∀ w ∈ ws, Refers d w) : Referential (PatentService.after d ws) := by
  have hsame := UnderReview.sameReference_after ws d
  refine ⟨fun l hl => ?_, fun l hl => ?_⟩
  · rw [hsame.inventors]
    rcases PatentService.link_back (T := credits) hl with hl | hins
    · exact h.credited l hl
    · exact hrefers _ hins
  · rw [hsame.categories]
    rcases PatentService.link_back (T := categoryLinks) hl with hl | hins
    · exact h.linked l hl
    · exact hrefers _ hins

end Referential

/-! ## Patent requests among the others -/

/-- The write of a patent request, or one that a DELETE takes along. -/
def ofPatent? : Write → Option PatentService.Write
  | .patent w => some w
  | _ => none

/-- The patent writes among patent writes are all of them. -/
@[simp] theorem filterMap_patent (ws : List PatentService.Write) :
    (ws.map Write.patent).filterMap ofPatent? = ws := by
  rw [List.filterMap_map]
  exact List.filterMap_some

section Outline

variable (cfg : Config) (sameName : String → String → Bool) (reqs : Nat → Request)

/-- The patent machine inside the catalogue. -/
def placed : Embedding (patentsOver uploadFreely cfg (patentRequests reqs))
    (catalogue cfg sameName reqs) where
  world := Ext.patents
  setWorld := fun x y => { x with patents := y }
  write := .patent
  lower := ofPatent?
  loc := .patent
  world_set := fun _ _ => rfl
  lower_write := fun _ => rfl
  locks := fun _ => rfl
  apply := fun _ _ => rfl
  code := fun _ _ => rfl

/-- The log as the patent machine sees it. -/
def patentLog (log : List (Nat × List Write)) : List (Nat × List PatentService.Write) :=
  log.map fun e => (e.1, e.2.filterMap ofPatent?)

/-- The request is one of the patents. -/
def IsPatent (p : Nat) : Prop := ∃ r, reqs p = .patent r

/-- What holds of the shared state. -/
abbrev PatentInv (b : Base Db PatentService.Ext PatentService.Write) : Prop :=
  (PatentService.Inv b ∧ PatentService.LinkInv b) ∧ True

/-- What a patent request rests on. -/
abbrev PatentAt (p : Nat) (l : PatentService.Loc)
    (b : Base Db PatentService.Ext PatentService.Write) (ws : List PatentService.Write) : Prop :=
  (PatentService.At (fun _ _ _ => True) (patentRequests reqs) p l b ws ∧
    PatentService.LinkAt (patentRequests reqs p) l b.db ws) ∧
  IsPatent reqs p ∧ ∀ w ∈ ws, Refers b.db w

/-- What is known of the transaction of a patent request. -/
abbrev KnownTx (p : Nat) (d : Db) (log : List (Nat × List PatentService.Write))
    (ws : List PatentService.Write) : Prop :=
  (PatentService.PatentTx (fun _ _ _ => True) (patentRequests reqs) p d log ws ∧
    PatentService.LinkTx (patentRequests reqs p) d ws) ∧
  IsPatent reqs p ∧ ∀ w ∈ ws, Refers d w

/-- The outline of the patent machine, with what the catalogue needs besides: no link is left
    dangling. -/
theorem patentOutline : Outline (patentsOver uploadFreely cfg (patentRequests reqs))
    (PatentService.Landing (fun _ _ _ => True) (patentRequests reqs)) PatentInv (PatentAt reqs)
    (KnownTx reqs) (fun x x' => (PatentService.Advances x x' ∧ True) ∧ True) := by
  have hlinks := Outline.layerWithEnv (fun u _ => uploadFreely u)
    (PatentService.linkLayer (fun _ _ _ => True) cfg (patentRequests reqs)) (fun _ _ => trivial)
    fun h => ⟨h.categories, h.credits⟩
  have hrefers := Outline.layerWithEnv (fun u _ => uploadFreely u)
    (PatentService.referLayer (fun _ _ _ => True) cfg (patentRequests reqs) (IsPatent reqs))
    (fun _ _ => trivial) fun _ => trivial
  exact ((PatentService.outlineOver PatentService.leavesSequences_uploadFreely).layer hlinks).layer
    (Outline.layerMono hrefers And.left And.left And.left)

/-- The locations outside the patent service. -/
def Guest : Loc → Prop
  | .patent _ => False
  | _ => True

/-- What a reference request commits. -/
def GuestTx (p : Nat) (d : Db) (_ : List (Nat × List Write)) (ws : List Write) : Prop :=
  ∃ r, reqs p = .reference r ∧ ReferenceTx r d ws

/-- What the reference requests know of the shared state. -/
structure GuestInv (b : Base Db Ext Write) : Prop where
  numbered : Numbered b.db b.world
  referential : Referential b.db

variable {cfg sameName reqs} {b : Base Db Ext Write} {r : ReferenceRequest} {d : Db} {p : Nat}
  {vs : List Write}

/-- A patent request does not see that a reference request commits. -/
theorem ReferenceTx.samePatents (htx : ReferenceTx r b.db vs) :
    PatentService.SamePatents ((placed cfg sameName reqs).base b)
      ((placed cfg sameName reqs).base ((catalogue cfg sameName reqs).commitBase b p vs)) where
  patents := htx.keeps.2.1
  reviews := htx.keeps.2.2.1
  outbox := htx.keeps.2.2.2.2
  world := rfl
  unused := by
    intro id
    have hlog : ((placed cfg sameName reqs).base
        ((catalogue cfg sameName reqs).commitBase b p vs)).log =
          (placed cfg sameName reqs).lowerLog b.log ++ [(p, vs.filterMap ofPatent?)] :=
      (placed cfg sameName reqs).lowerLog_concat b.log p vs
    rw [hlog]
    refine ⟨fun h e he => ?_, fun h e he => h e (List.mem_append_left _ he)⟩
    rcases List.mem_append.mp he with he | he
    · exact h e he
    · rw [List.mem_singleton.mp he]
      intro q hq
      obtain ⟨w, hw, hwq⟩ := List.mem_filterMap.mp hq
      have hof := htx.ofReference w hw
      cases w with
      | patent w =>
        obtain rfl := Option.some.inj hwq
        exact hof.elim
      | _ => nomatch hwq

/-- Links only disappear. -/
theorem ReferenceTx.noNewLinks (htx : ReferenceTx r d vs) (id : Nat) :
    PatentService.NoNewLinks d (after d vs) id := by
  refine ⟨fun l hl _ => ?_, fun l hl _ => ?_⟩
  · cases htx with
    | deleteCategory => exact ((tables_of_cascade _ _ _).2.2 l |>.mp hl).1
    | _ => exact hl
  · have hl : l ∈ (after d vs).patentInventors := hl
    rw [htx.keeps.2.2.2.1] at hl
    exact hl

/-- A reference transaction leaves every link with a patent. -/
theorem ReferenceTx.linkInv (htx : ReferenceTx r d vs) (hcategories : categoryLinks.Owned d)
    (hcredits : credits.Owned d) :
    categoryLinks.Owned (after d vs) ∧ credits.Owned (after d vs) := by
  refine ⟨fun l hl => ?_, fun l hl => ?_⟩
  · rw [htx.keeps.2.1]
    exact hcategories l ((htx.noNewLinks l.patentId).categories l hl rfl)
  · rw [htx.keeps.2.1]
    exact hcredits l ((htx.noNewLinks l.patentId).credits l hl rfl)

/-- What an uncommitted link refers to stays: the INSERT has locked it. -/
theorem ReferenceTx.refers {ws : List PatentService.Write} (htx : ReferenceTx r d vs)
    (hap : (catalogue cfg sameName reqs).Apart (ws.map .patent) vs) {w : PatentService.Write}
    (hw : w ∈ ws) (h : Refers d w) : Refers (after d vs) w := by
  have hfree : ∀ {v k}, v ∈ vs → ⟨k, false⟩ ∈ locks v → ¬ ⟨k, true⟩ ∈ PatentService.locks w :=
    fun hv hk => hap.symm.excludes hv (List.mem_map_of_mem hw) hk true
  cases w with
  | insertInventor l =>
    cases htx with
    | createInventor => exact isSome_put h
    | updateInventor => exact isSome_put h
    | deleteInventor =>
      refine isSome_erase h fun hid => ?_
      exact hfree List.mem_cons_self List.mem_cons_self
        (hid ▸ List.mem_cons_of_mem _ List.mem_cons_self)
    | createCategory => exact h
    | updateCategory => exact h
    | deleteCategory =>
      have h : (d.inventors.get? l.inventorId).isSome := h
      rw [Refers, (tables_of_cascade _ _ _).1]
      exact h
  | insertCategory l =>
    cases htx with
    | createInventor => exact h
    | updateInventor => exact h
    | deleteInventor => exact h
    | createCategory => exact isSome_put h
    | updateCategory => exact isSome_put h
    | @deleteCategory admin id old =>
      rw [Refers, (tables_of_cascade _ _ _).2.1]
      refine isSome_erase h fun hid => ?_
      have hlock : (⟨.category l.categoryId, false⟩ : Lock PatentService.Row) ∈
          locks (.deleteCategory old) := hid ▸ List.mem_cons_self
      exact hfree (List.mem_append_right _ List.mem_cons_self) hlock
        (List.mem_cons_of_mem _ List.mem_cons_self)
  | _ => trivial

/-- **What the reference requests do breaks nothing that a patent request rests on.** -/
theorem guests (cfg : Config) (sameName : String → String → Bool) (reqs : Nat → Request) :
    Guests (placed cfg sameName reqs) (Uncredited reqs) PatentInv (PatentAt reqs) (KnownTx reqs)
      (fun x x' => (PatentService.Advances x x' ∧ True) ∧ True) Guest GuestInv (GuestTx reqs) where
  code := by
    intro p l hguest
    cases l with
    | patent l => exact hguest.elim
    | failed => exact Or.inr rfl
    | reference l =>
      simp only [catalogue, code]
      split
      · exact referenceCode_cases _ l
      · exact Or.inr rfl
  failed := trivial
  refl := fun x => ⟨⟨PatentService.Advances.refl x, trivial⟩, trivial⟩
  statement := by
    intro p l f b o hguest hcode hok hinv
    cases l with
    | patent l => exact hguest.elim
    | failed => nomatch hcode
    | reference l =>
      simp only [catalogue, code] at hcode
      split at hcode
      · rename_i r hreq
        have hperforms := performs_of_code (o := o) hcode hinv.numbered (hreq ▸ hok)
        generalize f o b.db b.world = out at hperforms
        cases hperforms with
        | reads hx hnumbered hnext =>
          exact ⟨trivial, hx, Or.inl ⟨rfl, hnumbered, hinv.referential⟩⟩
        | writes hx htx hnumbered =>
          refine ⟨trivial, hx, Or.inr ⟨?_, ⟨r, hreq, htx⟩, hnumbered,
            hinv.referential.reference htx⟩⟩
          cases htx with
          | deleteCategory => simp [cascade]
          | _ => simp
      · nomatch hcode
  inv := by
    rintro p b vs ⟨⟨hinv, hlinks⟩, -⟩ ⟨r, -, htx⟩
    obtain ⟨hcategories, hcredits⟩ := htx.linkInv hlinks.categories hlinks.credits
    exact ⟨⟨hinv.congr htx.samePatents, hcategories, hcredits⟩, trivial⟩
  other := by
    rintro p q l b ws vs ⟨⟨hat, hlinks⟩, hpatent, hrefers⟩ ⟨r, -, htx⟩ hap
    exact ⟨⟨PatentService.at_congr hat htx.samePatents,
      PatentService.linkAt_mono hlinks fun id _ => htx.noNewLinks id⟩, hpatent,
      fun w hw => htx.refers hap hw (hrefers w hw)⟩
  world := fun hinv => ⟨⟨hinv.numbered.inventors, hinv.numbered.categories⟩, hinv.referential⟩
  commit := by
    rintro p b vs ⟨hnumbered, href⟩ ⟨-, -, hrefers⟩
    have hdb : ((catalogue cfg sameName reqs).commitBase b p
        (vs.map (placed cfg sameName reqs).write)).db = PatentService.after b.db vs :=
      (placed cfg sameName reqs).applyAll_map vs b.db
    have hsame := UnderReview.sameReference_after vs b.db
    refine ⟨⟨?_, ?_⟩, ?_⟩
    · rw [hdb, hsame.inventors]
      exact hnumbered.inventors
    · rw [hdb, hsame.categories]
      exact hnumbered.categories
    · rw [hdb]
      exact href.patent hrefers
  env := by
    intro u loc b x' henv hinv hinv₂
    obtain ⟨y, hy, rfl⟩ := Option.map_eq_some_iff.mp henv
    have hstep : (patentsOver uploadFreely cfg (patentRequests reqs)).env u (fun _ => .start)
        b.world.patents = some y := hy
    obtain ⟨hext, hinv'⟩ := (patentOutline cfg reqs).env (b := (placed cfg sameName reqs).base b)
      hstep hinv
    exact ⟨hext, hinv', ⟨hinv₂.numbered.inventors, hinv₂.numbered.categories⟩, hinv₂.referential⟩

/-- **The outline of the catalogue.** -/
theorem outline (cfg : Config) (sameName : String → String → Bool) (reqs : Nat → Request) :
    Outline (catalogue cfg sameName reqs) (Uncredited reqs)
      (fun b => PatentInv ((placed cfg sameName reqs).base b) ∧ GuestInv b)
      ((placed cfg sameName reqs).Asserts (PatentAt reqs) Guest)
      ((placed cfg sameName reqs).Commits (KnownTx reqs) (GuestTx reqs))
      (fun x x' => (PatentService.Advances x.patents x'.patents ∧ True) ∧ True) :=
  (patentOutline cfg reqs).embed (guests cfg sameName reqs) fun _ _ _ _ => fun _ _ _ _ _ => trivial

/-- The transactions of the catalogue. -/
inductive CatalogueTx (reqs : Nat → Request) (p : Nat) (d : Db) (log : List (Nat × List Write)) :
    List Write → Prop
  | patent {r : PatentService.Request} {ws : List PatentService.Write} (hreq : reqs p = .patent r)
      (htx : PatentService.PatentTx (fun _ _ _ => True) (patentRequests reqs) p d (patentLog log) ws)
      (hlinks : PatentService.LinkTx r d ws) (hrefers : ∀ w ∈ ws, Refers d w) :
      CatalogueTx reqs p d log (ws.map .patent)
  | reference {r : ReferenceRequest} {ws : List Write} (hreq : reqs p = .reference r)
      (htx : ReferenceTx r d ws) : CatalogueTx reqs p d log ws

variable {users : Table User User.id} {σ : State Db Ext Write Loc}

/-- What the patent machine sees of a request of its own. -/
theorem patentRequests_eq {r : PatentService.Request} (hreq : reqs p = .patent r) :
    patentRequests reqs p = r := by
  rw [patentRequests, hreq]

theorem holds_init (cfg : Config) (sameName : String → String → Bool) (reqs : Nat → Request)
    (users : Table User User.id) :
    Outline.Holds (catalogue cfg sameName reqs)
      (fun b => PatentInv ((placed cfg sameName reqs).base b) ∧ GuestInv b)
      ((placed cfg sameName reqs).Asserts (PatentAt reqs) Guest)
      ((placed cfg sameName reqs).Commits (KnownTx reqs) (GuestTx reqs))
      (init reqs users) (init reqs users) := by
  refine Outline.holds_init rfl rfl ⟨⟨⟨PatentService.inv_init users _ _, ?_, ?_⟩, trivial⟩,
    ⟨?_, ?_⟩, ?_, ?_⟩ fun p => ?_
  · exact fun l hl => absurd hl (Table.not_mem_empty l)
  · exact fun l hl => absurd hl (Table.not_mem_empty l)
  · exact fun i hi => absurd hi (Table.not_mem_empty i)
  · exact fun c hc => absurd hc (Table.not_mem_empty c)
  · exact fun l hl => absurd hl (Table.not_mem_empty l)
  · exact fun l hl => absurd hl (Table.not_mem_empty l)
  · cases hreq : reqs p with
    | patent r =>
      refine Or.inl ⟨.start, [], ?_, rfl, ⟨rfl, ?_⟩, ⟨r, hreq⟩, fun w hw => ?_⟩
      · simp only [init, startOf, hreq]
        rfl
      · cases patentRequests reqs p <;> trivial
      · nomatch hw
    | reference r =>
      refine Or.inr ⟨?_, rfl⟩
      simp only [init, startOf, hreq]
      trivial

/-- Whatever the catalogue commits is a patent transaction or a reference transaction. -/
theorem catalogueTx_of_commits {log : List (Nat × List Write)} {ws : List Write}
    (h : (placed cfg sameName reqs).Commits (KnownTx reqs) (GuestTx reqs) p d log ws) :
    CatalogueTx reqs p d log ws := by
  rcases h with ⟨vs, rfl, ⟨htx, hlinks⟩, ⟨r, hreq⟩, hrefers⟩ | ⟨r, hreq, htx⟩
  · exact .patent hreq htx (patentRequests_eq hreq ▸ hlinks) hrefers
  · exact .reference hreq htx

/-- **Every run in which the DELETE of an inventor finds no credit**: the log is a serial execution
    of transactions of the catalogue. -/
theorem catalogue_serial
    (hrun : Run (catalogue cfg sameName reqs).step (Machine.localOk (Uncredited reqs))
      (init reqs users) σ) :
    (catalogue cfg sameName reqs).Serial (CatalogueTx reqs) (init reqs users).base.db σ.base.log ∧
      σ.base.db = (catalogue cfg sameName reqs).replay (init reqs users).base.db σ.base.log := by
  have hholds := (outline cfg sameName reqs).sound (holds_init cfg sameName reqs users) hrun
  exact ⟨hholds.serial.mono catalogueTx_of_commits, hholds.replay⟩

end Outline

end SmartPatents.Catalogue
