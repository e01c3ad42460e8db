/-
  The two link tables of a patent: its categories and its credits.

  They differ in their rows and in the writes that insert and delete one; a `LinkTable` is such a
  table with the laws of its writes.  `Replaces` is what createPatent and updatePatent do to it:
  clear the links of a patent, then insert a list.

  `Replaces.ofPatent` is the fact about both: after these writes the links of the patent are the
  list, or those that were there if none was supplied.  The writes may be applied to a later
  database, as long as the table is the one they were made on.

  A `LinkTable` carries, as its fields, what a write does to the table: an insert adds its row, a
  delete removes it, the DELETE of a patent takes its links along, and any other write leaves the
  table alone.  `categoryLinks` and `credits` prove these laws once, and everything after that is
  about any `LinkTable`.
-/
import SmartPatents.PatentTx

namespace SmartPatents.PatentService

open ReadCommitted Runs Access Lifecycle Relations Storage PatentEvents

/-- The patent whose links a write changes, cascades included. -/
def Write.relinks : Write → Option Nat
  | .deletePatent old => some old.id
  | w => w.linkOf

/-- A table of links of patents.  A link starts its key with the patent. -/
structure LinkTable {R : Type} (key : R → Nat × Nat) where
  table : Db → Table R key
  insert : R → Write
  delete : R → Write
  apply_insert : ∀ d l, table (apply d (insert l)) = (table d).put l
  apply_delete : ∀ d l, table (apply d (delete l)) = (table d).erase (key l)
  apply_cascade : ∀ d old, table (apply d (.deletePatent old)) =
    (table d).deleteWhere fun l => (key l).1 == old.id
  apply_other : ∀ d w, (∀ l, w ≠ insert l) → (∀ l, w ≠ delete l) →
    (∀ old, w ≠ .deletePatent old) → table (apply d w) = table d
  relinks_insert : ∀ l, (insert l).relinks = some (key l).1
  relinks_delete : ∀ l, (delete l).relinks = some (key l).1

/-- PATENT_CATEGORY. -/
def categoryLinks : LinkTable PatentCategory.key where
  table := Db.patentCategories
  insert := .insertCategory
  delete := .deleteCategory
  apply_insert := fun _ _ => rfl
  apply_delete := fun _ _ => rfl
  apply_cascade := fun _ _ => rfl
  apply_other := by
    intro d w hins hdel hcascade
    cases w with
    | insertCategory l => exact absurd rfl (hins l)
    | deleteCategory l => exact absurd rfl (hdel l)
    | deletePatent old => exact absurd rfl (hcascade old)
    | _ => rfl
  relinks_insert := fun _ => rfl
  relinks_delete := fun _ => rfl

/-- PATENT_INVENTOR. -/
def credits : LinkTable PatentInventor.key where
  table := Db.patentInventors
  insert := .insertInventor
  delete := .deleteInventor
  apply_insert := fun _ _ => rfl
  apply_delete := fun _ _ => rfl
  apply_cascade := fun _ _ => rfl
  apply_other := by
    intro d w hins hdel hcascade
    cases w with
    | insertInventor l => exact absurd rfl (hins l)
    | deleteInventor l => exact absurd rfl (hdel l)
    | deletePatent old => exact absurd rfl (hcascade old)
    | _ => rfl
  relinks_insert := fun _ => rfl
  relinks_delete := fun _ => rfl

namespace LinkTable

variable {R : Type} {key : R → Nat × Nat} (T : LinkTable key) {d : Db} {w : Write}
  {ws vs : List Write} {id : Nat}

/-- The links of a patent. -/
def ofPatent (d : Db) (id : Nat) : List R := (T.table d).rows.filter fun l => (key l).1 == id

/-- The links of a patent are those whose key begins with its id. -/
theorem mem_ofPatent {l : R} : l ∈ T.ofPatent d id ↔ l ∈ T.table d ∧ (key l).1 = id := by
  simp [ofPatent, Table.mem_def]

/-- Neither an insert nor a delete of this table, nor a cascade. -/
structure Foreign (w : Write) : Prop where
  insert : ∀ l, w ≠ T.insert l
  delete : ∀ l, w ≠ T.delete l
  cascade : ∀ old, w ≠ .deletePatent old

variable {T}

/-- A write that is no link write is foreign to both tables. -/
theorem foreign_of_relinks (h : w.relinks = none) : T.Foreign w := by
  refine ⟨?_, ?_, ?_⟩
  · rintro l rfl
    nomatch h.symm.trans (T.relinks_insert l)
  · rintro l rfl
    nomatch h.symm.trans (T.relinks_delete l)
  · rintro old rfl
    nomatch h

/-- Foreign writes leave the table alone. -/
theorem table_after_foreign (h : ∀ w ∈ ws, T.Foreign w) : T.table (after d ws) = T.table d :=
  Writes.keeps apply T.table fun w hw d =>
    T.apply_other d w (h w hw).insert (h w hw).delete (h w hw).cascade

/-- A write that is about another patent leaves the links of this one alone. -/
theorem ofPatent_apply (h : w.relinks ≠ some id) : T.ofPatent (apply d w) id = T.ofPatent d id := by
  by_cases hins : ∃ l, w = T.insert l
  · obtain ⟨l, rfl⟩ := hins
    rw [ofPatent, T.apply_insert]
    refine Table.filter_put fun s hs => ?_
    have hl : (key l).1 ≠ id := fun hid => h (hid ▸ T.relinks_insert l)
    simp [hs, hl]
  · by_cases hdel : ∃ l, w = T.delete l
    · obtain ⟨l, rfl⟩ := hdel
      rw [ofPatent, T.apply_delete]
      refine Table.filter_erase fun s hs => ?_
      have hl : (key l).1 ≠ id := fun hid => h (hid ▸ T.relinks_delete l)
      simp [hs, hl]
    · by_cases hcascade : ∃ old, w = .deletePatent old
      · obtain ⟨old, rfl⟩ := hcascade
        rw [ofPatent, T.apply_cascade]
        refine Table.filter_deleteWhere fun s hs => ?_
        have hold : old.id ≠ id := fun hid => h (congrArg some hid)
        have hs : (key s).1 = old.id := by simpa using hs
        simp [hs, hold]
      · rw [ofPatent, T.apply_other d w (fun l hl => hins ⟨l, hl⟩) (fun l hl => hdel ⟨l, hl⟩)
          fun old hold => hcascade ⟨old, hold⟩]
        rfl

/-- Writes about other patents leave the links of this one alone. -/
theorem ofPatent_after (h : ∀ w ∈ ws, w.relinks ≠ some id) :
    T.ofPatent (after d ws) id = T.ofPatent d id :=
  Writes.keeps apply (T.ofPatent · id) fun w hw _ => ofPatent_apply (h w hw)

/-- Several INSERTs, by induction on the rows. -/
theorem table_after_inserts : ∀ (ls : List R) (d : Db),
    T.table (after d (ls.map T.insert)) = (T.table d).putAll ls
  | [], _ => rfl
  | l :: ls, d => by
      have hrest : T.table (after (apply d (T.insert l)) (ls.map T.insert)) =
          (T.table (apply d (T.insert l))).putAll ls := table_after_inserts ls _
      rw [T.apply_insert] at hrest
      exact hrest

/-- Several DELETEs, by induction on the rows. -/
theorem table_after_deletes : ∀ (ls : List R) (d : Db),
    T.table (after d (ls.map T.delete)) = (T.table d).eraseAll (ls.map key)
  | [], _ => rfl
  | l :: ls, d => by
      have hrest : T.table (after (apply d (T.delete l)) (ls.map T.delete)) =
          (T.table (apply d (T.delete l))).eraseAll (ls.map key) := table_after_deletes ls _
      rw [T.apply_delete] at hrest
      exact hrest

/-! ## Replacing the links of a patent -/

variable (T)

/-- `vs` deletes the links of patent `id`. -/
def Clears (d : Db) (id : Nat) (vs : List Write) : Prop :=
  ∃ dead : List R, vs = dead.map T.delete ∧ (∀ l ∈ dead, (key l).1 = id) ∧
    ∀ l ∈ T.table d, (key l).1 = id → l ∈ dead

/-- `vs` puts `rows` in the place of the links of patent `id`; `none` leaves them alone. -/
def Replaces (d : Db) (id : Nat) (rows : Option (List R)) (vs : List Write) : Prop :=
  match rows with
  | none => vs = []
  | some rows => ∃ us, vs = us ++ rows.map T.insert ∧ T.Clears d id us ∧ (rows.map key).Nodup ∧
      ∀ l ∈ rows, (key l).1 = id

/-- `d` has no link of patent `id` that `d₀` does not have. -/
def NoNewLinks (d₀ d : Db) (id : Nat) : Prop := ∀ l ∈ T.table d, (key l).1 = id → l ∈ T.table d₀

/-- Every link belongs to a patent. -/
def Owned (d : Db) : Prop := ∀ l ∈ T.table d, ∃ row ∈ d.patents, row.id = (key l).1

variable {T} {d' : Db} {rows : Option (List R)}

/-- To delete what the patent has is to clear it. -/
theorem clears_of_mem {dead : List R} (h : ∀ l, l ∈ dead ↔ l ∈ T.ofPatent d id) :
    T.Clears d id (dead.map T.delete) :=
  ⟨dead, rfl, fun l hl => (T.mem_ofPatent.mp ((h l).mp hl)).2,
    fun l hl hid => (h l).mpr (T.mem_ofPatent.mpr ⟨hl, hid⟩)⟩

/-- A patent that does not exist yet has no links. -/
theorem clears_of_new (howned : T.Owned d) (hnew : ∀ row ∈ d.patents, row.id ≠ id) :
    T.Clears d id [] := by
  refine ⟨[], rfl, fun l hl => (List.not_mem_nil hl).elim, fun l hl hid => ?_⟩
  obtain ⟨row, hrow, hrowid⟩ := howned l hl
  exact absurd (hrowid.trans hid) (hnew row hrow)

/-- Links inserted after clearing replace the old ones. -/
theorem Clears.insert (h : T.Clears d id vs) {ls : List R} (hnodup : (ls.map key).Nodup)
    (howner : ∀ l ∈ ls, (key l).1 = id) : T.Replaces d id (some ls) (vs ++ ls.map T.insert) :=
  ⟨vs, rfl, h, hnodup, howner⟩

/-- No link is new where the links are the same. -/
theorem noNewLinks_of_ofPatent (h : T.ofPatent d' id = T.ofPatent d id) : T.NoNewLinks d d' id := by
  intro l hl hid
  exact (T.mem_ofPatent.mp (h ▸ T.mem_ofPatent.mpr ⟨hl, hid⟩)).1

/-- What clears all links still does when some are gone. -/
theorem Clears.mono (h : T.Clears d id vs) (hno : T.NoNewLinks d d' id) : T.Clears d' id vs := by
  obtain ⟨dead, hvs, howner, hall⟩ := h
  exact ⟨dead, hvs, howner, fun l hl hid => hall l (hno l hl hid) hid⟩

theorem Replaces.mono (h : T.Replaces d id rows vs) (hno : T.NoNewLinks d d' id) :
    T.Replaces d' id rows vs := by
  cases rows with
  | none => exact h
  | some rows =>
    obtain ⟨us, hvs, hclears, hrows⟩ := h
    exact ⟨us, hvs, hclears.mono hno, hrows⟩

/-- The writes of one link table are foreign to another. -/
theorem Replaces.foreign {R' : Type} {key' : R' → Nat × Nat} {S : LinkTable key'}
    (h : T.Replaces d id rows vs)
    (hforeign : ∀ l, S.Foreign (T.insert l) ∧ S.Foreign (T.delete l)) : ∀ w ∈ vs, S.Foreign w := by
  intro w hw
  cases rows with
  | none =>
    obtain rfl : vs = [] := h
    nomatch hw
  | some rows =>
    obtain ⟨us, rfl, ⟨dead, rfl, -⟩, -⟩ := h
    rcases List.mem_append.mp hw with hw | hw
    · obtain ⟨l, -, rfl⟩ := List.mem_map.mp hw
      exact (hforeign l).2
    · obtain ⟨l, -, rfl⟩ := List.mem_map.mp hw
      exact (hforeign l).1

/-- After it was cleared, a patent has no links. -/
theorem Clears.none_left (h : T.Clears d id vs) (hsame : T.table d' = T.table d) :
    ∀ l ∈ T.table (after d' vs), (key l).1 ≠ id := by
  obtain ⟨dead, rfl, -, hall⟩ := h
  intro l hl hid
  rw [table_after_deletes, Table.mem_eraseAll, hsame] at hl
  exact hl.2 (List.mem_map_of_mem (hall l hl.1 hid))

/-- **The links of a patent after they were replaced.** -/
theorem Replaces.ofPatent (h : T.Replaces d id rows vs) (hsame : T.table d' = T.table d) :
    T.ofPatent (after d' vs) id = rows.getD (T.ofPatent d id) := by
  cases rows with
  | none =>
    obtain rfl : vs = [] := h
    exact congrArg (fun t => t.rows.filter fun l => (key l).1 == id) hsame
  | some rows =>
    obtain ⟨us, rfl, hclears, hnodup, howner⟩ := h
    have hnone := hclears.none_left hsame
    have hrows : (T.table (after d' (us ++ rows.map T.insert))).rows =
        (T.table (after d' us)).rows ++ rows := by
      rw [after, List.foldl_append, table_after_inserts]
      refine Table.rows_putAll hnodup fun r hr s hs hk => ?_
      exact hnone s hs (by rw [hk, howner r hr])
    have hold : (T.table (after d' us)).rows.filter (fun l => (key l).1 == id) = [] :=
      List.filter_eq_nil_iff.mpr fun l hl => by simpa using hnone l hl
    have hnew : rows.filter (fun l => (key l).1 == id) = rows :=
      List.filter_eq_self.mpr fun l hl => by simpa using howner l hl
    rw [LinkTable.ofPatent, hrows, List.filter_append, hold, hnew]
    rfl

end LinkTable

/-- `relations.js` and the include read the tables through these queries. -/
theorem ofPatent_categoryLinks (d : Db) (id : Nat) :
    categoryLinks.ofPatent d id = d.categoryLinksOf id := rfl

/-- The credits of a patent are its links, in their credited order. -/
theorem creditsOf_eq (d : Db) (id : Nat) : d.creditsOf id =
    (credits.ofPatent d id).insertionSort fun a b => a.inventorOrder ≤ b.inventorOrder := rfl

theorem creditsOf_congr {d d' : Db} {id : Nat} (h : credits.ofPatent d' id = credits.ofPatent d id) :
    d'.creditsOf id = d.creditsOf id := by
  rw [creditsOf_eq, creditsOf_eq, h]

/-- Sorting loses none of them. -/
theorem mem_creditsOf {d : Db} {id : Nat} {l : PatentInventor} :
    l ∈ d.creditsOf id ↔ l ∈ credits.ofPatent d id := by
  rw [creditsOf_eq, List.mem_insertionSort]

/-- The writes of credits are foreign to the category links. -/
theorem foreign_categoryLinks (l : PatentInventor) :
    categoryLinks.Foreign (credits.insert l) ∧ categoryLinks.Foreign (credits.delete l) :=
  ⟨⟨nofun, nofun, nofun⟩, ⟨nofun, nofun, nofun⟩⟩

theorem foreign_credits (l : PatentCategory) :
    credits.Foreign (categoryLinks.insert l) ∧ credits.Foreign (categoryLinks.delete l) :=
  ⟨⟨nofun, nofun, nofun⟩, ⟨nofun, nofun, nofun⟩⟩

end SmartPatents.PatentService
