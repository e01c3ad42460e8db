/-
  Tables with a primary key.

  A `Table R key` is a list of rows together with the proof that no two of them have the same key,
  so the constraint never has to be carried as a separate hypothesis.  Rows keep the order of their
  insertion; an update replaces a row where it stands.  Everything a client needs is `mem_put`,
  `mem_erase` and `eq_of_key` (reasoning by membership), or the `get?` equations.

  The order of rows matters where a query has no ORDER BY and finds the first row; everywhere else
  reasoning is by membership.  `putAll` and `eraseAll` are folds of the single operations and have
  the lemmas of both.

  The equations for `get?` come in pairs: at the key that was written, and at any other.
  `eq_of_key` is what a primary key is for: two rows with one key are one row.
-/

/-- The rows of a table, no two with the same key. -/
structure Table (R : Type) {κ : Type} (key : R → κ) where
  rows : List R
  nodup : (rows.map key).Nodup

namespace Table

variable {R κ : Type} {key : R → κ}

instance : Membership R (Table R key) := ⟨fun t r => r ∈ t.rows⟩

theorem mem_def {t : Table R key} {r : R} : r ∈ t ↔ r ∈ t.rows := Iff.rfl

instance [DecidableEq R] (r : R) (t : Table R key) : Decidable (r ∈ t) :=
  inferInstanceAs (Decidable (r ∈ t.rows))

/-- The table without rows. -/
def empty : Table R key := ⟨[], List.nodup_nil⟩

@[simp] theorem not_mem_empty (r : R) : ¬ r ∈ (empty : Table R key) := fun h => nomatch h

/-- The key determines the row. -/
theorem eq_of_key {t : Table R key} {r s : R} (hr : r ∈ t) (hs : s ∈ t) (h : key r = key s) :
    r = s := by
  have hp := List.pairwise_map.mp t.nodup
  rcases List.mem_iff_getElem.mp hr with ⟨i, hi, rfl⟩
  rcases List.mem_iff_getElem.mp hs with ⟨j, hj, rfl⟩
  have hlt := List.pairwise_iff_getElem.mp hp
  rcases Nat.lt_trichotomy i j with hij | hij | hij
  · exact absurd h (hlt i j hi hj hij)
  · simp only [hij]
  · exact absurd h.symm (hlt j i hj hi hij)

/-- SELECT the first row that satisfies a condition (used for unique columns). -/
def find? (t : Table R key) (p : R → Bool) : Option R := t.rows.find? p

/-- What a search finds is a row that satisfies the condition. -/
theorem find?_some {t : Table R key} {p : R → Bool} {r : R} (h : t.find? p = some r) :
    r ∈ t ∧ p r = true :=
  ⟨List.mem_of_find?_eq_some h, List.find?_some h⟩

/-- Where it finds nothing, no row does. -/
theorem find?_none {t : Table R key} {p : R → Bool} (h : t.find? p = none) :
    ∀ r ∈ t, p r = false := by
  intro r hr
  simpa using List.find?_eq_none.mp h r hr

variable [DecidableEq κ]

/-- SELECT by primary key. -/
def get? (t : Table R key) (k : κ) : Option R := t.rows.find? fun r => key r == k

/-- A row is found under its key, since no other has it. -/
theorem get?_eq_some {t : Table R key} {k : κ} {r : R} :
    t.get? k = some r ↔ r ∈ t ∧ key r = k := by
  constructor
  · intro h
    exact ⟨List.mem_of_find?_eq_some h, by simpa using List.find?_some h⟩
  · rintro ⟨hr, rfl⟩
    cases hf : t.rows.find? (fun s => key s == key r) with
    | none => exact absurd (List.find?_eq_none.mp hf r hr) (by simp)
    | some s =>
      have hs : key s = key r := by simpa using List.find?_some hf
      rw [get?, hf, eq_of_key (List.mem_of_find?_eq_some hf) hr hs]

theorem get?_of_mem {t : Table R key} {r : R} (h : r ∈ t) : t.get? (key r) = some r :=
  get?_eq_some.mpr ⟨h, rfl⟩

/-- Nothing is found under a key that no row has. -/
theorem get?_eq_none {t : Table R key} {k : κ} : t.get? k = none ↔ ∀ r ∈ t, key r ≠ k := by
  rw [get?, List.find?_eq_none]
  exact forall_congr' fun r => by simp [mem_def]

/-- Looking up a list of keys that all have a row gives rows with these keys, in this order. -/
theorem map_key_filterMap_get? (t : Table R key) :
    ∀ ks : List κ, (∀ k ∈ ks, ∃ r ∈ t, key r = k) → (ks.filterMap t.get?).map key = ks
  | [], _ => rfl
  | k :: ks, h => by
      obtain ⟨r, hr, rfl⟩ := h k List.mem_cons_self
      rw [List.filterMap_cons, get?_of_mem hr, List.map_cons,
        map_key_filterMap_get? t ks fun k hk => h k (List.mem_cons_of_mem _ hk)]

/-- INSERT a row, or UPDATE the row that has its key. -/
def put (t : Table R key) (r : R) : Table R key :=
  if h : ∃ s ∈ t.rows, key s = key r then
    { rows := t.rows.map fun s => if key s = key r then r else s
      nodup := by
        have heq : (t.rows.map fun s => if key s = key r then r else s).map key
            = t.rows.map key := by
          rw [List.map_map]
          refine List.map_congr_left fun s _ => ?_
          by_cases hs : key s = key r
          · simp [hs]
          · simp [hs]
        rw [heq]
        exact t.nodup }
  else
    { rows := t.rows ++ [r]
      nodup := by
        rw [List.map_append, List.nodup_append]
        refine ⟨t.nodup, by simp, fun a ha b hb hab => h ?_⟩
        obtain ⟨s, hs, rfl⟩ := List.mem_map.mp ha
        obtain rfl : b = key r := by simpa using hb
        exact ⟨s, hs, hab⟩ }

/-- A row written replaces the one under its key. -/
theorem mem_put {t : Table R key} {r x : R} :
    x ∈ t.put r ↔ x = r ∨ (x ∈ t ∧ key x ≠ key r) := by
  unfold put
  split
  · rename_i h
    simp only [mem_def, List.mem_map]
    constructor
    · rintro ⟨s, hs, rfl⟩
      by_cases hk : key s = key r
      · rw [if_pos hk]; exact Or.inl rfl
      · rw [if_neg hk]; exact Or.inr ⟨hs, hk⟩
    · rintro (rfl | ⟨hx, hk⟩)
      · obtain ⟨s, hs, hk⟩ := h
        exact ⟨s, hs, if_pos hk⟩
      · exact ⟨x, hx, if_neg hk⟩
  · rename_i h
    simp only [mem_def, List.mem_append, List.mem_singleton]
    constructor
    · rintro (hx | rfl)
      · exact Or.inr ⟨hx, fun hk => h ⟨x, hx, hk⟩⟩
      · exact Or.inl rfl
    · rintro (rfl | ⟨hx, -⟩)
      · exact Or.inr rfl
      · exact Or.inl hx

/-- An INSERT appends the row. -/
theorem rows_put_of_new {t : Table R key} {r : R} (h : ∀ s ∈ t, key s ≠ key r) :
    (t.put r).rows = t.rows ++ [r] := by
  unfold put
  rw [dif_neg]
  rintro ⟨s, hs, hk⟩
  exact h s hs hk

theorem get?_put (t : Table R key) (r : R) (k : κ) :
    (t.put r).get? k = if k = key r then some r else t.get? k := by
  by_cases hk : k = key r
  · rw [if_pos hk]
    exact get?_eq_some.mpr ⟨mem_put.mpr (Or.inl rfl), hk.symm⟩
  · rw [if_neg hk]
    apply Option.ext
    intro x
    rw [get?_eq_some, get?_eq_some, mem_put]
    constructor
    · rintro ⟨rfl | ⟨hx, -⟩, hkx⟩
      · exact absurd hkx.symm hk
      · exact ⟨hx, hkx⟩
    · rintro ⟨hx, hkx⟩
      exact ⟨Or.inr ⟨hx, fun h => hk (hkx ▸ h)⟩, hkx⟩

/-- UPDATE every row by `f`, which keeps the key. -/
def update (t : Table R key) (f : R → R) (hkey : ∀ r, key (f r) = key r) : Table R key where
  rows := t.rows.map f
  nodup := by
    have heq : (t.rows.map f).map key = t.rows.map key := by
      rw [List.map_map]
      exact List.map_congr_left fun r _ => hkey r
    rw [heq]
    exact t.nodup

omit [DecidableEq κ] in

/-- An UPDATE of all rows, row by row. -/
theorem mem_update {t : Table R key} {f : R → R} {hkey : ∀ r, key (f r) = key r} {x : R} :
    x ∈ t.update f hkey ↔ ∃ r ∈ t, f r = x := by
  simp [mem_def, update]

/-- It moves no row to another key. -/
theorem get?_update (t : Table R key) (f : R → R) (hkey : ∀ r, key (f r) = key r) (k : κ) :
    (t.update f hkey).get? k = (t.get? k).map f := by
  rw [get?, get?, update, List.find?_map]
  congr 2
  funext r
  simp [hkey]

/-- DELETE by primary key. -/
def erase (t : Table R key) (k : κ) : Table R key where
  rows := t.rows.filter fun r => key r != k
  nodup := by
    have hsub : ((t.rows.filter fun r => key r != k).map key).Sublist (t.rows.map key) :=
      List.filter_sublist.map key
    exact t.nodup.sublist hsub

/-- A DELETE takes away the row under a key. -/
theorem mem_erase {t : Table R key} {k : κ} {x : R} : x ∈ t.erase k ↔ x ∈ t ∧ key x ≠ k := by
  simp [mem_def, erase]

/-- DELETE every row that satisfies a condition. -/
def deleteWhere (t : Table R key) (p : R → Bool) : Table R key where
  rows := t.rows.filter fun r => !p r
  nodup := by
    have hsub : ((t.rows.filter fun r => !p r).map key).Sublist (t.rows.map key) :=
      List.filter_sublist.map key
    exact t.nodup.sublist hsub

omit [DecidableEq κ] in

/-- A conditional DELETE takes away the rows that satisfy the condition. -/
theorem mem_deleteWhere {t : Table R key} {p : R → Bool} {x : R} :
    x ∈ t.deleteWhere p ↔ x ∈ t ∧ p x = false := by
  simp [mem_def, deleteWhere]

theorem get?_erase (t : Table R key) (k k' : κ) :
    (t.erase k').get? k = if k = k' then none else t.get? k := by
  by_cases hk : k = k'
  · rw [if_pos hk, get?_eq_none]
    intro r hr hkr
    exact (mem_erase.mp hr).2 (hkr.trans hk)
  · rw [if_neg hk]
    apply Option.ext
    intro x
    rw [get?_eq_some, get?_eq_some, mem_erase]
    exact ⟨fun h => ⟨h.1.1, h.2⟩, fun h => ⟨⟨h.1, fun hx => hk (h.2.symm.trans hx)⟩, h.2⟩⟩

/-! ## Several rows at once -/

/-- INSERT several rows. -/
def putAll (t : Table R key) (rs : List R) : Table R key := rs.foldl put t

/-- DELETE several rows by primary key. -/
def eraseAll (t : Table R key) (ks : List κ) : Table R key := ks.foldl erase t

/-- Rows with new keys, all different, are appended in their order. -/
theorem rows_putAll : ∀ {t : Table R key} {rs : List R}, (rs.map key).Nodup →
    (∀ r ∈ rs, ∀ s ∈ t, key s ≠ key r) → (t.putAll rs).rows = t.rows ++ rs
  | t, [], _, _ => (List.append_nil _).symm
  | t, r :: rs, hnodup, hnew => by
      obtain ⟨hr, hnodup⟩ := List.nodup_cons.mp hnodup
      have hfirst : (t.put r).rows = t.rows ++ [r] := rows_put_of_new (hnew r List.mem_cons_self)
      have hrest : ((t.put r).putAll rs).rows = (t.put r).rows ++ rs := by
        refine rows_putAll hnodup fun r' hr' s hs => ?_
        rcases mem_put.mp hs with rfl | ⟨hs, -⟩
        · exact fun h => hr (h ▸ List.mem_map_of_mem hr')
        · exact hnew r' (List.mem_cons_of_mem r hr') s hs
      rw [putAll, List.foldl_cons, ← putAll, hrest, hfirst, List.append_assoc]
      rfl

/-- Several DELETEs, by induction on the keys. -/
theorem mem_eraseAll : ∀ {ks : List κ} {t : Table R key} {x : R},
    x ∈ t.eraseAll ks ↔ x ∈ t ∧ key x ∉ ks
  | [], t, x => by simp [eraseAll]
  | k :: ks, t, x => by
      have hrest : x ∈ (t.erase k).eraseAll ks ↔ x ∈ t.erase k ∧ key x ∉ ks := mem_eraseAll
      rw [eraseAll, List.foldl_cons, ← eraseAll, hrest, mem_erase, List.mem_cons, not_or, and_assoc]

/-- A write to a row that a condition leaves out is not seen by a query under the condition. -/
theorem filter_put {t : Table R key} {r : R} {p : R → Bool}
    (h : ∀ s, key s = key r → p s = false) : (t.put r).rows.filter p = t.rows.filter p := by
  unfold put
  split
  · dsimp only
    rw [List.filter_map]
    have hp : (p ∘ fun s => if key s = key r then r else s) = p := by
      funext s
      by_cases hs : key s = key r
      · simp [hs, h s hs, h r rfl]
      · simp [hs]
    rw [hp]
    have hsame : (t.rows.filter p).map (fun s => if key s = key r then r else s) =
        (t.rows.filter p).map id := by
      refine List.map_congr_left fun s hs => if_neg fun hk => ?_
      have hseen := (List.mem_filter.mp hs).2
      rw [h s hk] at hseen
      nomatch hseen
    rw [hsame, List.map_id]
  · simp [h r rfl]

/-- A DELETE of what a filter does not show changes nothing it shows. -/
theorem filter_erase {t : Table R key} {k : κ} {p : R → Bool}
    (h : ∀ s, key s = k → p s = false) : (t.erase k).rows.filter p = t.rows.filter p := by
  rw [erase, List.filter_filter]
  refine List.filter_congr fun s _ => ?_
  by_cases hs : key s = k
  · simp [hs, h s hs]
  · simp [hs]

omit [DecidableEq κ] in
theorem filter_deleteWhere {t : Table R key} {q p : R → Bool}
    (h : ∀ s, q s = true → p s = false) : (t.deleteWhere q).rows.filter p = t.rows.filter p := by
  rw [deleteWhere, List.filter_filter]
  refine List.filter_congr fun s _ => ?_
  cases hq : q s
  · simp
  · simp [h s hq]

end Table
