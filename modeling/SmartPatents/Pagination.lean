/-
  `frontend/src/components/ui/Pagination.tsx`.

  Up to seven pages are all listed.  Of more pages only the first, the last and those around the
  current one are, with a gap between two that do not follow one another.  No gap is empty, and no
  page is left out without one, wherever the current page lies (`elides_pageWindow`).

  `Elides` compares a window with the list of all pages from the left: a page stands for itself,
  and a gap for one page or more.  The second half of the result says which pages are listed, in
  terms of the current one.

  The current page may lie outside of the list, as when rows have been deleted since; the window
  is then about the pages that are there, and the buttons lead to them or back (`target_bounds`).
-/
import Mathlib.Data.List.Dedup
import Mathlib.Data.List.Sort

namespace SmartPatents.Pagination

/-! ## The pages that are listed -/

/-- The set of pages, filtered and sorted. -/
def sorted (page total : Nat) : List Nat :=
  ([1, total, page, page - 1, page + 1].dedup.filter fun p => 1 ≤ p && p ≤ total).insertionSort
    (· ≤ ·)

/-- The loop; -1 marks a gap, and `prev` is 0 before the first page. -/
def withGaps (prev : Nat) : List Nat → List Int
  | [] => []
  | p :: ps =>
    if prev ≠ 0 ∧ p - prev > 1 then -1 :: (p : Int) :: withGaps p ps
    else (p : Int) :: withGaps p ps

/-- `pageWindow`; a negative entry is an ellipsis. -/
def pageWindow (page total : Nat) : List Int :=
  if total ≤ 7 then (List.range' 1 total).map Int.ofNat else withGaps 0 (sorted page total)

/-- The buttons that are not disabled, in the pages that they lead to. -/
def targets (page totalPages : Nat) : List Nat :=
  if totalPages > 1 then
    (if page ≤ 1 then [] else [page - 1]) ++
      ((pageWindow page totalPages).filter (· ≠ -1)).map Int.toNat ++
        if page ≥ totalPages then [] else [page + 1]
  else []

example : pageWindow 6 20 = [1, -1, 5, 6, 7, -1, 20] := by decide

/-! ## Nothing is left out without a gap -/

/-- The window stands for the pages; a gap stands for one page or more. -/
inductive Elides : List Int → List Nat → Prop
  | nil : Elides [] []
  | page {w : List Int} {ps : List Nat} (p : Nat) (h : Elides w ps) :
      Elides ((p : Int) :: w) (p :: ps)
  | gap {w : List Int} {ps hidden : List Nat} (hne : hidden ≠ []) (h : Elides w ps) :
      Elides (-1 :: w) (hidden ++ ps)

/-- An item is a gap or a page. -/
theorem Elides.item {w : List Int} {ps : List Nat} {q : Int} (h : Elides w ps) (hq : q ∈ w) :
    q = -1 ∨ ∃ p ∈ ps, q = (p : Int) := by
  induction h with
  | nil => exact absurd hq List.not_mem_nil
  | page p h ih =>
    rcases List.mem_cons.mp hq with rfl | hq
    · exact Or.inr ⟨p, List.mem_cons_self, rfl⟩
    · exact (ih hq).imp_right fun ⟨p', hp', heq⟩ => ⟨p', List.mem_cons_of_mem _ hp', heq⟩
  | gap hne h ih =>
    rcases List.mem_cons.mp hq with rfl | hq
    · exact Or.inl rfl
    · exact (ih hq).imp_right fun ⟨p', hp', heq⟩ => ⟨p', List.mem_append_right _ hp', heq⟩

/-- Without gaps, all pages are there. -/
theorem elides_ofNat (ps : List Nat) : Elides (ps.map Int.ofNat) ps := by
  induction ps with
  | nil => exact .nil
  | cons p ps ih => exact .page p ih

/-- The loop leaves out pages at its gaps only, by induction on the pages that are left. -/
theorem elides_withGaps {total : Nat} {ps : List Nat} : ∀ {prev : Nat},
    ps.Pairwise (· < ·) → (∀ p ∈ ps, prev < p ∧ p ≤ total) → (prev = total ∨ total ∈ ps) →
      (prev = 0 → 1 ∈ ps) → Elides (withGaps prev ps) (List.range' (prev + 1) (total - prev)) := by
  induction ps with
  | nil =>
    intro prev _ _ hlast _
    obtain rfl := hlast.resolve_right List.not_mem_nil
    rw [Nat.sub_self]
    exact .nil
  | cons p ps ih =>
    intro prev hsorted hbounds hlast hfirst
    obtain ⟨habove, hsorted⟩ := List.pairwise_cons.mp hsorted
    obtain ⟨hlt, hle⟩ := hbounds p List.mem_cons_self
    have hrest : Elides (withGaps p ps) (List.range' (p + 1) (total - p)) := by
      refine ih hsorted (fun q hq => ⟨habove q hq, (hbounds q (List.mem_cons_of_mem _ hq)).2⟩) ?_ ?_
      · rcases hlast with hlast | hlast
        · omega
        · rcases List.mem_cons.mp hlast with rfl | hlast
          · exact Or.inl rfl
          · exact Or.inr hlast
      · intro hp
        omega
    have hsplit : List.range' (prev + 1) (total - prev) =
        List.range' (prev + 1) (p - prev - 1) ++ p :: List.range' (p + 1) (total - p) := by
      rw [← List.range'_succ, List.range'_eq_append_iff]
      exact ⟨p - prev - 1, by omega, rfl, by congr 1 <;> omega⟩
    rw [withGaps, hsplit]
    split
    · rename_i hgap
      exact .gap (by rw [Ne, List.range'_eq_nil_iff]; omega) (.page p hrest)
    · rename_i hgap
      have hnone : p - prev - 1 = 0 := by
        by_cases hprev : prev = 0
        · -- page 1 is on the list, and nothing comes before `p`
          rcases List.mem_cons.mp (hfirst hprev) with h | h
          · omega
          · have := habove 1 h
            omega
        · omega
      rw [hnone]
      exact .page p hrest

/-! ## What is on the list -/

/-- The pages that are always shown: the first, the last, and those around the current one. -/
theorem mem_sorted {page total p : Nat} : p ∈ sorted page total ↔
    (1 ≤ p ∧ p ≤ total) ∧ (p = 1 ∨ p = total ∨ p + 1 = page ∨ p = page ∨ p = page + 1) := by
  rw [sorted, List.mem_insertionSort, List.mem_filter, List.mem_dedup]
  simp only [List.mem_cons, List.not_mem_nil, or_false, Bool.and_eq_true, decide_eq_true_eq]
  omega

/-- They are in order, each once. -/
theorem sorted_lt (page total : Nat) : (sorted page total).Pairwise (· < ·) := by
  have hle : (sorted page total).Pairwise (· ≤ ·) := List.pairwise_insertionSort _ _
  have hne : (sorted page total).Pairwise (· ≠ ·) :=
    (List.perm_insertionSort _ _).nodup_iff.mpr ((List.nodup_dedup _).filter _)
  exact (hle.and hne).imp fun h => Nat.lt_of_le_of_ne h.1 h.2

/-- The loop drops none of them. -/
theorem mem_withGaps {ps : List Nat} {p : Nat} : ∀ {prev : Nat},
    (p : Int) ∈ withGaps prev ps ↔ p ∈ ps := by
  induction ps with
  | nil =>
    intro prev
    rw [withGaps]
    constructor
    · intro h
      exact absurd h List.not_mem_nil
    · intro h
      exact absurd h List.not_mem_nil
  | cons q ps ih =>
    intro prev
    have hpage : (p : Int) ≠ -1 := by omega
    rw [withGaps]
    split
    · rw [List.mem_cons, List.mem_cons, List.mem_cons, ih, Int.natCast_inj]
      exact or_iff_right hpage
    · rw [List.mem_cons, List.mem_cons, ih, Int.natCast_inj]

/-- The window is the list of pages with gaps. -/
theorem elides_window (page total : Nat) :
    Elides (pageWindow page total) (List.range' 1 total) := by
  unfold pageWindow
  split
  · exact elides_ofNat _
  · rename_i hmany
    refine elides_withGaps (sorted_lt page total) ?_ ?_ ?_
    · intro p hp
      have := (mem_sorted.mp hp).1
      omega
    · exact Or.inr (mem_sorted.mpr (by omega))
    · intro _
      exact mem_sorted.mpr (by omega)

/-- Which pages have a button. -/
theorem mem_pageWindow {page total p : Nat} : (p : Int) ∈ pageWindow page total ↔
    (1 ≤ p ∧ p ≤ total) ∧
      (total ≤ 7 ∨ p = 1 ∨ p = total ∨ p + 1 = page ∨ p = page ∨ p = page + 1) := by
  unfold pageWindow
  split
  · constructor
    · intro hp
      obtain ⟨q, hq, hqp⟩ := List.mem_map.mp hp
      obtain rfl : q = p := Int.ofNat.inj hqp
      have := List.mem_range'_1.mp hq
      omega
    · intro hp
      exact List.mem_map.mpr ⟨p, List.mem_range'_1.mpr (by omega), rfl⟩
  · rw [mem_withGaps, mem_sorted]
    omega

/-- **The window** stands for all pages, in order, and lists those that it should. -/
theorem elides_pageWindow (page total : Nat) :
    Elides (pageWindow page total) (List.range' 1 total) ∧
      ∀ p : Nat, (p : Int) ∈ pageWindow page total ↔ (1 ≤ p ∧ p ≤ total) ∧
        (total ≤ 7 ∨ p = 1 ∨ p = total ∨ p + 1 = page ∨ p = page ∨ p = page + 1) :=
  ⟨elides_window page total, fun _ => mem_pageWindow⟩

/-- A button leads to a page that there is, or back. -/
theorem target_bounds {page totalPages t : Nat} (h : t ∈ targets page totalPages) :
    1 ≤ t ∧ (t ≤ totalPages ∨ t < page) := by
  unfold targets at h
  split at h
  · rcases List.mem_append.mp h with h | h
    · rcases List.mem_append.mp h with h | h
      · split at h
        · exact absurd h List.not_mem_nil
        · have := List.mem_singleton.mp h
          omega
      · obtain ⟨q, hq, rfl⟩ := List.mem_map.mp h
        obtain ⟨hq, hgap⟩ := List.mem_filter.mp hq
        rcases (elides_window page totalPages).item hq with rfl | ⟨p, hp, rfl⟩
        · exact absurd hgap (by decide)
        · have := List.mem_range'_1.mp hp
          rw [Int.toNat_natCast]
          omega
    · split at h
      · exact absurd h List.not_mem_nil
      · have := List.mem_singleton.mp h
        omega
  · exact absurd h List.not_mem_nil

end SmartPatents.Pagination
