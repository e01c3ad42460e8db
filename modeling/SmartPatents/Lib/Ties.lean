/-
  Paging over an order with ties.

  Each page comes from a query of its own, and a query may arrange rows that the order does not
  separate in any way it likes (`Arrangement`).  In every arrangement a row lies somewhere in its
  group of ties: at a position from `before` on, and below `upTo`.  Both ends are taken: there is an
  arrangement with the row first of its group, and one with the row last.

  So all pages together are the rows, each once, whatever the queries answer, if and only if no group
  of ties crosses a page boundary: `pages_perm_iff`.

  The hard direction takes a group that crosses a boundary and builds two arrangements of the same
  rows, one with a row of the group before the boundary and one behind it (`around`): the page
  before it and the page behind it can then both show the row, or neither.
-/
import SmartPatents.Lib.Paging
import Mathlib.Data.List.Sort
import Mathlib.Data.List.Nodup

namespace Paging

variable {α : Type}

/-- A sort key: a total order up to ties. -/
structure SortKey (α : Type) where
  le : α → α → Bool
  total : ∀ a b, le a b = true ∨ le b a = true
  trans : ∀ {a b c}, le a b = true → le b c = true → le a c = true

variable {o : SortKey α} {rows l : List α} {r : α} {k n i j : Nat}

/-- One way to sort the rows. -/
structure Arrangement (o : SortKey α) (rows l : List α) : Prop where
  perm : l.Perm rows
  sorted : l.Pairwise fun a b => o.le a b = true

/-- The number of rows that come before `r` in every arrangement. -/
def before (o : SortKey α) (rows : List α) (r : α) : Nat := rows.countP fun x => !o.le r x

/-- The number of rows that come before `r` or are tied with it, `r` included. -/
def upTo (o : SortKey α) (rows : List α) (r : α) : Nat := rows.countP fun x => o.le x r

/-- First and last of every group of ties are on one page. -/
def TiesWithinPages (o : SortKey α) (k : Nat) (rows : List α) : Prop :=
  ∀ r ∈ rows, before o rows r / k = (upTo o rows r - 1) / k

theorem SortKey.refl (o : SortKey α) (a : α) : o.le a a = true := by
  rcases o.total a a with h | h <;> exact h

/-! ## Where a row can be -/

/-- The elements of page `i` are those at a position of page `i`. -/
theorem mem_page (hk : 0 < k) : r ∈ (l.drop (i * k)).take k ↔ ∃ j, l[j]? = some r ∧ j / k = i := by
  rw [List.mem_iff_getElem?]
  simp only [List.getElem?_take, List.getElem?_drop]
  constructor
  · rintro ⟨m, hm⟩
    split at hm
    · rename_i hlt
      refine ⟨i * k + m, hm, ?_⟩
      rw [Nat.mul_comm, Nat.mul_add_div hk, Nat.div_eq_of_lt hlt, Nat.add_zero]
    · cases hm
  · rintro ⟨j, hj, rfl⟩
    have hdiv := Nat.div_add_mod j k
    rw [Nat.mul_comm] at hdiv
    refine ⟨j % k, ?_⟩
    rw [if_pos (Nat.mod_lt j hk), hdiv]
    exact hj

/-- A list around the row at a position. -/
theorem exists_split (hj : l[j]? = some r) : ∃ s t, l = s ++ r :: t ∧ s.length = j := by
  obtain ⟨hlt, rfl⟩ := List.getElem?_eq_some_iff.mp hj
  refine ⟨l.take j, l.drop (j + 1), ?_, ?_⟩
  · rw [← List.drop_eq_getElem_cons, List.take_append_drop]
  · rw [List.length_take]
    omega

/-- In every arrangement a row lies in its group of ties. -/
theorem Arrangement.position (h : Arrangement o rows l) (hj : l[j]? = some r) :
    before o rows r ≤ j ∧ j < upTo o rows r := by
  obtain ⟨s, t, rfl, rfl⟩ := exists_split hj
  have hsorted := h.sorted
  rw [List.pairwise_append, List.pairwise_cons] at hsorted
  obtain ⟨-, ⟨hafter, -⟩, hacross⟩ := hsorted
  constructor
  -- what comes strictly before the row is in front of it
  · have hnone : (r :: t).countP (fun x => !o.le r x) = 0 := by
      rw [List.countP_eq_zero]
      intro x hx
      rcases List.mem_cons.mp hx with rfl | hx
      · simp [o.refl]
      · simp [hafter x hx]
    rw [before, ← h.perm.countP_eq, List.countP_append, hnone, Nat.add_zero]
    exact List.countP_le_length
  -- what is in front of the row comes before it or is tied with it
  · have hall : s.countP (fun x => o.le x r) = s.length :=
      List.countP_eq_length.mpr fun x hx => hacross x hx r List.mem_cons_self
    have hself : (r :: t).countP (fun x => o.le x r) = t.countP (fun x => o.le x r) + 1 :=
      List.countP_cons_of_pos (o.refl r)
    rw [upTo, ← h.perm.countP_eq, List.countP_append, hall, hself]
    omega

/-! ## Both ends are taken -/

/-- The rows by `o`. -/
def SortKey.sort (o : SortKey α) (rows : List α) : List α :=
  rows.insertionSort fun a b => o.le a b = true

/-- Sorting by insertion is one of the arrangements. -/
theorem SortKey.arrangement_sort (o : SortKey α) (rows : List α) :
    Arrangement o rows (o.sort rows) where
  perm := List.perm_insertionSort _ _
  sorted := by
    have : Std.Total fun a b => o.le a b = true := ⟨o.total⟩
    have : IsTrans α fun a b => o.le a b = true := ⟨fun _ _ _ => o.trans⟩
    exact List.pairwise_insertionSort _ _

/-- The group of `r`. -/
def SortKey.ties (o : SortKey α) (rows : List α) (r : α) : List α :=
  (rows.filter (o.le r)).filter fun x => o.le x r

/-- The group of `r` as `group` has it, between what comes before and what comes after. -/
def SortKey.around (o : SortKey α) (rows : List α) (r : α) (group : List α) : List α :=
  o.sort (rows.filter fun x => !o.le r x) ++
    (group ++ o.sort ((rows.filter (o.le r)).filter fun x => !o.le x r))

/-- The ties of a row are those that the key does not tell apart from it. -/
theorem SortKey.mem_ties {x : α} : x ∈ o.ties rows r ↔ x ∈ rows ∧ o.le r x = true ∧ o.le x r = true := by
  simp only [SortKey.ties, List.mem_filter, and_assoc]

/-- Any order of the group will do. -/
theorem SortKey.arrangement_around {group : List α} (hgroup : group.Perm (o.ties rows r)) :
    Arrangement o rows (o.around rows r group) where
  perm := by
    have hrest : (group ++ o.sort ((rows.filter (o.le r)).filter fun x => !o.le x r)).Perm
        (rows.filter (o.le r)) :=
      (hgroup.append (o.arrangement_sort _).perm).trans (List.filter_append_perm _ _)
    have hsplit := List.filter_append_perm (fun x => !o.le r x) rows
    simp only [Bool.not_not] at hsplit
    exact ((o.arrangement_sort _).perm.append hrest).trans hsplit
  sorted := by
    have htie : ∀ x ∈ group, o.le r x = true ∧ o.le x r = true := fun x hx =>
      (SortKey.mem_ties.mp (hgroup.mem_iff.mp hx)).2
    have hlow : ∀ x ∈ o.sort (rows.filter fun x => !o.le r x), o.le x r = true := by
      intro x hx
      rw [(o.arrangement_sort _).perm.mem_iff, List.mem_filter, Bool.not_eq_true'] at hx
      rcases o.total x r with h | h
      · exact h
      · rw [hx.2] at h
        cases h
    have hhigh : ∀ x ∈ o.sort ((rows.filter (o.le r)).filter fun x => !o.le x r),
        o.le r x = true := by
      intro x hx
      rw [(o.arrangement_sort _).perm.mem_iff, List.mem_filter, List.mem_filter] at hx
      exact hx.1.2
    rw [SortKey.around, List.pairwise_append, List.pairwise_append]
    refine ⟨(o.arrangement_sort _).sorted, ⟨?_, (o.arrangement_sort _).sorted, ?_⟩, ?_⟩
    · exact List.pairwise_of_forall_mem_list fun x hx y hy => o.trans (htie x hx).2 (htie y hy).1
    · exact fun x hx y hy => o.trans (htie x hx).2 (hhigh y hy)
    · intro x hx y hy
      rcases List.mem_append.mp hy with hy | hy
      · exact o.trans (hlow x hx) (htie y hy).1
      · exact o.trans (hlow x hx) (hhigh y hy)

/-- The ties of a row lie between those before it and those up to it. -/
theorem length_ties (o : SortKey α) (rows : List α) (r : α) :
    upTo o rows r = before o rows r + (o.ties rows r).length := by
  have hlow : (rows.filter fun x => !o.le r x).countP (fun x => o.le x r) =
      (rows.filter fun x => !o.le r x).length := by
    refine List.countP_eq_length.mpr fun x hx => ?_
    rw [List.mem_filter, Bool.not_eq_true'] at hx
    rcases o.total x r with h | h
    · exact h
    · rw [hx.2] at h
      cases h
  have hsplit := List.filter_append_perm (fun x => !o.le r x) rows
  simp only [Bool.not_not] at hsplit
  rw [upTo, ← hsplit.countP_eq, List.countP_append, hlow, before, List.countP_eq_length_filter,
    SortKey.ties, List.countP_eq_length_filter]

/-- The rows before a row, sorted, are as many as before. -/
theorem length_low (o : SortKey α) (rows : List α) (r : α) :
    (o.sort (rows.filter fun x => !o.le r x)).length = before o rows r := by
  rw [(o.arrangement_sort _).perm.length_eq, before, List.countP_eq_length_filter]

/-- `r` can be the first of its group. -/
theorem exists_first (hr : r ∈ rows) :
    ∃ l, Arrangement o rows l ∧ l[before o rows r]? = some r := by
  obtain ⟨s, t, hst⟩ := List.append_of_mem (SortKey.mem_ties.mpr ⟨hr, o.refl r, o.refl r⟩)
  refine ⟨o.around rows r (r :: (s ++ t)), SortKey.arrangement_around ?_, ?_⟩
  · rw [hst]
    exact List.perm_middle.symm
  · rw [SortKey.around, ← length_low o rows r, List.getElem?_append_right (Nat.le_refl _),
      Nat.sub_self]
    rfl

/-- `r` can be the last of its group. -/
theorem exists_last (hr : r ∈ rows) :
    ∃ l, Arrangement o rows l ∧ l[upTo o rows r - 1]? = some r := by
  obtain ⟨s, t, hst⟩ := List.append_of_mem (SortKey.mem_ties.mpr ⟨hr, o.refl r, o.refl r⟩)
  have hlen : upTo o rows r - 1 =
      (o.sort (rows.filter fun x => !o.le r x)).length + (s ++ t).length := by
    rw [length_ties, hst, length_low]
    simp only [List.length_append, List.length_cons]
    omega
  refine ⟨o.around rows r ((s ++ t) ++ [r]), SortKey.arrangement_around ?_, ?_⟩
  · rw [hst]
    exact (List.perm_append_singleton r (s ++ t)).trans List.perm_middle.symm
  · rw [SortKey.around, hlen, List.getElem?_append_right (Nat.le_add_right _ _),
      Nat.add_sub_cancel_left, List.append_assoc, List.getElem?_append_right (Nat.le_refl _),
      Nat.sub_self]
    rfl

/-! ## All pages -/

/-- The page on which every arrangement has `r`, if its group is on one page. -/
theorem Arrangement.page (h : Arrangement o rows l) (hties : TiesWithinPages o k rows)
    (hj : l[j]? = some r) : j / k = before o rows r / k := by
  have hr : r ∈ rows := h.perm.mem_iff.mp (List.mem_of_getElem? hj)
  obtain ⟨hlow, hhigh⟩ := h.position hj
  refine Nat.le_antisymm ?_ (Nat.div_le_div_right hlow)
  rw [hties r hr]
  exact Nat.div_le_div_right (by omega)

/-- The first `n` pages, each of an arrangement of its own. -/
def pages (k n : Nat) (answers : Nat → List α) : List α :=
  (List.range n).flatMap fun i => ((answers i).drop (i * k)).take k

/-- **Pages fit together if and only if no group of ties crosses a boundary.** -/
theorem pages_perm_iff (hnodup : rows.Nodup) (hk : 0 < k) (hn : rows.length ≤ n * k) :
    (∀ answers : Nat → List α, (∀ i, Arrangement o rows (answers i)) →
      (pages k n answers).Perm rows) ↔ TiesWithinPages o k rows := by
  have hpage : ∀ {r : α}, r ∈ rows → ∀ {j}, j < upTo o rows r → j / k < n := by
    intro r _ j hj
    have hle : upTo o rows r ≤ rows.length := List.countP_le_length
    rw [Nat.div_lt_iff_lt_mul hk]
    omega
  constructor
  · intro hall r hr
    obtain ⟨first, hfirst, hat⟩ := exists_first (o := o) hr
    obtain ⟨last, hlast, hend⟩ := exists_last (o := o) hr
    by_contra hne
    have hlt := (hlast.position hend).2
    have hle := Nat.div_le_div_right (c := k) (hlast.position hend).1
    have hcross : before o rows r / k < (upTo o rows r - 1) / k := by omega
    -- one query has the row first of its group, and a later one has it last
    have hperm := hall (fun i => if i = before o rows r / k then first else last) fun i => by
      by_cases h : i = before o rows r / k
      · simpa [h] using hfirst
      · simpa [h] using hlast
    have hdisjoint := (List.nodup_flatMap.mp (hperm.nodup_iff.mpr hnodup)).2
    rw [List.pairwise_iff_getElem] at hdisjoint
    have hclash := hdisjoint (before o rows r / k) ((upTo o rows r - 1) / k)
      (by rw [List.length_range]; exact hpage hr (hfirst.position hat).2)
      (by rw [List.length_range]; exact hpage hr hlt) hcross
    simp only [List.getElem_range, Function.onFun, if_pos, if_neg (Nat.ne_of_gt hcross)] at hclash
    exact hclash ((mem_page hk).mpr ⟨_, hat, rfl⟩) ((mem_page hk).mpr ⟨_, hend, rfl⟩)
  · intro hties answers hanswers
    have hnd : ∀ i, (answers i).Nodup := fun i => (hanswers i).perm.nodup_iff.mpr hnodup
    refine (List.perm_ext_iff_of_nodup ?_ hnodup).mpr fun r => ?_
    · refine List.nodup_flatMap.mpr ⟨fun i _ => ?_, ?_⟩
      · exact (hnd i).sublist ((List.take_sublist _ _).trans (List.drop_sublist _ _))
      -- a row on two pages would be on the page of its group twice
      · refine (List.nodup_range).imp fun {i i'} hne r hi hi' => hne ?_
        obtain ⟨j, hj, rfl⟩ := (mem_page hk).mp hi
        obtain ⟨j', hj', rfl⟩ := (mem_page hk).mp hi'
        rw [(hanswers _).page hties hj, (hanswers _).page hties hj']
    · simp only [pages, List.mem_flatMap, List.mem_range]
      constructor
      · rintro ⟨i, -, hmem⟩
        exact (hanswers i).perm.mem_iff.mp (List.mem_of_mem_drop (List.mem_of_mem_take hmem))
      · intro hr
        have hmem := (hanswers (before o rows r / k)).perm.mem_iff.mpr hr
        obtain ⟨j, hj⟩ := List.mem_iff_getElem?.mp hmem
        have hat := (hanswers _).page hties hj
        refine ⟨before o rows r / k, ?_, (mem_page hk).mpr ⟨j, hj, hat⟩⟩
        rw [← hat]
        exact hpage hr ((hanswers _).position hj).2

end Paging
