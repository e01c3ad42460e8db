/-
  Cutting a list into pages.

  Page `i` (from 0) of size `k` is `(l.drop (i * k)).take k`.  The first `n` pages together are the
  first `n * k` elements, whatever `l` is, so enough pages are the whole list and every later one
  is empty.

  A page is cut from a SORTED list.  If the order separates all elements, sorting has only one
  possible result (`eq_of_separated`), and pages that come from different queries fit together.

  `page_eq_nil` and `flatMap_pages_of_le` are the two facts about the end of the list, and
  `le_pages` is where the division of the page count rounds up.
-/
import Mathlib.Data.List.Sort

namespace Paging

variable {α : Type}

/-- The first `n` pages of size `k`, one after the other. -/
theorem flatMap_pages (k : Nat) (l : List α) (n : Nat) :
    (List.range n).flatMap (fun i => (l.drop (i * k)).take k) = l.take (n * k) := by
  induction n with
  | zero => simp
  | succ n ih =>
    have hlast : [n].flatMap (fun i => (l.drop (i * k)).take k) = (l.drop (n * k)).take k := by
      simp
    rw [List.range_succ, List.flatMap_append, ih, hlast, Nat.succ_mul, List.take_add]

/-- `⌈length / k⌉` pages hold everything. -/
theorem le_pages {k : Nat} (hk : 0 < k) (len : Nat) : len ≤ (len + k - 1) / k * k := by
  have hdiv := Nat.div_add_mod (len + k - 1) k
  have hmod := Nat.mod_lt (len + k - 1) hk
  have hcomm := Nat.mul_comm k ((len + k - 1) / k)
  omega

/-- Enough pages are the whole list. -/
theorem flatMap_pages_of_le {k n : Nat} {l : List α} (h : l.length ≤ n * k) :
    (List.range n).flatMap (fun i => (l.drop (i * k)).take k) = l := by
  rw [flatMap_pages, List.take_of_length_le h]

/-- What comes after the whole list is empty. -/
theorem page_eq_nil {k n i : Nat} {l : List α} (h : l.length ≤ n * k) (hi : n ≤ i) :
    (l.drop (i * k)).take k = [] := by
  have hle : n * k ≤ i * k := Nat.mul_le_mul_right k hi
  rw [List.drop_eq_nil_of_le (by omega), List.take_nil]

/-- Sorting by an order that separates the elements has only one result. -/
theorem eq_of_separated {le : α → α → Prop} {l l' : List α} (hperm : l.Perm l')
    (hl : l.Pairwise le) (hl' : l'.Pairwise le)
    (hsep : ∀ a ∈ l, ∀ b ∈ l, le a b → le b a → a = b) : l = l' :=
  hperm.eq_of_pairwise (fun a b ha hb hab hba => hsep a ha b (hperm.mem_iff.mpr hb) hab hba) hl hl'

end Paging
