/-
  Lists of writes.

  A transaction is a list of row writes that are applied one after the other.  What every write
  leaves alone the list leaves alone (`keeps`), and what holds after the list held before it or is
  the work of one of the writes (`back`).  For an invariant there is `List.foldlRecOn`.

  These two are all that a proof about a transaction needs when the transaction is known as a
  list: what did not change, and where a row comes from.
-/

namespace Writes

variable {D W β : Type} (apply : D → W → D) {ws : List W} {d : D}

/-- What every write of a list leaves alone, the list leaves alone. -/
theorem keeps (f : D → β) (h : ∀ w ∈ ws, ∀ d, f (apply d w) = f d) :
    f (ws.foldl apply d) = f d :=
  List.foldlRecOn (motive := fun d' => f d' = f d) ws apply rfl
    fun d' hd' w hw => (h w hw d').trans hd'

/-- What holds after a list of writes held before, or one of the writes has brought it about. -/
theorem back {P : D → Prop} {Q : W → Prop} (h : ∀ w ∈ ws, ∀ d, P (apply d w) → P d ∨ Q w)
    (hafter : P (ws.foldl apply d)) : P d ∨ ∃ w ∈ ws, Q w := by
  refine List.foldlRecOn (motive := fun d' => P d' → P d ∨ ∃ w ∈ ws, Q w) ws apply Or.inl
    (fun d' hd' w hw hP => ?_) hafter
  rcases h w hw d' hP with hP | hQ
  · exact hd' hP
  · exact Or.inr ⟨w, hw, hQ⟩

end Writes
