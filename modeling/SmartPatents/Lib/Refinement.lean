/-
  Refinement of a serial log by an abstract machine.

  The processes of a `Machine` run side by side; its log is a serial execution of transactions.  An
  abstract machine says what these are for: it is a partial function `serve` on states of its own,
  and serves one operation at a time, or refuses it.  A transaction stands for an operation, or for
  none (`op`), and the database for an abstract state (`abs`).  If every transaction does to the
  abstract state what its operation does, then the abstract machine accepts the whole log and ends
  in the state of the database (`Serial.refines`).

  The abstract machine is executable, so that for a concrete log the two sides can be evaluated
  and compared.  Nothing is asked about transactions in between, since there is no in between: the
  log is serial.
-/
import SmartPatents.Lib.Serial

namespace ReadCommitted

open Runs

namespace Machine

variable {D X W K O E L A B : Type} {M : Machine D X W K O E L}
  {Tx : Nat → D → List (Nat × List W) → List W → Prop} {d : D} {log : List (Nat × List W)}

/-- Operation `b` leads from `a` to `a'`; no operation leads nowhere. -/
def Serves (serve : A → B → Option A) (a : A) (b : Option B) (a' : A) : Prop :=
  match b with
  | none => a' = a
  | some b => serve a b = some a'

/-- One more operation at the end of a schedule. -/
theorem exec_concat {serve : A → B → Option A} {b : B} : ∀ {bs : List B} {a a' a'' : A},
    exec serve a bs = some a' → serve a' b = some a'' → exec serve a (bs ++ [b]) = some a''
  | [], a, a', a'', h, hb => by
      obtain rfl := Option.some.inj h
      rw [List.nil_append, exec, hb]
      rfl
  | c :: bs, a, a', a'', h, hb => by
      obtain ⟨v, hv, hrest⟩ := Option.bind_eq_some_iff.mp h
      rw [List.cons_append, exec, hv]
      exact exec_concat hrest hb

/-- **Refinement.**  `I` is an invariant of the serial execution that the steps may use. -/
theorem Serial.refines (h : M.Serial Tx d log) (serve : A → B → Option A)
    (op : Nat × List W → Option B) (abs : D → A) (I : D → List (Nat × List W) → Prop)
    (hnil : I d [])
    (htx : ∀ {d' log p ws}, I d' log → Tx p d' log ws →
      I (M.applyAll d' ws) (log ++ [(p, ws)]) ∧
        Serves serve (abs d') (op (p, ws)) (abs (M.applyAll d' ws))) :
    exec serve (abs d) (log.filterMap op) = some (abs (M.replay d log)) := by
  refine (h.invariant (P := fun d' log => I d' log ∧
    exec serve (abs d) (log.filterMap op) = some (abs d')) ⟨hnil, rfl⟩ ?_).2
  intro d' log p ws ⟨hinv, hexec⟩ hcommit
  obtain ⟨hinv', hserves⟩ := htx hinv hcommit
  refine ⟨hinv', ?_⟩
  rw [List.filterMap_append]
  cases hop : op (p, ws) with
  | none =>
    rw [hop] at hserves
    have hsame : abs (M.applyAll d' ws) = abs d' := hserves
    rw [hsame, List.filterMap_cons, hop, List.filterMap_nil, List.append_nil]
    exact hexec
  | some b =>
    rw [hop] at hserves
    rw [List.filterMap_cons, hop, List.filterMap_nil]
    exact exec_concat hexec hserves

end Machine

end ReadCommitted
