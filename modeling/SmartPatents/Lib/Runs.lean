/-
  Runs of a guarded step function.

  A system is a partial function `step : S → A → Option S`: an action is either not enabled, or it
  leads to exactly one next state.  Everything the environment decides (which process moves, what
  the clock reads, whether a call fails) is part of the action, so a list of actions determines a
  run and a concrete schedule can be EVALUATED (`exec`).

  `Run step ok s t` is the relational reading: `t` is reached from `s` by steps that all meet the
  side condition `ok`.  The unconditional runs are `Run step always`.  Two facts carry every use:

    * `Run.invariant` — what one step preserves, a whole run preserves;
    * `Run.of_exec`   — a schedule that evaluates is a run (used for concrete witnesses).

  Where the state gives every process a location, `goto` moves one of them.

  Side conditions are predicates on the state before a step and the action, so a restriction on
  the environment (writes succeed, one process moves at a time) and one on the order of things
  (nobody overtakes) have the same form.  They can be weakened (`Run.mono`), and a decidable one
  is checked along a schedule by `execOk`.

  The induction in `Run.invariant_reached` also hands over how a state was reached, for steps
  whose effect depends on the history.
-/
import Mathlib.Logic.Function.Basic

namespace Runs

variable {S A : Type}

/-- `Run step ok s t` — some list of actions leads from `s` to `t`, and every one of them meets
    `ok` in the state it is taken from. -/
inductive Run (step : S → A → Option S) (ok : S → A → Prop) : S → S → Prop
  | refl (s : S) : Run step ok s s
  | tail {s t u : S} {a : A} :
      Run step ok s t → ok t a → step t a = some u → Run step ok s u

/-- The side condition of unconditional runs. -/
def always : S → A → Prop := fun _ _ => True

variable {step : S → A → Option S} {ok ok' : S → A → Prop}

theorem Run.trans {s t u : S} (hst : Run step ok s t) (htu : Run step ok t u) :
    Run step ok s u := by
  induction htu with
  | refl => exact hst
  | tail _ hok hs ih => exact Run.tail ih hok hs

theorem Run.single {s t : S} {a : A} (hok : ok s a) (hs : step s a = some t) :
    Run step ok s t :=
  Run.tail (Run.refl s) hok hs

/-- A stronger side condition allows fewer runs. -/
theorem Run.mono {s t : S} (himp : ∀ s a, ok s a → ok' s a) (h : Run step ok s t) :
    Run step ok' s t := by
  induction h with
  | refl => exact Run.refl _
  | tail _ hok hs ih => exact Run.tail ih (himp _ _ hok) hs

/-- Every run is an unconditional run. -/
theorem Run.forget {s t : S} (h : Run step ok s t) : Run step always s t :=
  h.mono fun _ _ _ => trivial

/-- **The invariant rule.**  What every permitted step preserves, every run preserves. -/
theorem Run.invariant {I : S → Prop}
    (hstep : ∀ s a t, I s → ok s a → step s a = some t → I t)
    {s t : S} (h : Run step ok s t) (hs : I s) : I t := by
  induction h with
  | refl => exact hs
  | tail _ hok ht ih => exact hstep _ _ _ ih hok ht

/-- The steps of a run meet every condition that follows from theirs and an invariant of the run. -/
theorem Run.mono_of_invariant {I : S → Prop}
    (hstep : ∀ s a t, I s → ok s a → step s a = some t → I t)
    (himp : ∀ s a, I s → ok s a → ok' s a) {s t : S} (h : Run step ok s t) (hs : I s) :
    Run step ok' s t := by
  induction h with
  | refl => exact Run.refl _
  | tail hrun hok ht ih => exact Run.tail ih (himp _ _ (hrun.invariant hstep hs) hok) ht

/-- **The invariant rule for reached states**: a step may also use how its state was reached. -/
theorem Run.invariant_reached {I : S → Prop} {s t : S}
    (hstep : ∀ u a v, Run step ok s u → I u → ok u a → step u a = some v → I v)
    (h : Run step ok s t) (hs : I s) : I t := by
  induction h with
  | refl => exact hs
  | tail hrun hok ht ih => exact hstep _ _ _ hrun ih hok ht

/-! ## Processes -/

/-- Move process `p` to location `l`. -/
def goto {L : Type} (loc : Nat → L) (p : Nat) (l : L) : Nat → L := Function.update loc p l

section Goto

variable {L : Type} {loc : Nat → L} {p q : Nat} {l : L}

@[simp] theorem goto_self (loc : Nat → L) (p : Nat) (l : L) : goto loc p l p = l := by
  rw [goto, Function.update_self]

theorem goto_ne (loc : Nat → L) (l : L) (h : q ≠ p) : goto loc p l q = loc q := by
  rw [goto, Function.update_of_ne h]

/-- What holds of the mover at its new location, and of the others where they are, holds of all. -/
theorem forall_goto {P : Nat → L → Prop} (hmover : P p l) (hothers : ∀ q, q ≠ p → P q (loc q)) :
    ∀ q, P q (goto loc p l q) :=
  (Function.forall_update_iff loc P).mpr ⟨hmover, hothers⟩

end Goto

/-! ## Evaluating a schedule -/

/-- Take the actions of a schedule one after the other; `none` as soon as one is not enabled. -/
def exec (step : S → A → Option S) : S → List A → Option S
  | s, [] => some s
  | s, a :: as => (step s a).bind fun t => exec step t as

/-- Like `exec`, and also refuses an action that breaks the (decidable) side condition. -/
def execOk (step : S → A → Option S) (ok : S → A → Prop) [∀ s a, Decidable (ok s a)] :
    S → List A → Option S
  | s, [] => some s
  | s, a :: as => if ok s a then (step s a).bind fun t => execOk step ok t as else none

/-- A schedule that evaluates is a run, under any condition that its actions meet everywhere. -/
theorem Run.of_exec_ok : ∀ {as : List A} {s t : S}, (∀ a ∈ as, ∀ u, ok u a) →
    exec step s as = some t → Run step ok s t
  | [], s, t, _, h => by
      simp only [exec, Option.some.injEq] at h
      exact h ▸ Run.refl s
  | a :: as, s, t, hok, h => by
      simp only [exec, Option.bind_eq_some_iff] at h
      obtain ⟨u, hu, hrest⟩ := h
      exact (Run.single (hok a List.mem_cons_self s) hu).trans
        (Run.of_exec_ok (fun b hb => hok b (List.mem_cons_of_mem a hb)) hrest)

/-- A schedule that evaluates is a run. -/
theorem Run.of_exec {as : List A} {s t : S} (h : exec step s as = some t) :
    Run step always s t :=
  Run.of_exec_ok (fun _ _ _ => trivial) h

/-- The state a schedule ends in. -/
theorem Run.exec_get {as : List A} {s : S} (h : (exec step s as).isSome = true) :
    Run step always s ((exec step s as).get h) :=
  Run.of_exec (Option.some_get h).symm

/-- The side condition of a schedule that evaluates can be forgotten. -/
theorem exec_of_execOk [∀ s a, Decidable (ok s a)] :
    ∀ {as : List A} {s t : S}, execOk step ok s as = some t → exec step s as = some t
  | [], _, _, h => h
  | a :: as, s, t, h => by
      rw [execOk] at h
      split at h
      · obtain ⟨u, hu, hrest⟩ := Option.bind_eq_some_iff.mp h
        rw [exec, hu, Option.bind_some, exec_of_execOk hrest]
      · nomatch h

/-- A schedule that evaluates with its side condition checked is a run under that condition. -/
theorem Run.of_execOk [∀ s a, Decidable (ok s a)] :
    ∀ {as : List A} {s t : S}, execOk step ok s as = some t → Run step ok s t
  | [], s, t, h => by
      simp only [execOk, Option.some.injEq] at h
      exact h ▸ Run.refl s
  | a :: as, s, t, h => by
      rw [execOk] at h
      split at h
      · rename_i hok
        obtain ⟨u, hu, hrest⟩ := Option.bind_eq_some_iff.mp h
        exact (Run.single hok hu).trans (Run.of_execOk hrest)
      · nomatch h

/-! ## The cost of a schedule -/

/-- **The potential method.**  When every counted action is paid for by a potential that no action
    raises, a schedule counts no more of them than the potential falls. -/
theorem countP_add_le_of_exec (I : S → Prop) (good : A → Prop) (counted : A → Bool)
    (potential : S → Nat) (hstep : ∀ s a t, I s → good a → step s a = some t →
      I t ∧ (if counted a then 1 else 0) + potential t ≤ potential s) :
    ∀ {as : List A} {s t : S}, (∀ a ∈ as, good a) → I s → exec step s as = some t →
      I t ∧ as.countP counted + potential t ≤ potential s
  | [], s, t, _, hs, h => by
      obtain rfl := Option.some.inj h
      refine ⟨hs, ?_⟩
      rw [List.countP_nil]
      omega
  | a :: as, s, t, hgood, hs, h => by
      obtain ⟨u, hu, hrest⟩ := Option.bind_eq_some_iff.mp h
      obtain ⟨hIu, hcost⟩ := hstep s a u hs (hgood a List.mem_cons_self) hu
      obtain ⟨hIt, hcosts⟩ := countP_add_le_of_exec I good counted potential hstep
        (fun b hb => hgood b (List.mem_cons_of_mem a hb)) hIu hrest
      refine ⟨hIt, ?_⟩
      rw [List.countP_cons]
      omega

/-- A schedule in two parts stops in between. -/
theorem exec_append {as bs : List A} : ∀ {s t : S}, exec step s (as ++ bs) = some t →
    ∃ u, exec step s as = some u ∧ exec step u bs = some t := by
  induction as with
  | nil => exact fun h => ⟨_, rfl, h⟩
  | cons a as ih =>
    intro s t h
    obtain ⟨v, hv, hrest⟩ := Option.bind_eq_some_iff.mp h
    obtain ⟨u, hu, ht⟩ := ih hrest
    refine ⟨u, ?_, ht⟩
    rw [exec, hv]
    exact hu

end Runs
