/-
  Transactions at isolation level READ COMMITTED, with row locks.

  A `Machine` runs any number of processes over one shared database.  What a process executes next
  is read off its location (`code`): one SQL statement, a COMMIT, a ROLLBACK, or a statement that
  is its own transaction.  Between two statements of one process every other process may move.

    * a statement sees the rows committed when it runs, with the process's own uncommitted writes
      on top (`view`);
    * a write locks rows until its transaction ends; a statement whose writes clash with a lock
      held by another transaction cannot run yet.  When it does run it evaluates its WHERE clause
      on the rows as they are THEN, so a guarded write that waited re-checks its guard;
    * COMMIT makes the writes visible in one instant, ROLLBACK forgets them, and a process may
      fail at any statement, which rolls back.

  `Base.log` records every committed transaction in commit order.  It is a ghost: no statement
  reads it.  Its use is `Outline.sound`, the proof rule of this file: if every location carries an
  assertion `At` that the process's own statements establish and that no commit of a transaction
  with disjoint locks can break, then the log is a SERIAL execution of atomic transactions `Tx`,
  and the database is its replay.

  `step` is executable, so a schedule can be evaluated; proofs go by `Effect` and `Next`, the
  inversions of a step as seen from the state and from the process that moves.  Deadlock is not an
  error: processes that wait for each other have no step, as they would until the database aborts
  one of them, which is a failure.
-/
import SmartPatents.Lib.Runs

namespace ReadCommitted

open Runs

/-! ## Machines -/

/-- A lock on `row`; `shared` locks (FOR KEY SHARE) tolerate each other. -/
structure Lock (K : Type) where
  row : K
  shared : Bool

/-- Two locks that cannot be held by different transactions at the same time. -/
def Lock.clash {K : Type} [DecidableEq K] (a b : Lock K) : Bool :=
  decide (a.row = b.row) && !(a.shared && b.shared)

/-- What a location executes.  A statement gets an oracle (the clock, random values), the view of
    the database and the rest of the state, and returns its writes, the new rest, and where the
    process continues. -/
inductive Instr (D X W O L : Type)
  /-- A statement inside the process's transaction. -/
  | stmt (run : O → D → X → List W × X × L)
  /-- A statement outside a transaction: it commits on its own. -/
  | auto (run : O → D → X → List W × X × L)
  | commit (next : L)
  | rollback (next : L)
  | halt

/-- The statement that an instruction executes, inside a transaction or outside. -/
def Instr.run? {D X W O L : Type} : Instr D X W O L → Option (O → D → X → List W × X × L)
  | .stmt run | .auto run => some run
  | _ => none

/-- `D` database, `X` the state outside it, `W` row writes, `K` lockable rows, `O` oracles,
    `E` actions of the environment, `L` locations. -/
structure Machine (D X W K O E L : Type) where
  apply : D → W → D
  locks : W → List (Lock K)
  code : Nat → L → Instr D X W O L
  /-- Where a process goes when a statement of it fails. -/
  failed : L
  /-- What the environment may do to the state outside the database. -/
  env : E → (Nat → L) → X → Option X

/-- The shared state: committed database, the state outside it, the committed transactions. -/
structure Base (D X W : Type) where
  db : D
  world : X
  log : List (Nat × List W)

/-- What is committed, what the open transactions have written, and where every process is. -/
structure State (D X W L : Type) where
  base : Base D X W
  /-- The uncommitted writes of all open transactions, each with its process. -/
  pend : List (Nat × W)
  loc : Nat → L

/-- A process takes its next statement, or the database fails it, or the world changes. -/
inductive Act (O E : Type)
  | run (p : Nat) (o : O)
  | fail (p : Nat)
  | env (e : E)

/-- The process that an action moves. -/
def Act.mover {O E : Type} : Act O E → Option Nat
  | .run p _ | .fail p => some p
  | .env _ => none

/-- An action is of one process. -/
theorem Act.mover_ne {O E : Type} {a : Act O E} {p q : Nat} (hp : a.mover = some p) (hq : q ≠ p) :
    a.mover ≠ some q :=
  fun he => hq (Option.some.inj (he.symm.trans hp))

/-- The uncommitted writes of process `p`. -/
def own {W : Type} (p : Nat) (pend : List (Nat × W)) : List W :=
  (pend.filter fun e => e.1 == p).map Prod.snd

/-- What is left when the transaction of `p` ends. -/
def drop {W : Type} (p : Nat) (pend : List (Nat × W)) : List (Nat × W) :=
  pend.filter fun e => e.1 != p

section Own

variable {W : Type} {p q : Nat} {pend : List (Nat × W)} {ws : List W}

/-- Writes join those of their own process. -/
@[simp] theorem own_append_self :
    own p (pend ++ ws.map (p, ·)) = own p pend ++ ws := by
  simp [own, List.filter_append, List.filter_map, Function.comp_def]

theorem own_append_ne (h : q ≠ p) : own q (pend ++ ws.map (p, ·)) = own q pend := by
  have hne : (p == q) = false := by simpa using fun h' => h h'.symm
  simp [own, List.filter_append, List.filter_map, Function.comp_def, hne]

/-- An end of a transaction leaves nothing of it pending. -/
@[simp] theorem own_drop_self : own p (drop p pend) = [] := by
  simp [own, drop, List.filter_filter]

theorem own_drop_ne (h : q ≠ p) : own q (drop p pend) = own q pend := by
  simp only [own, drop, List.filter_filter]
  congr 1
  refine List.filter_congr fun e _ => ?_
  by_cases he : e.1 = q
  · simp [he, h]
  · simp [he]

theorem mem_own {w : W} : w ∈ own p pend ↔ (p, w) ∈ pend := by
  simp [own]

/-- What is pending after it was pending before, of somebody else. -/
theorem mem_drop {w : W} : (q, w) ∈ drop p pend ↔ (q, w) ∈ pend ∧ q ≠ p := by
  simp [drop]

/-- What is pending after a statement was pending before, or is one of its writes. -/
theorem mem_append_writes {w : W} :
    (q, w) ∈ pend ++ ws.map (p, ·) ↔ (q, w) ∈ pend ∨ (q = p ∧ w ∈ ws) := by
  constructor
  · intro h
    rcases List.mem_append.mp h with h | h
    · exact Or.inl h
    · obtain ⟨v, hv, heq⟩ := List.mem_map.mp h
      obtain ⟨rfl, rfl⟩ := Prod.mk.inj heq
      exact Or.inr ⟨rfl, hv⟩
  · rintro (h | ⟨rfl, h⟩)
    · exact List.mem_append_left _ h
    · exact List.mem_append_right _ (List.mem_map.mpr ⟨w, h, rfl⟩)

end Own

namespace Machine

variable {D X W K O E L : Type} [DecidableEq K] (M : Machine D X W K O E L)

/-- The database after the writes `ws`. -/
def applyAll (d : D) (ws : List W) : D := ws.foldl M.apply d

/-- What a statement of `p` sees. -/
def view (σ : State D X W L) (p : Nat) : D := M.applyAll σ.base.db (own p σ.pend)

/-- Some lock of `w` clashes with some lock of `v`. -/
def clash (w v : W) : Bool := (M.locks w).any fun a => (M.locks v).any fun b => a.clash b

/-- Some write of `ws` has to wait for a transaction other than `p`'s. -/
def blocked (p : Nat) (pend : List (Nat × W)) (ws : List W) : Bool :=
  ws.any fun w => pend.any fun e => e.1 != p && M.clash w e.2

/-- A committed transaction: its writes become visible and it enters the log. -/
def commitBase (b : Base D X W) (p : Nat) (ws : List W) : Base D X W :=
  { b with db := M.applyAll b.db ws, log := b.log ++ [(p, ws)] }

/-- One step.  A read-only statement outside a transaction leaves no trace in the log. -/
def step (σ : State D X W L) : Act O E → Option (State D X W L)
  | .run p o =>
    match M.code p (σ.loc p) with
    | .stmt f =>
      let r := f o (M.view σ p) σ.base.world
      if M.blocked p σ.pend r.1 then none
      else some
        { base := { σ.base with world := r.2.1 }
          pend := σ.pend ++ r.1.map (p, ·)
          loc := goto σ.loc p r.2.2 }
    | .auto f =>
      let r := f o (M.view σ p) σ.base.world
      if M.blocked p σ.pend r.1 then none
      else
        let b := { σ.base with world := r.2.1 }
        some
          { σ with
            base := if r.1.isEmpty then b else M.commitBase b p r.1
            loc := goto σ.loc p r.2.2 }
    | .commit l =>
      some
        { base := M.commitBase σ.base p (own p σ.pend)
          pend := drop p σ.pend
          loc := goto σ.loc p l }
    | .rollback l => some { σ with pend := drop p σ.pend, loc := goto σ.loc p l }
    | .halt => none
  | .fail p =>
    match M.code p (σ.loc p) with
    | .halt => none
    | _ => some { σ with pend := drop p σ.pend, loc := goto σ.loc p M.failed }
  | .env e =>
    (M.env e σ.loc σ.base.world).map fun x => { σ with base := { σ.base with world := x } }

/-- What one step can do, said once. -/
inductive Effect (σ : State D X W L) : Act O E → State D X W L → Prop
  | stmt {p o f} (hcode : M.code p (σ.loc p) = .stmt f)
      (hfree : M.blocked p σ.pend (f o (M.view σ p) σ.base.world).1 = false) :
      Effect σ (.run p o)
        { base := { σ.base with world := (f o (M.view σ p) σ.base.world).2.1 }
          pend := σ.pend ++ (f o (M.view σ p) σ.base.world).1.map (p, ·)
          loc := goto σ.loc p (f o (M.view σ p) σ.base.world).2.2 }
  | read {p o f} (hcode : M.code p (σ.loc p) = .auto f)
      (hnone : (f o (M.view σ p) σ.base.world).1 = []) :
      Effect σ (.run p o)
        { σ with
          base := { σ.base with world := (f o (M.view σ p) σ.base.world).2.1 }
          loc := goto σ.loc p (f o (M.view σ p) σ.base.world).2.2 }
  | auto {p o f} (hcode : M.code p (σ.loc p) = .auto f)
      (hfree : M.blocked p σ.pend (f o (M.view σ p) σ.base.world).1 = false)
      (hsome : (f o (M.view σ p) σ.base.world).1 ≠ []) :
      Effect σ (.run p o)
        { σ with
          base := M.commitBase { σ.base with world := (f o (M.view σ p) σ.base.world).2.1 } p
            (f o (M.view σ p) σ.base.world).1
          loc := goto σ.loc p (f o (M.view σ p) σ.base.world).2.2 }
  | commit {p o l} (hcode : M.code p (σ.loc p) = .commit l) :
      Effect σ (.run p o)
        { base := M.commitBase σ.base p (own p σ.pend)
          pend := drop p σ.pend
          loc := goto σ.loc p l }
  | rollback {p o l} (hcode : M.code p (σ.loc p) = .rollback l) :
      Effect σ (.run p o) { σ with pend := drop p σ.pend, loc := goto σ.loc p l }
  | fail {p} (hcode : M.code p (σ.loc p) ≠ .halt) :
      Effect σ (.fail p) { σ with pend := drop p σ.pend, loc := goto σ.loc p M.failed }
  | env {e x} (henv : M.env e σ.loc σ.base.world = some x) :
      Effect σ (.env e) { σ with base := { σ.base with world := x } }

/-- Inversion of `step`. -/
theorem effect_of_step {σ σ' : State D X W L} {a : Act O E} (h : M.step σ a = some σ') :
    M.Effect σ a σ' := by
  cases a with
  | run p o =>
    simp only [step] at h
    split at h
    · rename_i f hcode
      split at h
      · nomatch h
      · rename_i hb
        simp only [Option.some.injEq] at h
        exact h ▸ Effect.stmt hcode (by simpa using hb)
    · rename_i f hcode
      split at h
      · nomatch h
      · rename_i hb
        simp only [Option.some.injEq] at h
        by_cases hws : (f o (M.view σ p) σ.base.world).1 = []
        · rw [if_pos (by simp [hws])] at h
          exact h ▸ Effect.read hcode hws
        · rw [if_neg (by simpa using hws)] at h
          exact h ▸ Effect.auto hcode (by simpa using hb) hws
    · rename_i l hcode
      simp only [Option.some.injEq] at h
      exact h ▸ Effect.commit hcode
    · rename_i l hcode
      simp only [Option.some.injEq] at h
      exact h ▸ Effect.rollback hcode
    · nomatch h
  | fail p =>
    simp only [step] at h
    split at h
    · nomatch h
    · rename_i hcode
      simp only [Option.some.injEq] at h
      exact h ▸ Effect.fail hcode
  | env e =>
    simp only [step, Option.map_eq_some_iff] at h
    obtain ⟨x, hx, rfl⟩ := h
    exact Effect.env hx

/-- A step leaves the location and the uncommitted writes of every other process alone. -/
theorem frame_of_step {σ σ' : State D X W L} {a : Act O E} {q : Nat} (h : M.step σ a = some σ')
    (hq : a.mover ≠ some q) : σ'.loc q = σ.loc q ∧ own q σ'.pend = own q σ.pend := by
  have hne : ∀ p, a.mover = some p → q ≠ p := by
    rintro p hp rfl
    exact hq hp
  cases effect_of_step M h with
  | @stmt p => exact ⟨goto_ne _ _ (hne p rfl), own_append_ne (hne p rfl)⟩
  | @read p => exact ⟨goto_ne _ _ (hne p rfl), rfl⟩
  | @auto p => exact ⟨goto_ne _ _ (hne p rfl), rfl⟩
  | @commit p => exact ⟨goto_ne _ _ (hne p rfl), own_drop_ne (hne p rfl)⟩
  | @rollback p => exact ⟨goto_ne _ _ (hne p rfl), own_drop_ne (hne p rfl)⟩
  | @fail p => exact ⟨goto_ne _ _ (hne p rfl), own_drop_ne (hne p rfl)⟩
  | env => exact ⟨rfl, rfl⟩

/-- Where a step takes its mover. -/
inductive Next (σ : State D X W L) (p : Nat) : Act O E → L → Prop
  | stmt {o f} (hcode : M.code p (σ.loc p) = .stmt f) :
      Next σ p (.run p o) (f o (M.view σ p) σ.base.world).2.2
  | auto {o f} (hcode : M.code p (σ.loc p) = .auto f) :
      Next σ p (.run p o) (f o (M.view σ p) σ.base.world).2.2
  | commit {o l} (hcode : M.code p (σ.loc p) = .commit l) : Next σ p (.run p o) l
  | rollback {o l} (hcode : M.code p (σ.loc p) = .rollback l) : Next σ p (.run p o) l
  | fail (hcode : M.code p (σ.loc p) ≠ .halt) : Next σ p (.fail p) M.failed

/-- A process goes where its code sends it, or fails. -/
theorem next_of_step {σ σ' : State D X W L} {a : Act O E} {p : Nat} (h : M.step σ a = some σ')
    (hp : a.mover = some p) : M.Next σ p a (σ'.loc p) := by
  have hmove : ∀ {l}, M.Next σ p a l → M.Next σ p a (goto σ.loc p l p) := by
    intro l hl
    rwa [goto_self]
  cases effect_of_step M h with
  | stmt hcode =>
    obtain rfl := Option.some.inj hp
    exact hmove (.stmt hcode)
  | read hcode =>
    obtain rfl := Option.some.inj hp
    exact hmove (.auto hcode)
  | auto hcode =>
    obtain rfl := Option.some.inj hp
    exact hmove (.auto hcode)
  | commit hcode =>
    obtain rfl := Option.some.inj hp
    exact hmove (.commit hcode)
  | rollback hcode =>
    obtain rfl := Option.some.inj hp
    exact hmove (.rollback hcode)
  | fail hcode =>
    obtain rfl := Option.some.inj hp
    exact hmove (.fail hcode)
  | env => cases hp

/-- A process that a schedule does not move stays where it is. -/
theorem loc_of_exec {q : Nat} : ∀ {as : List (Act O E)} {σ σ' : State D X W L},
    (∀ a ∈ as, a.mover ≠ some q) → exec M.step σ as = some σ' → σ'.loc q = σ.loc q
  | [], _, _, _, h => by rw [Option.some.inj h]
  | a :: as, σ, σ', hq, h => by
      obtain ⟨τ, hτ, hrest⟩ := Option.bind_eq_some_iff.mp h
      rw [loc_of_exec (fun b hb => hq b (List.mem_cons_of_mem a hb)) hrest,
        (M.frame_of_step hτ (hq a List.mem_cons_self)).1]

/-- The log only grows. -/
theorem log_of_step {σ σ' : State D X W L} {a : Act O E} (h : M.step σ a = some σ') :
    σ.base.log <+: σ'.base.log := by
  cases effect_of_step M h with
  | auto => exact List.prefix_append _ _
  | commit => exact List.prefix_append _ _
  | _ => exact List.prefix_refl _

/-- A step of a process that executes a statement of its transaction. -/
theorem stmt_of_step {σ σ' : State D X W L} {p : Nat} {o : O} {f : O → D → X → List W × X × L}
    (hcode : M.code p (σ.loc p) = .stmt f) (h : M.step σ (.run p o) = some σ') :
    σ' =
      { base := { σ.base with world := (f o (M.view σ p) σ.base.world).2.1 }
        pend := σ.pend ++ (f o (M.view σ p) σ.base.world).1.map (p, ·)
        loc := goto σ.loc p (f o (M.view σ p) σ.base.world).2.2 } := by
  simp only [step, hcode] at h
  split at h
  · nomatch h
  · exact (Option.some.inj h).symm

/-- The log of an earlier state is a prefix of the log of a later one. -/
theorem log_of_run {ok : State D X W L → Act O E → Prop} {σ σ' : State D X W L}
    (h : Run M.step ok σ σ') : σ.base.log <+: σ'.base.log :=
  h.invariant (I := fun τ => σ.base.log <+: τ.base.log)
    (fun _ _ _ hp _ hs => hp.trans (M.log_of_step hs)) (List.prefix_refl _)

end Machine

section Next

variable {D X W K O E L : Type} {M : Machine D X W K O E L} {σ : State D X W L} {a : Act O E}
  {p : Nat} {l m : L}
  {f : O → D → X → List W × X × L}

/-- A process whose next statement commits by itself executes it, or fails. -/
theorem Machine.Next.of_auto (h : M.Next σ p a m) (hcode : M.code p (σ.loc p) = .auto f) :
    (∃ o, a = .run p o ∧ m = (f o (M.view σ p) σ.base.world).2.2) ∨ m = M.failed := by
  cases h with
  | @auto o g hcode' =>
    obtain rfl := Instr.auto.inj (hcode.symm.trans hcode')
    exact Or.inl ⟨o, rfl, rfl⟩
  | fail => exact Or.inr rfl
  | stmt hcode' => cases hcode.symm.trans hcode'
  | commit hcode' => cases hcode.symm.trans hcode'
  | rollback hcode' => cases hcode.symm.trans hcode'

/-- A rollback ends at its location, or in failure. -/
theorem Machine.Next.of_rollback (h : M.Next σ p a m) (hcode : M.code p (σ.loc p) = .rollback l) :
    m = l ∨ m = M.failed := by
  cases h with
  | rollback hcode' => exact Or.inl (Instr.rollback.inj (hcode.symm.trans hcode')).symm
  | fail => exact Or.inr rfl
  | stmt hcode' => cases hcode.symm.trans hcode'
  | auto hcode' => cases hcode.symm.trans hcode'
  | commit hcode' => cases hcode.symm.trans hcode'

/-- A process that has halted takes no step. -/
theorem Machine.Next.of_halt (h : M.Next σ p a m) (hcode : M.code p (σ.loc p) = .halt) : False := by
  cases h with
  | fail hne => exact hne hcode
  | stmt hcode' => cases hcode.symm.trans hcode'
  | auto hcode' => cases hcode.symm.trans hcode'
  | commit hcode' => cases hcode.symm.trans hcode'
  | rollback hcode' => cases hcode.symm.trans hcode'

end Next

end ReadCommitted
