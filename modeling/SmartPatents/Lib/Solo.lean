/-
  Runs in which one process moves at a time.

  Where all the others are at rest whenever a process moves, what it knows needs no stability:
  nobody acts before it is at rest again.  A `Solo` layer says what each statement of a process
  establishes for its next location and nothing about other processes.  It may know enough to give
  the side condition of the outline that it is put on; `Solo.sound` is its proof rule.

  The rule is weaker in what it asks and in what it gives: the assertion of a process may mention
  the whole database as it was when the process began, since nobody changes it meanwhile.  It is
  the right rule for what a single request does when it runs alone, and for properties of a
  history in which requests come one after another.
-/
import SmartPatents.Lib.Serial

namespace ReadCommitted

open Runs

variable {D X W K O E L : Type}

/-- Whoever moves, the others are at rest. -/
def alone (Rest : L → Prop) (σ : State D X W L) (a : Act O E) : Prop :=
  ∀ p q, a.mover = some p → q ≠ p → Rest (σ.loc q)

section Solo

variable (M : Machine D X W K O E L)

/-- What a statement of `p` that is its own transaction establishes, with outcome `r`. -/
structure SoloAuto (At₂ : Nat → L → Base D X W → List W → Prop)
    (Tx₂ : Nat → D → List (Nat × List W) → List W → Prop) (p : Nat) (b : Base D X W)
    (r : List W × X × L) : Prop where
  read : r.1 = [] → At₂ p r.2.2 { b with world := r.2.1 } []
  tx : r.1 ≠ [] → Tx₂ p b.db b.log r.1
  written : r.1 ≠ [] → At₂ p r.2.2 (M.commitBase { b with world := r.2.1 } p r.1) []

/-- A layer over an outline, for runs in which one process moves at a time. -/
structure Solo (Rest : L → Prop) (lok : Nat → L → D → Prop) (Inv : Base D X W → Prop)
    (At : Nat → L → Base D X W → List W → Prop) (At₂ : Nat → L → Base D X W → List W → Prop)
    (Tx₂ : Nat → D → List (Nat × List W) → List W → Prop) : Prop where
  /-- At rest nothing is claimed. -/
  rest : ∀ {p l b ws}, Rest l → At₂ p l b ws
  lok : ∀ {p l b ws}, At₂ p l b ws → lok p l b.db
  stmt : ∀ {p l f b ws o}, M.code p l = .stmt f → Inv b → At p l b ws → At₂ p l b ws →
    At₂ p (f o (M.applyAll b.db ws) b.world).2.2
      { b with world := (f o (M.applyAll b.db ws) b.world).2.1 }
      (ws ++ (f o (M.applyAll b.db ws) b.world).1)
  auto : ∀ {p l f b o}, M.code p l = .auto f → Inv b → At p l b [] → At₂ p l b [] →
    SoloAuto M At₂ Tx₂ p b (f o b.db b.world)
  commit : ∀ {p l l' b ws}, M.code p l = .commit l' → Inv b → At p l b ws → At₂ p l b ws →
    Tx₂ p b.db b.log ws ∧ At₂ p l' (M.commitBase b p ws) []
  rollback : ∀ {p l l' b}, M.code p l = .rollback l' → At₂ p l' b []
  fail : ∀ {p b}, At₂ p M.failed b []
  world : ∀ {p l b x' ws}, At₂ p l b ws → At₂ p l { b with world := x' } ws

variable {M} {Rest : L → Prop} {lok : Nat → L → D → Prop} {Inv : Base D X W → Prop}
  {At At₂ : Nat → L → Base D X W → List W → Prop}
  {Tx Tx₂ : Nat → D → List (Nat × List W) → List W → Prop} {Ext : X → X → Prop}
  {init σ σ' : State D X W L}

/-- Where the others are at rest, a move is only about the process that moves. -/
theorem Solo.moved (S : Solo M Rest lok Inv At At₂ Tx₂) {p : Nat} {l : L} {b : Base D X W}
    {pend : List (Nat × W)} (hrest : ∀ q, q ≠ p → Rest (σ.loc q)) (hp : At₂ p l b (own p pend)) :
    ∀ q, At₂ q (goto σ.loc p l q) b (own q pend) :=
  Outline.assertions_goto hp fun q hq => S.rest (hrest q hq)

variable [DecidableEq K]

/-- What an outline with a `Solo` layer establishes of a state. -/
structure Solo.Holds (M : Machine D X W K O E L) (Inv : Base D X W → Prop)
    (At : Nat → L → Base D X W → List W → Prop)
    (Tx : Nat → D → List (Nat × List W) → List W → Prop)
    (At₂ : Nat → L → Base D X W → List W → Prop)
    (Tx₂ : Nat → D → List (Nat × List W) → List W → Prop) (init σ : State D X W L) : Prop where
  outline : Outline.Holds M Inv At Tx init σ
  assertions : ∀ p, At₂ p (σ.loc p) σ.base (own p σ.pend)
  serial : M.Serial Tx₂ init.base.db σ.base.log

/-- **Step lemma.** -/
theorem Solo.step_holds (S : Solo M Rest lok Inv At At₂ Tx₂) (H : Outline M lok Inv At Tx Ext)
    {a : Act O E} (h : Solo.Holds M Inv At Tx At₂ Tx₂ init σ) (halone : alone Rest σ a)
    (hs : M.step σ a = some σ') : Solo.Holds M Inv At Tx At₂ Tx₂ init σ' := by
  obtain ⟨hholds, hat₂, hser⟩ := h
  have hok : Machine.localOk lok σ a := by
    cases a with
    | run p o => exact S.lok (hat₂ p)
    | _ => trivial
  have hholds' := H.step_holds hholds hok hs
  obtain ⟨hinv, hat, -, -, hrep⟩ := hholds
  cases Machine.effect_of_step M hs with
  | @stmt p o f hcode =>
    refine ⟨hholds', S.moved (fun q => halone p q rfl) ?_, hser⟩
    rw [own_append_self]
    exact S.stmt hcode hinv (hat p) (hat₂ p)
  | @read p o f hcode hnone =>
    have hidle := H.idle hcode (hat p)
    simp only [Machine.view, hidle, Machine.applyAll_nil] at hnone ⊢
    refine ⟨by simpa only [Machine.view, hidle, Machine.applyAll_nil] using hholds',
      S.moved (fun q => halone p q rfl) ?_, hser⟩
    rw [hidle]
    exact (S.auto hcode hinv (hidle ▸ hat p) (hidle ▸ hat₂ p)).read hnone
  | @auto p o f hcode hfree hsome =>
    have hidle := H.idle hcode (hat p)
    simp only [Machine.view, hidle, Machine.applyAll_nil] at hsome ⊢
    have hauto := S.auto (o := o) hcode hinv (hidle ▸ hat p) (hidle ▸ hat₂ p)
    refine ⟨by simpa only [Machine.view, hidle, Machine.applyAll_nil] using hholds',
      S.moved (fun q => halone p q rfl) ?_, hser.concat (hrep ▸ hauto.tx hsome)⟩
    rw [hidle]
    exact hauto.written hsome
  | @commit p o l hcode =>
    obtain ⟨htx, hnext⟩ := S.commit hcode hinv (hat p) (hat₂ p)
    refine ⟨hholds', S.moved (fun q => halone p q rfl) ?_, hser.concat (hrep ▸ htx)⟩
    rw [own_drop_self]
    exact hnext
  | @rollback p o l hcode =>
    refine ⟨hholds', S.moved (fun q => halone p q rfl) ?_, hser⟩
    rw [own_drop_self]
    exact S.rollback hcode
  | @fail p =>
    refine ⟨hholds', S.moved (fun q => halone p q rfl) ?_, hser⟩
    rw [own_drop_self]
    exact S.fail
  | env => exact ⟨hholds', fun q => S.world (hat₂ q), hser⟩

/-- **Soundness.**  In every run in which one process moves at a time, the outline and the layer
    hold. -/
theorem Solo.sound (S : Solo M Rest lok Inv At At₂ Tx₂) (H : Outline M lok Inv At Tx Ext)
    (hinit : Outline.Holds M Inv At Tx init init) (hrest : ∀ p, Rest (init.loc p))
    (hlog : init.base.log = []) (hrun : Run M.step (alone Rest) init σ) :
    Solo.Holds M Inv At Tx At₂ Tx₂ init σ := by
  refine hrun.invariant (fun _ _ _ h halone hs => S.step_holds H h halone hs)
    ⟨hinit, fun p => S.rest (hrest p), ?_⟩
  rw [hlog]
  exact .nil

/-! ## Evaluating a schedule -/

/-- Whoever moves is one of the first `n` processes, and the others of these are at rest. -/
def aloneBelow (Rest : L → Prop) (n : Nat) (σ : State D X W L) (a : Act O E) : Prop :=
  match a.mover with
  | none => True
  | some p => p < n ∧ ∀ q < n, q ≠ p → Rest (σ.loc q)

instance {Rest : L → Prop} [DecidablePred Rest] (n : Nat) (σ : State D X W L) (a : Act O E) :
    Decidable (aloneBelow Rest n σ a) :=
  match h : a.mover with
  | none => isTrue (by rw [aloneBelow, h]; trivial)
  | some p => decidable_of_iff (p < n ∧ ∀ q < n, q ≠ p → Rest (σ.loc q)) (by rw [aloneBelow, h])

/-- Processes that a schedule never moves are at rest from the start. -/
theorem alone_of_below {n : Nat} (hrest : ∀ q, n ≤ q → Rest (init.loc q))
    (hrun : Run M.step (aloneBelow Rest n) init σ) : Run M.step (alone Rest) init σ := by
  refine hrun.mono_of_invariant (I := fun σ => ∀ q, n ≤ q → Rest (σ.loc q)) ?_ ?_ hrest
  · intro σ a σ' hidle hok hs q hq
    have hunmoved : a.mover ≠ some q := by
      intro hm
      rw [aloneBelow, hm] at hok
      exact absurd hok.1 (Nat.not_lt.mpr hq)
    rw [(M.frame_of_step hs hunmoved).1]
    exact hidle q hq
  · intro σ a hidle hok p q hm hqp
    rw [aloneBelow, hm] at hok
    by_cases hq : q < n
    · exact hok.2 q hq hqp
    · exact hidle q (Nat.le_of_not_lt hq)

end Solo

end ReadCommitted
