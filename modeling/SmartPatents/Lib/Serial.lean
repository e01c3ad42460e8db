/-
  Proof outlines: READ COMMITTED transactions that are serial in commit order.

  An `Outline` annotates every location of a machine with an assertion `At` about the process's
  own uncommitted writes and the shared base.  Its obligations are local:

    * a statement, commit, rollback or failure of `p` leads to the assertion of its next location;
    * `other` — the assertion survives the commit of ANOTHER process whose writes clash with none
      of `p`'s uncommitted ones (this is all that row locks give, and all that is needed);
    * `world`   — it survives whatever the other processes do to the state outside the database.

  `Outline.sound` then gives, for every run, the assertions at every process, the database
  invariant, and that the log is a serial execution of the atomic transactions `Tx`.  Interleavings
  are dealt with here once; what is left for a client is reasoning about `Serial` logs.

  A `Layer` adds assertions to an outline after the fact.  Its obligations may use what the
  outline has established at the same place, so an invariant that needs another one is proved over
  it and not together with it, and `layer` turns the two into one outline again.
  `Serial.invariant` and `Serial.since` are the induction rules that clients use: what holds of
  the replay of a log, and what holds of everything that came after a moment.
-/
import Mathlib.Data.List.Induction
import SmartPatents.Lib.ReadCommitted

namespace ReadCommitted

open Runs

variable {D X W K O E L : Type}

/-! ## Serial logs -/

namespace Machine

variable (M : Machine D X W K O E L)

/-- The database after all transactions of a log. -/
def replay (d : D) (log : List (Nat × List W)) : D := log.foldl (fun d e => M.applyAll d e.2) d

/-- `log` executes atomic transactions, one after the other, from `d`: `Tx p d' log' ws` is what is
    known of a transaction of `p` with writes `ws` that commits on database `d'` after `log'`. -/
inductive Serial (Tx : Nat → D → List (Nat × List W) → List W → Prop) (d : D) :
    List (Nat × List W) → Prop
  | nil : Serial Tx d []
  | concat {log p ws} : Serial Tx d log → Tx p (M.replay d log) log ws →
      Serial Tx d (log ++ [(p, ws)])

variable {M} {Tx : Nat → D → List (Nat × List W) → List W → Prop} {d : D}
  {log : List (Nat × List W)}

@[simp] theorem applyAll_nil : M.applyAll d [] = d := rfl

@[simp] theorem applyAll_cons (w : W) (ws : List W) :
    M.applyAll d (w :: ws) = M.applyAll (M.apply d w) ws := rfl

theorem applyAll_append (ws vs : List W) :
    M.applyAll d (ws ++ vs) = M.applyAll (M.applyAll d ws) vs := List.foldl_append

@[simp] theorem replay_concat (e : Nat × List W) :
    M.replay d (log ++ [e]) = M.applyAll (M.replay d log) e.2 := by
  simp [replay]

/-- The database is the replay of the log, whatever a step does. -/
theorem replay_of_step [DecidableEq K] {σ σ' : State D X W L} {a : Act O E}
    (h : M.step σ a = some σ') (hdb : σ.base.db = M.replay d σ.base.log) :
    σ'.base.db = M.replay d σ'.base.log := by
  have hcommit : ∀ p ws, M.applyAll σ.base.db ws = M.replay d (σ.base.log ++ [(p, ws)]) := by
    intro p ws
    rw [replay_concat, ← hdb]
  cases effect_of_step M h with
  | auto => exact hcommit _ _
  | commit => exact hcommit _ _
  | _ => exact hdb

/-- **The rule for serial logs**: induction over the transactions in commit order. -/
theorem Serial.invariant {P : D → List (Nat × List W) → Prop}
    (hnil : P d [])
    (htx : ∀ {d' log p ws}, P d' log → Tx p d' log ws → P (M.applyAll d' ws) (log ++ [(p, ws)]))
    (h : M.Serial Tx d log) : P (M.replay d log) log := by
  induction h with
  | nil => exact hnil
  | concat _ h' ih =>
    rw [replay_concat]
    exact htx ih h'

/-- Inversion of `concat`. -/
theorem Serial.last {p : Nat} {ws : List W} (h : M.Serial Tx d (log ++ [(p, ws)])) :
    M.Serial Tx d log ∧ Tx p (M.replay d log) log ws := by
  generalize hl : log ++ [(p, ws)] = l at h
  cases h with
  | nil => simp at hl
  | concat h htx =>
    obtain ⟨rfl, he⟩ := List.append_inj' hl rfl
    obtain ⟨rfl, rfl⟩ := Prod.mk.inj (List.cons.inj he).1
    exact ⟨h, htx⟩

/-- **The rule for the rest of a serial log**: `P d more` is about the transactions `more` since
    `log`, and the database they have led to. -/
theorem Serial.since {P : D → List (Nat × List W) → Prop} {log more : List (Nat × List W)}
    (htx : ∀ {d' more p ws}, P d' more → Tx p d' (log ++ more) ws →
      P (M.applyAll d' ws) (more ++ [(p, ws)]))
    (h : M.Serial Tx d (log ++ more)) (hlog : P (M.replay d log) []) :
    P (M.replay d (log ++ more)) more := by
  induction more using List.reverseRecOn with
  | nil => rwa [List.append_nil]
  | append_singleton more e ih =>
    rw [← List.append_assoc] at h ⊢
    obtain ⟨h', htx'⟩ := h.last
    rw [replay_concat]
    exact htx (ih h') htx'

/-- What every transaction preserves holds after any number of further transactions. -/
theorem Serial.extend {P : D → List (Nat × List W) → Prop} {log more : List (Nat × List W)}
    (htx : ∀ {d' log p ws}, P d' log → Tx p d' log ws → P (M.applyAll d' ws) (log ++ [(p, ws)]))
    (h : M.Serial Tx d (log ++ more)) (hlog : P (M.replay d log) log) :
    P (M.replay d (log ++ more)) (log ++ more) := by
  refine h.since (P := fun d more => P d (log ++ more)) (fun hP htx' => ?_) ?_
  · rw [← List.append_assoc]
    exact htx hP htx'
  · rwa [List.append_nil]

/-- A weaker description of the transactions of a log. -/
theorem Serial.mono {Tx₂ : Nat → D → List (Nat × List W) → List W → Prop} (h : M.Serial Tx d log)
    (himp : ∀ {p d' log ws}, Tx p d' log ws → Tx₂ p d' log ws) : M.Serial Tx₂ d log := by
  induction h with
  | nil => exact .nil
  | concat _ htx ih => exact .concat ih (himp htx)

/-- Two descriptions of the transactions of a log are one. -/
theorem Serial.and {Tx₂ : Nat → D → List (Nat × List W) → List W → Prop} (h : M.Serial Tx d log)
    (h₂ : M.Serial Tx₂ d log) :
    M.Serial (fun p d log ws => Tx p d log ws ∧ Tx₂ p d log ws) d log := by
  induction h with
  | nil => exact .nil
  | concat _ htx ih => exact .concat (ih h₂.last.1) ⟨htx, h₂.last.2⟩

end Machine

/-! ## Locks -/

variable [DecidableEq K]

theorem Lock.clash_comm (a b : Lock K) : a.clash b = b.clash a := by
  simp only [Lock.clash, Bool.and_comm a.shared, eq_comm (a := a.row)]

namespace Machine

variable (M : Machine D X W K O E L)

theorem clash_comm (w v : W) : M.clash w v = M.clash v w := by
  rw [Bool.eq_iff_iff]
  simp only [clash, List.any_eq_true]
  constructor
  · rintro ⟨a, ha, b, hb, h⟩
    exact ⟨b, hb, a, ha, by rwa [Lock.clash_comm]⟩
  · rintro ⟨a, ha, b, hb, h⟩
    exact ⟨b, hb, a, ha, by rwa [Lock.clash_comm]⟩

/-- No write of `ws` clashes with a write of `vs`. -/
def Apart (ws vs : List W) : Prop := ∀ w ∈ ws, ∀ v ∈ vs, M.clash w v = false

variable {M}

theorem Apart.symm {ws vs : List W} (h : M.Apart ws vs) : M.Apart vs ws :=
  fun v hv w hw => by rw [clash_comm]; exact h w hw v hv

/-- A row that a write locks exclusively is locked by no write apart from it. -/
theorem Apart.excludes {ws vs : List W} (h : M.Apart ws vs) {w v : W} (hw : w ∈ ws) (hv : v ∈ vs)
    {k : K} (hk : ⟨k, false⟩ ∈ M.locks w) (shared : Bool) : ¬ ⟨k, shared⟩ ∈ M.locks v := by
  intro hk'
  have hnone := List.any_eq_false.mp (h w hw v hv) _ hk
  have hclash := List.any_eq_false.mp (by simpa using hnone) _ hk'
  simp [Lock.clash] at hclash

/-- A statement that is not blocked writes apart from every other transaction. -/
theorem apart_of_free {p q : Nat} {pend : List (Nat × W)} {ws : List W}
    (h : M.blocked p pend ws = false) (hq : q ≠ p) : M.Apart ws (own q pend) := by
  intro w hw v hv
  have hnone : ∀ r x, (r, x) ∈ pend → ¬r = p → M.clash w x = false := by
    have hw' := List.any_eq_false.mp h w hw
    simpa using hw'
  exact hnone q v (mem_own.mp hv) hq

/-! ## Outlines -/

/-- The side condition of runs in which a process moves only where `lok` allows it. -/
def localOk (lok : Nat → L → D → Prop) : State D X W L → Act O E → Prop
  | σ, .run p _ => lok p (σ.loc p) σ.base.db
  | _, _ => True

instance {lok : Nat → L → D → Prop} [∀ p l d, Decidable (lok p l d)] (σ : State D X W L)
    (a : Act O E) : Decidable (localOk lok σ a) :=
  match a with
  | .run p _ => inferInstanceAs (Decidable (lok p (σ.loc p) σ.base.db))
  | .fail _ | .env _ => isTrue trivial

end Machine

/-- A statement of `p` inside its transaction, with outcome `r`, leads to the assertion of its next
    location. -/
def StmtOk (Inv : Base D X W → Prop) (At : Nat → L → Base D X W → List W → Prop)
    (Ext : X → X → Prop) (p : Nat) (b : Base D X W) (ws : List W) (r : List W × X × L) : Prop :=
  Ext b.world r.2.1 ∧ Inv { b with world := r.2.1 } ∧
    At p r.2.2 { b with world := r.2.1 } (ws ++ r.1)

/-- The same for a statement that is its own transaction: either it wrote nothing, or it commits
    one of the transactions `Tx`. -/
def AutoOk (M : Machine D X W K O E L) (Inv : Base D X W → Prop)
    (At : Nat → L → Base D X W → List W → Prop)
    (Tx : Nat → D → List (Nat × List W) → List W → Prop) (Ext : X → X → Prop)
    (p : Nat) (b : Base D X W) (r : List W × X × L) : Prop :=
  Ext b.world r.2.1 ∧
  ((r.1 = [] ∧ Inv { b with world := r.2.1 } ∧ At p r.2.2 { b with world := r.2.1 } []) ∨
   (r.1 ≠ [] ∧ Inv (M.commitBase { b with world := r.2.1 } p r.1) ∧ Tx p b.db b.log r.1 ∧
     At p r.2.2 (M.commitBase { b with world := r.2.1 } p r.1) []))

/-- A proof outline of `M` (see the head of this file).  `Inv` is an invariant of the shared
    state, `Ext` says how the state outside the database may move. -/
structure Outline (M : Machine D X W K O E L) (lok : Nat → L → D → Prop)
    (Inv : Base D X W → Prop) (At : Nat → L → Base D X W → List W → Prop)
    (Tx : Nat → D → List (Nat × List W) → List W → Prop) (Ext : X → X → Prop) : Prop where
  stmt : ∀ {p l f b ws o}, M.code p l = .stmt f → lok p l b.db → Inv b → At p l b ws →
    StmtOk Inv At Ext p b ws (f o (M.applyAll b.db ws) b.world)
  /-- A process outside a transaction has nothing uncommitted. -/
  idle : ∀ {p l f b ws}, M.code p l = .auto f → At p l b ws → ws = []
  auto : ∀ {p l f b o}, M.code p l = .auto f → lok p l b.db → Inv b → At p l b [] →
    AutoOk M Inv At Tx Ext p b (f o b.db b.world)
  commit : ∀ {p l l' b ws}, M.code p l = .commit l' → lok p l b.db → Inv b →
    At p l b ws →
    Inv (M.commitBase b p ws) ∧ Tx p b.db b.log ws ∧ At p l' (M.commitBase b p ws) []
  rollback : ∀ {p l l' b ws}, M.code p l = .rollback l' → At p l b ws → At p l' b []
  fail : ∀ {p l b ws}, At p l b ws → At p M.failed b []
  env : ∀ {e loc b x'}, M.env e loc b.world = some x' → Inv b →
    Ext b.world x' ∧ Inv { b with world := x' }
  world : ∀ {p l b x' ws}, Ext b.world x' → At p l b ws → At p l { b with world := x' } ws
  other : ∀ {p q l b ws vs}, p ≠ q → Inv b → At p l b ws → Tx q b.db b.log vs →
    M.Apart ws vs → At p l (M.commitBase b q vs) ws

/-- A layer over an outline: further assertions (`Inv₂`, `At₂`, …) whose obligations may use what
    the outline knows. -/
structure Layer (M : Machine D X W K O E L) (lok : Nat → L → D → Prop)
    (Inv : Base D X W → Prop) (At : Nat → L → Base D X W → List W → Prop)
    (Tx : Nat → D → List (Nat × List W) → List W → Prop)
    (Inv₂ : Base D X W → Prop) (At₂ : Nat → L → Base D X W → List W → Prop)
    (Tx₂ : Nat → D → List (Nat × List W) → List W → Prop) (Ext₂ : X → X → Prop) : Prop where
  stmt : ∀ {p l f b ws o}, M.code p l = .stmt f → lok p l b.db → Inv b → At p l b ws → Inv₂ b →
    At₂ p l b ws → StmtOk Inv₂ At₂ Ext₂ p b ws (f o (M.applyAll b.db ws) b.world)
  auto : ∀ {p l f b o}, M.code p l = .auto f → lok p l b.db → Inv b → At p l b [] → Inv₂ b →
    At₂ p l b [] → AutoOk M Inv₂ At₂ Tx₂ Ext₂ p b (f o b.db b.world)
  commit : ∀ {p l l' b ws}, M.code p l = .commit l' → lok p l b.db → Inv b → At p l b ws →
    Tx p b.db b.log ws → Inv₂ b → At₂ p l b ws →
    Inv₂ (M.commitBase b p ws) ∧ Tx₂ p b.db b.log ws ∧ At₂ p l' (M.commitBase b p ws) []
  rollback : ∀ {p l l' b ws}, M.code p l = .rollback l' → At₂ p l b ws → At₂ p l' b []
  fail : ∀ {p l b ws}, At₂ p l b ws → At₂ p M.failed b []
  env : ∀ {e loc b x'}, M.env e loc b.world = some x' → Inv₂ b →
    Ext₂ b.world x' ∧ Inv₂ { b with world := x' }
  world : ∀ {p l b x' ws}, Ext₂ b.world x' → At₂ p l b ws → At₂ p l { b with world := x' } ws
  other : ∀ {p q l b ws vs}, p ≠ q → Inv b → At p l b ws → Tx q b.db b.log vs → Inv₂ b →
    At₂ p l b ws → Tx₂ q b.db b.log vs → M.Apart ws vs → At₂ p l (M.commitBase b q vs) ws

/-- What an outline establishes of every state of a run from `init`. -/
structure Outline.Holds (M : Machine D X W K O E L) (Inv : Base D X W → Prop)
    (At : Nat → L → Base D X W → List W → Prop)
    (Tx : Nat → D → List (Nat × List W) → List W → Prop) (init σ : State D X W L) : Prop where
  inv : Inv σ.base
  assertions : ∀ p, At p (σ.loc p) σ.base (own p σ.pend)
  apart : ∀ p q, p ≠ q → M.Apart (own p σ.pend) (own q σ.pend)
  serial : M.Serial Tx init.base.db σ.base.log
  replay : σ.base.db = M.replay init.base.db σ.base.log

namespace Outline

open Machine

variable {M : Machine D X W K O E L} {lok : Nat → L → D → Prop} {Inv : Base D X W → Prop}
  {At : Nat → L → Base D X W → List W → Prop}
  {Tx : Nat → D → List (Nat × List W) → List W → Prop} {Ext : X → X → Prop}
  {init σ σ' : State D X W L}

/-- Ending the transaction of `p` leaves the others apart. -/
theorem apart_drop (h : ∀ r q, r ≠ q → M.Apart (own r σ.pend) (own q σ.pend)) (p : Nat) :
    ∀ r q, r ≠ q → M.Apart (own r (drop p σ.pend)) (own q (drop p σ.pend)) := by
  intro r q hrq
  by_cases hr : r = p
  · subst hr
    rw [own_drop_self]
    exact fun w hw => by simp at hw
  · by_cases hq : q = p
    · subst hq
      rw [own_drop_self]
      exact fun _ _ v hv => by simp at hv
    · rw [own_drop_ne hr, own_drop_ne hq]
      exact h r q hrq

/-- New writes of `p` that are not blocked keep the transactions apart. -/
theorem apart_append {p : Nat} {ws : List W}
    (h : ∀ r q, r ≠ q → M.Apart (own r σ.pend) (own q σ.pend))
    (hfree : M.blocked p σ.pend ws = false) :
    ∀ r q, r ≠ q →
      M.Apart (own r (σ.pend ++ ws.map (p, ·))) (own q (σ.pend ++ ws.map (p, ·))) := by
  have hself : ∀ q, q ≠ p → M.Apart (own p σ.pend ++ ws) (own q σ.pend) := by
    intro q hq w hw
    rcases List.mem_append.mp hw with hw | hw
    · exact h p q (Ne.symm hq) w hw
    · exact apart_of_free hfree hq w hw
  intro r q hrq
  by_cases hr : r = p
  · subst hr
    rw [own_append_self, own_append_ne (Ne.symm hrq)]
    exact hself q (Ne.symm hrq)
  · by_cases hq : q = p
    · subst hq
      rw [own_append_self, own_append_ne hr]
      exact (hself r hr).symm
    · rw [own_append_ne hr, own_append_ne hq]
      exact h r q hrq

/-- After a move of `p` there is its next location to look at, and everybody else. -/
theorem assertions_goto {p : Nat} {l : L} {loc : Nat → L} {b : Base D X W} {pend : List (Nat × W)}
    (hp : At p l b (own p pend)) (hothers : ∀ q, q ≠ p → At q (loc q) b (own q pend)) :
    ∀ q, At q (goto loc p l q) b (own q pend) :=
  forall_goto (P := fun q l => At q l b (own q pend)) hp hothers

/-- A transaction that ends without a commit. -/
theorem Holds.abandon (h : Holds M Inv At Tx init σ) {p : Nat} {l : L} (hp : At p l σ.base []) :
    Holds M Inv At Tx init { σ with pend := drop p σ.pend, loc := goto σ.loc p l } := by
  refine ⟨h.inv, assertions_goto ?_ fun q hq => ?_, apart_drop h.apart p, h.serial, h.replay⟩
  · rw [own_drop_self]
    exact hp
  · rw [own_drop_ne hq]
    exact h.assertions q

/-- **Step lemma.**  One step of any process or of the environment keeps the outline. -/
theorem step_holds (H : Outline M lok Inv At Tx Ext) {a : Act O E}
    (h : Holds M Inv At Tx init σ) (hok : localOk lok σ a) (hs : M.step σ a = some σ') :
    Holds M Inv At Tx init σ' := by
  have ⟨hinv, hat, hapart, hser, hrep⟩ := h
  cases effect_of_step M hs with
  | @stmt p o f hcode hfree =>
    obtain ⟨hext, hinv', hp⟩ := H.stmt (o := o) hcode hok hinv (hat p)
    refine ⟨hinv', assertions_goto ?_ fun q hq => ?_, apart_append hapart hfree, hser, hrep⟩
    · rw [own_append_self]
      exact hp
    · rw [own_append_ne hq]
      exact H.world hext (hat q)
  | @read p o f hcode hnone =>
    have hidle := H.idle hcode (hat p)
    simp only [Machine.view, hidle, applyAll_nil] at hnone ⊢
    obtain ⟨hext, ⟨-, hinv', hp⟩ | ⟨hsome, -⟩⟩ :=
      H.auto (o := o) hcode hok hinv (hidle ▸ hat p)
    · refine ⟨hinv', assertions_goto ?_ fun q _ => H.world hext (hat q), hapart, hser, hrep⟩
      rw [hidle]
      exact hp
    · exact absurd hnone hsome
  | @auto p o f hcode hfree hsome =>
    have hidle := H.idle hcode (hat p)
    simp only [Machine.view, hidle, applyAll_nil] at hfree hsome ⊢
    obtain ⟨hext, ⟨hnone, -⟩ | ⟨-, hinv', htx, hp⟩⟩ :=
      H.auto (o := o) hcode hok hinv (hidle ▸ hat p)
    · exact absurd hnone hsome
    · refine ⟨hinv', assertions_goto ?_ fun q hq => ?_, hapart, hser.concat ?_, ?_⟩
      · rw [hidle]
        exact hp
      · have hcommit := H.other hq hinv (hat q) htx (apart_of_free hfree hq).symm
        exact H.world (b := M.commitBase σ.base p (f o σ.base.db σ.base.world).1) hext hcommit
      · exact hrep ▸ htx
      · simp [commitBase, hrep]
  | @commit p o l hcode =>
    obtain ⟨hinv', htx, hp⟩ := H.commit hcode hok hinv (hat p)
    refine ⟨hinv', assertions_goto ?_ fun q hq => ?_, apart_drop hapart p, hser.concat ?_, ?_⟩
    · rw [own_drop_self]
      exact hp
    · rw [own_drop_ne hq]
      exact H.other hq hinv (hat q) htx (hapart q p hq)
    · exact hrep ▸ htx
    · simp [commitBase, hrep]
  | @rollback p o l hcode => exact h.abandon (H.rollback hcode (hat p))
  | @fail p => exact h.abandon (H.fail (hat p))
  | @env e x henv =>
    obtain ⟨hext, hinv'⟩ := H.env henv hinv
    exact ⟨hinv', fun q => H.world hext (hat q), hapart, hser, hrep⟩

/-- The outline holds of an initial state in which nothing has happened yet. -/
theorem holds_init (hpend : init.pend = []) (hlog : init.base.log = [])
    (hinv : Inv init.base) (hat : ∀ p, At p (init.loc p) init.base []) :
    Holds M Inv At Tx init init := by
  refine ⟨hinv, fun p => ?_, fun p q _ => ?_, ?_, ?_⟩
  · rw [hpend]
    exact hat p
  · rw [hpend]
    exact fun w hw => (List.not_mem_nil hw).elim
  · rw [hlog]
    exact Serial.nil
  · rw [hlog]
    rfl

/-- **Soundness.**  Along every run the assertions hold, the transactions never hold clashing
    locks, and the committed log is a serial execution of `Tx` whose replay is the database. -/
theorem sound (H : Outline M lok Inv At Tx Ext) (hinit : Holds M Inv At Tx init init)
    (hrun : Run M.step (localOk lok) init σ) : Holds M Inv At Tx init σ :=
  hrun.invariant (fun _ _ _ h hok hs => H.step_holds h hok hs) hinit

/-- What the environment does enters an outline in one place. -/
theorem withEnv (H : Outline M lok Inv At Tx Ext) {env : E → (Nat → L) → X → Option X}
    (henv : ∀ {e loc} {b : Base D X W} {x' : X}, env e loc b.world = some x' → Inv b →
      Ext b.world x' ∧ Inv { b with world := x' }) :
    Outline { M with env := env } lok Inv At Tx Ext where
  stmt := H.stmt
  idle := H.idle
  auto := H.auto
  commit := H.commit
  rollback := H.rollback
  fail := H.fail
  env := henv
  world := H.world
  other := H.other

section Layer

variable {Inv₂ : Base D X W → Prop} {At₂ : Nat → L → Base D X W → List W → Prop}
  {Tx₂ : Nat → D → List (Nat × List W) → List W → Prop} {Ext₂ : X → X → Prop}

/-- The same for a layer that cares about nothing outside the database. -/
theorem layerWithEnv (env : E → (Nat → L) → X → Option X)
    (H₂ : Layer M lok Inv At Tx Inv₂ At₂ Tx₂ Ext₂) (hext : ∀ x x', Ext₂ x x')
    (hinv : ∀ {b : Base D X W} {x' : X}, Inv₂ b → Inv₂ { b with world := x' }) :
    Layer { M with env := env } lok Inv At Tx Inv₂ At₂ Tx₂ Ext₂ where
  stmt := H₂.stmt
  auto := H₂.auto
  commit := H₂.commit
  rollback := H₂.rollback
  fail := H₂.fail
  env := fun _ h => ⟨hext _ _, hinv h⟩
  world := H₂.world
  other := H₂.other

/-- A layer over an outline is one over every outline that knows more. -/
theorem layerMono {Inv' : Base D X W → Prop} {At' : Nat → L → Base D X W → List W → Prop}
    {Tx' : Nat → D → List (Nat × List W) → List W → Prop}
    (H₂ : Layer M lok Inv At Tx Inv₂ At₂ Tx₂ Ext₂) (hinv : ∀ {b}, Inv' b → Inv b)
    (hat : ∀ {p l b ws}, At' p l b ws → At p l b ws)
    (htx : ∀ {p d log ws}, Tx' p d log ws → Tx p d log ws) :
    Layer M lok Inv' At' Tx' Inv₂ At₂ Tx₂ Ext₂ where
  stmt := fun hcode hok hi ha => H₂.stmt hcode hok (hinv hi) (hat ha)
  auto := fun hcode hok hi ha => H₂.auto hcode hok (hinv hi) (hat ha)
  commit := fun hcode hok hi ha ht => H₂.commit hcode hok (hinv hi) (hat ha) (htx ht)
  rollback := H₂.rollback
  fail := H₂.fail
  env := H₂.env
  world := H₂.world
  other := fun hpq hi ha ht => H₂.other hpq (hinv hi) (hat ha) (htx ht)

/-- **An outline with a layer is an outline.** -/
theorem layer (H : Outline M lok Inv At Tx Ext)
    (H₂ : Layer M lok Inv At Tx Inv₂ At₂ Tx₂ Ext₂) :
    Outline M lok (fun b => Inv b ∧ Inv₂ b) (fun p l b ws => At p l b ws ∧ At₂ p l b ws)
      (fun p d log ws => Tx p d log ws ∧ Tx₂ p d log ws) (fun x x' => Ext x x' ∧ Ext₂ x x') where
  stmt := by
    intro p l f b ws o hcode hok hinv hat
    obtain ⟨hext, hinv', hat'⟩ := H.stmt (o := o) hcode hok hinv.1 hat.1
    obtain ⟨hext₂, hinv₂, hat₂⟩ := H₂.stmt (o := o) hcode hok hinv.1 hat.1 hinv.2 hat.2
    exact ⟨⟨hext, hext₂⟩, ⟨hinv', hinv₂⟩, hat', hat₂⟩
  idle := fun hcode hat => H.idle hcode hat.1
  auto := by
    intro p l f b o hcode hok hinv hat
    obtain ⟨hext, hleft⟩ := H.auto (o := o) hcode hok hinv.1 hat.1
    obtain ⟨hext₂, hright⟩ := H₂.auto (o := o) hcode hok hinv.1 hat.1 hinv.2 hat.2
    refine ⟨⟨hext, hext₂⟩, ?_⟩
    -- both sides agree on whether the statement wrote anything
    rcases hleft with ⟨hnone, hinv', hat'⟩ | ⟨hsome, hinv', htx, hat'⟩
    · rcases hright with ⟨-, hinv₂, hat₂⟩ | ⟨hsome, -⟩
      · exact Or.inl ⟨hnone, ⟨hinv', hinv₂⟩, hat', hat₂⟩
      · exact absurd hnone hsome
    · rcases hright with ⟨hnone, -⟩ | ⟨-, hinv₂, htx₂, hat₂⟩
      · exact absurd hnone hsome
      · exact Or.inr ⟨hsome, ⟨hinv', hinv₂⟩, ⟨htx, htx₂⟩, hat', hat₂⟩
  commit := by
    intro p l l' b ws hcode hok hinv hat
    obtain ⟨hinv', htx, hat'⟩ := H.commit hcode hok hinv.1 hat.1
    obtain ⟨hinv₂, htx₂, hat₂⟩ := H₂.commit hcode hok hinv.1 hat.1 htx hinv.2 hat.2
    exact ⟨⟨hinv', hinv₂⟩, ⟨htx, htx₂⟩, hat', hat₂⟩
  rollback := fun hcode hat => ⟨H.rollback hcode hat.1, H₂.rollback hcode hat.2⟩
  fail := fun hat => ⟨H.fail hat.1, H₂.fail hat.2⟩
  env := by
    intro e loc b x' henv hinv
    obtain ⟨hext, hinv'⟩ := H.env henv hinv.1
    obtain ⟨hext₂, hinv₂⟩ := H₂.env henv hinv.2
    exact ⟨⟨hext, hext₂⟩, hinv', hinv₂⟩
  world := fun hext hat => ⟨H.world hext.1 hat.1, H₂.world hext.2 hat.2⟩
  other := fun hpq hinv hat htx hap =>
    ⟨H.other hpq hinv.1 hat.1 htx.1 hap,
      H₂.other hpq hinv.1 hat.1 htx.1 hinv.2 hat.2 htx.2 hap⟩

end Layer

end Outline

end ReadCommitted
