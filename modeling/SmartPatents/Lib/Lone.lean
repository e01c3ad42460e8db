/-
  Runs of one process alone, from any state.

  Where nobody else moves, what a process knows needs neither stability nor locks: it is enough that
  each of its own statements leads from the assertion of its location to that of the next one.  The
  rule asks that a statement which is its own transaction only reads.

  The state may be any, with transactions of other processes still open: these hold what they
  hold.  A failure ends the process where the side condition lets it, and the assertion of that
  location has to cover it.
-/
import SmartPatents.Lib.ReadCommitted

namespace ReadCommitted

open Runs

variable {D X W K O E L : Type}

/-- Process `p` moves, with oracles that satisfy `ok`, and fails only where `mayFail` says so. -/
def lone (p : Nat) (ok : O → Prop) (mayFail : L → Prop) (σ : State D X W L) : Act O E → Prop
  | .run q o => q = p ∧ ok o
  | .fail q => q = p ∧ mayFail (σ.loc q)
  | .env _ => False

instance {p : Nat} {ok : O → Prop} {mayFail : L → Prop} [DecidablePred ok] [DecidablePred mayFail]
    (σ : State D X W L) : ∀ a : Act O E, Decidable (lone p ok mayFail σ a)
  | .run q o => inferInstanceAs (Decidable (q = p ∧ ok o))
  | .fail q => inferInstanceAs (Decidable (q = p ∧ mayFail (σ.loc q)))
  | .env _ => .isFalse id

/-- Every statement of `p` keeps the assertion `At` of its locations. -/
structure Lone (M : Machine D X W K O E L) (p : Nat) (ok : O → Prop) (mayFail : L → Prop)
    (At : L → Base D X W → List W → Prop) : Prop where
  stmt : ∀ {l f b ws o}, M.code p l = .stmt f → ok o → At l b ws →
    At (f o (M.applyAll b.db ws) b.world).2.2
      { b with world := (f o (M.applyAll b.db ws) b.world).2.1 }
      (ws ++ (f o (M.applyAll b.db ws) b.world).1)
  auto : ∀ {l f b ws o}, M.code p l = .auto f → ok o → At l b ws →
    (f o (M.applyAll b.db ws) b.world).1 = [] ∧
      At (f o (M.applyAll b.db ws) b.world).2.2
        { b with world := (f o (M.applyAll b.db ws) b.world).2.1 } ws
  commit : ∀ {l l' b ws}, M.code p l = .commit l' → At l b ws → At l' (M.commitBase b p ws) []
  rollback : ∀ {l l' b ws}, M.code p l = .rollback l' → At l b ws → At l' b []
  fail : ∀ {l b ws}, mayFail l → At l b ws → At M.failed b []

variable [DecidableEq K] {M : Machine D X W K O E L} {p : Nat} {ok : O → Prop} {mayFail : L → Prop}
  {At : L → Base D X W → List W → Prop} {init σ σ' : State D X W L} {a : Act O E}

/-- **Step lemma.** -/
theorem Lone.step (S : Lone M p ok mayFail At) (h : At (σ.loc p) σ.base (own p σ.pend))
    (hlone : lone p ok mayFail σ a) (hs : M.step σ a = some σ') :
    At (σ'.loc p) σ'.base (own p σ'.pend) := by
  cases M.effect_of_step hs with
  | @stmt q o f hcode =>
    obtain ⟨rfl, ho⟩ := hlone
    simp only [goto_self, own_append_self]
    exact S.stmt hcode ho h
  | @read q o f hcode =>
    obtain ⟨rfl, ho⟩ := hlone
    simp only [goto_self]
    exact (S.auto hcode ho h).2
  | @auto q o f hcode hfree hsome =>
    obtain ⟨rfl, ho⟩ := hlone
    exact absurd (S.auto hcode ho h).1 hsome
  | @commit q o l hcode =>
    obtain ⟨rfl, -⟩ := hlone
    simp only [goto_self, own_drop_self]
    exact S.commit hcode h
  | @rollback q o l hcode =>
    obtain ⟨rfl, -⟩ := hlone
    simp only [goto_self, own_drop_self]
    exact S.rollback hcode h
  | @fail q =>
    obtain ⟨rfl, hmay⟩ := hlone
    simp only [goto_self, own_drop_self]
    exact S.fail hmay h
  | env => exact hlone.elim

/-- **Soundness.** -/
theorem Lone.sound (S : Lone M p ok mayFail At) (hinit : At (init.loc p) init.base (own p init.pend))
    (hrun : Run M.step (lone p ok mayFail) init σ) : At (σ.loc p) σ.base (own p σ.pend) :=
  hrun.invariant (I := fun σ => At (σ.loc p) σ.base (own p σ.pend))
    (fun _ _ _ h hlone hs => S.step h hlone hs) hinit

end ReadCommitted
