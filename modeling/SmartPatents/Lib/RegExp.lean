/-
  Regular expressions: units of a class, repeated units, sequences, lookaheads, and `$`.

  The language runs a pattern with a continuation: `run p k t` asks whether `p` matches at the front of
  `t` such that `k` accepts the rest, and goes back over its choices if `k` does not.  So what is left
  behind a match is `Matches`, whatever the order of the choices is (`run_iff`).

  A lookahead leaves everything, and so sees no further than its own pattern does: `.*c` stops at the
  first unit that `.` does not match (`matchesStart_many_unit`).

  `Matches` is inductive, one rule for each form of a pattern, and each form has an equivalence
  that says what its matches are (`matches_seq_iff`, `matches_many_iff`, `matches_plus_iff`).  A
  concrete pattern is understood by rewriting with them, and never by looking at the matcher
  again.
-/
import Mathlib.Data.List.Basic

/-- A pattern over units of type `α`. -/
inductive RegExp (α : Type)
  /-- `[…]`, one unit of a class. -/
  | unit (p : α → Bool)
  /-- `[…]*`. -/
  | many (p : α → Bool)
  | seq (a b : RegExp α)
  /-- `(?=a)`. -/
  | ahead (a : RegExp α)
  /-- `$`. -/
  | finish

namespace RegExp

variable {α : Type}

/-- `[…]*`, as many units as possible first. -/
def runMany (p : α → Bool) (k : List α → Bool) : List α → Bool
  | [] => k []
  | u :: t => (p u && runMany p k t) || k (u :: t)

/-- The matcher, by continuations: what is left of the text goes to `k`. -/
def run : RegExp α → (List α → Bool) → List α → Bool
  | unit _, _, [] => false
  | unit p, k, u :: t => p u && k t
  | many p, k, t => runMany p k t
  | seq a b, k, t => a.run (b.run k) t
  | ahead a, k, t => a.run (fun _ => true) t && k t
  | finish, k, t => t.isEmpty && k t

/-- `[…]+`. -/
def plus (p : α → Bool) : RegExp α := seq (unit p) (many p)

/-- `/^…/.test(t)`. -/
def matchesStart (a : RegExp α) (t : List α) : Bool := a.run (fun _ => true) t

/-- `/…/.test(t)`. -/
def test (a : RegExp α) (t : List α) : Bool := t.tails.any a.matchesStart

/-! ## What a pattern matches -/

/-- `a` matches at the front of a text and leaves the rest. -/
inductive Matches : RegExp α → List α → List α → Prop
  | unit {p u t} : p u = true → Matches (unit p) (u :: t) t
  | stop {p t} : Matches (many p) t t
  | more {p u t rest} : p u = true → Matches (many p) t rest → Matches (many p) (u :: t) rest
  | seq {a b t s rest} : Matches a t s → Matches b s rest → Matches (seq a b) t rest
  | ahead {a t s} : Matches a t s → Matches (ahead a) t t
  | finish : Matches finish [] []

/-- The matcher of a repetition tries every length. -/
theorem runMany_iff {p : α → Bool} {k : List α → Bool} {t : List α} :
    runMany p k t = true ↔ ∃ rest, Matches (many p) t rest ∧ k rest = true := by
  induction t with
  | nil =>
    constructor
    · exact fun h => ⟨[], .stop, h⟩
    · rintro ⟨rest, hmatch, hk⟩
      cases hmatch
      exact hk
  | cons u t ih =>
    rw [runMany, Bool.or_eq_true, Bool.and_eq_true, ih]
    constructor
    · rintro (⟨hu, rest, hmatch, hk⟩ | hk)
      · exact ⟨rest, .more hu hmatch, hk⟩
      · exact ⟨u :: t, .stop, hk⟩
    · rintro ⟨rest, hmatch, hk⟩
      cases hmatch with
      | stop => exact Or.inr hk
      | more hu hmatch => exact Or.inl ⟨hu, rest, hmatch, hk⟩

/-- **The matcher finds every match.** -/
theorem run_iff (a : RegExp α) {k : List α → Bool} {t : List α} :
    a.run k t = true ↔ ∃ rest, Matches a t rest ∧ k rest = true := by
  induction a generalizing k t with
  | unit p =>
    constructor
    · intro h
      cases t with
      | nil => exact absurd h Bool.false_ne_true
      | cons u t =>
        obtain ⟨hu, hk⟩ := Bool.and_eq_true_iff.mp h
        exact ⟨t, .unit hu, hk⟩
    · rintro ⟨rest, hmatch, hk⟩
      cases hmatch with
      | unit hu => exact Bool.and_eq_true_iff.mpr ⟨hu, hk⟩
  | many p => exact runMany_iff
  | seq a b iha ihb =>
    rw [run, iha]
    constructor
    · rintro ⟨s, hfirst, hs⟩
      obtain ⟨rest, hsecond, hk⟩ := ihb.mp hs
      exact ⟨rest, .seq hfirst hsecond, hk⟩
    · rintro ⟨rest, hmatch, hk⟩
      cases hmatch with
      | seq hfirst hsecond => exact ⟨_, hfirst, ihb.mpr ⟨rest, hsecond, hk⟩⟩
  | ahead a ih =>
    rw [run, Bool.and_eq_true, ih]
    constructor
    · rintro ⟨⟨s, hmatch, -⟩, hk⟩
      exact ⟨t, .ahead hmatch, hk⟩
    · rintro ⟨rest, hmatch, hk⟩
      cases hmatch with
      | ahead hmatch => exact ⟨⟨_, hmatch, rfl⟩, hk⟩
  | finish =>
    rw [run, Bool.and_eq_true, List.isEmpty_iff]
    constructor
    · rintro ⟨rfl, hk⟩
      exact ⟨[], .finish, hk⟩
    · rintro ⟨rest, hmatch, hk⟩
      cases hmatch
      exact ⟨rfl, hk⟩

/-- **The matcher is right**: it accepts a text that starts with a match, and no other. -/
theorem matchesStart_iff {a : RegExp α} {t : List α} :
    a.matchesStart t = true ↔ ∃ rest, Matches a t rest := by
  rw [matchesStart, run_iff]
  simp only [and_true]

section Rules

variable {a b : RegExp α} {p : α → Bool} {t rest : List α}

theorem matches_unit_iff : Matches (unit p) t rest ↔ ∃ u, p u = true ∧ t = u :: rest := by
  constructor
  · intro h
    cases h with
    | unit hu => exact ⟨_, hu, rfl⟩
  · rintro ⟨u, hu, rfl⟩
    exact .unit hu

/-- A repetition matches a prefix of such units. -/
theorem matches_many_iff : Matches (many p) t rest ↔
    ∃ s, (∀ u ∈ s, p u = true) ∧ t = s ++ rest := by
  constructor
  · intro h
    induction t with
    | nil =>
      cases h
      exact ⟨[], fun u hu => absurd hu List.not_mem_nil, rfl⟩
    | cons u t ih =>
      cases h with
      | stop => exact ⟨[], fun u hu => absurd hu List.not_mem_nil, rfl⟩
      | more hu hmatch =>
        obtain ⟨s, hs, rfl⟩ := ih hmatch
        exact ⟨u :: s, List.forall_mem_cons.mpr ⟨hu, hs⟩, rfl⟩
  · rintro ⟨s, hs, rfl⟩
    induction s with
    | nil => exact .stop
    | cons u s ih =>
      obtain ⟨hu, hs⟩ := List.forall_mem_cons.mp hs
      exact .more hu (ih hs)

/-- A sequence matches one after the other. -/
theorem matches_seq_iff : Matches (seq a b) t rest ↔ ∃ s, Matches a t s ∧ Matches b s rest := by
  constructor
  · intro h
    cases h with
    | seq hfirst hsecond => exact ⟨_, hfirst, hsecond⟩
  · rintro ⟨s, hfirst, hsecond⟩
    exact .seq hfirst hsecond

/-- A part of a text: one unit of the class, or more. -/
def Part (p : α → Bool) (s : List α) : Prop := s ≠ [] ∧ ∀ u ∈ s, p u = true

/-- A nonempty repetition matches a nonempty prefix. -/
theorem matches_plus_iff : Matches (plus p) t rest ↔ ∃ s, Part p s ∧ t = s ++ rest := by
  rw [plus, matches_seq_iff]
  constructor
  · rintro ⟨t', hunit, hmany⟩
    obtain ⟨u, hu, rfl⟩ := matches_unit_iff.mp hunit
    obtain ⟨s, hs, rfl⟩ := matches_many_iff.mp hmany
    exact ⟨u :: s, ⟨List.cons_ne_nil _ _, List.forall_mem_cons.mpr ⟨hu, hs⟩⟩, rfl⟩
  · rintro ⟨_ | ⟨u, s⟩, ⟨hne, hs⟩, rfl⟩
    · exact absurd rfl hne
    · obtain ⟨hu, hs⟩ := List.forall_mem_cons.mp hs
      exact ⟨s ++ rest, .unit hu, matches_many_iff.mpr ⟨s, hs, rfl⟩⟩

/-- `a$` matches what `a` matches without a rest. -/
theorem matches_seq_finish_iff : Matches (seq a finish) t rest ↔ Matches a t [] ∧ rest = [] := by
  rw [matches_seq_iff]
  constructor
  · rintro ⟨s, hmatch, hfinish⟩
    cases hfinish
    exact ⟨hmatch, rfl⟩
  · rintro ⟨hmatch, rfl⟩
    exact ⟨[], hmatch, .finish⟩

end Rules

/-! ## Lookaheads -/

/-- A lookahead in front of a pattern is a second test of the same text. -/
theorem matchesStart_ahead_seq (a b : RegExp α) (t : List α) :
    (seq (ahead a) b).matchesStart t = (a.matchesStart t && b.matchesStart t) := rfl

/-- A lookahead at the start of a pattern is a match at the start. -/
theorem matchesStart_ahead (a : RegExp α) (t : List α) :
    (ahead a).matchesStart t = a.matchesStart t := Bool.and_true _

/-- `.*c` looks for `c` among the units that `.` matches. -/
theorem matchesStart_many_unit {p q : α → Bool} (hsub : ∀ u, q u = true → p u = true)
    (t : List α) : (seq (many p) (unit q)).matchesStart t = (t.takeWhile p).any q := by
  show runMany p ((unit q).run fun _ => true) t = (t.takeWhile p).any q
  induction t with
  | nil => rfl
  | cons u t ih =>
    rw [runMany, ih]
    cases hp : p u with
    | true =>
      rw [List.takeWhile_cons_of_pos hp, List.any_cons, run, Bool.true_and, Bool.and_true,
        Bool.or_comm]
    | false =>
      have hq : q u = false := by
        by_contra hne
        rw [Bool.not_eq_false] at hne
        exact absurd (hsub u hne) (by rw [hp]; exact Bool.false_ne_true)
      rw [List.takeWhile_cons_of_neg (by rw [hp]; exact Bool.false_ne_true), run, hq]
      rfl

/-- A class is found wherever it stands. -/
theorem test_unit (q : α → Bool) (t : List α) : (unit q).test t = t.any q := by
  induction t with
  | nil => rfl
  | cons u t ih =>
    show (q u && true || (unit q).test t) = (u :: t).any q
    rw [Bool.and_true, ih, List.any_cons]

end RegExp
