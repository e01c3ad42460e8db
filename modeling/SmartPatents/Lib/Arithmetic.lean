/-
  Arithmetic on the numbers of ECMAScript: an operation returns the double nearest to the exact result,
  and an infinity where that is out of range.

  `nearest` takes the exponent at which the significand has 53 bits (`Rounds`) and rounds there.  So it
  never crosses a double: what lies above one is rounded to one above it, or to itself
  (`Double.le_round`, `Double.round_le`), and a double is rounded to itself.  The natural numbers up to
  2^53 are doubles.

  A proof about an expression goes by two predicates.  `x.Is q` says that the number is exactly
  `q`: subtraction and multiplication of such numbers is `ofRat` of the exact result, and that is
  exact again for natural numbers up to 2^53.  `x.AtLeast q` says that it is an infinity, or at
  least `q`: it survives operations where the bound is itself a double, because rounding does not
  cross one.  So an expression is either computed, or bounded from below, and nothing is said
  about numbers in between.
-/
import SmartPatents.Lib.Doubles
import Mathlib.Algebra.Order.Field.Power
import Mathlib.Tactic.FieldSimp
import Mathlib.Tactic.Linarith
import Mathlib.Tactic.Positivity
import Mathlib.Tactic.NormNum
import Mathlib.Tactic.Ring

namespace Doubles

open Numeral

/-! ## The exponent -/

section Nearest

variable {n d : Nat} {e : Int} {q : ℚ}

/-- The scaled denominator is positive. -/
theorem scaled_pos (hd : 0 < d) : 0 < (scaled n d e).2 := by
  unfold scaled
  split
  · exact Nat.mul_pos hd (Nat.two_pow_pos _)
  · exact hd

/-- `n / d` is the scaled fraction times `2 ^ e`. -/
theorem scaled_mul (hd : 0 < d) :
    (n : ℚ) / d = (scaled n d e).1 / (scaled n d e).2 * 2 ^ e := by
  have hd' : (d : ℚ) ≠ 0 := Nat.cast_ne_zero.mpr (Nat.ne_of_gt hd)
  unfold scaled
  split
  · rename_i he
    obtain ⟨k, rfl⟩ := Int.eq_ofNat_of_zero_le he
    have hk : (2 : ℚ) ^ k ≠ 0 := by positivity
    rw [Int.toNat_natCast, zpow_natCast, Nat.cast_mul, Nat.cast_pow,
      Nat.cast_ofNat]
    field_simp
  · rename_i he
    obtain ⟨k, rfl⟩ : ∃ k : Nat, e = -(k : Int) := ⟨e.natAbs, by omega⟩
    have hk : (2 : ℚ) ^ k ≠ 0 := by positivity
    rw [neg_neg, Int.toNat_natCast, zpow_neg, zpow_natCast, Nat.cast_mul, Nat.cast_pow,
      Nat.cast_ofNat]
    field_simp

/-- A multiple of `2 ^ e` is compared with `n / d` by integers. -/
theorem mul_le_iff (hd : 0 < d) (k : Nat) :
    (k : ℚ) * 2 ^ e ≤ n / d ↔ k * (scaled n d e).2 ≤ (scaled n d e).1 := by
  have hpow : (0 : ℚ) < 2 ^ e := by positivity
  have hpos : (0 : ℚ) < (scaled n d e).2 := Nat.cast_pos.mpr (scaled_pos hd)
  rw [scaled_mul (e := e) hd, mul_le_mul_iff_left₀ hpow, le_div_iff₀ hpos, ← Nat.cast_mul,
    Nat.cast_le]

/-- A comparison with a double, in natural numbers. -/
theorem le_mul_iff (hd : 0 < d) (k : Nat) :
    (n : ℚ) / d ≤ k * 2 ^ e ↔ (scaled n d e).1 ≤ k * (scaled n d e).2 := by
  have hpow : (0 : ℚ) < 2 ^ e := by positivity
  have hpos : (0 : ℚ) < (scaled n d e).2 := Nat.cast_pos.mpr (scaled_pos hd)
  rw [scaled_mul (e := e) hd, mul_le_mul_iff_left₀ hpow, div_le_iff₀ hpos, ← Nat.cast_mul,
    Nat.cast_le]

theorem two_pow_mul_zpow (b k l : Nat) :
    (2 : ℚ) ^ b * 2 ^ ((k : Int) - l - 52) = 2 ^ (k + b) / 2 ^ (l + 52) := by
  have hsum : (k : Int) - l - 52 = (k : Int) - ((l + 52 : Nat) : Int) := by omega
  rw [hsum, zpow_sub₀ two_ne_zero, zpow_natCast, zpow_natCast, mul_div_assoc', ← pow_add,
    Nat.add_comm b k]

/-- The binary logarithms tell the quotient up to two bits. -/
theorem quotient_bracket (hn : 0 < n) (hd : 0 < d) :
    (2 : ℚ) ^ 51 * 2 ^ ((Nat.log2 n : Int) - Nat.log2 d - 52) < n / d ∧
      (n : ℚ) / d < 2 ^ 53 * 2 ^ ((Nat.log2 n : Int) - Nat.log2 d - 52) := by
  have hd' : (0 : ℚ) < d := Nat.cast_pos.mpr hd
  have hnlow : (2 : ℚ) ^ Nat.log2 n ≤ n := by exact_mod_cast Nat.log2_self_le (Nat.ne_of_gt hn)
  have hnhigh : (n : ℚ) < 2 ^ (Nat.log2 n + 1) := by exact_mod_cast Nat.lt_log2_self
  have hdlow : (2 : ℚ) ^ Nat.log2 d ≤ d := by exact_mod_cast Nat.log2_self_le (Nat.ne_of_gt hd)
  have hdhigh : (d : ℚ) < 2 ^ (Nat.log2 d + 1) := by exact_mod_cast Nat.lt_log2_self
  have hden : (0 : ℚ) < 2 ^ (Nat.log2 d + 52) := by positivity
  rw [two_pow_mul_zpow, two_pow_mul_zpow]
  constructor
  · rw [div_lt_div_iff₀ hden hd']
    calc (2 : ℚ) ^ (Nat.log2 n + 51) * d
        < 2 ^ (Nat.log2 n + 51) * 2 ^ (Nat.log2 d + 1) := by gcongr
      _ = 2 ^ Nat.log2 n * 2 ^ (Nat.log2 d + 52) := by ring
      _ ≤ n * 2 ^ (Nat.log2 d + 52) := by gcongr
  · rw [div_lt_div_iff₀ hd' hden]
    calc (n : ℚ) * 2 ^ (Nat.log2 d + 52)
        < 2 ^ (Nat.log2 n + 1) * 2 ^ (Nat.log2 d + 52) := by gcongr
      _ = 2 ^ (Nat.log2 n + 53) * 2 ^ Nat.log2 d := by ring
      _ ≤ 2 ^ (Nat.log2 n + 53) * d := by gcongr

/-- `q` is rounded to `m * 2 ^ e`. -/
structure Rounds (q : ℚ) (m : Nat) (e : Int) : Prop where
  lowest : -1074 ≤ e
  lt : q < 2 ^ 53 * 2 ^ e
  /-- All 53 bits are used, except below the smallest normal number. -/
  normal : e = -1074 ∨ 2 ^ 52 * 2 ^ e ≤ q
  /-- Rounding does not cross a multiple of `2 ^ e`. -/
  le : ∀ k : Nat, (k : ℚ) * 2 ^ e ≤ q → k ≤ m
  ge : ∀ k : Nat, q ≤ k * 2 ^ e → m ≤ k

/-- The quotient `a / b` as an integer, of two equally near ones the even one. -/
def halfEven (a b : Nat) : Nat :=
  if 2 * (a % b) < b || (2 * (a % b) == b && a / b % 2 == 0) then a / b else a / b + 1

/-- Rounding stays above what divides below. -/
theorem le_halfEven {a b k : Nat} (hb : 0 < b) (h : k * b ≤ a) : k ≤ halfEven a b := by
  have hk : k ≤ a / b := (Nat.le_div_iff_mul_le hb).mpr h
  unfold halfEven
  split <;> omega

theorem halfEven_le {a b k : Nat} (hb : 0 < b) (h : a ≤ k * b) : halfEven a b ≤ k := by
  unfold halfEven
  split
  · exact Nat.div_le_of_le_mul (Nat.mul_comm k b ▸ h)
  · rename_i hup
    rw [Bool.or_eq_true, decide_eq_true_eq, not_or] at hup
    -- something is left over, so `k` is above the quotient
    have hdiv := Nat.div_add_mod a b
    have hlt : b * (a / b) < b * k := by
      rw [Nat.mul_comm b k]
      omega
    exact Nat.lt_of_mul_lt_mul_left hlt

/-- The exponent that leaves 53 bits of `n / d`. -/
def bitsExponent (n d : Nat) : Int :=
  let e : Int := (Nat.log2 n : Int) - Nat.log2 d - 52
  if (scaled n d e).1 / (scaled n d e).2 < 2 ^ 52 then e - 1 else e

/-- The exponent puts the value between two powers of two, so that the mantissa has 53 bits. -/
theorem bitsExponent_bracket (hn : 0 < n) (hd : 0 < d) :
    (2 : ℚ) ^ 52 * 2 ^ bitsExponent n d ≤ n / d ∧ (n : ℚ) / d < 2 ^ 53 * 2 ^ bitsExponent n d := by
  obtain ⟨hlow, hhigh⟩ := quotient_bracket hn hd
  unfold bitsExponent
  dsimp only
  generalize (Nat.log2 n : Int) - Nat.log2 d - 52 = e at hlow hhigh ⊢
  have hle := mul_le_iff (n := n) (e := e) hd (2 ^ 52)
  rw [← Nat.le_div_iff_mul_le (scaled_pos hd), Nat.cast_pow, Nat.cast_ofNat] at hle
  split
  · -- one bit is missing
    rename_i hsmall
    have hhalf : (2 : ℚ) ^ (e - 1) = 2 ^ e / 2 := by rw [zpow_sub_one₀ two_ne_zero, div_eq_mul_inv]
    have hlt := not_le.mp (mt hle.mp (Nat.not_le.mpr hsmall))
    rw [hhalf]
    exact ⟨by linarith, by linarith⟩
  · rename_i hlarge
    exact ⟨hle.mpr (Nat.not_lt.mp hlarge), hhigh⟩

/-- The nearest double has this exponent, or that of the subnormals. -/
theorem nearest_eq (hn : 0 < n) : nearest n d =
    (halfEven (scaled n d (max (bitsExponent n d) (-1074))).1
      (scaled n d (max (bitsExponent n d) (-1074))).2, max (bitsExponent n d) (-1074)) :=
  if_neg (Nat.ne_of_gt hn)

/-- **What `nearest` returns.** -/
theorem rounds_nearest (hn : 0 < n) (hd : 0 < d) :
    Rounds (n / d) (nearest n d).1 (nearest n d).2 := by
  obtain ⟨hlow, hhigh⟩ := bitsExponent_bracket hn hd
  rw [nearest_eq hn]
  dsimp only
  refine ⟨Int.le_max_right _ _, ?_, ?_, fun k hk => ?_, fun k hk => ?_⟩
  · have hmono : (2 : ℚ) ^ bitsExponent n d ≤ 2 ^ max (bitsExponent n d) (-1074) :=
      zpow_le_zpow_right₀ one_le_two (Int.le_max_left _ _)
    have hscale : (2 : ℚ) ^ 53 * 2 ^ bitsExponent n d ≤
        2 ^ 53 * 2 ^ max (bitsExponent n d) (-1074) := by gcongr
    exact lt_of_lt_of_le hhigh hscale
  · rcases Int.le_total (bitsExponent n d) (-1074) with h | h
    · exact Or.inl (Int.max_eq_right h)
    · rw [Int.max_eq_left h]
      exact Or.inr hlow
  · exact le_halfEven (scaled_pos hd) ((mul_le_iff hd k).mp hk)
  · exact halfEven_le (scaled_pos hd) ((le_mul_iff hd k).mp hk)

end Nearest

/-! ## Rounding and doubles -/

section Round

variable {q : ℚ} {x : Double} {e : Int}

/-- A double as a product. -/
theorem mkRat_eq_mul (m : Nat) (e : Int) :
    mkRat (m * 2 ^ e.toNat) (2 ^ (-e).toNat) = (m : ℚ) * 2 ^ e := by
  rw [Rat.mkRat_eq_div]
  push_cast
  rcases Int.le_total 0 e with h | h
  · obtain ⟨k, rfl⟩ := Int.eq_ofNat_of_zero_le h
    rw [Int.toNat_natCast, Int.toNat_neg_natCast, pow_zero, div_one, zpow_natCast]
  · obtain ⟨k, rfl⟩ : ∃ k : Nat, e = -(k : Int) := ⟨e.natAbs, by omega⟩
    rw [neg_neg, Int.toNat_natCast, Int.toNat_neg_natCast, pow_zero, mul_one, zpow_neg,
      zpow_natCast, div_eq_mul_inv]

@[simp] theorem round_zero : round 0 = 0 := by decide +kernel

/-- `round` rounds: to a multiple of the right power of two, half to even. -/
theorem rounds_round (hq : 0 < q) : ∃ m e, Rounds q m e ∧ round q = m * 2 ^ e := by
  have hnum : 0 < q.num := Rat.num_pos.mpr hq
  have hcast : ((q.num.natAbs : Nat) : ℚ) = q.num := by rw [Nat.cast_natAbs, abs_of_pos hnum]
  have hrounds := rounds_nearest (Int.natAbs_pos.mpr (Int.ne_of_gt hnum)) q.den_pos
  rw [hcast, Rat.num_div_den] at hrounds
  exact ⟨_, _, hrounds, mkRat_eq_mul _ _⟩

/-- A double is a multiple of `2 ^ e`, or has too few bits. -/
theorem Double.grid (hx : 0 ≤ x.value) (he : -1074 ≤ e) :
    (∃ j : Nat, x.value = j * 2 ^ e) ∨ (-1074 < e ∧ x.value < 2 ^ 52 * 2 ^ e) := by
  obtain ⟨m, f, hm, hlow, -, habs⟩ := x.isDouble
  rw [abs_of_nonneg hx] at habs
  rcases Int.lt_or_le f e with h | h
  · refine Or.inr ⟨by omega, ?_⟩
    have hm' : (m : ℚ) < 2 ^ 53 := by exact_mod_cast hm
    have hstep : (2 : ℚ) ^ f * 2 ≤ 2 ^ e := by
      rw [← zpow_add_one₀ two_ne_zero]
      exact zpow_le_zpow_right₀ one_le_two h
    calc x.value = m * 2 ^ f := habs
      _ < 2 ^ 53 * 2 ^ f := by gcongr
      _ = 2 ^ 52 * (2 ^ f * 2) := by ring
      _ ≤ 2 ^ 52 * 2 ^ e := by gcongr
  · obtain ⟨k, rfl⟩ : ∃ k : Nat, f = e + k := ⟨(f - e).toNat, by omega⟩
    refine Or.inl ⟨m * 2 ^ k, ?_⟩
    rw [habs, zpow_add₀ two_ne_zero, zpow_natCast, Nat.cast_mul, Nat.cast_pow, Nat.cast_ofNat]
    ring

/-- With all bits in use, the significand has its highest bit. -/
theorem Rounds.full {m : Nat} (h : Rounds q m e) (he : -1074 < e) : 2 ^ 52 ≤ m := by
  refine h.le _ ?_
  rw [Nat.cast_pow, Nat.cast_ofNat]
  exact h.normal.resolve_left (by omega)

/-- What is not below a double is not rounded below it. -/
theorem Double.le_round (hx : 0 ≤ x.value) (h : x.value ≤ q) : x.value ≤ round q := by
  rcases lt_or_eq_of_le (le_trans hx h) with hq | rfl
  · obtain ⟨m, e, hrounds, hround⟩ := rounds_round hq
    have hpow : (0 : ℚ) < 2 ^ e := by positivity
    rw [hround]
    rcases x.grid hx hrounds.lowest with ⟨j, hj⟩ | ⟨he, hlt⟩
    · rw [hj] at h ⊢
      have hle : (j : ℚ) ≤ m := Nat.cast_le.mpr (hrounds.le j h)
      gcongr
    · have hfull : (2 : ℚ) ^ 52 ≤ m := by exact_mod_cast hrounds.full he
      calc x.value ≤ 2 ^ 52 * 2 ^ e := le_of_lt hlt
        _ ≤ m * 2 ^ e := by gcongr
  · rwa [round_zero]

/-- Rounding does not cross a double. -/
theorem Double.round_le (hq : 0 ≤ q) (h : q ≤ x.value) : round q ≤ x.value := by
  rcases lt_or_eq_of_le hq with hpos | rfl
  · obtain ⟨m, e, hrounds, hround⟩ := rounds_round hpos
    have hpow : (0 : ℚ) < 2 ^ e := by positivity
    rw [hround]
    rcases x.grid (le_trans hq h) hrounds.lowest with ⟨j, hj⟩ | ⟨he, hlt⟩
    · rw [hj] at h ⊢
      have hle : (m : ℚ) ≤ j := Nat.cast_le.mpr (hrounds.ge j h)
      gcongr
    · have hnormal := hrounds.normal.resolve_left (by omega)
      exact absurd (lt_of_le_of_lt (le_trans hnormal h) hlt) (lt_irrefl _)
  · rwa [round_zero]

/-- **A double is rounded to itself.** -/
theorem Double.round_value (hx : 0 ≤ x.value) : round x.value = x.value :=
  le_antisymm (Double.round_le hx le_rfl) (Double.le_round hx le_rfl)

theorem round_nonneg (hq : 0 ≤ q) : 0 ≤ round q := by
  rcases lt_or_eq_of_le hq with hpos | rfl
  · obtain ⟨m, e, -, hround⟩ := rounds_round hpos
    rw [hround]
    positivity
  · rw [round_zero]

/-- A number below 2^1024 has no bit there. -/
theorem exponent_lt {m b : Nat} (hb : 2 ^ b ≤ m) (hlt : (m : ℚ) * 2 ^ e < 2 ^ 1024) :
    (b : Int) + e < 1024 := by
  by_contra hge
  have hb' : (2 : ℚ) ^ b ≤ m := by exact_mod_cast hb
  have hlarge : (2 : ℚ) ^ 1024 ≤ m * 2 ^ e := calc
    (2 : ℚ) ^ 1024 = 2 ^ (1024 : Int) := (zpow_ofNat 2 1024).symm
    _ ≤ 2 ^ ((b : Int) + e) := zpow_le_zpow_right₀ one_le_two (by omega)
    _ = 2 ^ b * 2 ^ e := by rw [zpow_add₀ two_ne_zero, zpow_natCast]
    _ ≤ m * 2 ^ e := by gcongr
  exact absurd (lt_of_le_of_lt hlarge hlt) (lt_irrefl _)

/-- Below the overflow, what `round` gives is a double. -/
theorem isDouble_round (hq : 0 ≤ q) (hlt : round q < 2 ^ 1024) :
    ∃ (m : ℕ) (e : ℤ), m < 2 ^ 53 ∧ -1074 ≤ e ∧ e ≤ 971 ∧ |round q| = m * 2 ^ e := by
  rw [abs_of_nonneg (round_nonneg hq)]
  rcases lt_or_eq_of_le hq with hpos | rfl
  · obtain ⟨m, e, hrounds, hround⟩ := rounds_round hpos
    rw [hround] at hlt ⊢
    have hmax : m ≤ 2 ^ 53 := hrounds.ge _ (by exact_mod_cast le_of_lt hrounds.lt)
    rcases Nat.lt_or_eq_of_le hmax with hm | rfl
    · refine ⟨m, e, hm, hrounds.lowest, ?_, rfl⟩
      rcases Int.lt_or_le (-1074) e with he | he
      · have hexp := exponent_lt (hrounds.full he) hlt
        omega
      · omega
    · -- rounded up to the next power of two
      have hexp := exponent_lt (Nat.le_refl (2 ^ 53)) hlt
      have hlowest := hrounds.lowest
      refine ⟨2 ^ 52, e + 1, by decide, by omega, by omega, ?_⟩
      rw [zpow_add_one₀ two_ne_zero]
      push_cast
      ring
  · exact ⟨0, 0, by decide, by decide, by decide, by rw [round_zero]; norm_num⟩

/-- A finite double is below the overflow. -/
theorem Double.lt (hx : 0 ≤ x.value) : x.value < 2 ^ 1024 := by
  obtain ⟨m, e, hm, -, hhigh, habs⟩ := x.isDouble
  rw [abs_of_nonneg hx] at habs
  have hm' : (m : ℚ) < 2 ^ 53 := by exact_mod_cast hm
  calc x.value = m * 2 ^ e := habs
    _ < 2 ^ 53 * 2 ^ e := by gcongr
    _ ≤ 2 ^ 53 * 2 ^ (971 : Int) := by
      have := zpow_le_zpow_right₀ (a := (2 : ℚ)) one_le_two hhigh
      gcongr
    _ = 2 ^ 1024 := by rw [zpow_ofNat, ← pow_add]

end Round

/-! ## Operations -/

/-- The double nearest to an exact result. -/
def ofRat (q : ℚ) : Number :=
  if h : round |q| < 2 ^ 1024 then
    .finite
      { value := if q < 0 then -round |q| else round |q|
        isDouble := by
          split
          · rw [abs_neg]
            exact isDouble_round (abs_nonneg q) h
          · exact isDouble_round (abs_nonneg q) h }
  else .infinite (q < 0)

/-- `x - y`. -/
def Number.sub : Number → Number → Number
  | .nan, _ => .nan
  | _, .nan => .nan
  | .infinite a, .infinite b => if a = b then .nan else .infinite a
  | .infinite a, .finite _ => .infinite a
  | .finite _, .infinite b => .infinite (!b)
  | .finite x, .finite y => ofRat (x.value - y.value)

/-- An infinity times a number: nothing for zero. -/
def infiniteMul (negative : Bool) (x : Double) : Number :=
  if x.value = 0 then .nan else .infinite (negative != decide (x.value < 0))

/-- `x * y`. -/
def Number.mul : Number → Number → Number
  | .nan, _ => .nan
  | _, .nan => .nan
  | .infinite a, .infinite b => .infinite (a != b)
  | .infinite a, .finite y => infiniteMul a y
  | .finite x, .infinite b => infiniteMul b x
  | .finite x, .finite y => ofRat (x.value * y.value)

/-! ## Where operations are exact, and where they are large -/

/-- `x` is this number. -/
def Number.Is (x : Number) (q : ℚ) : Prop := ∃ d : Double, x = .finite d ∧ d.value = q

/-- `x` is a number from `q` on. -/
def Number.AtLeast (x : Number) (q : ℚ) : Prop :=
  x = .infinite false ∨ ∃ d : Double, x = .finite d ∧ q ≤ d.value

/-- A natural number up to 2^53. -/
def Double.natural (n : Nat) (h : n ≤ 2 ^ 53) : Double where
  value := n
  isDouble := by
    rw [Nat.abs_cast]
    rcases Nat.lt_or_eq_of_le h with hlt | rfl
    · exact ⟨n, 0, hlt, by decide, by decide, by rw [zpow_zero, mul_one]⟩
    · exact ⟨2 ^ 52, 1, by decide, by decide, by decide, by norm_num⟩

section Operations

variable {x y : Number} {p q : ℚ} {c : Double}

/-- A number is one rational at most. -/
theorem Number.Is.unique (hp : x.Is p) (hq : x.Is q) : p = q := by
  obtain ⟨d, rfl, rfl⟩ := hp
  obtain ⟨f, hf, rfl⟩ := hq
  cases hf
  rfl

/-- A lower bound of a number that is a rational. -/
theorem Number.AtLeast.le (h : x.AtLeast p) (hq : x.Is q) : p ≤ q := by
  obtain ⟨d, rfl, rfl⟩ := hq
  rcases h with h | ⟨f, hf, hle⟩
  · cases h
  · cases hf
    exact hle

/-- Below the overflow a result is its rounded value. -/
theorem ofRat_is_round (hq : 0 ≤ q) (hlt : round q < 2 ^ 1024) : (ofRat q).Is (round q) := by
  have habs : |q| = q := abs_of_nonneg hq
  refine ⟨_, dif_pos (by rwa [habs]), ?_⟩
  show (if q < 0 then _ else round |q|) = round q
  rw [if_neg (not_lt.mpr hq), habs]

/-- The result of an operation is exact if it is a double, -/
theorem ofRat_value (hc : 0 ≤ c.value) : (ofRat c.value).Is c.value := by
  have hround := Double.round_value hc
  have his := ofRat_is_round hc (by rw [hround]; exact Double.lt hc)
  rwa [hround] at his

/-- and does not fall below a double that the exact result is not below. -/
theorem atLeast_ofRat (hc : 0 ≤ c.value) (h : c.value ≤ q) : (ofRat q).AtLeast c.value := by
  have hq : 0 ≤ q := le_trans hc h
  by_cases hlt : round q < 2 ^ 1024
  · obtain ⟨d, hd, hvalue⟩ := ofRat_is_round hq hlt
    exact Or.inr ⟨d, hd, hvalue ▸ Double.le_round hc h⟩
  · refine Or.inl ?_
    rw [ofRat, dif_neg (by rwa [abs_of_nonneg hq]), decide_eq_false (not_lt.mpr hq)]

/-- Subtraction is exact, then rounded. -/
theorem Number.Is.sub (hx : x.Is p) (hy : y.Is q) : x.sub y = ofRat (p - q) := by
  obtain ⟨d, rfl, rfl⟩ := hx
  obtain ⟨f, rfl, rfl⟩ := hy
  rfl

theorem Number.Is.mul (hx : x.Is p) (hy : y.Is q) : x.mul y = ofRat (p * q) := by
  obtain ⟨d, rfl, rfl⟩ := hx
  obtain ⟨f, rfl, rfl⟩ := hy
  rfl

end Operations

/-- The whole numbers up to 2^53 are doubles. -/
theorem ofRat_natCast {n : Nat} (h : n ≤ 2 ^ 53) : (ofRat n).Is n :=
  ofRat_value (c := Double.natural n h) (Nat.cast_nonneg n)

/-- A result that is not below such a number does not fall below it. -/
theorem atLeast_ofRat_natCast {k : Nat} {q : ℚ} (hk : k ≤ 2 ^ 53) (h : k ≤ q) :
    (ofRat q).AtLeast k :=
  atLeast_ofRat (c := Double.natural k hk) (Nat.cast_nonneg k) h

/-- A lower bound that is a double survives subtraction. -/
theorem Number.AtLeast.sub {x y : Number} {p q : ℚ} {k : Nat} (hx : x.AtLeast p) (hy : y.Is q)
    (hk : k ≤ 2 ^ 53) (hle : k ≤ p - q) : (x.sub y).AtLeast k := by
  obtain ⟨f, rfl, rfl⟩ := hy
  rcases hx with rfl | ⟨d, rfl, hd⟩
  · exact Or.inl rfl
  · exact atLeast_ofRat_natCast hk (le_trans hle (sub_le_sub_right hd _))

theorem Number.AtLeast.mul {x y : Number} {p q : ℚ} {k : Nat} (hx : x.AtLeast p) (hy : y.Is q)
    (hk : k ≤ 2 ^ 53) (hq : 0 < q) (hle : k ≤ p * q) : (x.mul y).AtLeast k := by
  obtain ⟨f, rfl, rfl⟩ := hy
  rcases hx with rfl | ⟨d, rfl, hd⟩
  · refine Or.inl ?_
    rw [Number.mul, infiniteMul, if_neg (ne_of_gt hq), decide_eq_false (not_lt.mpr (le_of_lt hq))]
    rfl
  · exact atLeast_ofRat_natCast hk (le_trans hle (mul_le_mul_of_nonneg_right hd (le_of_lt hq)))

/-- 2^53 + 1 is half way between two doubles. -/
theorem ofRat_tie : (ofRat (2 ^ 53 + 1)).Is (2 ^ 53) := by
  have hround : round (2 ^ 53 + 1) = 2 ^ 53 := by decide +kernel
  have hlt : (2 : ℚ) ^ 53 < 2 ^ 1024 := pow_lt_pow_right₀ one_lt_two (by decide)
  have his := ofRat_is_round (q := 2 ^ 53 + 1) (by positivity) (by rwa [hround])
  rwa [hround] at his

theorem next_isSmall : 2 ^ 52 + 1 < 2 ^ 53 := by decide

/-- The double behind 2^53. -/
theorem atLeast_ofRat_next {n : Nat} (h : 2 ^ 53 + 2 ≤ n) : (ofRat n).AtLeast (2 ^ 53 + 2) := by
  let c := Double.ofNat (2 ^ 52 + 1) 1 next_isSmall (by decide)
  have hvalue : c.value = 2 ^ 53 + 2 := by
    show ((2 ^ 52 + 1 : Nat) : ℚ) * 2 ^ 1 = 2 ^ 53 + 2
    norm_num
  have hn : (2 : ℚ) ^ 53 + 2 ≤ n := by exact_mod_cast h
  rw [← hvalue] at hn ⊢
  exact atLeast_ofRat (by rw [hvalue]; positivity) hn

end Doubles
