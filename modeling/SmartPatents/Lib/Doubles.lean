/-
  The numbers of ECMAScript, and `String` of them.

  A finite number is a double: a significand of at most 53 bits times a power of two.  The two zeros
  are one value here: they differ neither in truth, nor in text, nor in JSON.

  `String(x)` is the shortest row of digits that `Number` reads as `x`, of several the nearest to `x`,
  of two equally near the even one; the row is laid out as an integer, a fraction or with an exponent,
  as its length and the place of its point say.

  `Number` has the infinities and `NaN` besides.  The texts are executable and are checked by
  evaluation; no property of them is needed but that there is one.  Arithmetic with these numbers
  is the subject of `Arithmetic`.
-/
import SmartPatents.Lib.Numeral
import Mathlib.Algebra.Order.Field.Rat

namespace Doubles

open Numeral

/-- A finite number. -/
structure Double where
  value : ℚ
  isDouble : ∃ (m : ℕ) (e : ℤ), m < 2 ^ 53 ∧ -1074 ≤ e ∧ e ≤ 971 ∧ |value| = m * 2 ^ e

namespace Double

@[ext] theorem ext {x y : Double} (h : x.value = y.value) : x = y := by
  cases x
  cases y
  cases h
  rfl

instance : DecidableEq Double := fun _ _ => decidable_of_iff _ ⟨ext, congrArg value⟩

/-- The exponent of a number with at most 53 bits. -/
theorem unscaled : 0 ≤ 971 := Nat.zero_le 971

/-- A natural number with at most 53 significant bits. -/
def ofNat (m e : Nat) (hm : m < 2 ^ 53) (he : e ≤ 971) : Double where
  value := m * 2 ^ e
  isDouble := by
    refine ⟨m, e, hm, by omega, by omega, ?_⟩
    have hnonneg : (0 : ℚ) ≤ m * 2 ^ e := mul_nonneg m.cast_nonneg (pow_nonneg (by decide) e)
    rw [abs_of_nonneg hnonneg, zpow_natCast]

end Double

/-- A number of the language. -/
inductive Number
  | nan
  | infinite (negative : Bool)
  | finite (x : Double)
deriving DecidableEq

/-! ## Text -/

/-- The double nearest to a non-negative number, as a number. -/
def round (q : ℚ) : ℚ :=
  let (m, e) := nearest q.num.natAbs q.den
  mkRat (m * 2 ^ e.toNat) (2 ^ (-e).toNat)

/-- `digits * 10 ^ power`. -/
def decimalValue (digits : Nat) (power : Int) : ℚ :=
  mkRat (digits * 10 ^ power.toNat) (10 ^ (-power).toNat)

/-- The place of the point: `10 ^ (place - 1) ≤ q < 10 ^ place`, for a positive double. -/
def place (q : ℚ) : Int :=
  let whole := q.num.natAbs / q.den
  if whole = 0 then
    match (List.range 324).find? fun zeros => q.den ≤ q.num.natAbs * 10 ^ (zeros + 1) with
    | some zeros => -zeros
    | none => -324
  else (Nat.toDigits 10 whole).length

/-- A row of `k` digits that `Number` reads as `q`: the nearest, and the even one of two. -/
def digitsOfLength (q : ℚ) (k : Nat) : Option Nat :=
  let power := place q - k
  let shifted := q * decimalValue 1 (-power)
  let below := shifted.num.natAbs / shifted.den
  let above := below + 1
  let gap := shifted - below
  let reads (digits : Nat) : Bool := round (decimalValue digits power) = q
  match reads below, reads above with
  | true, true =>
    some (if gap < 1 / 2 ∨ gap = 1 / 2 ∧ below % 2 = 0 then below else above)
  | true, false => some below
  | false, true => some above
  | false, false => none

/-- The shortest digits of a positive double, and the place of their point.  Seventeen digits are
    always enough; a row that is rounded up to a power of ten moves the point. -/
def shortest (q : ℚ) : Nat × Int :=
  match (List.range 17).findSome? fun k => (digitsOfLength q (k + 1)).map fun d => (d, k + 1) with
  | some (digits, k) => if digits = 10 ^ k then (10 ^ (k - 1), place q + 1) else (digits, place q)
  | none => (0, 0)

/-- Digits with the point at `n`. -/
def layout (digits : List Char) (n : Int) : List Char :=
  let k := digits.length
  if k ≤ n ∧ n ≤ 21 then digits ++ List.replicate (n.toNat - k) '0'
  else if 0 < n ∧ n ≤ 21 then digits.take n.toNat ++ '.' :: digits.drop n.toNat
  else if -6 < n ∧ n ≤ 0 then '0' :: '.' :: List.replicate (-n).toNat '0' ++ digits
  else
    let sign := if 0 < n then '+' else '-'
    let tail := 'e' :: sign :: Nat.toDigits 10 (n - 1).natAbs
    match digits with
    | d :: rest@(_ :: _) => d :: '.' :: rest ++ tail
    | _ => digits ++ tail

/-- The shortest digits that read back as this value, laid out. -/
def positiveText (q : ℚ) : List Char :=
  let (digits, n) := shortest q
  layout (Nat.toDigits 10 digits) n

/-- `String(x)` of a finite number. -/
def Double.text (x : Double) : String :=
  if x.value = 0 then "0"
  else if x.value < 0 then String.ofList ('-' :: positiveText (-x.value))
  else String.ofList (positiveText x.value)

/-- `String(x)`. -/
def Number.text : Number → String
  | .nan => "NaN"
  | .infinite negative => if negative then "-Infinity" else "Infinity"
  | .finite x => x.text

end Doubles
