/-
  `Number(text)` in ECMAScript, as far as it gives integers.

  A text denotes a number if, once trimmed, it is empty (0), a decimal literal with an optional sign,
  point and exponent, or a hexadecimal, octal or binary integer.  `Number` gives the double nearest to
  what is denoted, of two equally near ones that with the even significand; `integer` is that double
  if it is an integer.  Everything else (`NaN`, `Infinity`, fractions) is `none`.

  Rounding is to 53 bits: `scaled` puts the value into units of a power of two, `nearest` takes
  the quotient with half to even, and `integral` asks whether the result is a whole number below
  the overflow.

  The definitions compute, so that a literal can be read by `decide`; what rounding does to order
  and to exact values is proved in `Arithmetic`.
-/
import Mathlib.Algebra.Ring.Nat
import Mathlib.Data.Nat.Log

namespace Numeral

/-- White space and line terminators. -/
def isSpace (c : Char) : Bool :=
  let n := c.toNat
  (9 ≤ n && n ≤ 13) || n == 0x20 || n == 0xA0 || n == 0x1680 || (0x2000 ≤ n && n ≤ 0x200A)
    || n == 0x2028 || n == 0x2029 || n == 0x202F || n == 0x205F || n == 0x3000 || n == 0xFEFF

/-- `trim()`, at both ends. -/
def trim (cs : List Char) : List Char :=
  ((cs.dropWhile isSpace).reverse.dropWhile isSpace).reverse

/-- The value of a digit or a letter. -/
def digitValue (c : Char) : Option Nat :=
  if '0' ≤ c && c ≤ '9' then some (c.toNat - '0'.toNat)
  else if 'a' ≤ c && c ≤ 'z' then some (c.toNat - 'a'.toNat + 10)
  else if 'A' ≤ c && c ≤ 'Z' then some (c.toNat - 'A'.toNat + 10)
  else none

/-- One more digit. -/
def shift (radix : Nat) (n : Nat) (c : Char) : Option Nat :=
  match digitValue c with
  | some v => if v < radix then some (n * radix + v) else none
  | none => none

/-- The number that a non-empty row of digits denotes. -/
def natural (radix : Nat) (cs : List Char) : Option Nat :=
  if cs.isEmpty then none else cs.foldlM (shift radix) 0

/-- The digits behind the `e`, with their sign. -/
def exponent : List Char → Option Int
  | '-' :: cs => (natural 10 cs).map fun n => -(n : Int)
  | '+' :: cs => (natural 10 cs).map fun n => (n : Int)
  | cs => (natural 10 cs).map fun n => (n : Int)

/-- A decimal literal without a sign: its digits, and the power of ten. -/
def decimal (cs : List Char) : Option (Nat × Int) :=
  let (whole, rest) := cs.span Char.isDigit
  let (fraction, rest) :=
    match rest with
    | '.' :: rest => rest.span Char.isDigit
    | rest => ([], rest)
  let power :=
    match rest with
    | [] => some 0
    | c :: rest => if c == 'e' || c == 'E' then exponent rest else none
  match natural 10 (whole ++ fraction), power with
  | some digits, some power => some (digits, power - fraction.length)
  | _, _ => none

/-- `n / d` in units of `2 ^ e`, as a fraction. -/
def scaled (n d : Nat) (e : Int) : Nat × Nat :=
  if 0 ≤ e then (n, d * 2 ^ e.toNat) else (n * 2 ^ (-e).toNat, d)

/-- The double nearest to `n / d`: a significand of at most 53 bits, and the power of two. -/
def nearest (n d : Nat) : Nat × Int :=
  if n = 0 then (0, 0)
  else
    let e : Int := (Nat.log2 n : Int) - Nat.log2 d - 52
    let (a, b) := scaled n d e
    -- the significand has 53 bits, except below the smallest normal number
    let e := max (if a / b < 2 ^ 52 then e - 1 else e) (-1074)
    let (a, b) := scaled n d e
    let below := a / b
    let twice := 2 * (a % b)
    (if twice < b || (twice == b && below % 2 == 0) then below else below + 1, e)

/-- The double nearest to `n / d`, if it is a finite integer. -/
def integral (n d : Nat) : Option Nat :=
  let (m, e) := nearest n d
  if 0 ≤ e then
    if m * 2 ^ e.toNat < 2 ^ 1024 then some (m * 2 ^ e.toNat) else none
  else if m % 2 ^ (-e).toNat = 0 then some (m / 2 ^ (-e).toNat) else none

/-- A decimal numeral, if its value is a whole number. -/
def unsigned (cs : List Char) : Option Nat :=
  (decimal cs).bind fun (digits, power) => integral (digits * 10 ^ power.toNat) (10 ^ (-power).toNat)

/-- The letter behind a leading zero. -/
def radixOf (c : Char) : Option Nat :=
  if c == 'x' || c == 'X' then some 16
  else if c == 'o' || c == 'O' then some 8
  else if c == 'b' || c == 'B' then some 2
  else none

/-- The integer that `Number(text)` is, if it is one. -/
def integer (text : String) : Option Int :=
  match trim text.toList with
  | [] => some 0
  | '-' :: cs => (unsigned cs).map fun n => -(n : Int)
  | '+' :: cs => (unsigned cs).map fun n => (n : Int)
  | '0' :: c :: cs =>
    match radixOf c with
    | some radix => ((natural radix cs).bind fun n => integral n 1).map fun n => (n : Int)
    | none => (unsigned ('0' :: c :: cs)).map fun n => (n : Int)
  | cs => (unsigned cs).map fun n => (n : Int)

/-- Spellings of zero. -/
example : ["0", " ", "-0", "0x0", "0.0", "0e7", "00", "1e-400"].map integer =
    List.replicate 8 (some 0) := by
  decide +kernel

example : ["50", "0x10", "1e3", "2.5e1", "1.5", "abc", "", "9007199254740993"].map integer =
    [some 50, some 16, some 1000, some 25, none, none, some 0, some 9007199254740992] := by
  decide +kernel

end Numeral
