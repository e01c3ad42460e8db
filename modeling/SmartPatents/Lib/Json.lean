/-
  JSON values as ECMAScript reads and writes them: what `JSON.parse` returns, what `String` and
  `BigInt` make of it, what `JSON.stringify` makes of an arbitrary value, and the text it writes.

  A value of the language is read field by field down to what JSON can say.  A bigint is refused
  wherever it stands; an object with a `toJSON` of its own, or one that refers to itself, is not
  read at all but brings along what is written for it (`exotic`).  An object keeps its fields in
  order.
-/
import SmartPatents.Lib.Doubles

open Doubles Numeral

/-- A value that JSON can say.  `JSON.parse` reads a literal beyond the range as an infinity. -/
inductive Json
  | null
  | boolean (b : Bool)
  | number (x : Number)
  | string (s : String)
  | array (items : List Json)
  | object (fields : List (String × Json))

namespace Json

/-- `value[name]` of a plain object; an array has no such names, and everything else neither. -/
def get : Json → String → Option Json
  | .object fields, name => (fields.find? fun field => field.1 == name).map Prod.snd
  | _, _ => none

/-! ## `String` and `BigInt` -/

mutual

/-- `String(value)`.  An object with a property of its own called `toString`, which JSON cannot make
    callable, throws. -/
def text : Json → Option String
  | .null => some "null"
  | .boolean b => some (if b then "true" else "false")
  | .number x => some x.text
  | .string s => some s
  | .array items => (itemTexts items).map fun texts => ",".intercalate texts
  | .object fields =>
    if fields.any fun field => field.1 == "toString" then none else some "[object Object]"

/-- What `join` puts between the commas: nothing for `null`. -/
def itemTexts : List Json → Option (List String)
  | [] => some []
  | .null :: rest => (itemTexts rest).map fun texts => "" :: texts
  | item :: rest =>
    match text item, itemTexts rest with
    | some t, some texts => some (t :: texts)
    | _, _ => none

end

/-- `BigInt(text)`. -/
def bigIntOfText (s : String) : Option Int :=
  match trim s.toList with
  | [] => some 0
  | '-' :: cs => (natural 10 cs).map fun n : Nat => -(n : Int)
  | '+' :: cs => (natural 10 cs).map fun n : Nat => (n : Int)
  | '0' :: c :: cs =>
    match radixOf c with
    | some radix => (natural radix cs).map fun n : Nat => (n : Int)
    | none => (natural 10 ('0' :: c :: cs)).map fun n : Nat => (n : Int)
  | cs => (natural 10 cs).map fun n : Nat => (n : Int)

/-- `BigInt(value)`; `none` where it throws. -/
def bigInt : Json → Option Int
  | .null => none
  | .boolean b => some (if b then 1 else 0)
  | .number (.finite x) => if x.value.den = 1 then some x.value.num else none
  | .number _ => none
  | .string s => bigIntOfText s
  | value => (text value).bind bigIntOfText

/-! ## `JSON.stringify` of an arbitrary value -/

/-- What `JSON.stringify` makes of a value. -/
inductive Written
  | throws
  /-- A value that JSON leaves out. -/
  | omitted
  | json (value : Json)

/-- A value of the language. -/
inductive Value
  | undefined
  | null
  | boolean (b : Bool)
  | number (x : Number)
  | bigint (n : Int)
  | string (s : String)
  | symbol
  | function
  | array (items : List Value)
  | object (fields : List (String × Value))
  /-- An object that is not read field by field: it has a `toJSON`, or refers to itself. -/
  | exotic (written : Written)

namespace Value

/-- What `||`, `&&` and `?:` see. -/
def truthy : Value → Bool
  | .undefined | .null => false
  | .boolean b => b
  | .number .nan => false
  | .number (.infinite _) => true
  | .number (.finite x) => x.value != 0
  | .bigint n => n != 0
  | .string s => s != ""
  | .symbol | .function | .array _ | .object _ | .exotic _ => true

/-- `a || b`. -/
def or (a b : Value) : Value := if a.truthy then a else b

mutual

/-- What `JSON.stringify` makes of a value: `omitted` where there is nothing to write, and
    a throw for a bigint anywhere in it. -/
def toJson : Value → Written
  | .undefined | .symbol | .function => .omitted
  | .null => .json .null
  | .boolean b => .json (.boolean b)
  | .number (.finite x) => .json (.number (.finite x))
  | .number _ => .json .null
  | .bigint _ => .throws
  | .string s => .json (.string s)
  | .array items =>
    match itemsToJson items with
    | some items => .json (.array items)
    | none => .throws
  | .object fields =>
    match fieldsToJson fields with
    | some fields => .json (.object fields)
    | none => .throws
  | .exotic written => written

/-- An item that JSON leaves out is written as `null`. -/
def itemsToJson : List Value → Option (List Json)
  | [] => some []
  | item :: rest =>
    match toJson item, itemsToJson rest with
    | .json j, some rest => some (j :: rest)
    | .omitted, some rest => some (.null :: rest)
    | _, _ => none

/-- A field that JSON leaves out is not written. -/
def fieldsToJson : List (String × Value) → Option (List (String × Json))
  | [] => some []
  | (name, value) :: rest =>
    match toJson value, fieldsToJson rest with
    | .json j, some rest => some ((name, j) :: rest)
    | .omitted, some rest => some rest
    | _, _ => none

end

end Value

/-! ## Digits -/

/-- One digit of a decimal numeral. -/
theorem shift_digit {c : Char} (h : c.isDigit = true) (n : Nat) :
    shift 10 n c = some (10 * n + (c.toNat - '0'.toNat)) := by
  rw [Char.isDigit_iff_toNat] at h
  have hzero : '0' ≤ c := by
    rw [Char.le_def, UInt32.le_iff_toNat_le]
    exact h.1
  have hnine : c ≤ '9' := by
    rw [Char.le_def, UInt32.le_iff_toNat_le]
    exact h.2
  have hlt : c.toNat - '0'.toNat < 10 := by
    have hval : '0'.toNat = 48 ∧ '9'.toNat = 57 := ⟨rfl, rfl⟩
    omega
  have hvalue : digitValue c = some (c.toNat - '0'.toNat) := by
    rw [digitValue, if_pos (by simp [hzero, hnine])]
  simp only [shift, hvalue, if_pos hlt, Nat.mul_comm n 10]

/-- The value of a run of digits. -/
theorem natural_digits {cs : List Char} (hne : cs ≠ []) (h : ∀ c ∈ cs, c.isDigit = true) :
    natural 10 cs = some (cs.foldl (fun n c => 10 * n + (c.toNat - '0'.toNat)) 0) := by
  have hfold : ∀ (cs : List Char) (n : Nat), (∀ c ∈ cs, c.isDigit = true) →
      cs.foldlM (shift 10) n =
        some (cs.foldl (fun n c => 10 * n + (c.toNat - '0'.toNat)) n) := by
    intro cs
    induction cs with
    | nil => exact fun _ _ => rfl
    | cons c cs ih =>
      intro n h
      rw [List.foldlM_cons, shift_digit (h c List.mem_cons_self)]
      exact ih _ fun d hd => h d (List.mem_cons_of_mem _ hd)
  rw [natural, if_neg (by simpa using hne), hfold cs 0 h]

theorem isSpace_of_isDigit {c : Char} (h : c.isDigit = true) : isSpace c = false := by
  rw [Char.isDigit_iff_toNat] at h
  have hval : '0'.toNat = 48 ∧ '9'.toNat = 57 := ⟨rfl, rfl⟩
  simp only [isSpace, Bool.or_eq_false_iff, Bool.and_eq_false_iff, decide_eq_false_iff_not,
    beq_eq_false_iff_ne]
  omega

/-- There is nothing to trim where there is no space. -/
theorem trim_of_noSpace {cs : List Char} (h : ∀ c ∈ cs, isSpace c = false) : trim cs = cs := by
  have hkeep : ∀ ds : List Char, (∀ c ∈ ds, isSpace c = false) → ds.dropWhile isSpace = ds := by
    intro ds hds
    cases ds with
    | nil => rfl
    | cons d ds => simp [hds d List.mem_cons_self]
  rw [trim, hkeep cs h, hkeep _ fun c hc => h c (List.mem_reverse.mp hc), List.reverse_reverse]

theorem trim_digits {cs : List Char} (h : ∀ c ∈ cs, c.isDigit = true) : trim cs = cs :=
  trim_of_noSpace fun c hc => isSpace_of_isDigit (h c hc)

/-- A digit announces no other radix. -/
theorem radixOf_of_isDigit {c : Char} (h : c.isDigit = true) : radixOf c = none := by
  rw [Char.isDigit_iff_toNat] at h
  have hval : '0'.toNat = 48 ∧ '9'.toNat = 57 := ⟨rfl, rfl⟩
  have hne : ∀ d : Char, 57 < d.toNat → (c == d) = false := by
    intro d hd
    rw [beq_eq_false_iff_ne]
    rintro rfl
    omega
  simp [radixOf, hne 'x' (by decide), hne 'X' (by decide), hne 'o' (by decide), hne 'O' (by decide),
    hne 'b' (by decide), hne 'B' (by decide)]

/-- `BigInt` of a row of digits. -/
theorem bigIntOfText_digits {s : String} (hne : s.toList ≠ [])
    (h : ∀ c ∈ s.toList, c.isDigit = true) :
    bigIntOfText s =
      some ((s.toList.foldl (fun n c => 10 * n + (c.toNat - '0'.toNat)) 0 : Nat) : Int) := by
  have hdigits := natural_digits hne h
  rw [bigIntOfText, trim_digits h]
  generalize s.toList = cs at hne h hdigits ⊢
  split
  · exact absurd rfl hne
  · exact absurd (h _ List.mem_cons_self) (by decide)
  · exact absurd (h _ List.mem_cons_self) (by decide)
  · rename_i c cs
    have hc : c.isDigit = true := h c (List.mem_cons_of_mem _ List.mem_cons_self)
    rw [radixOf_of_isDigit hc]
    simp only [hdigits, Option.map_some]
  · simp only [hdigits, Option.map_some]

end Json
