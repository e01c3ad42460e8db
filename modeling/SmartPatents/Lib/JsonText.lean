/-
  The text that `JSON.stringify` writes, and how many bytes of UTF-8 it takes.

  A string is written between quotation marks, each character as itself or as an escape: two
  characters for the quotation mark, the backslash and five of the controls, six for the other
  controls.  So a character takes at most six bytes (`size_escape_le`), and most take at most three
  (`Plain.size_escape_le`).  Arrays and objects add a byte for each comma, colon and bracket
  (`size_arrayOf_le`, `size_objectOf`).

  The bounds add up: a bound for each character of a string is one for the string
  (`size_escaped_le_of`), a bound for each item one for the array, and an object is the sum of its
  fields (`fieldBytes`).  So the size of a record is computed by rewriting with its field names,
  and bounded by bounding its strings.
-/
import SmartPatents.Lib.Json
import Mathlib.Algebra.Order.BigOperators.Group.List

namespace Json

/-! ## Writing -/

/-- The double quote, written by its code point. -/
def quotationMark : Char := Char.ofNat 0x22

/-- The backslash, written by its code point. -/
def backslash : Char := Char.ofNat 0x5C

/-- The letter of a two-character escape. -/
def escapeLetter (c : Char) : Option Char :=
  match c.toNat with
  | 0x08 => some 'b'
  | 0x09 => some 't'
  | 0x0A => some 'n'
  | 0x0C => some 'f'
  | 0x0D => some 'r'
  | 0x22 => some quotationMark
  | 0x5C => some backslash
  | _ => none

/-- One character of a JSON string: a short escape, a numeric one for the other controls, or itself.
    -/
def escape (c : Char) : List Char :=
  match escapeLetter c with
  | some letter => [backslash, letter]
  | none =>
    if c.toNat < 0x20 then
      [backslash, 'u', '0', '0', Nat.digitChar (c.toNat / 16), Nat.digitChar (c.toNat % 16)]
    else [c]

/-- What stands between the quotation marks. -/
def escaped (s : String) : List Char := s.toList.flatMap escape

/-- A string with its quotation marks. -/
def quoted (s : String) : List Char := quotationMark :: (escaped s ++ [quotationMark])

/-- A string or `null`. -/
def quotedOrNull : Option String → List Char
  | none => "null".toList
  | some s => quoted s

/-- Texts joined by commas. -/
def separated (texts : List (List Char)) : List Char := [','].intercalate texts

/-- The text of an array whose items have these texts. -/
def arrayOf (items : List (List Char)) : List Char := '[' :: (separated items ++ [']'])

/-- The text of an object whose fields have these texts. -/
def objectOf (fields : List (String × List Char)) : List Char :=
  Char.ofNat 0x7B ::
    (separated (fields.map fun field => quoted field.1 ++ ':' :: field.2) ++ [Char.ofNat 0x7D])

mutual

/-- `JSON.stringify(value)`. -/
def stringify : Json → List Char
  | .null => "null".toList
  | .boolean b => (if b then "true" else "false").toList
  | .number (.finite x) => x.text.toList
  | .number _ => "null".toList
  | .string s => quoted s
  | .array items => arrayOf (stringifyItems items)
  | .object fields => objectOf (stringifyFields fields)

/-- The items of an array. -/
def stringifyItems : List Json → List (List Char)
  | [] => []
  | item :: rest => stringify item :: stringifyItems rest

/-- The fields of an object, in their order. -/
def stringifyFields : List (String × Json) → List (String × List Char)
  | [] => []
  | (name, value) :: rest => (name, stringify value) :: stringifyFields rest

end

/-! ## Bytes -/

/-- `Buffer.byteLength(text, 'utf8')`. -/
def size (text : List Char) : Nat := (text.map Char.utf8Size).sum

@[simp] theorem size_nil : size [] = 0 := rfl

@[simp] theorem size_cons (c : Char) (text : List Char) :
    size (c :: text) = c.utf8Size + size text := rfl

@[simp] theorem size_append (s t : List Char) : size (s ++ t) = size s + size t := by
  rw [size, List.map_append, List.sum_append]
  rfl

/-- A character takes four bytes at most. -/
theorem size_le_length (text : List Char) : size text ≤ 4 * text.length := by
  induction text with
  | nil => exact Nat.le_refl 0
  | cons c text ih =>
    have hle := c.utf8Size_le_four
    rw [List.length_cons, size_cons]
    omega

/-- A hexadecimal digit takes one. -/
theorem size_digitChar {n : Nat} (h : n < 16) : (Nat.digitChar n).utf8Size = 1 := by
  have hall : ∀ m < 16, (Nat.digitChar m).utf8Size = 1 := by decide
  exact hall n h

/-- A short escape takes two. -/
theorem size_escapeLetter {c letter : Char} (h : escapeLetter c = some letter) :
    size [backslash, letter] = 2 := by
  unfold escapeLetter at h
  split at h <;> first | (obtain rfl := Option.some.inj h; decide) | nomatch h

/-- An escaped character takes six bytes at most. -/
theorem size_escape_le (c : Char) : size (escape c) ≤ 6 := by
  unfold escape
  split
  · rename_i letter hletter
    rw [size_escapeLetter hletter]
    omega
  · split
    · rename_i hcontrol
      have hhigh : (Nat.digitChar (c.toNat / 16)).utf8Size = 1 := size_digitChar (by omega)
      have hlow : (Nat.digitChar (c.toNat % 16)).utf8Size = 1 := size_digitChar (by omega)
      have hfirst : backslash.utf8Size = 1 ∧ 'u'.utf8Size = 1 ∧ '0'.utf8Size = 1 := by decide
      simp only [size_cons, size_nil, hhigh, hlow, hfirst]
      omega
    · have hsize := c.utf8Size_le_four
      simp only [size_cons, size_nil]
      omega

/-- A character that needs at most three bytes: one of the basic plane that is no control, or one of
    the controls that have a letter. -/
def Plain (c : Char) : Prop := (0x20 ≤ c.toNat ∨ (escapeLetter c).isSome) ∧ c.toNat < 0x10000

instance : DecidablePred Plain := fun c =>
  inferInstanceAs (Decidable ((0x20 ≤ c.toNat ∨ (escapeLetter c).isSome) ∧ c.toNat < 0x10000))

/-- One that needs no numeric escape takes three, or less. -/
theorem Plain.size_escape_le {c : Char} (h : Plain c) : size (escape c) ≤ 3 := by
  obtain ⟨hcontrol, hplane⟩ := h
  unfold escape
  split
  · rename_i letter hletter
    rw [size_escapeLetter hletter]
    omega
  · rename_i hnone
    have hprinted : ¬ c.toNat < 0x20 := by simpa [hnone] using hcontrol
    have hfour : c.utf8Size ≠ 4 := by
      rw [ne_eq, Char.utf8Size_eq_four_iff, UInt32.lt_iff_toNat_lt]
      exact Nat.not_lt.mpr (Nat.le_of_lt_succ hplane)
    have hle := c.utf8Size_le_four
    rw [if_neg hprinted, size_cons, size_nil]
    omega

/-- A bound on each character is one on the string. -/
theorem size_escaped_le_of {s : String} {n : Nat} (h : ∀ c ∈ s.toList, size (escape c) ≤ n) :
    size (escaped s) ≤ n * s.length := by
  suffices hall : ∀ cs : List Char, (∀ c ∈ cs, size (escape c) ≤ n) →
      size (cs.flatMap escape) ≤ n * cs.length by
    rw [← String.length_toList]
    exact hall s.toList h
  intro cs hcs
  induction cs with
  | nil => exact Nat.zero_le _
  | cons c cs ih =>
    have hc := hcs c List.mem_cons_self
    have hrest := ih fun d hd => hcs d (List.mem_cons_of_mem c hd)
    rw [List.flatMap_cons, size_append, List.length_cons, Nat.mul_succ]
    omega

/-- The quotation marks take two bytes. -/
theorem size_quoted (s : String) : size (quoted s) = size (escaped s) + 2 := by
  have hmark : quotationMark.utf8Size = 1 := by decide
  simp only [quoted, size_cons, size_append, size_nil, hmark]
  omega

theorem size_quoted_le (s : String) : size (quoted s) ≤ 6 * s.length + 2 := by
  have h := size_escaped_le_of fun c (_ : c ∈ s.toList) => size_escape_le c
  rw [size_quoted]
  omega

/-- `null` takes four bytes. -/
theorem size_quotedOrNull_le {s : Option String} {n : Nat} (hn : 4 ≤ n)
    (h : ∀ t, s = some t → size (quoted t) ≤ n) : size (quotedOrNull s) ≤ n := by
  cases s with
  | none => exact hn
  | some t => exact h t rfl

/-- One control character after another. -/
theorem size_escaped_replicate {c : Char} (n : Nat) :
    size (escaped (String.ofList (List.replicate n c))) = n * size (escape c) := by
  rw [escaped, String.toList_ofList]
  induction n with
  | zero => simp
  | succ n ih =>
    rw [List.replicate_succ, List.flatMap_cons, size_append, ih, Nat.succ_mul, Nat.add_comm]

/-- A comma between any two. -/
theorem size_separated (t : List Char) (texts : List (List Char)) :
    size (separated (t :: texts)) = size t + (texts.map fun u => size u + 1).sum := by
  induction texts generalizing t with
  | nil => simp [separated]
  | cons u texts ih =>
    have hcomma : ','.utf8Size = 1 := by decide
    have hsep : separated (t :: u :: texts) = t ++ [','] ++ separated (u :: texts) := by
      simp [separated]
    rw [hsep, size_append, size_append, ih u, List.map_cons, List.sum_cons, size_cons, size_nil, hcomma]
    omega

/-- A comma behind each text is more than enough. -/
theorem size_separated_le (texts : List (List Char)) :
    size (separated texts) ≤ (texts.map fun u => size u + 1).sum := by
  cases texts with
  | nil => exact Nat.le_refl 0
  | cons t texts =>
    rw [size_separated, List.map_cons, List.sum_cons]
    omega

/-- Items that take at most `n` bytes each. -/
theorem size_arrayOf_le {items : List (List Char)} {n : Nat} (h : ∀ t ∈ items, size t ≤ n) :
    size (arrayOf items) ≤ items.length * (n + 1) + 2 := by
  have hbrackets : '['.utf8Size = 1 ∧ ']'.utf8Size = 1 := by decide
  have hsum : (items.map fun u => size u + 1).sum ≤ items.length * (n + 1) := by
    refine (List.sum_le_card_nsmul _ (n + 1) ?_).trans (by simp)
    intro m hm
    obtain ⟨t, ht, rfl⟩ := List.mem_map.mp hm
    exact Nat.succ_le_succ (h t ht)
  have hsep := size_separated_le items
  simp only [arrayOf, size_cons, size_append, size_nil, hbrackets]
  omega

/-- The bytes of fields, each with its colon and a comma. -/
def fieldBytes (fields : List (String × List Char)) : Nat :=
  (fields.map fun field => size (quoted field.1) + size field.2 + 2).sum

theorem fieldBytes_nil : fieldBytes [] = 0 := rfl

/-- A field takes its name, its text, a colon and a comma. -/
theorem fieldBytes_cons (name : String) (text : List Char) (rest : List (String × List Char)) :
    fieldBytes ((name, text) :: rest) = size (quoted name) + size text + 2 + fieldBytes rest := by
  rw [fieldBytes, List.map_cons, List.sum_cons]
  rfl

/-- An object has one comma fewer than fields, and two braces. -/
theorem size_objectOf {fields : List (String × List Char)} (hne : fields ≠ []) :
    size (objectOf fields) = fieldBytes fields + 1 := by
  have hbraces : (Char.ofNat 0x7B).utf8Size = 1 ∧ (Char.ofNat 0x7D).utf8Size = 1 := by decide
  have hcolon : ':'.utf8Size = 1 := by decide
  have hfields : ∀ fields : List (String × List Char),
      ((fields.map fun field => quoted field.1 ++ ':' :: field.2).map fun u => size u + 1).sum =
        fieldBytes fields := by
    intro fields
    rw [List.map_map]
    refine congrArg List.sum (List.map_congr_left fun field _ => ?_)
    simp only [Function.comp_apply, size_append, size_cons, hcolon]
    omega
  obtain ⟨⟨name, text⟩, rest, rfl⟩ := List.exists_cons_of_ne_nil hne
  rw [objectOf, List.map_cons, size_cons, size_append, size_separated, hfields, size_append,
    size_cons, size_cons, size_nil, hbraces.1, hbraces.2, hcolon, fieldBytes_cons]
  dsimp only
  omega

end Json
