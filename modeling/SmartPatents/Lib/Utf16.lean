/-
  Strings as lists of UTF-16 code units, and their UTF-8 encoding.

  A string of the language is any list of code units, well-formed or not.  Encoding it reads the units
  as characters first: a surrogate pair is one character, and a surrogate that has no partner is read
  as U+FFFD, the replacement character (`chars`).  The encoding itself is that of the core library,
  and loses nothing (`chars_of_bytes`).  What loses something is the replacement: a text is the only
  one with its characters if and only if no character of it is U+FFFD (`eq_of_chars`,
  `exists_other_of_replacement`).

  Characters here are those of the core library, so a text of characters has only well-formed
  pairs, and `ofChars` embeds them.  A property that is stated for all texts says something about
  lone surrogates too; one that is stated for strings of characters carries over by
  `chars_ofChars`.
-/
import Mathlib.Data.List.Basic

namespace Utf16

/-- A string: any list of code units. -/
abbrev Text := List UInt16

/-- A leading surrogate. -/
def isHigh (u : UInt16) : Bool := 0xD800 ≤ u.toNat && u.toNat < 0xDC00

/-- A trailing surrogate. -/
def isLow (u : UInt16) : Bool := 0xDC00 ≤ u.toNat && u.toNat < 0xE000

/-- U+FFFD. -/
def replacement : Char := Char.ofNat 0xFFFD

/-- The character of a unit that is not part of a pair. -/
def single (u : UInt16) : Char := if isHigh u || isLow u then replacement else Char.ofNat u.toNat

/-- The character of a surrogate pair. -/
def pair (high low : UInt16) : Char :=
  Char.ofNat (0x10000 + (high.toNat - 0xD800) * 0x400 + (low.toNat - 0xDC00))

/-- The characters of a text. -/
def chars : Text → List Char
  | [] => []
  | [u] => [single u]
  | u :: v :: rest =>
    if isHigh u && isLow v then pair u v :: chars rest else single u :: chars (v :: rest)

/-- The code units of a character. -/
def units (c : Char) : Text :=
  if c.toNat < 0x10000 then [UInt16.ofNat c.toNat]
  else
    [UInt16.ofNat (0xD800 + (c.toNat - 0x10000) / 0x400),
     UInt16.ofNat (0xDC00 + (c.toNat - 0x10000) % 0x400)]

/-- The text of these characters. -/
def ofChars (cs : List Char) : Text := cs.flatMap units

/-- A string literal. -/
def ofString (s : String) : Text := ofChars s.toList

/-- The UTF-8 encoding. -/
def bytes (t : Text) : List UInt8 := (chars t).flatMap String.utf8EncodeChar

/-- The length in UTF-8. -/
def byteLength (t : Text) : Nat := (bytes t).length

/-! ## Characters -/

/-- A code point comes back from its character. -/
theorem toNat_ofNat {n : Nat} (h : n.isValidChar) : (Char.ofNat n).toNat = n := by
  rw [Char.ofNat, dif_pos h]
  rfl

/-- A number that fits comes back from its unit. -/
theorem toNat_unit {n : Nat} (h : n < 0x10000) : (UInt16.ofNat n).toNat = n :=
  UInt16.toNat_ofNat_of_lt' h

/-- A text that starts with the units of a character starts with that character. -/
theorem chars_units (c : Char) (t : Text) : chars (units c ++ t) = c :: chars t := by
  have hvalid : c.toNat < 0xD800 ∨ 0xDFFF < c.toNat ∧ c.toNat < 0x110000 := c.valid
  unfold units
  split
  · rename_i hbmp
    have hunit := toNat_unit hbmp
    have hhigh : isHigh (UInt16.ofNat c.toNat) = false := by
      simp only [isHigh, hunit, Bool.and_eq_false_iff, decide_eq_false_iff_not]
      omega
    have hlow : isLow (UInt16.ofNat c.toNat) = false := by
      simp only [isLow, hunit, Bool.and_eq_false_iff, decide_eq_false_iff_not]
      omega
    have hsingle : single (UInt16.ofNat c.toNat) = c := by
      simp only [single, hhigh, hlow, Bool.or_self, Bool.false_eq_true, if_false, hunit,
        Char.ofNat_toNat]
    cases t with
    | nil => simp [chars, hsingle]
    | cons u t => simp [chars, hhigh, hsingle]
  · rename_i hbig
    have hhigh := toNat_unit (n := 0xD800 + (c.toNat - 0x10000) / 0x400) (by omega)
    have hlow := toNat_unit (n := 0xDC00 + (c.toNat - 0x10000) % 0x400) (by omega)
    have hpair : pair (UInt16.ofNat (0xD800 + (c.toNat - 0x10000) / 0x400))
        (UInt16.ofNat (0xDC00 + (c.toNat - 0x10000) % 0x400)) = c := by
      rw [pair, hhigh, hlow]
      have hsum : 0x10000 + (0xD800 + (c.toNat - 0x10000) / 0x400 - 0xD800) * 0x400 +
          (0xDC00 + (c.toNat - 0x10000) % 0x400 - 0xDC00) = c.toNat := by omega
      rw [hsum, Char.ofNat_toNat]
    have hisHigh : isHigh (UInt16.ofNat (0xD800 + (c.toNat - 0x10000) / 0x400)) = true := by
      simp only [isHigh, hhigh, Bool.and_eq_true, decide_eq_true_eq]
      omega
    have hisLow : isLow (UInt16.ofNat (0xDC00 + (c.toNat - 0x10000) % 0x400)) = true := by
      simp only [isLow, hlow, Bool.and_eq_true, decide_eq_true_eq]
      omega
    simp only [List.cons_append, List.nil_append, chars, hisHigh, hisLow, Bool.and_self, if_true,
      hpair]

/-- **Round trip**: text of characters decodes to them. -/
@[simp] theorem chars_ofChars (cs : List Char) : chars (ofChars cs) = cs := by
  induction cs with
  | nil => rfl
  | cons c cs ih =>
    rw [ofChars, List.flatMap_cons, chars_units]
    exact congrArg _ ih

/-- A unit that stands alone is the character it makes. -/
theorem units_single {u : UInt16} (h : single u ≠ replacement) : units (single u) = [u] := by
  have hsurrogate : (isHigh u || isLow u) = false := by
    by_contra hne
    rw [Bool.not_eq_false] at hne
    exact h (by rw [single, if_pos hne])
  have hlt := u.toNat_lt
  have hvalid : u.toNat.isValidChar := by
    simp only [isHigh, isLow, Bool.or_eq_false_iff, Bool.and_eq_false_iff, decide_eq_false_iff_not]
      at hsurrogate
    unfold Nat.isValidChar
    omega
  rw [single, if_neg (by rw [hsurrogate]; exact Bool.false_ne_true), units, toNat_ofNat hvalid,
    if_pos hlt, UInt16.ofNat_toNat]

/-- A pair of surrogates is the character it makes. -/
theorem units_pair {high low : UInt16} (hhigh : isHigh high = true) (hlow : isLow low = true) :
    units (pair high low) = [high, low] := by
  simp only [isHigh, isLow, Bool.and_eq_true, decide_eq_true_eq] at hhigh hlow
  have hvalid : (0x10000 + (high.toNat - 0xD800) * 0x400 + (low.toNat - 0xDC00)).isValidChar := by
    unfold Nat.isValidChar
    omega
  have hfirst : 0xD800 + (0x10000 + (high.toNat - 0xD800) * 0x400 + (low.toNat - 0xDC00) - 0x10000)
      / 0x400 = high.toNat := by omega
  have hsecond : 0xDC00 + (0x10000 + (high.toNat - 0xD800) * 0x400 + (low.toNat - 0xDC00) - 0x10000)
      % 0x400 = low.toNat := by omega
  rw [pair, units, toNat_ofNat hvalid, if_neg (by omega), hfirst, hsecond, UInt16.ofNat_toNat,
    UInt16.ofNat_toNat]

/-- Characters that are not replaced give the text back. -/
theorem ofChars_chars (t : Text) (h : replacement ∉ chars t) : ofChars (chars t) = t := by
  induction t using chars.induct with
  | case1 => rfl
  | case2 u =>
    rw [chars, List.mem_singleton] at h
    rw [chars, ofChars, List.flatMap_cons, units_single (Ne.symm h)]
    rfl
  | case3 u v rest hpair ih =>
    obtain ⟨hhigh, hlow⟩ := Bool.and_eq_true_iff.mp hpair
    rw [chars, if_pos hpair] at h ⊢
    rw [ofChars, List.flatMap_cons, units_pair hhigh hlow]
    exact congrArg (u :: v :: ·) (ih fun hmem => h (List.mem_cons_of_mem _ hmem))
  | case4 u v rest hpair ih =>
    rw [chars, if_neg hpair] at h ⊢
    rw [List.mem_cons, not_or] at h
    rw [ofChars, List.flatMap_cons, units_single (Ne.symm h.1)]
    exact congrArg (u :: ·) (ih h.2)

/-- Without U+FFFD there is one text for a list of characters. -/
theorem eq_of_chars {s t : Text} (h : replacement ∉ chars t) (heq : chars s = chars t) : s = t := by
  rw [← ofChars_chars s (heq ▸ h), heq, ofChars_chars t h]

/-- The units of a character, with a lone surrogate for U+FFFD. -/
def lossyUnits (c : Char) : Text := if c = replacement then [0xDC00] else units c

/-- A character decodes as itself, whatever follows. -/
theorem chars_lossyUnits (c : Char) (t : Text) : chars (lossyUnits c ++ t) = c :: chars t := by
  unfold lossyUnits
  split
  · rename_i hc
    subst hc
    cases t with
    | nil => rfl
    | cons u t => simp [chars, isHigh, isLow, single]
  · exact chars_units c t

/-- With U+FFFD there are two. -/
theorem exists_other_of_replacement {t : Text} (h : replacement ∈ chars t) :
    ∃ s, s ≠ t ∧ chars s = chars t := by
  have hlossy : ∀ cs : List Char, chars (cs.flatMap lossyUnits) = cs := by
    intro cs
    induction cs with
    | nil => rfl
    | cons c cs ih => rw [List.flatMap_cons, chars_lossyUnits, ih]
  have hdiffer : ∀ cs : List Char, replacement ∈ cs → cs.flatMap lossyUnits ≠ ofChars cs := by
    intro cs
    induction cs with
    | nil => exact fun hmem => absurd hmem List.not_mem_nil
    | cons c cs ih =>
      intro hmem heq
      rw [ofChars, List.flatMap_cons, List.flatMap_cons] at heq
      by_cases hc : c = replacement
      · subst hc
        exact absurd (List.cons.inj heq).1 (by decide)
      · rw [lossyUnits, if_neg hc] at heq
        exact ih ((List.mem_cons.mp hmem).resolve_left (Ne.symm hc)) (List.append_cancel_left heq)
  by_cases heq : ofChars (chars t) = t
  · exact ⟨(chars t).flatMap lossyUnits, fun h' => hdiffer _ h (h'.trans heq.symm), hlossy _⟩
  · exact ⟨ofChars (chars t), heq, chars_ofChars _⟩

/-- One more unit, if it does not complete a pair. -/
theorem chars_concat (t : Text) {u : UInt16} (h : isLow u = false) :
    chars (t ++ [u]) = chars t ++ [single u] := by
  induction t using chars.induct with
  | case1 => rfl
  | case2 v => simp [chars, h]
  | case3 v w rest hpair ih => simp only [List.cons_append, chars, hpair, if_true, ih]
  | case4 v w rest hpair ih =>
    simp only [List.cons_append, chars, hpair, if_false, Bool.false_eq_true] at ih ⊢
    rw [ih]

/-! ## Bytes -/

/-- Equal bytes, equal characters. -/
theorem chars_of_bytes {s t : Text} (h : bytes s = bytes t) : chars s = chars t := by
  have hencode : (chars s).utf8Encode = (chars t).utf8Encode :=
    congrArg List.toByteArray h
  have hdecode := congrArg ByteArray.utf8Decode? hencode
  rw [List.utf8Decode?_utf8Encode, List.utf8Decode?_utf8Encode, Option.some.injEq] at hdecode
  simpa using hdecode

/-- Texts that decode alike have the same bytes. -/
theorem bytes_congr {s t : Text} (h : chars s = chars t) : bytes s = bytes t :=
  congrArg (List.flatMap String.utf8EncodeChar) h

end Utf16
