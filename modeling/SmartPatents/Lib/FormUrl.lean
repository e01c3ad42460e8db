/-
  Query strings: application/x-www-form-urlencoded.

  A name or a value is written in letters, digits and four signs; a space is `+`, and every other
  character is the bytes of its UTF-8 encoding, each as `%` and two digits.  `decode` reads that back:
  it puts the spaces in, collects the bytes of a row of `%XX` and decodes the row as soon as it ends,
  so it carries the bytes that it has not decoded yet.  What the induction needs is therefore a
  statement about a decoder that has come to the middle of a text (`decodeFrom_encode`).

  `&` and `=` are never written for a character, so a text falls into its fields again:
  `parse_serialise`.

  An escape that is cut short, or that is not UTF-8, makes the whole text invalid (`none`).  An
  encoded text has neither, so the round trips are about `some`.  Names may come twice and values
  may be empty; a field list is an ordinary list of pairs, and what a name that comes twice means
  is for the reader to decide.
-/
import Mathlib.Data.List.Basic

namespace FormUrl

/-! ## Encoding -/

/-- Characters that stand for themselves. -/
def unreserved (c : Char) : Bool :=
  c.isAlphanum || c == '*' || c == '-' || c == '.' || c == '_'

/-- The digit of a nibble, in upper case. -/
def hexDigit (n : Nat) : Char := Char.ofNat (if n < 10 then 48 + n else 55 + n)

/-- `%XX`. -/
def percent (b : UInt8) : List Char := ['%', hexDigit (b.toNat / 16), hexDigit (b.toNat % 16)]

/-- One character: a space is a plus, an unreserved one itself, any other its UTF-8 bytes escaped.
    -/
def encodeChar (c : Char) : List Char :=
  if c = ' ' then ['+']
  else if unreserved c then [c]
  else (String.utf8EncodeChar c).flatMap percent

/-- The serializer of a name or a value. -/
def encode (cs : List Char) : List Char := cs.flatMap encodeChar

/-- A name and its value. -/
abbrev Field := List Char × List Char

/-- One field, name and value encoded apart. -/
def encodeField (f : Field) : List Char := encode f.1 ++ '=' :: encode f.2

/-- The fields joined by ampersands. -/
def serialise (fields : List Field) : List Char := ['&'].intercalate (fields.map encodeField)

/-! ## Decoding -/

/-- The value of a hexadecimal digit, in either case. -/
def hexValue (c : Char) : Option Nat :=
  if '0' ≤ c && c ≤ '9' then some (c.toNat - 48)
  else if 'A' ≤ c && c ≤ 'F' then some (c.toNat - 55)
  else if 'a' ≤ c && c ≤ 'f' then some (c.toNat - 87)
  else none

/-- The characters of a row of bytes, if it is UTF-8. -/
def characters (bs : List UInt8) : Option (List Char) := bs.toByteArray.utf8Decode?.map Array.toList

/-- `decodeURIComponent`, in the middle of a row of `%XX` with the bytes `bs`. -/
def decodeFrom (bs : List UInt8) : List Char → Option (List Char)
  | [] => characters bs
  | c :: rest =>
    if c = '%' then
      match rest with
      | high :: low :: rest =>
        match hexValue high, hexValue low with
        | some h, some l => decodeFrom (bs ++ [UInt8.ofNat (16 * h + l)]) rest
        | _, _ => none
      | _ => none
    else
      match characters bs, decodeFrom [] rest with
      | some cs, some rest => some (cs ++ c :: rest)
      | _, _ => none

/-- Pluses stand for spaces, before the escapes are looked at. -/
def plusToSpace (cs : List Char) : List Char := cs.map fun c => if c = '+' then ' ' else c

/-- The parser of a name or a value; `none` is an escape that is not UTF-8. -/
def decode (cs : List Char) : Option (List Char) := decodeFrom [] (plusToSpace cs)

/-- A field is split at its first `=`. -/
def parseField (text : List Char) : Option Field :=
  match decode (text.takeWhile (· != '=')), decode ((text.dropWhile (· != '=')).drop 1) with
  | some name, some value => some (name, value)
  | _, _ => none

/-- All fields, or `none` if one of them does not decode. -/
def parseFields : List (List Char) → Option (List Field)
  | [] => some []
  | text :: texts =>
    match parseField text, parseFields texts with
    | some field, some fields => some (field :: fields)
    | _, _ => none

/-- The fields of a text; `none` where a `%` is not followed by two digits, or the bytes are not
    UTF-8.  Between two `&` there may be nothing. -/
def parse (text : List Char) : Option (List Field) :=
  parseFields ((text.splitOn '&').filter (!·.isEmpty))

/-! ## Bytes -/

/-- The characters of UTF-8 bytes are those that were encoded. -/
theorem characters_encode (cs : List Char) :
    characters (cs.flatMap String.utf8EncodeChar) = some cs := by
  have hdecode : (cs.flatMap String.utf8EncodeChar).toByteArray.utf8Decode? = some cs.toArray :=
    List.utf8Decode?_utf8Encode
  rw [characters, hdecode]
  rfl

/-- A digit has the value it was written for. -/
theorem hexValue_hexDigit : ∀ n < 16, hexValue (hexDigit n) = some n := by decide

theorem hexDigit_ne_plus : ∀ n < 16, hexDigit n ≠ '+' := by decide

/-- An escape has no plus in it. -/
theorem plusToSpace_percent (b : UInt8) : plusToSpace (percent b) = percent b := by
  have hb := b.toNat_lt
  have hhigh := hexDigit_ne_plus (b.toNat / 16) (by omega)
  have hlow := hexDigit_ne_plus (b.toNat % 16) (by omega)
  simp only [plusToSpace, percent, List.map_cons, List.map_nil, if_neg hhigh, if_neg hlow]
  rfl

theorem plusToSpace_append (cs ds : List Char) :
    plusToSpace (cs ++ ds) = plusToSpace cs ++ plusToSpace ds := List.map_append

theorem plusToSpace_bytes (bs : List UInt8) :
    plusToSpace (bs.flatMap percent) = bs.flatMap percent := by
  induction bs with
  | nil => rfl
  | cons b bs ih => rw [List.flatMap_cons, plusToSpace_append, plusToSpace_percent, ih]

/-- One `%XX` more. -/
theorem decodeFrom_percent (bs : List UInt8) (b : UInt8) (rest : List Char) :
    decodeFrom bs (percent b ++ rest) = decodeFrom (bs ++ [b]) rest := by
  have hb := b.toNat_lt
  have hhigh := hexValue_hexDigit (b.toNat / 16) (by omega)
  have hlow := hexValue_hexDigit (b.toNat % 16) (by omega)
  have hsum : UInt8.ofNat (16 * (b.toNat / 16) + b.toNat % 16) = b := by
    rw [Nat.div_add_mod, UInt8.ofNat_toNat]
  simp only [percent, List.cons_append, List.nil_append, decodeFrom, if_true, hhigh, hlow, hsum]

/-- Escapes are collected until a character ends them. -/
theorem decodeFrom_bytes (bs vs : List UInt8) (rest : List Char) :
    decodeFrom bs (vs.flatMap percent ++ rest) = decodeFrom (bs ++ vs) rest := by
  induction vs generalizing bs with
  | nil => rw [List.flatMap_nil, List.nil_append, List.append_nil]
  | cons v vs ih =>
    rw [List.flatMap_cons, List.append_assoc, decodeFrom_percent, ih, List.append_assoc,
      List.singleton_append]

/-- A character that stands for itself ends a row. -/
theorem decodeFrom_plain {bs : List UInt8} {cs rest rest' : List Char} {c : Char} (hc : c ≠ '%')
    (hbs : characters bs = some cs) (hrest : decodeFrom [] rest = some rest') :
    decodeFrom bs (c :: rest) = some (cs ++ c :: rest') := by
  unfold decodeFrom
  simp only [if_neg hc, hbs, hrest]

/-! ## The way back -/

/-- A reserved character is none of the unreserved ones. -/
theorem unreserved_ne {c d : Char} (h : unreserved c = true) (hd : unreserved d = false) : c ≠ d := by
  rintro rfl
  exact absurd (h.symm.trans hd) (by decide)

/-- **Values come back**, whatever the decoder has read before. -/
theorem decodeFrom_encode (cs : List Char) : ∀ ds : List Char,
    decodeFrom (ds.flatMap String.utf8EncodeChar) (plusToSpace (encode cs)) = some (ds ++ cs) := by
  induction cs with
  | nil =>
    intro ds
    rw [List.append_nil]
    exact characters_encode ds
  | cons c cs ih =>
    intro ds
    have hrest : decodeFrom [] (plusToSpace (encode cs)) = some cs := ih []
    rw [encode, List.flatMap_cons, plusToSpace_append, encodeChar]
    split
    · rename_i hspace
      subst hspace
      exact decodeFrom_plain (by decide) (characters_encode ds) hrest
    · split
      · rename_i hc
        have hplus : c ≠ '+' := unreserved_ne hc (by decide)
        have hsame : plusToSpace [c] = [c] := by
          rw [plusToSpace, List.map_singleton, if_neg hplus]
        rw [hsame]
        exact decodeFrom_plain (unreserved_ne hc (by decide)) (characters_encode ds) hrest
      · rw [plusToSpace_bytes, decodeFrom_bytes]
        have hds : ds.flatMap String.utf8EncodeChar ++ String.utf8EncodeChar c =
            (ds ++ [c]).flatMap String.utf8EncodeChar := by
          rw [List.flatMap_append, List.flatMap_singleton]
        rw [hds, ← encode, ih, List.append_assoc, List.singleton_append]

/-- **Round trip** of a name or a value. -/
theorem decode_encode (cs : List Char) : decode (encode cs) = some cs := decodeFrom_encode cs []

theorem unreserved_hexDigit : ∀ n < 16, unreserved (hexDigit n) = true := by decide

/-- What an encoded text is written in. -/
theorem written_of_mem_encode {cs : List Char} {c : Char} (h : c ∈ encode cs) :
    unreserved c = true ∨ c = '+' ∨ c = '%' := by
  obtain ⟨d, -, hd⟩ := List.mem_flatMap.mp h
  unfold encodeChar at hd
  split at hd
  · exact Or.inr (Or.inl (List.mem_singleton.mp hd))
  · split at hd
    · rename_i hplain
      exact Or.inl (List.mem_singleton.mp hd ▸ hplain)
    · obtain ⟨b, -, hb⟩ := List.mem_flatMap.mp hd
      have hlt := b.toNat_lt
      simp only [percent, List.mem_cons, List.not_mem_nil, or_false] at hb
      rcases hb with rfl | rfl | rfl
      · exact Or.inr (Or.inr rfl)
      · exact Or.inl (unreserved_hexDigit _ (by omega))
      · exact Or.inl (unreserved_hexDigit _ (by omega))

/-- What is encoded contains no separator. -/
theorem not_mem_encode {cs : List Char} {c : Char} (hc : c = '&' ∨ c = '=') : c ∉ encode cs := by
  intro h
  rcases hc with rfl | rfl <;> rcases written_of_mem_encode h with h | h | h <;> revert h <;> decide

theorem parseField_encodeField (f : Field) : parseField (encodeField f) = some f := by
  have hname : ∀ c ∈ encode f.1, (c != '=') = true := by
    intro c hc
    rw [bne_iff_ne]
    rintro rfl
    exact not_mem_encode (Or.inr rfl) hc
  have htake : (encodeField f).takeWhile (· != '=') = encode f.1 := by
    rw [encodeField, List.takeWhile_append_of_pos hname, List.takeWhile_cons, if_neg (by decide),
      List.append_nil]
  have hdrop : ((encodeField f).dropWhile (· != '=')).drop 1 = encode f.2 := by
    rw [encodeField, List.dropWhile_append_of_pos hname, List.dropWhile_cons, if_neg (by decide)]
    rfl
  rw [parseField, htake, hdrop, decode_encode, decode_encode]

theorem parseFields_map (fields : List Field) :
    parseFields (fields.map encodeField) = some fields := by
  induction fields with
  | nil => rfl
  | cons f fields ih => rw [List.map_cons, parseFields, parseField_encodeField, ih]

/-- A field contains no ampersand, so the list is split where it was joined. -/
theorem not_mem_encodeField (f : Field) : '&' ∉ encodeField f := by
  intro h
  rcases List.mem_append.mp h with h | h
  · exact not_mem_encode (Or.inl rfl) h
  · rcases List.mem_cons.mp h with h | h
    · exact absurd h (by decide)
    · exact not_mem_encode (Or.inl rfl) h

/-- **Query strings come back.** -/
theorem parse_serialise (fields : List Field) : parse (serialise fields) = some fields := by
  cases hfields : fields with
  | nil => rfl
  | cons f rest =>
    have hsplit : (serialise fields).splitOn '&' = fields.map encodeField := by
      refine List.splitOn_intercalate '&' ?_ (by rw [hfields]; exact List.cons_ne_nil _ _)
      intro text htext
      obtain ⟨f, -, rfl⟩ := List.mem_map.mp htext
      exact not_mem_encodeField f
    have hnonempty : (fields.map encodeField).filter (!·.isEmpty) = fields.map encodeField := by
      refine List.filter_eq_self.mpr fun text htext => ?_
      obtain ⟨f, -, rfl⟩ := List.mem_map.mp htext
      cases h : encode f.1 <;> simp [encodeField, h]
    rw [← hfields, parse, hsplit, hnonempty, parseFields_map]

end FormUrl
