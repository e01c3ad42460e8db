/-
  The keys that `buildObjectKey` issues, against the two gates that they meet later.

  A key is `patents/<user id>/<uuid>/<name>`, and the name comes from the client: any string, of which
  `sanitiseFilename` keeps the last path segment, replaces what is not safe, strips leading dots and
  cuts at 120.  What is left is a segment of safe characters that is not empty and does not start
  with a dot (`Segment`).

  So an issued key passes `documentKeyField`, has four segments of which none is a path of its own,
  and belongs to the user it was issued to and to nobody else: `issued_key`.

  A name is a string of the language, so a sequence of UTF-16 units in which surrogates need not
  be paired.  `sanitiseFilename` works unit by unit; what it leaves is ASCII, and from there on
  keys are ordinary strings (`Reflects` carries a property of characters over to the units).

  Of the uuid only the shape is used that the pattern of the gate asks for (`UuidLike`).

  In order: `sanitiseFilename` on units; the same on well-formed strings, where it is the one of
  `Storage` (`sanitiseFilename_ofString`); what the last segment is; and the whole key, split at
  its slashes.
-/
import SmartPatents.DocumentAuthority
import SmartPatents.Lib.Utf16

namespace SmartPatents.ObjectKeys

open Utf16
open Storage (safeChar hexOrDash keyPrefix keyBelongsToUser documentKeyField)

/-! ## From any string -/

/-- The unit of a slash. -/
def slash : UInt16 := 47

/-- `path.basename`, on code units. -/
def basename (path : Text) : Text :=
  ((path.reverse.dropWhile (· == slash)).takeWhile (· != slash)).reverse

/-- `replace(/[^A-Za-z0-9._-]/g, '_')` on one unit. -/
def sanitiseUnit (u : UInt16) : Char := if safeChar (single u) then single u else '_'

/-- `sanitiseFilename`, on the code units of the name. What is left is ASCII, so the 120 units are
    characters. -/
def sanitiseFilename (filename : Text) : String :=
  let base := basename (if filename.isEmpty then ofString "document" else filename)
  let cleaned := (base.map sanitiseUnit).dropWhile (· == '.')
  String.ofList ((if cleaned.isEmpty then "document".toList else cleaned).take 120)

/-- `buildObjectKey`, of any name a client can send. -/
def buildObjectKey (userId : Nat) (uuid : String) (filename : Text) : String :=
  keyPrefix userId ++ uuid ++ "/" ++ sanitiseFilename filename

/-! ## On well-formed strings -/

/-- Only a slash has the unit of a slash. -/
theorem slash_mem_units {c : Char} : slash ∈ units c ↔ c = '/' := by
  have hvalid : c.toNat < 0xD800 ∨ 0xDFFF < c.toNat ∧ c.toNat < 0x110000 := c.valid
  have hslash : slash.toNat = 47 := rfl
  constructor
  · intro h
    refine Char.toNat_inj.mp ?_
    change c.toNat = 47
    unfold units at h
    split at h
    · rename_i hbmp
      rw [List.mem_singleton] at h
      rw [← toNat_unit hbmp, ← h, hslash]
    · rename_i hbig
      have hhigh := toNat_unit (n := 0xD800 + (c.toNat - 0x10000) / 0x400) (by omega)
      have hlow := toNat_unit (n := 0xDC00 + (c.toNat - 0x10000) % 0x400) (by omega)
      rcases List.mem_cons.mp h with h | h
      · rw [← h, hslash] at hhigh
        omega
      · rw [← List.mem_singleton.mp h, hslash] at hlow
        omega
  · rintro rfl
    decide

/-- Every character has a code unit. -/
theorem units_ne_nil (c : Char) : units c ≠ [] := by
  unfold units
  split <;> simp

/-- A property of the units that is one of the character. -/
def Reflects (p : UInt16 → Bool) (q : Char → Bool) (f : Char → Text) : Prop :=
  ∀ c, f c ≠ [] ∧ ∀ u ∈ f c, p u = q c

/-- To drop units is to drop characters, where the units of a character agree. -/
theorem dropWhile_flatMap {p : UInt16 → Bool} {q : Char → Bool} {f : Char → Text}
    (h : Reflects p q f) (cs : List Char) :
    (cs.flatMap f).dropWhile p = (cs.dropWhile q).flatMap f := by
  induction cs with
  | nil => rfl
  | cons c cs ih =>
    obtain ⟨hne, hsame⟩ := h c
    rw [List.flatMap_cons, List.dropWhile_cons]
    cases hq : q c with
    | true =>
      rw [List.dropWhile_append_of_pos fun u hu => (hsame u hu).trans hq, ih]
      rfl
    | false =>
      obtain ⟨u, rest, hcons⟩ := List.exists_cons_of_ne_nil hne
      have hu : p u = false := (hsame u (hcons ▸ List.mem_cons_self)).trans hq
      rw [hcons, List.cons_append, List.dropWhile_cons_of_neg (by rw [hu]; exact Bool.false_ne_true)]
      simp [hcons]

theorem takeWhile_flatMap {p : UInt16 → Bool} {q : Char → Bool} {f : Char → Text}
    (h : Reflects p q f) (cs : List Char) :
    (cs.flatMap f).takeWhile p = (cs.takeWhile q).flatMap f := by
  induction cs with
  | nil => rfl
  | cons c cs ih =>
    obtain ⟨hne, hsame⟩ := h c
    rw [List.flatMap_cons, List.takeWhile_cons]
    cases hq : q c with
    | true =>
      rw [List.takeWhile_append_of_pos fun u hu => (hsame u hu).trans hq, ih]
      simp
    | false =>
      obtain ⟨u, rest, hcons⟩ := List.exists_cons_of_ne_nil hne
      have hu : p u = false := (hsame u (hcons ▸ List.mem_cons_self)).trans hq
      rw [hcons, List.cons_append, List.takeWhile_cons_of_neg (by rw [hu]; exact Bool.false_ne_true)]
      rfl

/-- The units of a text, from its end. -/
theorem reverse_ofChars (cs : List Char) :
    (ofChars cs).reverse = cs.reverse.flatMap fun c => (units c).reverse := by
  rw [ofChars, List.reverse_flatMap]
  rfl

/-- The last segment of a path does not depend on the encoding. -/
theorem basename_ofChars (path : List Char) :
    basename (ofChars path) = ofChars (Storage.basename path) := by
  have hdrop : Reflects (· == slash) (· == '/') fun c => (units c).reverse := by
    refine fun c => ⟨by simpa using units_ne_nil c, fun u hu => ?_⟩
    rw [List.mem_reverse] at hu
    by_cases hc : c = '/'
    · subst hc
      have hunits : units '/' = [slash] := rfl
      rw [hunits, List.mem_singleton] at hu
      rw [hu]
      rfl
    · have hu' : u ≠ slash := fun h => hc (slash_mem_units.mp (h ▸ hu))
      exact (beq_eq_false_iff_ne.mpr hu').trans (beq_eq_false_iff_ne.mpr hc).symm
  have htake : Reflects (· != slash) (· != '/') fun c => (units c).reverse :=
    fun c => ⟨(hdrop c).1, fun u hu => congrArg (! ·) ((hdrop c).2 u hu)⟩
  rw [basename, reverse_ofChars, dropWhile_flatMap hdrop, takeWhile_flatMap htake,
    Storage.basename, ofChars, List.reverse_flatMap]
  congr 1
  funext c
  simp

/-- A character beyond ASCII becomes one underscore for each of its units. -/
theorem map_sanitiseUnit (cs : List Char) :
    (ofChars cs).map sanitiseUnit = cs.flatMap Storage.sanitiseChar := by
  rw [ofChars, List.map_flatMap]
  congr 1
  funext c
  by_cases hbmp : c.toNat < 0x10000
  · have hchars := chars_units c []
    rw [units, if_pos hbmp] at hchars
    have hsingle : single (UInt16.ofNat c.toNat) = c := by simpa [chars] using hchars
    simp only [units, Storage.sanitiseChar, if_pos hbmp, List.map_cons, List.map_nil, sanitiseUnit,
      hsingle]
    split <;> rfl
  · have hunsafe : ∀ u ∈ units c, sanitiseUnit u = '_' := by
      intro u hu
      have hvalid : c.toNat < 0xD800 ∨ 0xDFFF < c.toNat ∧ c.toNat < 0x110000 := c.valid
      have hsurrogate : (isHigh u || isLow u) = true := by
        rw [units, if_neg hbmp] at hu
        have hhigh := toNat_unit (n := 0xD800 + (c.toNat - 0x10000) / 0x400) (by omega)
        have hlow := toNat_unit (n := 0xDC00 + (c.toNat - 0x10000) % 0x400) (by omega)
        simp only [isHigh, isLow, Bool.or_eq_true, Bool.and_eq_true, decide_eq_true_eq]
        rcases List.mem_cons.mp hu with rfl | hu
        · omega
        · obtain rfl := List.mem_singleton.mp hu
          omega
      rw [sanitiseUnit, single, if_pos hsurrogate]
      rfl
    have hsafe : safeChar c = false := by
      simp only [safeChar, Bool.or_eq_false_iff, Bool.and_eq_false_iff, decide_eq_false_iff_not,
        beq_eq_false_iff_ne]
      have hle : ∀ d : Char, d.toNat < 0x10000 → ¬ c ≤ d ∧ c ≠ d := by
        intro d hd
        refine ⟨fun h => ?_, fun h => by subst h; exact hbmp hd⟩
        have hcd : c.toNat ≤ d.toNat := h
        omega
      refine ⟨⟨⟨⟨⟨?_, ?_⟩, ?_⟩, ?_⟩, ?_⟩, ?_⟩
      · exact Or.inr (hle 'Z' (by decide)).1
      · exact Or.inr (hle 'z' (by decide)).1
      · exact Or.inr (hle '9' (by decide)).1
      · exact (hle '.' (by decide)).2
      · exact (hle '_' (by decide)).2
      · exact (hle '-' (by decide)).2
    rw [Storage.sanitiseChar, hsafe, if_neg Bool.false_ne_true, if_neg hbmp]
    rw [units, if_neg hbmp] at hunsafe ⊢
    rw [List.map_cons, List.map_cons, List.map_nil, hunsafe _ List.mem_cons_self,
      hunsafe _ (List.mem_cons_of_mem _ List.mem_cons_self)]

/-- On a well-formed string this is the function of `Storage`. -/
theorem sanitiseFilename_ofString (filename : String) :
    sanitiseFilename (ofString filename) = Storage.sanitiseFilename filename := by
  have hempty : (ofString filename).isEmpty = (filename == "") := by
    by_cases h : filename = ""
    · subst h
      rfl
    · have hne : filename.toList ≠ [] := fun hnil => h (String.toList_injective hnil)
      obtain ⟨c, cs, hcons⟩ := List.exists_cons_of_ne_nil hne
      obtain ⟨u, rest, hunits⟩ := List.exists_cons_of_ne_nil (units_ne_nil c)
      rw [beq_eq_false_iff_ne.mpr h, ofString, hcons, ofChars, List.flatMap_cons, hunits]
      rfl
  have hbase : (if (ofString filename).isEmpty then ofString "document" else ofString filename) =
      ofChars (if filename == "" then "document" else filename).toList := by
    rw [hempty]
    split <;> rfl
  simp only [sanitiseFilename, Storage.sanitiseFilename, hbase, basename_ofChars, map_sanitiseUnit]

/-! ## The last segment -/

/-- A segment that names a file: safe characters, at most 120 of them, not none, and no dot in
    front. -/
structure Segment (name : List Char) : Prop where
  safe : ∀ c ∈ name, safeChar c = true
  short : name.length ≤ 120
  nonempty : name ≠ []
  undotted : name.head? ≠ some '.'

/-- Whatever the unit, what replaces it is safe. -/
theorem safe_sanitiseUnit (u : UInt16) : safeChar (sanitiseUnit u) = true := by
  unfold sanitiseUnit
  split
  · assumption
  · rfl

/-- What is left of a list without its leading dots. -/
theorem head_dropWhile_ne (cs : List Char) : (cs.dropWhile (· == '.')).head? ≠ some '.' := by
  intro h
  have hne : cs.dropWhile (· == '.') ≠ [] := fun hnil => by rw [hnil] at h; cases h
  have hnot := List.head_dropWhile_not (p := (· == '.')) (l := cs) hne
  rw [List.head?_eq_some_head hne, Option.some.injEq] at h
  rw [h] at hnot
  cases hnot

/-- A sanitised name is one segment of a path, and neither `.` nor `..`. -/
theorem segment_sanitiseFilename (filename : Text) : Segment (sanitiseFilename filename).toList := by
  have hcut : ∀ cs : List Char, (∀ c ∈ cs, safeChar c = true) → cs ≠ [] → cs.head? ≠ some '.' →
      Segment (cs.take 120) := by
    intro cs hsafe hne hhead
    obtain ⟨c, rest, rfl⟩ := List.exists_cons_of_ne_nil hne
    exact ⟨fun d hd => hsafe d (List.mem_of_mem_take hd), List.length_take_le _ _, by simp,
      by simpa using hhead⟩
  rw [sanitiseFilename, String.toList_ofList]
  generalize basename (if filename.isEmpty then ofString "document" else filename) = base
  split
  · exact hcut _ (List.all_eq_true.mp (by decide)) (by decide) (by decide)
  · rename_i hcleaned
    refine hcut _ (fun c hc => ?_) (fun h => hcleaned (List.isEmpty_iff.mpr h))
      (head_dropWhile_ne _)
    obtain ⟨u, -, rfl⟩ := List.mem_map.mp ((List.dropWhile_sublist _).subset hc)
    exact safe_sanitiseUnit u

/-! ## The whole key -/

/-- `split('/')`. -/
def segments (key : String) : List (List Char) := key.toList.splitOn '/'

/-- A uuid, as far as the pattern of the gate goes. -/
structure UuidLike (uuid : String) : Prop where
  length : uuid.toList.length = 36
  hex : ∀ c ∈ uuid.toList, hexOrDash c = true

variable {userId : Nat} {uuid : String} {filename : Text}

/-- A key, character by character. -/
theorem toList_buildObjectKey : (buildObjectKey userId uuid filename).toList =
    "patents/".toList ++ (Nat.toDigits 10 userId ++ '/' ::
      (uuid.toList ++ '/' :: (sanitiseFilename filename).toList)) := by
  have hslash : "/".toList = ['/'] := rfl
  simp only [buildObjectKey, String.toList_append, DocumentAuthority.toList_keyPrefix, hslash,
    List.append_assoc, List.cons_append, List.nil_append]

theorem not_slash_of_isDigit {c : Char} (h : c.isDigit = true) : c ≠ '/' := by
  rintro rfl
  cases h

theorem not_slash_of_hexOrDash {c : Char} (h : hexOrDash c = true) : c ≠ '/' ∧ c ≠ '.' := by
  constructor
  · rintro rfl
    exact absurd h (by decide)
  · rintro rfl
    exact absurd h (by decide)

theorem not_slash_of_safeChar {c : Char} (h : safeChar c = true) : c ≠ '/' := by
  rintro rfl
  exact absurd h (by decide)

theorem isDigit_of_mem {c : Char} (h : c ∈ Nat.toDigits 10 userId) : c.isDigit = true :=
  Nat.isDigit_of_mem_toDigits (by decide) (by decide) h

/-- A key has four segments. -/
theorem segments_buildObjectKey (huuid : UuidLike uuid) :
    segments (buildObjectKey userId uuid filename) =
      ["patents".toList, Nat.toDigits 10 userId, uuid.toList,
        (sanitiseFilename filename).toList] := by
  have hpatents : "patents/".toList = "patents".toList ++ ['/'] := rfl
  have hid : '/' ∉ Nat.toDigits 10 userId := fun h => not_slash_of_isDigit (isDigit_of_mem h) rfl
  have huu : '/' ∉ uuid.toList := fun h => (not_slash_of_hexOrDash (huuid.hex _ h)).1 rfl
  have hname : '/' ∉ (sanitiseFilename filename).toList := fun h =>
    not_slash_of_safeChar ((segment_sanitiseFilename filename).safe _ h) rfl
  rw [segments, toList_buildObjectKey, hpatents, List.append_assoc, List.singleton_append,
    List.splitOn_append_cons_self, List.splitOn_append_cons_self, List.splitOn_append_cons_self,
    List.splitOn_eq_singleton (by decide : '/' ∉ "patents".toList), List.splitOn_eq_singleton hid,
    List.splitOn_eq_singleton huu, List.splitOn_eq_singleton hname]
  rfl

/-- The pattern of the bodies admits every key. -/
theorem documentKeyField_buildObjectKey (huuid : UuidLike uuid) :
    documentKeyField (buildObjectKey userId uuid filename) = true := by
  obtain ⟨hsafe, -, hne, -⟩ := segment_sanitiseFilename filename
  have hdrop : (buildObjectKey userId uuid filename).toList.drop "patents/".length =
      Nat.toDigits 10 userId ++ '/' :: (uuid.toList ++ '/' :: (sanitiseFilename filename).toList) := by
    rw [toList_buildObjectKey]
    exact List.drop_left' rfl
  have hdigits : (Nat.toDigits 10 userId ++ '/' :: (uuid.toList ++ '/' ::
      (sanitiseFilename filename).toList)).dropWhile Char.isDigit =
      '/' :: (uuid.toList ++ '/' :: (sanitiseFilename filename).toList) := by
    rw [List.dropWhile_append_of_pos fun c hc => isDigit_of_mem hc]
    rfl
  have huu : (uuid.toList ++ '/' :: (sanitiseFilename filename).toList).take 36 = uuid.toList := by
    rw [← huuid.length, List.take_left]
  have hrest : ('/' :: (uuid.toList ++ '/' :: (sanitiseFilename filename).toList)).drop 37 =
      '/' :: (sanitiseFilename filename).toList := by
    rw [List.drop_succ_cons, ← huuid.length, List.drop_left]
  have hhead : (Nat.toDigits 10 userId ++ '/' :: (uuid.toList ++ '/' ::
      (sanitiseFilename filename).toList)).head?.any Char.isDigit = true := by
    obtain ⟨c, cs, hcons⟩ := List.exists_cons_of_ne_nil (Nat.toDigits_ne_nil (n := userId) (b := 10))
    have hmem : c ∈ Nat.toDigits 10 userId := hcons ▸ List.mem_cons_self
    have hc : c.isDigit = true := isDigit_of_mem hmem
    rw [hcons]
    exact hc
  have hstart : "patents/".toList.isPrefixOf (buildObjectKey userId uuid filename).toList = true := by
    rw [toList_buildObjectKey]
    exact List.isPrefixOf_iff_prefix.mpr (List.prefix_append _ _)
  have hall : (sanitiseFilename filename).toList.all safeChar = true := List.all_eq_true.mpr hsafe
  have hhex : uuid.toList.all hexOrDash = true := List.all_eq_true.mpr huuid.hex
  have hname : (sanitiseFilename filename).toList.isEmpty = false :=
    List.isEmpty_eq_false_iff.mpr hne
  simp only [documentKeyField, hdrop, hdigits, huu, hrest, hhead, hstart, hhex, huuid.length,
    List.head?_cons, List.drop_one, List.tail_cons, hall, hname, BEq.rfl, Bool.and_self, Bool.not_false]

theorem belongs_iff {v : Nat} :
    keyBelongsToUser (buildObjectKey userId uuid filename) v = true ↔ v = userId := by
  have hown : keyBelongsToUser (buildObjectKey userId uuid filename) userId = true := by
    refine List.isPrefixOf_iff_prefix.mpr ?_
    simp only [buildObjectKey, String.toList_append, List.append_assoc]
    exact List.prefix_append _ _
  constructor
  · exact fun h => DocumentAuthority.owner_unique h hown
  · rintro rfl
    exact hown

/-- **Issued keys and the two gates agree.** -/
theorem issued_key (huuid : UuidLike uuid) :
    let key := buildObjectKey userId uuid filename
    documentKeyField key = true ∧
      (∃ name, segments key = ["patents".toList, (toString userId).toList, uuid.toList, name] ∧
        (∀ s ∈ segments key, s ≠ [] ∧ s ≠ ['.'] ∧ s ≠ ['.', '.']) ∧
        name.length ≤ 120 ∧ ∀ c ∈ name, safeChar c = true) ∧
      ∀ v, keyBelongsToUser key v = true ↔ v = userId := by
  intro key
  have hsegment := segment_sanitiseFilename filename
  have hsegments := @segments_buildObjectKey userId uuid filename huuid
  have hid : (toString userId).toList = Nat.toDigits 10 userId := by
    rw [Nat.toString_eq_ofList_toDigits, String.toList_ofList]
  refine ⟨documentKeyField_buildObjectKey huuid, ⟨(sanitiseFilename filename).toList, ?_, ?_,
    hsegment.short, hsegment.safe⟩, fun v => belongs_iff⟩
  · rw [hid]
    exact hsegments
  -- a segment without a leading dot is neither '.' nor '..'
  · have hplain : ∀ s : List Char, s ≠ [] → s.head? ≠ some '.' →
        s ≠ [] ∧ s ≠ ['.'] ∧ s ≠ ['.', '.'] := by
      intro s hne hhead
      exact ⟨hne, fun h => hhead (by rw [h]; rfl), fun h => hhead (by rw [h]; rfl)⟩
    have hnodot : ∀ s : List Char, '.' ∉ s → s.head? ≠ some '.' := fun s hs h =>
      hs (List.mem_of_head? h)
    intro s hs
    rw [hsegments] at hs
    simp only [List.mem_cons, List.not_mem_nil, or_false] at hs
    rcases hs with rfl | rfl | rfl | rfl
    · decide
    · refine hplain _ Nat.toDigits_ne_nil (hnodot _ fun h => ?_)
      exact absurd (isDigit_of_mem h) (by decide)
    · refine hplain _ (fun h => ?_) (hnodot _ fun h => (not_slash_of_hexOrDash (huuid.hex _ h)).2 rfl)
      have hlen := huuid.length
      rw [h] at hlen
      cases hlen
    · exact hplain _ hsegment.nonempty hsegment.undotted

/-- A name that climbs. -/
def passwd : String :=
  buildObjectKey 7 "2f1c0000-0000-4000-8000-000000000000" (ofString "../../../etc/passwd")

/-- A name that climbs out of its folder. -/
theorem issued_key_passwd :
    documentKeyField passwd = true ∧
      (∃ name, segments passwd = ["patents".toList, (toString 7).toList,
          "2f1c0000-0000-4000-8000-000000000000".toList, name] ∧
        (∀ s ∈ segments passwd, s ≠ [] ∧ s ≠ ['.'] ∧ s ≠ ['.', '.']) ∧
        name.length ≤ 120 ∧ ∀ c ∈ name, safeChar c = true) ∧
      ∀ v, keyBelongsToUser passwd v = true ↔ v = 7 :=
  issued_key ⟨by decide, List.all_eq_true.mp (by decide)⟩

example : passwd = "patents/7/2f1c0000-0000-4000-8000-000000000000/passwd" := by decide +kernel

end SmartPatents.ObjectKeys
