/-
  The bodies that `createPatentValidation` and `updatePatentValidation`
  (`src/utils/validation/patents.js`) accept, and what they make of them.

  A body is a JSON value.  A chain checks one field and replaces it by its sanitised value; the service
  then reads the body.  `trim`, `toUpperCase` and the length that `isLength` compares come from the
  validation library, and are a parameter.

  A validation is a partial function of the body: `none` is the 400, whatever its text, and `some`
  is what the service is called with.  Each field has a definition of its own under the name of
  its chain, with the bounds of the source, and the two validations put them together.

  `Counted` is what is known of the lengths of the texts behind a validation, and
  `counted_created` and `Counted.edited` carry it through the two write paths.  Ids are validated
  as in `IdSpellings`, keys by the pattern of `Storage`.
-/
import SmartPatents.IdSpellings

namespace SmartPatents.PatentBodies

open Storage IdSpellings
open PatentService (CreateInput Updates Request)

/-- What the chains call of the library. -/
structure Library where
  trim : String → String
  toUpperCase : String → String
  /-- The length that `isLength` compares. -/
  length : String → Nat

section Fields

variable (lib : Library)

/-- `isLength({ min, max })`. -/
def isLength (min max : Nat) (s : String) : Option String :=
  if min ≤ lib.length s ∧ lib.length s ≤ max then some s else none

/-- `isString().bail().trim().isLength({ min, max })`. -/
def textField (min max : Nat) : Json → Option String
  | .string s => isLength lib min max (lib.trim s)
  | _ => none

/-- `title`, 3 to 500 characters. -/
def titleField : Json → Option String := textField lib 3 500

/-- A long text, from 20 characters on. -/
def longTextField (max : Nat) : Json → Option String := textField lib 20 max

/-- `abstract`, at most 10000 characters. -/
def abstractField : Json → Option String := longTextField lib 10000

/-- `specification`, at most 200000 characters. -/
def specificationField : Json → Option String := longTextField lib 200000

/-- `publicationNumber`, 3 to 64 characters. -/
def publicationNumberField : Json → Option String := textField lib 3 64

/-- `jurisdiction`, 2 to 8 characters, in upper case. -/
def jurisdictionField : Json → Option String
  | .string s => isLength lib 2 8 (lib.toUpperCase (lib.trim s))
  | _ => none

/-- `documentKey`, a text that the pattern of the keys admits. -/
def keyField : Json → Option String
  | .string key => if documentKeyField key then some key else none
  | _ => none

/-- The ids as the service reads them. -/
def categoryTexts (value : Json) : Option (List String) :=
  (categoryIdsField value).map fun ids => ids.map BigIntId.text

/-- `inventors`, each entry with the spelling of its id as the service reads it. -/
def inventorEntries (value : Json) : Option (List Relations.InventorEntry) :=
  (inventorsField value).map fun entries => entries.map Entry.spelled

end Fields

/-! ## Chains -/

section Chains

variable {α : Type} (field : Json → Option α)

/-- `body(name)`. -/
def required (value : Option Json) : Option α := value.bind field

/-- `body(name).optional()`: a missing field is not checked. -/
def optional : Option Json → Option (Option α)
  | none => some none
  | some value => (field value).map some

/-- `body(name).optional({ values: 'null' })`: neither is `null`. -/
def nullable : Option Json → Option (Option (Option α))
  | none => some none
  | some .null => some (some none)
  | some value => (field value).map fun a => some (some a)

end Chains

/-- `createPatentValidation`, and the body as the controller passes it on; `none` is a 400. -/
def createPatentValidation (lib : Library) (body : Json) : Option CreateInput := do
  let title ← required (titleField lib) (body.get "title")
  let abstract ← required (abstractField lib) (body.get "abstract")
  let specification ← required (specificationField lib) (body.get "specification")
  let documentKey ← required keyField (body.get "documentKey")
  let publicationNumber ← nullable (publicationNumberField lib) (body.get "publicationNumber")
  let jurisdiction ← nullable (jurisdictionField lib) (body.get "jurisdiction")
  let categoryIds ← optional categoryTexts (body.get "categoryIds")
  let inventors ← optional inventorEntries (body.get "inventors")
  return { title, abstract, specification, documentKey
           publicationNumber := publicationNumber.join
           jurisdiction := jurisdiction.join
           categoryIds, inventors }

/-- The fields a PATCH may name; one of them it must. -/
def editable : List String :=
  ["title", "abstract", "specification", "documentKey", "publicationNumber", "jurisdiction",
    "categoryIds", "inventors"]

/-- `updatePatentValidation`. `some none` is an explicit `null`, which clears the column. -/
def updatePatentValidation (lib : Library) (body : Json) : Option Updates := do
  let title ← optional (titleField lib) (body.get "title")
  let abstract ← optional (abstractField lib) (body.get "abstract")
  let specification ← optional (specificationField lib) (body.get "specification")
  let documentKey ← optional keyField (body.get "documentKey")
  let publicationNumber ← nullable (publicationNumberField lib) (body.get "publicationNumber")
  let jurisdiction ← nullable (jurisdictionField lib) (body.get "jurisdiction")
  let categoryIds ← optional categoryTexts (body.get "categoryIds")
  let inventors ← optional inventorEntries (body.get "inventors")
  if editable.any fun name => (body.get name).isSome then
    return { title, abstract, specification, documentKey, publicationNumber, jurisdiction,
             categoryIds, inventors }
  else none

/-! ## What passes -/

section Lengths

variable {lib : Library} {value : Json} {field : Option Json} {s : String} {n m : Nat}

/-- What passes `isLength` is no longer than its bound. -/
theorem length_le_of_isLength {t : String} (h : isLength lib m n t = some s) : lib.length s ≤ n := by
  unfold isLength at h
  split at h
  · rename_i hlength
    obtain rfl := Option.some.inj h
    exact hlength.2
  · nomatch h

theorem length_le_of_textField (h : textField lib m n value = some s) : lib.length s ≤ n := by
  cases value with
  | string t => exact length_le_of_isLength h
  | _ => nomatch h

theorem length_le_of_jurisdictionField (h : jurisdictionField lib value = some s) :
    lib.length s ≤ 8 := by
  cases value with
  | string t => exact length_le_of_isLength h
  | _ => nomatch h

/-- What passes the chain of a key matches the pattern. -/
theorem documentKeyField_of_keyField {key : String} (h : keyField value = some key) :
    documentKeyField key = true := by
  cases value with
  | string t =>
    rw [keyField] at h
    split at h
    · rename_i hkey
      exact Option.some.inj h ▸ hkey
    · nomatch h
  | _ => nomatch h

/-- The value of an optional field has passed its chain. -/
theorem of_optional {α : Type} {chain : Json → Option α} {a : α}
    (h : optional chain field = some (some a)) : ∃ value, chain value = some a := by
  cases field with
  | none => nomatch h
  | some value =>
    obtain ⟨b, hb, heq⟩ := Option.map_eq_some_iff.mp h
    obtain rfl := Option.some.inj heq
    exact ⟨value, hb⟩

theorem of_nullable {α : Type} {chain : Json → Option α} {a : α}
    (h : nullable chain field = some (some (some a))) : ∃ value, chain value = some a := by
  unfold nullable at h
  split at h
  · nomatch h
  · nomatch h
  · obtain ⟨b, hb, heq⟩ := Option.map_eq_some_iff.mp h
    obtain rfl := Option.some.inj (Option.some.inj heq)
    exact ⟨_, hb⟩

end Lengths

/-- The texts of a patent that come from a body. -/
structure Texts where
  title : String
  abstract : String
  specification : String
  publicationNumber : Option String
  jurisdiction : Option String

/-- No text is longer than its chain allows. -/
structure Counted (lib : Library) (t : Texts) : Prop where
  title : lib.length t.title ≤ 500
  abstract : lib.length t.abstract ≤ 10000
  specification : lib.length t.specification ≤ 200000
  publicationNumber : ∀ s, t.publicationNumber = some s → lib.length s ≤ 64
  jurisdiction : ∀ s, t.jurisdiction = some s → lib.length s ≤ 8

/-- The texts of a new draft. -/
def createdTexts (input : CreateInput) : Texts where
  title := input.title
  abstract := input.abstract
  specification := input.specification
  publicationNumber := Access.truthy input.publicationNumber
  jurisdiction := Access.truthy input.jurisdiction

/-- The texts after an edit. -/
def editedTexts (updates : Updates) (t : Texts) : Texts where
  title := updates.title.getD t.title
  abstract := updates.abstract.getD t.abstract
  specification := updates.specification.getD t.specification
  publicationNumber := updates.publicationNumber.getD t.publicationNumber
  jurisdiction := updates.jurisdiction.getD t.jurisdiction

section Passed

variable {lib : Library} {body : Json}

/-- The texts of a creation are within their bounds. -/
theorem counted_created {input : CreateInput} (h : createPatentValidation lib body = some input) :
    Counted lib (createdTexts input) := by
  simp only [createPatentValidation, required, Option.bind_eq_bind, Option.bind_eq_some_iff,
    Option.pure_def, Option.some.injEq] at h
  obtain ⟨title, ⟨_, -, htitle⟩, abstract, ⟨_, -, habstract⟩, specification, ⟨_, -, hspecification⟩,
    documentKey, -, publicationNumber, hnumber, jurisdiction, hjurisdiction, categoryIds, -,
    inventors, -, rfl⟩ := h
  refine ⟨length_le_of_textField htitle, length_le_of_textField habstract,
    length_le_of_textField hspecification, fun s hs => ?_, fun s hs => ?_⟩
  · obtain rfl := Option.join_eq_some_iff.mp (Option.filter_eq_some_iff.mp hs).1
    obtain ⟨value, hvalue⟩ := of_nullable hnumber
    exact length_le_of_textField hvalue
  · obtain rfl := Option.join_eq_some_iff.mp (Option.filter_eq_some_iff.mp hs).1
    obtain ⟨value, hvalue⟩ := of_nullable hjurisdiction
    exact length_le_of_jurisdictionField hvalue

/-- A supplied value has passed its chain, and every other one stays. -/
theorem length_le_getD {chain : Json → Option String} {new : Option String} {field : Option Json}
    {old : String} {n : Nat} (hnew : optional chain field = some new)
    (hchain : ∀ value s, chain value = some s → lib.length s ≤ n) (hold : lib.length old ≤ n) :
    lib.length (new.getD old) ≤ n := by
  cases new with
  | none => exact hold
  | some s =>
    obtain ⟨value, hvalue⟩ := of_optional hnew
    exact hchain value s hvalue

/-- A text that is edited, cleared or kept is within its bound. -/
theorem length_le_getD_nullable {chain : Json → Option String} {new : Option (Option String)}
    {field : Option Json} {old : Option String} {n : Nat} (hnew : nullable chain field = some new)
    (hchain : ∀ value s, chain value = some s → lib.length s ≤ n)
    (hold : ∀ s, old = some s → lib.length s ≤ n) :
    ∀ s, new.getD old = some s → lib.length s ≤ n := by
  intro s hs
  cases new with
  | none => exact hold s hs
  | some t =>
    obtain rfl : t = some s := hs
    obtain ⟨value, hvalue⟩ := of_nullable hnew
    exact hchain value s hvalue

/-- **An edit keeps the lengths.** -/
theorem Counted.edited {updates : Updates} {t : Texts} (hold : Counted lib t)
    (h : updatePatentValidation lib body = some updates) : Counted lib (editedTexts updates t) := by
  simp only [updatePatentValidation, Option.bind_eq_bind, Option.bind_eq_some_iff] at h
  obtain ⟨title, htitle, abstract, habstract, specification, hspecification, documentKey, -,
    publicationNumber, hnumber, jurisdiction, hjurisdiction, categoryIds, -, inventors, -, h⟩ := h
  split at h
  · obtain rfl := Option.some.inj h
    exact
      { title := length_le_getD htitle (fun _ _ => length_le_of_textField) hold.title
        abstract := length_le_getD habstract (fun _ _ => length_le_of_textField) hold.abstract
        specification :=
          length_le_getD hspecification (fun _ _ => length_le_of_textField) hold.specification
        publicationNumber := length_le_getD_nullable hnumber (fun _ _ => length_le_of_textField)
          hold.publicationNumber
        jurisdiction := length_le_getD_nullable hjurisdiction
          (fun _ _ => length_le_of_jurisdictionField) hold.jurisdiction }
  · nomatch h

/-- The key of a creation matches the pattern. -/
theorem documentKey_created {input : CreateInput} (h : createPatentValidation lib body = some input) :
    documentKeyField input.documentKey = true := by
  simp only [createPatentValidation, required, Option.bind_eq_bind, Option.bind_eq_some_iff,
    Option.pure_def, Option.some.injEq] at h
  obtain ⟨title, -, abstract, -, specification, -, documentKey, ⟨_, -, hkey⟩, publicationNumber, -,
    jurisdiction, -, categoryIds, -, inventors, -, rfl⟩ := h
  exact documentKeyField_of_keyField hkey

theorem documentKey_edited {updates : Updates} (h : updatePatentValidation lib body = some updates)
    {key : String} (hkey : updates.documentKey = some key) : documentKeyField key = true := by
  simp only [updatePatentValidation, Option.bind_eq_bind, Option.bind_eq_some_iff] at h
  obtain ⟨title, -, abstract, -, specification, -, documentKey, hdocumentKey, publicationNumber, -,
    jurisdiction, -, categoryIds, -, inventors, -, h⟩ := h
  split at h
  · obtain rfl := Option.some.inj h
    obtain rfl : documentKey = some key := hkey
    obtain ⟨value, hvalue⟩ := of_optional hdocumentKey
    exact documentKeyField_of_keyField hvalue
  · nomatch h

end Passed

/-! ## Validated requests -/

/-- Every body has passed its validation, and the service got what the validation left. -/
def Validated (lib : Library) (bodies : Nat → Json) (reqs : Nat → Request) : Prop :=
  ∀ p, match reqs p with
    | .createPatent _ input => createPatentValidation lib (bodies p) = some input
    | .updatePatent _ _ updates => updatePatentValidation lib (bodies p) = some updates
    | _ => True

/-- Every key that reaches the service has the shape of an issued one. -/
theorem documentKeyField_of_validated {lib : Library} {bodies : Nat → Json} {reqs : Nat → Request}
    (h : Validated lib bodies reqs) (p : Nat) (key : String)
    (hkey : (reqs p).documentKey = some key) : documentKeyField key = true := by
  have hbody := h p
  cases hreq : reqs p with
  | createPatent user input =>
    rw [hreq] at hbody hkey
    exact Option.some.inj hkey ▸ documentKey_created hbody
  | updatePatent user id updates =>
    rw [hreq] at hbody hkey
    exact documentKey_edited hbody hkey
  | _ =>
    rw [hreq] at hkey
    nomatch hkey

end SmartPatents.PatentBodies
