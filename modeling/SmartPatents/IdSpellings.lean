/-
  The three readings of an id: the JSON value that the validators accept, `String` of it, and `BigInt`.

  `isBigIntId` accepts digits with leading zeros, JSON numbers, and an array around either.
  `findDuplicates` compares texts and `findMissingIds` looks for the numbers of the texts, while the
  links of the inventors are made of `BigInt` of the values themselves.  So the links are distinct and
  real, in every database, if and only if no two texts that differ denote one number, and the number
  of every inventor's value is the number of a text (`linksSound_iff`).  The first fails for "7" and
  "07" (`not_linksSound`); the second can fail for JSON numbers from 2^53 on, whose text is rounded.

  An accepted id is a `BigIntId`: the value with the proof that `isBigIntId` took it, so that its
  text and both of its numbers exist and no later proof has to ask.  The chains of the two fields
  (`categoryIdsField`, `inventorsField`) give lists of these.

  The resolvers are those of `Relations`, on the texts.  `checked_iff` says what their checks come
  to, and the equivalence is in both directions for every database: where two texts denote one
  number, a database that has the number makes the resolved list repeat a row (`stocked`).

  In order: what the validators accept, the resolvers on what was accepted, what a sound outcome
  is (`LinksSound`), how the three readings agree, and what the checks come to with them.
-/
import SmartPatents.Lib.Json
import SmartPatents.InventorOrder
import Mathlib.Data.List.Dedup

namespace SmartPatents.IdSpellings

open Relations CreditLists
open PatentService (requestedLinks)

/-! ## What the validators accept -/

/-- `MAX_BIGINT`, the largest id of a BIGINT column. -/
def MAX_BIGINT : Int := 9223372036854775807

/-- `/^\d{1,19}$/`. -/
def idPattern (text : String) : Bool :=
  1 ≤ text.length && text.length ≤ 19 && text.toList.all Char.isDigit

/-- `isBigIntId`: a value that spells a positive integer within BIGINT. -/
def isBigIntId (value : Json) : Bool :=
  match value.text with
  | some text =>
    idPattern text &&
      match value.bigInt with
      | some n => 0 < n && n ≤ MAX_BIGINT
      | none => false
  | none => false

/-- An accepted id. -/
structure BigIntId where
  value : Json
  accepted : isBigIntId value = true

/-- `String(value)`. -/
def BigIntId.text (i : BigIntId) : String := i.value.text.getD ""

/-- `BigInt(value)`. -/
def BigIntId.number (i : BigIntId) : Nat := (i.value.bigInt.getD 0).toNat

/-- `BigInt(String(value))`. -/
def BigIntId.textNumber (i : BigIntId) : Nat := bigInt i.text

/-- An accepted id, with the proof that it was. -/
def bigIntId (value : Json) : Option BigIntId :=
  if h : isBigIntId value = true then some ⟨value, h⟩ else none

/-- The chains of `categoryIds`: at most 20 ids. -/
def categoryIdsField : Json → Option (List BigIntId)
  | .array values => if values.length ≤ 20 then values.mapM bigIntId else none
  | _ => none

/-- An accepted entry of `inventors`. -/
structure Entry where
  inventorId : BigIntId
  order : Option Int

/-- `order !== undefined && !Number.isInteger(order)`, and the order if that is false. -/
def orderField : Option Json → Option (Option Int)
  | none => some none
  | some (.number (.finite x)) => if x.value.den = 1 then some (some x.value.num) else none
  | some _ => none

/-- The chains of one entry of `inventors`. -/
def entryField (entry : Json) : Option Entry :=
  match entry.get "inventorId", orderField (entry.get "order") with
  | some value, some order => (bigIntId value).map fun i => ⟨i, order⟩
  | _, _ => none

/-- The chains of `inventors`: at most 50 entries. -/
def inventorsField : Json → Option (List Entry)
  | .array values => if values.length ≤ 50 then values.mapM entryField else none
  | _ => none

/-! ## The resolvers on accepted ids -/

/-- What the checks see of an entry. -/
def Entry.spelled (e : Entry) : InventorEntry := ⟨e.inventorId.text, e.order⟩

/-- The checks are made on texts; the links are made of the values. -/
def resolveInventorLinks (inventors : List Entry) (d : Db) : Except AppError (List InventorLink) :=
  match Relations.resolveInventorLinks (inventors.map Entry.spelled) d with
  | .error e => .error e
  | .ok _ => .ok (inventors.mapIdx fun index entry =>
      ⟨entry.inventorId.number, entry.order.getD (index + 1)⟩)

/-- `categoryIds.map(String)` is all that is used. -/
def resolveCategoryIds (categoryIds : List BigIntId) (d : Db) : Except AppError (List Nat) :=
  Relations.resolveCategoryIds (categoryIds.map BigIntId.text) d

/-! ## Sound outcomes -/

/-- Distinct ids of rows, or a 400. -/
def Sound {R : Type} (rows : List R) (id : R → Nat) : Except AppError (List Nat) → Prop
  | .ok ids => ids.Nodup ∧ ∀ i ∈ ids, ∃ r ∈ rows, id r = i
  | .error e => e.status = 400

/-- Whatever the tables hold. -/
structure LinksSound (inventors : List Entry) (categoryIds : List BigIntId) : Prop where
  inventors : ∀ d : Db, Sound d.inventors.rows Inventor.id
    ((resolveInventorLinks inventors d).map fun links => links.map InventorLink.inventorId)
  categories : ∀ d : Db, Sound d.categories.rows Category.id (resolveCategoryIds categoryIds d)

/-- The orders are all absent, or they are 1..N in some order. -/
def Ranked (inventors : List InventorEntry) : Prop :=
  (∀ e ∈ inventors, e.order = none) ∨ ∃ orders : List Int,
    inventors.map InventorEntry.order = orders.map some ∧ orders.Perm (oneTo inventors.length)

/-- Ids whose texts all differ denote different numbers, and a value the number of some text. -/
structure SpelledOnce (inventors : List Entry) (categoryIds : List BigIntId) : Prop where
  inventors : (inventors.map fun e => e.inventorId.text).Nodup →
    Ranked (inventors.map Entry.spelled) →
      (inventors.map fun e => e.inventorId.number).Nodup ∧
        ∀ e ∈ inventors, ∃ f ∈ inventors, f.inventorId.textNumber = e.inventorId.number
  categories : (categoryIds.map BigIntId.text).Nodup →
    (categoryIds.map BigIntId.textNumber).Nodup

/-! ## The three readings -/

namespace BigIntId

/-- An accepted id has a text. -/
theorem text_eq (i : BigIntId) : i.value.text = some i.text := by
  have h := i.accepted
  unfold isBigIntId at h
  cases htext : i.value.text with
  | none => simp [htext] at h
  | some text => simp [BigIntId.text, htext]

theorem pattern (i : BigIntId) : idPattern i.text = true := by
  have h := i.accepted
  simp only [isBigIntId, text_eq, Bool.and_eq_true] at h
  exact h.1

/-- `BigInt` does not throw on an accepted value, and what it returns is positive. -/
theorem bigInt_eq (i : BigIntId) : i.value.bigInt = some (i.number : Int) := by
  have h := i.accepted
  simp only [isBigIntId, text_eq, Bool.and_eq_true] at h
  cases hvalue : i.value.bigInt with
  | none => simp [hvalue] at h
  | some n =>
    simp only [hvalue, Bool.and_eq_true, decide_eq_true_eq] at h
    simp only [number, hvalue, Option.getD_some, Option.some.injEq]
    omega

/-- `BigInt` of the text is the number of its digits. -/
theorem bigIntOfText_text (i : BigIntId) : Json.bigIntOfText i.text = some (i.textNumber : Int) := by
  have h := i.pattern
  simp only [idPattern, Bool.and_eq_true, decide_eq_true_eq, List.all_eq_true] at h
  have hne : i.text.toList ≠ [] := by
    intro hnil
    have hlen : i.text.length = 0 := by rw [← String.length_toList, hnil, List.length_nil]
    omega
  exact Json.bigIntOfText_digits hne h.2

end BigIntId

/-- Where value and text say one number, the links are those of the texts. -/
theorem resolveInventorLinks_eq {inventors : List Entry} {d : Db}
    (h : ∀ e ∈ inventors, e.inventorId.number = e.inventorId.textNumber) :
    resolveInventorLinks inventors d =
      Relations.resolveInventorLinks (inventors.map Entry.spelled) d := by
  unfold resolveInventorLinks
  rcases resolveInventorLinks_cases (inventors.map Entry.spelled) d with
    ⟨-, hok⟩ | ⟨-, message, herror⟩
  · rw [hok]
    refine congrArg Except.ok (List.ext_getElem (by simp [requestedLinks]) fun i hi hi' => ?_)
    have hmem : i < inventors.length := by simpa using hi
    simp only [requestedLinks, List.getElem_mapIdx, List.getElem_map, h _ (List.getElem_mem hmem)]
    rfl
  · rw [herror]

/-! ## Sound outcomes -/

section Sound

variable {inventors : List Entry} {categoryIds : List BigIntId} {d : Db}

/-- What the checks of the inventors come to. -/
theorem checked_iff : Checked (inventors.map Entry.spelled) d ↔
    (inventors.map fun e => e.inventorId.text).Nodup ∧ Ranked (inventors.map Entry.spelled) ∧
      ∀ e ∈ inventors, ∃ r ∈ d.inventors.rows, r.id = e.inventorId.textNumber := by
  have htexts : (inventors.map Entry.spelled).map InventorEntry.inventorId =
      inventors.map fun e => e.inventorId.text := by
    rw [List.map_map]
    rfl
  have hexist : (∀ i ∈ ((inventors.map Entry.spelled).map InventorEntry.inventorId).map bigInt,
      ∃ r ∈ d.inventors.rows, r.id = i) ↔
        ∀ e ∈ inventors, ∃ r ∈ d.inventors.rows, r.id = e.inventorId.textNumber := by
    simp only [htexts, List.map_map, List.mem_map, Function.comp_apply, forall_exists_index,
      and_imp, forall_apply_eq_imp_iff₂]
    rfl
  constructor
  · rintro ⟨hdistinct, hmissing, huniform, hcontiguous⟩
    exact ⟨htexts ▸ hdistinct, ranked_iff.mp ⟨huniform, hcontiguous⟩, hexist.mp hmissing⟩
  · rintro ⟨hdistinct, hranked, hknown⟩
    obtain ⟨huniform, hcontiguous⟩ := ranked_iff.mpr hranked
    exact ⟨htexts.symm ▸ hdistinct, hexist.mpr hknown, huniform, hcontiguous⟩

/-- The inventors of the links, or a 400. -/
theorem inventorLinks_cases (inventors : List Entry) (d : Db) :
    (Checked (inventors.map Entry.spelled) d ∧
      (resolveInventorLinks inventors d).map (fun links => links.map InventorLink.inventorId) =
        .ok (inventors.map fun e => e.inventorId.number)) ∨
    (¬ Checked (inventors.map Entry.spelled) d ∧ ∃ message,
      (resolveInventorLinks inventors d).map (fun links => links.map InventorLink.inventorId) =
        .error (badRequest message)) := by
  rcases resolveInventorLinks_cases (inventors.map Entry.spelled) d with
    ⟨hchecked, hok⟩ | ⟨hnot, message, herror⟩
  · refine Or.inl ⟨hchecked, ?_⟩
    simp only [resolveInventorLinks, hok, Except.map]
    refine congrArg Except.ok (List.ext_getElem (by simp) fun i hi hi' => ?_)
    rw [List.getElem_map, List.getElem_mapIdx, List.getElem_map]
  · refine Or.inr ⟨hnot, message, ?_⟩
    rw [resolveInventorLinks, herror]
    rfl

/-- Categories resolve when their texts are distinct and their numbers are rows. -/
theorem resolveCategoryIds_cases (categoryIds : List BigIntId) (d : Db) :
    ((categoryIds.map BigIntId.text).Nodup ∧
      (∀ i ∈ categoryIds.map BigIntId.textNumber, ∃ r ∈ d.categories.rows, r.id = i) ∧
      resolveCategoryIds categoryIds d = .ok (categoryIds.map BigIntId.textNumber)) ∨
    (¬ ((categoryIds.map BigIntId.text).Nodup ∧
      ∀ i ∈ categoryIds.map BigIntId.textNumber, ∃ r ∈ d.categories.rows, r.id = i) ∧
      ∃ message, resolveCategoryIds categoryIds d = .error (badRequest message)) := by
  have hnumbers : (categoryIds.map BigIntId.text).map bigInt =
      categoryIds.map BigIntId.textNumber := by
    rw [List.map_map]
    rfl
  by_cases hnil : categoryIds = []
  · subst hnil
    exact Or.inl ⟨List.nodup_nil, fun _ h => absurd h List.not_mem_nil, rfl⟩
  have hempty : (categoryIds.map BigIntId.text).isEmpty = false := by simpa using hnil
  simp only [resolveCategoryIds, Relations.resolveCategoryIds, hempty, Bool.false_eq_true, if_false,
    hnumbers]
  by_cases hdistinct : (categoryIds.map BigIntId.text).Nodup
  case neg =>
    refine Or.inr ⟨fun h => hdistinct h.1, _, if_pos ?_⟩
    simpa [findDuplicates_eq_nil] using hdistinct
  simp only [findDuplicates_eq_nil.mpr hdistinct, List.isEmpty_nil, Bool.not_true,
    Bool.false_eq_true, if_false]
  by_cases hexist : ∀ i ∈ categoryIds.map BigIntId.textNumber, ∃ r ∈ d.categories.rows, r.id = i
  case neg =>
    refine Or.inr ⟨fun h => hexist h.2, _, if_pos ?_⟩
    rw [← findMissingIds_eq_nil] at hexist
    simpa using hexist
  simp only [findMissingIds_eq_nil.mpr hexist, List.isEmpty_nil, Bool.not_true,
    Bool.false_eq_true, if_false]
  exact Or.inl ⟨hdistinct, hexist, trivial⟩

/-- A database whose inventors and categories have these ids. -/
def stocked (inventorIds categoryIds : List Nat) : Db where
  users := Table.empty
  patents := Table.empty
  reviews := Table.empty
  inventors :=
    { rows := inventorIds.dedup.map fun id => ⟨id, none, "", "", none, 0⟩
      nodup := by
        rw [List.map_map]
        exact (List.map_id _).symm ▸ List.nodup_dedup inventorIds }
  categories :=
    { rows := categoryIds.dedup.map fun id => ⟨id, ""⟩
      nodup := by
        rw [List.map_map]
        exact (List.map_id _).symm ▸ List.nodup_dedup categoryIds }
  patentInventors := Table.empty
  patentCategories := Table.empty
  outbox := Table.empty

/-- A table stocked with ids has those ids. -/
theorem inventor_stocked {inventorIds categoryIds : List Nat} {i : Nat} :
    (∃ r ∈ (stocked inventorIds categoryIds).inventors.rows, r.id = i) ↔ i ∈ inventorIds := by
  simp [stocked]

theorem category_stocked {inventorIds categoryIds : List Nat} {i : Nat} :
    (∃ r ∈ (stocked inventorIds categoryIds).categories.rows, r.id = i) ↔ i ∈ categoryIds := by
  simp [stocked]

/-- **Resolved links are distinct and real** if and only if every number is spelled once. -/
theorem linksSound_iff {inventorsValue categoryIdsValue : Json}
    (_ : inventorsField inventorsValue = some inventors)
    (_ : categoryIdsField categoryIdsValue = some categoryIds) :
    LinksSound inventors categoryIds ↔ SpelledOnce inventors categoryIds := by
  constructor
  · intro hsound
    -- the tables hold the numbers of the texts and nothing else
    let d := stocked (inventors.map fun e => e.inventorId.textNumber)
      (categoryIds.map BigIntId.textNumber)
    refine ⟨fun hdistinct hranked => ?_, fun hdistinct => ?_⟩
    · have hchecked : Checked (inventors.map Entry.spelled) d :=
        checked_iff.mpr ⟨hdistinct, hranked, fun e he =>
          inventor_stocked.mpr (List.mem_map.mpr ⟨e, he, rfl⟩)⟩
      have houtcome := hsound.inventors d
      rcases inventorLinks_cases inventors d with ⟨-, hok⟩ | ⟨hnot, -⟩
      · rw [hok] at houtcome
        obtain ⟨hnodup, hreal⟩ := houtcome
        refine ⟨hnodup, fun e he => ?_⟩
        have hrow := hreal _ (List.mem_map.mpr ⟨e, he, rfl⟩)
        obtain ⟨f, hf, hnumber⟩ := List.mem_map.mp (inventor_stocked.mp hrow)
        exact ⟨f, hf, hnumber⟩
      · exact absurd hchecked hnot
    · have houtcome := hsound.categories d
      rcases resolveCategoryIds_cases categoryIds d with ⟨-, -, hok⟩ | ⟨hnot, -⟩
      · rw [hok] at houtcome
        exact houtcome.1
      · exact absurd ⟨hdistinct, fun i hi => category_stocked.mpr hi⟩ hnot
  · intro hspelled
    refine ⟨fun d => ?_, fun d => ?_⟩
    · rcases inventorLinks_cases inventors d with ⟨hchecked, hok⟩ | ⟨-, message, herror⟩
      · obtain ⟨hdistinct, hranked, hknown⟩ := checked_iff.mp hchecked
        obtain ⟨hnodup, htext⟩ := hspelled.inventors hdistinct hranked
        rw [hok]
        refine ⟨hnodup, fun i hi => ?_⟩
        obtain ⟨e, he, rfl⟩ := List.mem_map.mp hi
        obtain ⟨f, hf, hnumber⟩ := htext e he
        exact hnumber ▸ hknown f hf
      · rw [herror]
        exact rfl
    · rcases resolveCategoryIds_cases categoryIds d with
        ⟨hdistinct, hknown, hok⟩ | ⟨-, message, herror⟩
      · rw [hok]
        exact ⟨hspelled.categories hdistinct, hknown⟩
      · rw [herror]
        exact rfl

end Sound

/-- An accepted id is accepted. -/
theorem bigIntId_eq (i : BigIntId) : bigIntId i.value = some i := dif_pos i.accepted

theorem mapM_bigIntId (ids : List BigIntId) : (ids.map BigIntId.value).mapM bigIntId = some ids := by
  induction ids with
  | nil => rfl
  | cons i ids ih =>
    rw [List.map_cons, List.mapM_cons, bigIntId_eq, ih]
    rfl

/-- A body that lists ids, as inventors without an order. -/
def inventorsBody (ids : List BigIntId) : Json :=
  .array (ids.map fun i => .object [("inventorId", i.value)])

/-- A body made of accepted ids passes the chains of `inventors`. -/
theorem inventorsField_body {ids : List BigIntId} (h : ids.length ≤ 50) :
    inventorsField (inventorsBody ids) = some (ids.map fun i => ⟨i, none⟩) := by
  have hentry : ∀ i : BigIntId,
      entryField (.object [("inventorId", i.value)]) = some ⟨i, none⟩ := fun i => by
    simp [entryField, Json.get, orderField, bigIntId_eq]
  rw [inventorsBody, inventorsField, if_pos (by simpa using h)]
  induction ids with
  | nil => rfl
  | cons i ids ih =>
    rw [List.map_cons, List.mapM_cons, hentry, ih (by simp at h; omega)]
    rfl

theorem categoryIdsField_body {ids : List BigIntId} (h : ids.length ≤ 20) :
    categoryIdsField (.array (ids.map BigIntId.value)) = some ids := by
  rw [categoryIdsField, if_pos (by simpa using h), mapM_bigIntId]

/-- The id 7 as it is usually spelled. -/
def seven : BigIntId := ⟨.string "7", by decide +kernel⟩

/-- The same id with a leading zero, which the pattern admits. -/
def paddedSeven : BigIntId := ⟨.string "07", by decide +kernel⟩

theorem twelve_isSmall : 12 < 2 ^ 53 := by decide

/-- The JSON number 12 in an array of an array. -/
def twelve : BigIntId :=
  ⟨.array [.array [.number
      (.finite (Doubles.Double.ofNat 12 0 twelve_isSmall Doubles.Double.unscaled))]],
    by decide +kernel⟩

/-- Two inventors and two categories, each spelled once. -/
theorem linksSound_iff_twelve :
    LinksSound ([twelve, seven].map fun i => ⟨i, none⟩) [paddedSeven, twelve] ↔
      SpelledOnce ([twelve, seven].map fun i => ⟨i, none⟩) [paddedSeven, twelve] :=
  linksSound_iff (inventorsField_body (by decide)) (categoryIdsField_body (by decide))

/-- "7" and "07" are two texts of one id. -/
theorem not_linksSound :
    ¬ ∀ (inventorsValue categoryIdsValue : Json) (inventors : List Entry)
        (categoryIds : List BigIntId), inventorsField inventorsValue = some inventors →
      categoryIdsField categoryIdsValue = some categoryIds → LinksSound inventors categoryIds := by
  intro hall
  let ids := [seven, paddedSeven]
  have hshort : ids.length ≤ 20 := by decide
  have hsound := hall _ _ _ _ (inventorsField_body (Nat.le_trans hshort (by decide)))
    (categoryIdsField_body hshort)
  have hresolved : resolveCategoryIds ids (stocked [] [7]) = .ok [7, 7] := by decide +kernel
  have houtcome := hsound.categories (stocked [] [7])
  rw [hresolved] at houtcome
  exact absurd houtcome.1 (by decide)

end SmartPatents.IdSpellings
