/-
  `src/services/patents/relations.js`: the id lists a client sends become link rows.

  Ids arrive as JSON values that passed `isBigIntId`: an entry holds the text `String(value)`, and
  `bigInt` is `BigInt` of it.  The links of inventors are made of `BigInt(value)` in the source, which
  is the same but for JSON numbers from 2^53 on (`IdSpellings`).

  Both resolvers make the same two checks in the same order, duplicates first and then ids without
  a row, and the message of the first failure is the answer.  `resolveInventorLinks` then has the
  orders to look at: given for all entries or for none, and a ranking from 1 up.  Which lists it
  accepts is `InventorOrder.resolveInventorLinks_iff`.

  Duplicates are found among the texts and rows among the numbers, so two spellings of one id are
  no duplicate (`IdSpellings`).
-/
import SmartPatents.Database

namespace SmartPatents.Relations

/-- `BigInt` of a text of decimal digits. -/
def bigInt (digits : String) : Nat :=
  digits.toList.foldl (fun n c => 10 * n + (c.toNat - '0'.toNat)) 0

/-- An entry of `inventors` in a request body. -/
structure InventorEntry where
  inventorId : String
  order : Option Int
deriving DecidableEq

/-- A resolved credit. -/
structure InventorLink where
  inventorId : Nat
  inventorOrder : Int
deriving DecidableEq

/-- The requested ids that no row has, as `findMany` followed by a set of strings finds them. -/
def findMissingIds {R : Type} (rows : List R) (id : R → Nat) (ids : List Nat) : List String :=
  let found := rows.filter fun r => ids.contains (id r)
  let known := found.map fun r => toString (id r)
  (ids.map toString).filter fun i => !known.contains i

/-- One step of the `forEach` of `findDuplicates`: the two sets. -/
def noteDuplicate (sets : List String × List String) (value : String) :
    List String × List String :=
  if value ∈ sets.1 then
    (sets.1, if value ∈ sets.2 then sets.2 else sets.2 ++ [value])
  else (value :: sets.1, sets.2)

/-- `findDuplicates`: each value seen before, once, in the order of its second occurrence. -/
def findDuplicates (values : List String) : List String :=
  (values.foldl noteDuplicate ([], [])).2

/-- `entry.order ?? index + 1`. -/
def ordersOf (inventors : List InventorEntry) : List Int :=
  inventors.mapIdx fun index entry => entry.order.getD (index + 1)

/-- The sorted orders are 1, 2, …, N. -/
def contiguous (orders : List Int) : Bool :=
  ((orders.insertionSort (· ≤ ·)).mapIdx fun index value => value == (index : Int) + 1).all id

/-- `join(', ')`, as the messages list ids. -/
def commaList (texts : List String) : String := ", ".intercalate texts

/-- `resolveInventorLinks`. The checks are in the order of the source, so the first failure answers.
    -/
def resolveInventorLinks (inventors : List InventorEntry) (d : Db) :
    Except AppError (List InventorLink) :=
  if inventors.isEmpty then .ok []
  else
    let ids := inventors.map InventorEntry.inventorId
    let duplicateIds := findDuplicates ids
    let missing := findMissingIds d.inventors.rows Inventor.id (ids.map bigInt)
    let explicit := (inventors.filter fun entry => entry.order.isSome).length
    let orders := ordersOf inventors
    if !duplicateIds.isEmpty then
      .error (badRequest ("The same inventor cannot be listed twice on a patent: " ++
        commaList duplicateIds))
    else if !missing.isEmpty then
      .error (badRequest ("Unknown inventor id(s): " ++ commaList missing))
    else if explicit ≠ 0 ∧ explicit ≠ inventors.length then
      .error (badRequest "Either give every inventor an explicit order, or none of them")
    else if !contiguous orders then
      .error (badRequest ("inventor order must be a contiguous sequence starting at 1, got: " ++
        commaList (orders.map toString)))
    else
      .ok (inventors.mapIdx fun index entry =>
        ⟨bigInt entry.inventorId, entry.order.getD (index + 1)⟩)

/-- `resolveCategoryIds`. -/
def resolveCategoryIds (categoryIds : List String) (d : Db) : Except AppError (List Nat) :=
  if categoryIds.isEmpty then .ok []
  else
    let duplicates := findDuplicates categoryIds
    let missing := findMissingIds d.categories.rows Category.id (categoryIds.map bigInt)
    if !duplicates.isEmpty then
      .error (badRequest ("Duplicate category id(s): " ++ commaList duplicates))
    else if !missing.isEmpty then
      .error (badRequest ("Unknown category id(s): " ++ commaList missing))
    else .ok (categoryIds.map bigInt)

end SmartPatents.Relations
