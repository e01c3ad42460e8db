/-
  `src/services/storageService.js`: the object store that holds patent documents.

  Clients upload directly to the store; the API issues keys (`presignUpload`), looks objects up
  (`headObject`) and removes them (`deleteObject`, which may fail silently).  The signed URL itself
  comes from the AWS SDK and is left out of the reply.

  A key is `patents/<user id>/<uuid>/<file name>`, so it names the user it was issued to, and
  `keyBelongsToUser` compares a prefix.  What a file name can do to a key is the subject of
  `ObjectKeys`, which has the same functions over UTF-16 text as the language has it; here names
  are character strings, and `ObjectKeys.basename_ofChars` and its neighbours connect the two.

  The bucket is a table of sizes.  `headObject` is the only call that reads it, and `deleteObject`
  the only one of the API that changes it; an upload is a step of a client.
-/
import SmartPatents.Errors
import SmartPatents.Lib.Table

namespace SmartPatents.Storage

/-- What `config.storage` says about documents. -/
structure Config where
  allowedUploadTypes : List String
  maxUploadBytes : Nat
  uploadUrlTtlSeconds : Nat

/-- One object of the bucket, with the size `headObject` reports. -/
structure StoredObject where
  key : String
  size : Nat
deriving DecidableEq

/-- The bucket: one object under a key. -/
abbrev Bucket := Table StoredObject StoredObject.key

/-! ## Keys -/

/-- `path.basename`: trailing slashes are ignored. -/
def basename (path : List Char) : List Char :=
  ((path.reverse.dropWhile (· == '/')).takeWhile (· != '/')).reverse

/-- `[A-Za-z0-9._-]`, what `sanitiseFilename` keeps. -/
def safeChar (c : Char) : Bool :=
  ('A' ≤ c && c ≤ 'Z') || ('a' ≤ c && c ≤ 'z') || ('0' ≤ c && c ≤ '9')
    || c == '.' || c == '_' || c == '-'

/-- `[0-9a-fA-F-]`, the characters of the pattern of a uuid. -/
def hexOrDash (c : Char) : Bool :=
  ('0' ≤ c && c ≤ '9') || ('a' ≤ c && c ≤ 'f') || ('A' ≤ c && c ≤ 'F') || c == '-'

/-- The pattern matches UTF-16 units, of which a character outside the BMP has two. -/
def sanitiseChar (c : Char) : List Char :=
  if safeChar c then [c] else if c.toNat < 0x10000 then ['_'] else ['_', '_']

/-- `sanitiseFilename`. -/
def sanitiseFilename (filename : String) : String :=
  let base := basename (if filename == "" then "document" else filename).toList
  let cleaned := (base.flatMap sanitiseChar).dropWhile (· == '.')
  String.ofList ((if cleaned.isEmpty then "document".toList else cleaned).take 120)

/-- The part of a key that names the user it is issued to. -/
def keyPrefix (userId : Nat) : String := "patents/" ++ toString userId ++ "/"

/-- `buildObjectKey`. `uuid` is what `crypto.randomUUID()` gives. -/
def buildObjectKey (userId : Nat) (uuid filename : String) : String :=
  keyPrefix userId ++ uuid ++ "/" ++ sanitiseFilename filename

/-- `objectKey.startsWith(...)`. -/
def keyBelongsToUser (objectKey : String) (userId : Nat) : Bool :=
  (keyPrefix userId).toList.isPrefixOf objectKey.toList

/-- `documentKeyField` (`src/utils/validation/patents.js`), the pattern that the routes check:
    `^patents/\d+/[0-9a-fA-F-]{36}/[A-Za-z0-9._-]+$`. -/
def documentKeyField (key : String) : Bool :=
  let afterPrefix := key.toList.drop "patents/".length
  let afterId := afterPrefix.dropWhile Char.isDigit
  let uuid := (afterId.drop 1).take 36
  let afterUuid := afterId.drop 37
  "patents/".toList.isPrefixOf key.toList
    && afterPrefix.head?.any Char.isDigit && afterId.head? == some '/'
    && uuid.length == 36 && uuid.all hexOrDash && afterUuid.head? == some '/'
    && !(afterUuid.drop 1).isEmpty && (afterUuid.drop 1).all safeChar

/-- The pattern of a key admits no empty one. -/
theorem ne_empty_of_documentKeyField {key : String} (h : documentKeyField key = true) :
    key ≠ "" := by
  rintro rfl
  exact absurd h (by decide)

/-! ## Objects -/

/-- The size of an object, or `none` if it is absent. -/
def headObject (bucket : Bucket) (objectKey : String) : Option Nat :=
  (bucket.get? objectKey).map StoredObject.size

/-- Best effort: `deleted` says whether the store carried it out. -/
def deleteObject (bucket : Bucket) (objectKey : String) (deleted : Bool) : Bucket :=
  if objectKey ≠ "" ∧ deleted then bucket.erase objectKey else bucket

/-- An object is found under its own key. -/
theorem headObject_isSome {bucket : Bucket} {objectKey : String} :
    (headObject bucket objectKey).isSome ↔ ∃ o ∈ bucket, o.key = objectKey := by
  rw [headObject, Option.isSome_map, Option.isSome_iff_exists]
  simp only [Table.get?_eq_some]

end SmartPatents.Storage
