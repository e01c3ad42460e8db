/-
  The bodies of the `/users` routes: `src/utils/validation/users.js` over the fields of `shared.js`, and
  `fieldErrors` of `frontend/src/services/apiClient.ts`, which a form shows of a refusal.

  A chain checks one field and leaves its sanitised text (`Chain`); `handleValidationErrors` lets a
  request pass if no chain has an error, and otherwise answers with all of them.  What the service
  then reads is what the chains have left: names are trimmed, addresses are trimmed and in lower case
  (`name_of_body`, `address_of_body`).

  Lower case and the syntax of an address are the library's.

  A body is JSON, so a field may be missing or of any type, and each chain says which messages
  come of it.  The checks run in the order of the source; where nothing bails, two messages about
  one field are both in the answer (`passwordField`).

  `in` looks at the prototype as well: a path that is the name of an inherited property would
  count as filled (`objectNames`).  No field of a route has such a name (`field_of_chains`), so
  the form shows the first message of every field.
-/
import SmartPatents.Privileges
import SmartPatents.Passwords
import SmartPatents.UsersRoute

namespace SmartPatents.UserBodies

open Api (Route)
open PageNumbers (FieldError)
open Passwords (MAX_PASSWORD_BYTES hasAllClasses)
open UsersRoute (trim trim_trim inherited)

/-! ## Chains -/

/-- What the chains take from `validator`, with the two laws of `toLowerCase` they rest on. -/
structure Library where
  toLowerCase : String → String
  isEmail : String → Bool
  /-- The length that `isLength` compares. -/
  length : String → Nat
  /-- How many errors `notEmpty` makes of a value; an array is checked item by item. -/
  empties : Option Json → Nat
  toLowerCase_toLowerCase : ∀ s, toLowerCase (toLowerCase s) = toLowerCase s
  /-- White space has no case. -/
  trim_toLowerCase : ∀ s, trim (toLowerCase (trim s)) = toLowerCase (trim s)

/-- What a chain leaves of a field, or the messages of the checks that fail. -/
abbrev Chain := Option Json → Except (List String) (Option String)

section Fields

variable (lib : Library)

/-- What every spelling of an address comes to. -/
def normalise (s : String) : String := lib.toLowerCase (trim s)

/-- `emailField()`, and the address as it is handed on: trimmed, in lower case. -/
def emailField : Chain
  | some (.string s) =>
    let email := normalise lib s
    if !lib.isEmail email then .error ["Email must be a valid email address"]
    else if 255 < lib.length email then .error ["Email must be at most 255 characters"]
    else .ok (some email)
  | _ => .error ["Email must be a string"]

/-- `nameField()`. -/
def nameField : Chain
  | some (.string s) =>
    let name := trim s
    if 2 ≤ lib.length name ∧ lib.length name ≤ 255 then .ok (some name)
    else .error ["Name must be between 2 and 255 characters"]
  | _ => .error ["Name must be a string"]

/-- No `bail` between the bytes and the classes: a password can fail both. -/
def passwordField : Chain
  | some (.string s) =>
    if lib.length s < 8 then .error ["Password must be at least 8 characters long"]
    else
      let text := Utf16.ofString s
      let errors :=
        (if MAX_PASSWORD_BYTES < Utf16.byteLength text then
          [s!"Password must be at most {MAX_PASSWORD_BYTES} bytes"] else []) ++
        if hasAllClasses text then [] else
          ["Password must contain at least one lowercase letter, one uppercase letter, and one number"]
      if errors = [] then .ok (some s) else .error errors
  | _ => .error ["Password must be a string"]

/-- `isString().notEmpty().withMessage(message)`: the message is that of the second check. -/
def filledField (message : String) (value : Option Json) : Except (List String) (Option String) :=
  match value with
  | some (.string s) => if s = "" then .error [message] else .ok (some s)
  | _ => .error ("Invalid value" :: List.replicate (lib.empties value) message)

/-- `optional()`. -/
def optional (chain : Chain) : Chain
  | none => .ok none
  | some value => chain (some value)

/-- `===`, of two values of one body. -/
def strictEquals : Option Json → Option Json → Bool
  | none, none | some .null, some .null => true
  | some (.boolean a), some (.boolean b) => a == b
  | some (.number x), some (.number y) => x = y
  | some (.string s), some (.string t) => s == t
  | _, _ => false

/-- `updateProfile` needs something to update. -/
def somethingGiven (body : Json) : Except (List String) (Option String) :=
  if (body.get "name").isNone && (body.get "email").isNone then
    .error ["Provide at least one of: name, email"]
  else .ok none

/-- The custom check of `changePasswordValidation`, on the values as they arrived. -/
def differs (body : Json) : Except (List String) (Option String) :=
  if strictEquals (body.get "newPassword") (body.get "currentPassword") then
    .error ["New password must be different from the current password"]
  else .ok none

end Fields

/-! ## Routes -/

/-- A field, and what its chain makes of it. -/
abbrev Checked := String × Except (List String) (Option String)

/-- The errors of a chain, at the path of its field. -/
def errors (checked : Checked) : List FieldError :=
  match checked.2 with
  | .ok _ => []
  | .error messages => messages.map (⟨checked.1, ·⟩)

/-- What a chain has left in the body. -/
def left : Except (List String) (Option String) → Option String
  | .ok value => value
  | .error _ => none

/-- `sendError(res, 400, 'VALIDATION_ERROR', 'Validation failed', errors)`, or `next()` with the body
    as the chains have left it. -/
def handleValidationErrors (chains : List Checked) :
    Except (List FieldError) (String → Option String) :=
  match chains.flatMap errors with
  | [] => .ok fun name => (chains.lookup name).bind left
  | e :: es => .error (e :: es)

/-- The chains of a route. -/
def chains (lib : Library) (route : Route) (body : Json) : List Checked :=
  match route with
  | .signup | .createAdmin =>
    [("name", nameField lib (body.get "name")), ("email", emailField lib (body.get "email")),
      ("password", passwordField lib (body.get "password"))]
  | .login =>
    [("email", emailField lib (body.get "email")),
      ("password", filledField lib "Password is required" (body.get "password"))]
  | .refresh =>
    [("refreshToken", filledField lib "Refresh token is required" (body.get "refreshToken"))]
  | .logout =>
    [("refreshToken", optional (filledField lib "Refresh token must be a non-empty string")
      (body.get "refreshToken"))]
  | .updateMe =>
    [("name", optional (nameField lib) (body.get "name")),
      ("email", optional (emailField lib) (body.get "email")), ("", somethingGiven body)]
  | .changePassword =>
    [("currentPassword",
        filledField lib "Current password is required" (body.get "currentPassword")),
      ("newPassword", passwordField lib (body.get "newPassword")), ("newPassword", differs body)]

/-- The validation of a route. -/
def validation (lib : Library) (route : Route) (body : Json) :
    Except (List FieldError) (String → Option String) :=
  handleValidationErrors (chains lib route body)

/-! ## What passes -/

/-- A name as it is stored. -/
structure IsName (lib : Library) (s : String) : Prop where
  trimmed : trim s = s
  long : 2 ≤ lib.length s
  short : lib.length s ≤ 255

/-- An address as it is stored. -/
structure IsAddress (lib : Library) (s : String) : Prop where
  normal : normalise lib s = s
  valid : lib.isEmail s = true
  short : lib.length s ≤ 255

section Passes

variable {lib : Library} {value : Option Json} {s t : String}

/-- A normalised address is normalised. -/
theorem normalise_normalise (lib : Library) (s : String) :
    normalise lib (normalise lib s) = normalise lib s := by
  rw [normalise, normalise, lib.trim_toLowerCase, lib.toLowerCase_toLowerCase]

/-- What passes the chain of a name is a name. -/
theorem isName_of_nameField (h : nameField lib value = .ok (some s)) : IsName lib s := by
  unfold nameField at h
  split at h
  · rename_i t
    dsimp only at h
    split at h
    · rename_i hlength
      obtain rfl := Option.some.inj (Except.ok.inj h)
      exact ⟨trim_trim t, hlength.1, hlength.2⟩
    · cases h
  · cases h

/-- What passes that of an address is one. -/
theorem isAddress_of_emailField (h : emailField lib value = .ok (some s)) : IsAddress lib s := by
  unfold emailField at h
  split at h
  · rename_i t
    dsimp only at h
    split at h
    · cases h
    · rename_i hvalid
      split at h
      · cases h
      · rename_i hshort
        obtain rfl := Option.some.inj (Except.ok.inj h)
        refine ⟨normalise_normalise lib t, ?_, Nat.le_of_not_lt hshort⟩
        rw [Bool.not_eq_true', Bool.not_eq_false] at hvalid
        exact hvalid
  · cases h

/-- The chain accepts what `Passwords.passwordField` says of the text, and leaves it as it is. -/
theorem passwordField_eq_ok_iff {length : Utf16.Text → Nat}
    (hlength : length (Utf16.ofString s) = lib.length s) :
    passwordField lib (some (.string s)) = .ok (some s) ↔
      Passwords.passwordField length (Utf16.ofString s) = true := by
  rw [passwordField, Passwords.passwordField, hlength]
  by_cases hlong : lib.length s < 8
  · rw [if_pos hlong, decide_eq_false (Nat.not_le.mpr hlong)]
    constructor
    · intro h
      cases h
    · intro h
      cases h
  · rw [if_neg hlong, decide_eq_true (Nat.le_of_not_lt hlong)]
    by_cases hbytes : MAX_PASSWORD_BYTES < Utf16.byteLength (Utf16.ofString s)
    · simp [hbytes]
    · cases hclasses : hasAllClasses (Utf16.ofString s) with
      | true => simp [hbytes, hclasses, Nat.le_of_not_lt hbytes]
      | false => simp [hbytes, hclasses]

theorem optional_eq_ok {chain : Chain} (h : optional chain value = .ok (some s)) :
    chain value = .ok (some s) := by
  cases value with
  | none => cases h
  | some v => exact h

theorem left_eq_some {r : Except (List String) (Option String)} :
    left r = some s ↔ r = .ok (some s) := by
  cases r with
  | ok value => exact ⟨fun h => congrArg _ h, fun h => Except.ok.inj h⟩
  | error messages => exact ⟨fun h => (Option.some_ne_none s h.symm).elim, fun h => by cases h⟩

variable {route : Route} {json : Json} {body : String → Option String}

/-- The body handed on is made of what the chains accept. -/
theorem body_of_validation (h : validation lib route json = .ok body) :
    body = fun name => ((chains lib route json).lookup name).bind left := by
  unfold validation handleValidationErrors at h
  split at h
  · exact (Except.ok.inj h).symm
  · cases h

/-- The name in an accepted body. -/
theorem name_of_body (h : validation lib route json = .ok body) (hname : body "name" = some s) :
    IsName lib s := by
  rw [body_of_validation h] at hname
  obtain ⟨r, hr, hs⟩ := Option.bind_eq_some_iff.mp hname
  obtain rfl := left_eq_some.mp hs
  cases route with
  | signup | createAdmin => exact isName_of_nameField (Option.some.inj hr)
  | updateMe => exact isName_of_nameField (optional_eq_ok (Option.some.inj hr))
  | login | refresh | logout | changePassword => cases hr

/-- The address in an accepted body. -/
theorem address_of_body (h : validation lib route json = .ok body) (hemail : body "email" = some s) :
    IsAddress lib s := by
  rw [body_of_validation h] at hemail
  obtain ⟨r, hr, hs⟩ := Option.bind_eq_some_iff.mp hemail
  obtain rfl := left_eq_some.mp hs
  cases route with
  | signup | createAdmin | login => exact isAddress_of_emailField (Option.some.inj hr)
  | updateMe => exact isAddress_of_emailField (optional_eq_ok (Option.some.inj hr))
  | refresh | logout | changePassword => cases hr

end Passes

/-! ## What a form shows of a refusal -/

/-- The names that `in` finds in an empty object. -/
def objectNames : List String :=
  inherited ++ ["__defineGetter__", "__defineSetter__", "__lookupGetter__", "__lookupSetter__",
    "__proto__"]

/-- `if (!(d.field in out)) out[d.field] = d.message`. -/
def addDetail (out : List (String × String)) (d : FieldError) : List (String × String) :=
  if d.field ∈ objectNames ∨ (out.lookup d.field).isSome then out else out ++ [(d.field, d.message)]

/-- `ApiClientError.fieldErrors`. -/
def fieldErrors (details : List FieldError) : List (String × String) := details.foldl addDetail []

section Refusals

variable {lib : Library} {route : Route} {json : Json} {details : List FieldError}

/-- No route has a field with the name of an inherited property. -/
theorem field_of_chains {checked : Checked} (h : checked ∈ chains lib route json) :
    checked.1 ∉ objectNames := by
  have hmem : checked.1 ∈ (chains lib route json).map Prod.fst := List.mem_map_of_mem h
  have hnames : ∀ name ∈ (chains lib route json).map Prod.fst, name ∉ objectNames := by
    cases route <;> simp only [chains, List.map_cons, List.map_nil] <;> decide
  exact hnames _ hmem

/-- The first message about a field is the one shown. -/
theorem lookup_addDetail (field : String) (out : List (String × String)) {d : FieldError}
    (hd : d.field ∉ objectNames) : (addDetail out d).lookup field =
      (out.lookup field).or (if d.field = field then some d.message else none) := by
  rw [addDetail]
  by_cases hout : (out.lookup d.field).isSome = true
  · rw [if_pos (Or.inr hout)]
    split
    · rename_i heq
      subst heq
      obtain ⟨message, hmessage⟩ := Option.isSome_iff_exists.mp hout
      rw [hmessage, Option.some_or]
    · rw [Option.or_none]
  · rw [if_neg (not_or.mpr ⟨hd, hout⟩), List.lookup_append]
    split
    · rename_i heq
      rw [heq, List.lookup_cons_self]
    · rename_i hne
      rw [List.lookup_cons, beq_eq_false_iff_ne.mpr (Ne.symm hne), List.lookup_nil]

/-- The first message for a field stays. -/
theorem lookup_fieldErrors (field : String) (hfields : ∀ d ∈ details, d.field ∉ objectNames) :
    (fieldErrors details).lookup field =
      (details.find? fun d => d.field = field).map FieldError.message := by
  have hfold : ∀ out : List (String × String), (details.foldl addDetail out).lookup field =
      (out.lookup field).or ((details.find? fun d => d.field = field).map FieldError.message) := by
    induction details with
    | nil => exact fun out => Option.or_none.symm
    | cons d ds ih =>
      intro out
      rw [List.foldl_cons, ih fun d' h => hfields d' (List.mem_cons_of_mem d h),
        lookup_addDetail field out (hfields d List.mem_cons_self), Option.or_assoc, List.find?_cons]
      by_cases heq : d.field = field
      · simp only [heq, if_true, decide_true, Option.some_or, Option.map_some]
      · simp only [heq, if_false, decide_false, Option.none_or]
  rw [fieldErrors, hfold, List.lookup_nil, Option.none_or]

/-- The messages of a chain. -/
def messages (checked : Checked) : List String :=
  match checked.2 with
  | .ok _ => []
  | .error messages => messages

/-- The errors of a field carry its messages. -/
theorem errors_eq (checked : Checked) :
    errors checked = (messages checked).map fun message => ⟨checked.1, message⟩ := by
  unfold errors messages
  split <;> rfl

theorem find?_errors (field : String) (checked : List Checked) :
    ((checked.flatMap errors).find? fun d => d.field = field).map FieldError.message =
      ((checked.filter fun c => c.1 = field).flatMap messages).head? := by
  induction checked with
  | nil => rfl
  | cons c cs ih =>
    have hfind : ((errors c).find? fun d => d.field = field).map FieldError.message =
        if c.1 = field then (messages c).head? else none := by
      rw [errors_eq, List.find?_map, Option.map_map]
      cases messages c with
      | nil => rw [List.find?_nil, List.head?_nil, Option.map_none, ite_self]
      | cons m ms =>
        by_cases heq : c.1 = field
        · simp [heq]
        · simp [heq]
    rw [List.flatMap_cons, List.find?_append, Option.map_or, hfind, ih, List.filter_cons]
    by_cases heq : c.1 = field
    · rw [if_pos heq, if_pos (decide_eq_true heq), List.flatMap_cons, List.head?_append]
    · rw [if_neg heq, if_neg (fun h => heq (of_decide_eq_true h)), Option.none_or]

/-- **A form shows of a refusal** the first message for every field, and nothing else. -/
theorem fieldErrors_of_refused (h : validation lib route json = .error details) (field : String) :
    (fieldErrors details).lookup field =
      (((chains lib route json).filter fun c => c.1 = field).flatMap messages).head? := by
  have hdetails : details = (chains lib route json).flatMap errors := by
    unfold validation handleValidationErrors at h
    split at h
    · cases h
    · rename_i e es heq
      rw [heq, Except.error.inj h]
  subst hdetails
  rw [lookup_fieldErrors, find?_errors]
  intro d hd
  obtain ⟨c, hc, hd⟩ := List.mem_flatMap.mp hd
  have hfield : d.field = c.1 := by
    unfold errors at hd
    split at hd
    · exact (List.not_mem_nil hd).elim
    · obtain ⟨message, -, rfl⟩ := List.mem_map.mp hd
      rfl
  rw [hfield]
  exact field_of_chains hc

end Refusals

end SmartPatents.UserBodies
