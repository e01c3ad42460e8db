/-
  One password rule, written three times: `passwordField` (`src/utils/validation/shared.js`),
  `readAdminCredentials` (`prisma/seed.js`) and `validatePassword`
  (`frontend/src/utils/validation.ts`).

  The seed says that it mirrors the rules of the API, "so the seeded admin could not be weaker than an
  account created through the endpoint", and the frontend that it mirrors those of the backend.  They do
  not.  The seed checks no classes at all.  The frontend looks for each class in the whole text, the API
  only before the first line terminator; and both count UTF-16 units where `isLength` counts characters.

  So a text that the seed measures and passes is one that the API refuses unless it has 8 characters,
  and the three classes on its first line: `onePolicy_iff`.

  Each of the three checkers is a definition with the measures and the order of its source, and
  has an equivalence that says what it accepts (`passwordField_iff`, `seedAccepts_iff`,
  `frontendAccepts_iff`).  The patterns are values of `Lib.RegExp`; `classPattern_eq` is where the
  meaning of a lookahead matters, since `.*` ends at a line terminator.

  `isLength` counts as the library documents it, which is the parameter `length`; the conditions
  are stated with it, so they hold for any way of counting.
-/
import SmartPatents.Lib.Numeral
import SmartPatents.Lib.RegExp
import SmartPatents.Passwords

namespace SmartPatents.PasswordPolicy

open Utf16 Passwords

/-! ## The classes -/

/-- `[a-z]`. -/
def isLower (u : UInt16) : Bool := 97 ≤ u && u ≤ 122

/-- `[A-Z]`. -/
def isUpper (u : UInt16) : Bool := 65 ≤ u && u ≤ 90

/-- `\d`. -/
def isDigit (u : UInt16) : Bool := 48 ≤ u && u ≤ 57

/-- `.`. -/
def dot (u : UInt16) : Bool := !isLineTerminator u

/-- What `.*` can reach from the start. -/
def firstLine (password : Text) : Text := password.takeWhile dot

/-- `(?=.*[…])`. -/
def lookFor (p : UInt16 → Bool) : RegExp UInt16 := .ahead (.seq (.many dot) (.unit p))

/-- `/^(?=.*[a-z])(?=.*[A-Z])(?=.*\d)/`. -/
def classPattern : RegExp UInt16 :=
  .seq (lookFor isLower) (.seq (lookFor isUpper) (lookFor isDigit))

/-- A letter or digit ends no line. -/
theorem dot_of_class {u : UInt16} (h : isLower u = true ∨ isUpper u = true ∨ isDigit u = true) :
    dot u = true := by
  have hbelow : 13 < u.toNat ∧ u.toNat < 0x2028 := by
    simp only [isLower, isUpper, isDigit, Bool.and_eq_true, decide_eq_true_eq,
      UInt16.le_iff_toNat_le, UInt16.toNat_ofNat] at h
    omega
  have hne : ∀ v : UInt16, v.toNat ≤ 13 ∨ 0x2028 ≤ v.toNat → (u == v) = false := by
    intro v hv
    rw [beq_eq_false_iff_ne]
    rintro rfl
    omega
  rw [dot, isLineTerminator, hne 10 (by decide), hne 13 (by decide), hne 0x2028 (by decide),
    hne 0x2029 (by decide)]
  rfl

/-- **The pattern** says what `hasAllClasses` computes. -/
theorem classPattern_eq (password : Text) :
    classPattern.matchesStart password = hasAllClasses password := by
  have hlook : ∀ p : UInt16 → Bool, (∀ u, p u = true → dot u = true) →
      (lookFor p).matchesStart password = (firstLine password).any p := fun p hp => by
    rw [lookFor, RegExp.matchesStart_ahead, RegExp.matchesStart_many_unit hp]
    rfl
  have hlower := hlook isLower fun u h => dot_of_class (Or.inl h)
  have hupper := hlook isUpper fun u h => dot_of_class (Or.inr (Or.inl h))
  have hdigit := hlook isDigit fun u h => dot_of_class (Or.inr (Or.inr h))
  rw [classPattern, lookFor, lookFor, RegExp.matchesStart_ahead_seq, RegExp.matchesStart_ahead_seq,
    ← RegExp.matchesStart_ahead, ← RegExp.matchesStart_ahead (.seq (.many dot) (.unit isUpper))]
  show ((lookFor isLower).matchesStart password && ((lookFor isUpper).matchesStart password &&
    (lookFor isDigit).matchesStart password)) = _
  rw [hlower, hupper, hdigit, ← Bool.and_assoc]
  rfl

/-! ## The seed -/

/-- `process.env`. -/
abbrev ProcessEnv := String → Option Text

/-- What the seed reads from the environment. -/
structure AdminCredentials where
  email : Text
  password : Text
  name : Text

/-- `toLowerCase`, which leaves alone what ASCII writes without capitals. -/
structure LowerCase where
  apply : Text → Text
  apply_ascii : ∀ t, (t.all fun u => u < 128 && !isUpper u) = true → apply t = t

/-- `\s`. -/
def isSpace (u : UInt16) : Bool := Numeral.isSpace (single u)

/-- `trim()`, at both ends. -/
def trim (t : Text) : Text := ((t.dropWhile isSpace).reverse.dropWhile isSpace).reverse

/-- `[^\s@]`. -/
def addressUnit (u : UInt16) : Bool := !isSpace u && u != 64

/-- `/^[^\s@]+@[^\s@]+\.[^\s@]+$/`. -/
def emailPattern : RegExp UInt16 :=
  .seq (.plus addressUnit) (.seq (.unit (· == 64)) (.seq (.plus addressUnit)
    (.seq (.unit (· == 46)) (.seq (.plus addressUnit) .finish))))

/-- Units before the `@`, and around a dot behind it. -/
def IsAddress (t : Text) : Prop :=
  ∃ mailbox host domain, RegExp.Part addressUnit mailbox ∧ RegExp.Part addressUnit host ∧
    RegExp.Part addressUnit domain ∧ t = mailbox ++ 64 :: (host ++ 46 :: domain)

/-- What the pattern of the seed takes for an address. -/
theorem emailPattern_iff {t : Text} : emailPattern.matchesStart t = true ↔ IsAddress t := by
  rw [RegExp.matchesStart_iff]
  constructor
  · rintro ⟨rest, h⟩
    obtain ⟨t₁, hfirst, h⟩ := RegExp.matches_seq_iff.mp h
    obtain ⟨t₂, hat, h⟩ := RegExp.matches_seq_iff.mp h
    obtain ⟨t₃, hsecond, h⟩ := RegExp.matches_seq_iff.mp h
    obtain ⟨t₄, hdot, h⟩ := RegExp.matches_seq_iff.mp h
    obtain ⟨hthird, -⟩ := RegExp.matches_seq_finish_iff.mp h
    obtain ⟨mailbox, hmailbox, rfl⟩ := RegExp.matches_plus_iff.mp hfirst
    obtain ⟨u, hu, rfl⟩ := RegExp.matches_unit_iff.mp hat
    obtain ⟨host, hhost, rfl⟩ := RegExp.matches_plus_iff.mp hsecond
    obtain ⟨v, hv, rfl⟩ := RegExp.matches_unit_iff.mp hdot
    obtain ⟨domain, hdomain, rfl⟩ := RegExp.matches_plus_iff.mp hthird
    obtain rfl := eq_of_beq hu
    obtain rfl := eq_of_beq hv
    exact ⟨mailbox, host, domain, hmailbox, hhost, hdomain, by rw [List.append_nil]⟩
  · rintro ⟨mailbox, host, domain, hmailbox, hhost, hdomain, rfl⟩
    refine ⟨[], .seq (RegExp.matches_plus_iff.mpr ⟨mailbox, hmailbox, rfl⟩) (.seq (.unit rfl)
      (.seq (RegExp.matches_plus_iff.mpr ⟨host, hhost, rfl⟩) (.seq (.unit rfl) ?_)))⟩
    refine RegExp.matches_seq_finish_iff.mpr ⟨?_, rfl⟩
    exact RegExp.matches_plus_iff.mpr ⟨domain, hdomain, (List.append_nil _).symm⟩

/-- A variable that is set, and not to the empty text. -/
def truthy (value : Option Text) : Option Text := value.filter fun t => !t.isEmpty

/-- The variables that have to be set and are not. -/
def missing (email password : Option Text) : List String :=
  (if email.isNone then ["ADMIN_EMAIL"] else []) ++
    if password.isNone then ["ADMIN_PASSWORD"] else []

/-- The error of a seed without credentials. -/
def missingError (names : List String) : String :=
  "Cannot seed the admin account: " ++ " and ".intercalate names ++ " must be set.\n" ++
    "Set them in your .env (see .env.example) and re-run `npm run prisma:seed`."

/-- `readAdminCredentials`: length and bytes, but nothing about the kinds of characters. -/
def readAdminCredentials (toLowerCase : LowerCase) (env : ProcessEnv) :
    Except Text AdminCredentials :=
  let email := truthy ((env "ADMIN_EMAIL").map fun t => toLowerCase.apply (trim t))
  let password := truthy (env "ADMIN_PASSWORD")
  let name := (truthy ((env "ADMIN_NAME").map trim)).getD (ofString "Administrator")
  match email, password with
  | some email, some password =>
    if !emailPattern.matchesStart email then
      .error (ofString "ADMIN_EMAIL is not a valid email address: " ++ email)
    -- `length` is that of the language: code units
    else if password.length < 8 then
      .error (ofString "ADMIN_PASSWORD must be at least 8 characters long")
    else if MAX_PASSWORD_BYTES < byteLength password then
      .error (ofString s!"ADMIN_PASSWORD must be at most {MAX_PASSWORD_BYTES} bytes")
    else .ok ⟨email, password, name⟩
  | email, password => .error (ofString (missingError (missing email password)))

/-- Some environment with this `ADMIN_PASSWORD` is accepted. -/
def SeedAccepts (toLowerCase : LowerCase) (password : Text) : Prop :=
  ∃ env credentials, env "ADMIN_PASSWORD" = some password ∧
    readAdminCredentials toLowerCase env = .ok credentials

/-! ## The frontend -/

namespace Frontend

/-- The bound as the frontend has it. -/
def MAX_PASSWORD_BYTES : Nat := 72

/-- The error that a form shows. -/
def validatePassword (password : Text) : Option String :=
  if password.isEmpty then some "Password is required"
  else if password.length < 8 then some "Password must be at least 8 characters"
  else if MAX_PASSWORD_BYTES < byteLength password then some "Password is too long"
  else if !(RegExp.unit isLower).test password then some "Add a lowercase letter"
  else if !(RegExp.unit isUpper).test password then some "Add an uppercase letter"
  else if !(RegExp.unit isDigit).test password then some "Add a number"
  else none

end Frontend

/-- A form lets a password through when there is nothing to say about it. -/
def FrontendAccepts (password : Text) : Prop := Frontend.validatePassword password = none

/-! ## What each of the three accepts -/

section Accepts

variable {toLowerCase : LowerCase} {length : Text → Nat} {password line : Text}

/-- All three classes occur. -/
structure AllClasses (line : Text) : Prop where
  lower : ∃ u ∈ line, isLower u = true
  upper : ∃ u ∈ line, isUpper u = true
  digit : ∃ u ∈ line, isDigit u = true

/-- What the seed and the frontend measure. -/
structure Measured (password : Text) : Prop where
  units : 8 ≤ password.length
  bytes : byteLength password ≤ MAX_PASSWORD_BYTES

/-- More text has all the classes it had. -/
theorem AllClasses.mono {t : Text} (hsub : ∀ u ∈ line, u ∈ t) (h : AllClasses line) :
    AllClasses t := by
  obtain ⟨⟨l, hl, hlower⟩, ⟨u, hu, hupper⟩, d, hd, hdigit⟩ := h
  exact ⟨⟨l, hsub l hl, hlower⟩, ⟨u, hsub u hu, hupper⟩, d, hsub d hd, hdigit⟩

/-- The three lookaheads ask for a lower case letter, an upper case letter and a digit. -/
theorem allClasses_iff : AllClasses line ↔
    line.any isLower = true ∧ line.any isUpper = true ∧ line.any isDigit = true := by
  simp only [List.any_eq_true]
  exact ⟨fun h => ⟨h.lower, h.upper, h.digit⟩, fun h => ⟨h.1, h.2.1, h.2.2⟩⟩

/-- What the API accepts. The lookaheads end with the first line. -/
theorem passwordField_iff : passwordField length password = true ↔
    8 ≤ length password ∧ byteLength password ≤ MAX_PASSWORD_BYTES ∧
      AllClasses (firstLine password) := by
  have hclasses : hasAllClasses password = true ↔ AllClasses (firstLine password) := by
    rw [allClasses_iff, ← and_assoc, ← Bool.and_eq_true, ← Bool.and_eq_true]
    rfl
  rw [passwordField, Bool.and_eq_true, Bool.and_eq_true, decide_eq_true_eq, decide_eq_true_eq,
    hclasses, and_assoc]

/-- The empty string is as good as none. -/
theorem truthy_eq_some {value : Option Text} {t : Text} :
    truthy value = some t ↔ value = some t ∧ t ≠ [] := by
  simp [truthy, Option.filter_eq_some_iff]

/-- The address of a good environment. -/
def adminEmail : Text := ofString "admin@example.com"

/-- It sets nothing else. -/
def environment (password : Text) : ProcessEnv
  | "ADMIN_EMAIL" => some adminEmail
  | "ADMIN_PASSWORD" => some password
  | _ => none

/-- What can be seeded. -/
structure WellFormed (credentials : AdminCredentials) : Prop where
  address : IsAddress credentials.email
  measured : Measured credentials.password
  named : credentials.name ≠ []

/-- **The seed** creates no account without an address, a name, or a password of its measures. -/
theorem wellFormed_of_readAdminCredentials {env : ProcessEnv} {credentials : AdminCredentials}
    (h : readAdminCredentials toLowerCase env = .ok credentials) :
    env "ADMIN_PASSWORD" = some credentials.password ∧ WellFormed credentials := by
  unfold readAdminCredentials at h
  dsimp only at h
  split at h
  · rename_i email password hemail hpassword
    split at h
    · cases h
    rename_i haddress
    split at h
    · cases h
    rename_i hunits
    split at h
    · cases h
    rename_i hbytes
    cases h
    rw [Bool.not_eq_true, Bool.not_eq_false'] at haddress
    refine ⟨(truthy_eq_some.mp hpassword).1, emailPattern_iff.mp haddress,
      ⟨Nat.not_lt.mp hunits, Nat.not_lt.mp hbytes⟩, ?_⟩
    show (truthy ((env "ADMIN_NAME").map trim)).getD (ofString "Administrator") ≠ []
    cases hname : truthy ((env "ADMIN_NAME").map trim) with
    | none => exact by decide +kernel
    | some name => exact (truthy_eq_some.mp hname).2
  · cases h

theorem trim_adminEmail : trim adminEmail = adminEmail := by decide +kernel

/-- The address of the examples has no upper case. -/
theorem adminEmail_ascii : (adminEmail.all fun u => u < 128 && !isUpper u) = true := by
  decide +kernel

theorem emailPattern_adminEmail : emailPattern.matchesStart adminEmail = true := by decide +kernel

/-- **The seed measures** and checks nothing else. -/
theorem seedAccepts_iff : SeedAccepts toLowerCase password ↔ Measured password := by
  constructor
  · rintro ⟨env, credentials, hpassword, h⟩
    obtain ⟨hread, hwellFormed⟩ := wellFormed_of_readAdminCredentials h
    rw [Option.some.inj (hpassword.symm.trans hread)]
    exact hwellFormed.measured
  · rintro ⟨hunits, hbytes⟩
    refine ⟨environment password, ⟨adminEmail, password, ofString "Administrator"⟩, rfl, ?_⟩
    have hemail : truthy ((environment password "ADMIN_EMAIL").map fun t =>
        toLowerCase.apply (trim t)) = some adminEmail := by
      show truthy (some (toLowerCase.apply (trim adminEmail))) = _
      rw [trim_adminEmail, toLowerCase.apply_ascii _ adminEmail_ascii]
      decide +kernel
    have hgiven : truthy (environment password "ADMIN_PASSWORD") = some password := by
      refine truthy_eq_some.mpr ⟨rfl, ?_⟩
      rintro rfl
      exact absurd hunits (by decide)
    simp only [readAdminCredentials, hemail, hgiven, emailPattern_adminEmail, Bool.not_true,
      Bool.false_eq_true, if_false]
    rw [if_neg (by omega), if_neg (by omega)]
    rfl

/-- **The frontend** measures, and looks for the classes anywhere. -/
theorem frontendAccepts_iff : FrontendAccepts password ↔ Measured password ∧ AllClasses password := by
  have hnone : ∀ (c : Prop) [Decidable c] (e : String) (o : Option String),
      (if c then some e else o) = none ↔ ¬ c ∧ o = none := fun c _ e o => by
    by_cases hc : c <;> simp [hc]
  have hfound : ∀ p : UInt16 → Bool,
      ¬ (!(RegExp.unit p).test password) = true ↔ password.any p = true := fun p => by
    rw [RegExp.test_unit, Bool.not_eq_true, Bool.not_eq_false']
  rw [FrontendAccepts, Frontend.validatePassword]
  simp only [hnone, hfound, and_true, Nat.not_lt]
  rw [allClasses_iff]
  constructor
  · rintro ⟨-, hunits, hbytes, hclasses⟩
    exact ⟨⟨hunits, hbytes⟩, hclasses⟩
  · rintro ⟨⟨hunits, hbytes⟩, hclasses⟩
    refine ⟨?_, hunits, hbytes, hclasses⟩
    rw [List.isEmpty_iff]
    rintro rfl
    exact absurd hunits (by decide)

end Accepts

/-! ## One policy -/

section Policy

variable {toLowerCase : LowerCase} {length : Text → Nat} {password : Text}

/-- What the seed or the frontend accepts, the API accepts. -/
structure OnePolicy (toLowerCase : LowerCase) (length : Text → Nat) (password : Text) : Prop where
  seed : SeedAccepts toLowerCase password → passwordField length password = true
  frontend : FrontendAccepts password → passwordField length password = true

/-- A text of 8 units and at most 72 bytes has 8 characters, too, and the classes on its first line. -/
def Agreed (length : Text → Nat) (password : Text) : Prop :=
  Measured password → 8 ≤ length password ∧ AllClasses (firstLine password)

/-- Where `Agreed` holds, and nowhere else, what the seed accepts the API accepts. -/
theorem seed_policy_iff : (SeedAccepts toLowerCase password → passwordField length password = true) ↔
    Agreed length password := by
  rw [seedAccepts_iff, passwordField_iff]
  constructor
  · intro h hmeasured
    obtain ⟨hlength, -, hclasses⟩ := h hmeasured
    exact ⟨hlength, hclasses⟩
  · intro h hmeasured
    obtain ⟨hlength, hclasses⟩ := h hmeasured
    exact ⟨hlength, hmeasured.bytes, hclasses⟩

/-- The frontend's texts have the classes already: they must not stand behind a line terminator. -/
theorem frontend_policy_iff : (FrontendAccepts password → passwordField length password = true) ↔
    (AllClasses password → Agreed length password) := by
  rw [frontendAccepts_iff, passwordField_iff]
  constructor
  · intro h hclasses hmeasured
    obtain ⟨hlength, -, hfirst⟩ := h ⟨hmeasured, hclasses⟩
    exact ⟨hlength, hfirst⟩
  · rintro h ⟨hmeasured, hclasses⟩
    obtain ⟨hlength, hfirst⟩ := h hclasses hmeasured
    exact ⟨hlength, hmeasured.bytes, hfirst⟩

/-- The three rules are nested: the API's is the strictest, -/
theorem frontendAccepts_of_passwordField (hlength : length password ≤ password.length)
    (h : passwordField length password = true) : FrontendAccepts password := by
  obtain ⟨hcount, hbytes, hclasses⟩ := passwordField_iff.mp h
  have hline : ∀ u ∈ firstLine password, u ∈ password := (List.takeWhile_sublist _).subset
  exact frontendAccepts_iff.mpr ⟨⟨Nat.le_trans hcount hlength, hbytes⟩, hclasses.mono hline⟩

/-- and the seed's the loosest. -/
theorem seedAccepts_of_frontendAccepts (h : FrontendAccepts password) :
    SeedAccepts toLowerCase password :=
  seedAccepts_iff.mpr (frontendAccepts_iff.mp h).1

/-- On one line, and where every unit is a character, the frontend is the API. -/
theorem frontendAccepts_iff_passwordField (hline : firstLine password = password)
    (hlength : length password = password.length) :
    FrontendAccepts password ↔ passwordField length password = true := by
  refine ⟨fun h => ?_, frontendAccepts_of_passwordField (Nat.le_of_eq hlength)⟩
  obtain ⟨hmeasured, hclasses⟩ := frontendAccepts_iff.mp h
  rw [passwordField_iff, hline, hlength]
  exact ⟨hmeasured.units, hmeasured.bytes, hclasses⟩

/-- **There is one policy** for a text if and only if the seed's measures already leave it 8 characters
    and the three classes on its first line. -/
theorem onePolicy_iff (toLowerCase : LowerCase) (length : Text → Nat) (password : Text) :
    OnePolicy toLowerCase length password ↔ Agreed length password := by
  constructor
  · exact fun h => seed_policy_iff.mp h.seed
  · exact fun h => ⟨seed_policy_iff.mpr h, frontend_policy_iff.mpr fun _ => h⟩

end Policy

/-! ## Texts that the API refuses -/

/-- `toLowerCase` on ASCII. -/
def asciiLowerCase : LowerCase where
  apply t := t.map fun u => if isUpper u then u + 32 else u
  apply_ascii t h := by
    rw [List.all_eq_true] at h
    refine (List.map_congr_left fun u hu => ?_).trans (List.map_id t)
    have hsmall := h u hu
    rw [Bool.and_eq_true, Bool.not_eq_true'] at hsmall
    rw [hsmall.2]
    rfl

/-- A surrogate pair is one character. -/
def characters (t : Text) : Nat := (chars t).length

/-- A password that the seed takes and the API refuses. -/
def lowerOnly : Text := ofString "aaaaaaaa"

/-- 9 units, 6 characters. -/
def threeEmoji : Text := ofString "Aa1" ++ [0xD83D, 0xDE00, 0xD83D, 0xDE00, 0xD83D, 0xDE00]

/-- The seed lets through what has one class; the frontend what has six characters, and what has its
    classes on the second line. -/
theorem not_onePolicy :
    (¬ ∀ password, SeedAccepts asciiLowerCase password → passwordField characters password = true) ∧
      ¬ ∀ password, FrontendAccepts password → passwordField characters password = true := by
  constructor
  · intro hall
    have hseed : SeedAccepts asciiLowerCase lowerOnly :=
      seedAccepts_iff.mpr ⟨by decide +kernel, by decide +kernel⟩
    exact absurd (hall lowerOnly hseed) (by decide +kernel)
  · intro hall
    have hfrontend : FrontendAccepts threeEmoji := by
      show Frontend.validatePassword threeEmoji = none
      decide +kernel
    exact absurd (hall threeEmoji hfrontend) (by decide +kernel)

example : Frontend.validatePassword (ofString "\nAa1xxxxx") = none ∧
    passwordField characters (ofString "\nAa1xxxxx") = false := by
  decide +kernel

end SmartPatents.PasswordPolicy
