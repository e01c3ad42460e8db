/-
  Which texts open an account (`passwordField`, `loginValidation`, `changePasswordValidation`,
  `hashPassword`, `verifyPassword`).

  bcrypt reads 72 bytes.  The limit is enforced where a password is SET, because two long passwords
  that agree that far would authenticate interchangeably.  Where a password is CHECKED nothing limits
  it, and a password of exactly 72 bytes opens to everything that it begins.

  The bytes are those of the UTF-8 encoding, which reads an unpaired surrogate as U+FFFD.  So a
  password with one of the two opens to another text as well.  Every other password opens to itself
  only: `onlyPassword_iff`.

  `bcrypt` is a parameter with one law: a comparison succeeds if and only if the first 72 bytes of
  both texts agree.  So `verify_iff` turns the question into one about bytes, and `Lib.Utf16`
  answers it: which other texts have the same bytes, or the same first 72.

  The equivalence is for each registered password, over every text that can be presented at a
  login or as the current password of a change.
-/
import SmartPatents.Lib.Utf16

namespace SmartPatents.Passwords

open Utf16

/-- `MAX_PASSWORD_BYTES`: bcrypt reads no further. -/
def MAX_PASSWORD_BYTES : Nat := 72

/-! ## The validators -/

/-- What `.` of a pattern does not match. -/
def isLineTerminator (u : UInt16) : Bool := u == 10 || u == 13 || u == 0x2028 || u == 0x2029

/-- `/^(?=.*[a-z])(?=.*[A-Z])(?=.*\d)/`. -/
def hasAllClasses (text : Text) : Bool :=
  -- the lookaheads see the first line only
  let line := text.takeWhile fun u => !isLineTerminator u
  line.any (fun u => 97 ≤ u && u ≤ 122) && line.any (fun u => 65 ≤ u && u ≤ 90) &&
    line.any fun u => 48 ≤ u && u ≤ 57

/-- `passwordField` on a string; `length` is how validator.js counts characters. -/
def passwordField (length : Text → Nat) (password : Text) : Bool :=
  8 ≤ length password && byteLength password ≤ MAX_PASSWORD_BYTES && hasAllClasses password

/-- The `password` of `loginValidation`. -/
def loginPassword (password : Text) : Bool := !password.isEmpty

/-- The body of PUT /users/me/password. -/
structure ChangePasswordBody where
  currentPassword : Text
  newPassword : Text

/-- `changePasswordValidation`. Only the new password is measured. -/
def changePasswordValidation (length : Text → Nat) (body : ChangePasswordBody) : Bool :=
  !body.currentPassword.isEmpty && passwordField length body.newPassword &&
    body.newPassword != body.currentPassword

/-! ## The hash -/

/-- bcrypt: a comparison sees 72 bytes of either password. -/
structure Bcrypt (H : Type) where
  hash : Nat → Text → H
  compare : Text → H → Bool
  compare_hash : ∀ salt p q,
    compare q (hash salt p) = true ↔ (bytes q).take 72 = (bytes p).take 72

variable {H : Type}

/-- `hashPassword`; the salt is what bcrypt draws. -/
def hashPassword (bcrypt : Bcrypt H) (salt : Nat) (plain : Text) : H := bcrypt.hash salt plain

/-- `verifyPassword`. -/
def verifyPassword (bcrypt : Bcrypt H) (plain : Text) (hash : H) : Bool := bcrypt.compare plain hash

/-- A text that reaches the comparison, at login or as the current password. -/
def Presented (length : Text → Nat) (q : Text) : Prop :=
  loginPassword q = true ∨
    ∃ newPassword, changePasswordValidation length ⟨q, newPassword⟩ = true

/-- The registered password, and nothing else that can be presented, passes the comparison. -/
def OnlyPassword (bcrypt : Bcrypt H) (length : Text → Nat) (salt : Nat) (p : Text) : Prop :=
  ∀ q, Presented length q → (verifyPassword bcrypt q (hashPassword bcrypt salt p) = true ↔ q = p)

variable {bcrypt : Bcrypt H} {length : Text → Nat} {salt : Nat} {p q : Text}

/-- A password is verified when its first 72 bytes are right. -/
theorem verify_iff : verifyPassword bcrypt q (hashPassword bcrypt salt p) = true ↔
    (bytes q).take 72 = (bytes p).take 72 :=
  bcrypt.compare_hash salt p q

/-- Every password but the empty one can be presented. -/
theorem presented_of_ne_nil (h : q ≠ []) : Presented length q := by
  refine Or.inl ?_
  rw [loginPassword, Bool.not_eq_true', List.isEmpty_eq_false_iff]
  exact h

/-- Behind 72 bytes anything may follow. -/
theorem verify_append (hfull : byteLength p = MAX_PASSWORD_BYTES) :
    verifyPassword bcrypt (p ++ [97]) (hashPassword bcrypt salt p) = true := by
  have hbytes : bytes (p ++ [97]) = bytes p ++ [97] := by
    rw [bytes, chars_concat p rfl, List.flatMap_append]
    rfl
  have hlen : (bytes p).length = 72 := hfull
  rw [verify_iff, hbytes, List.take_append_of_le_length (Nat.le_of_eq hlen.symm)]

/-- Below 72 bytes the comparison sees everything. -/
theorem bytes_of_verify (hshort : byteLength p < MAX_PASSWORD_BYTES)
    (h : verifyPassword bcrypt q (hashPassword bcrypt salt p) = true) : bytes q = bytes p := by
  have hp : (bytes p).length < 72 := hshort
  rw [verify_iff, List.take_of_length_le (Nat.le_of_lt hp)] at h
  have hlen := congrArg List.length h
  rw [List.length_take] at hlen
  rwa [List.take_of_length_le (by omega)] at h

/-- **Only the registered password logs in** if and only if it is shorter than 72 bytes and has no
    U+FFFD and no unpaired surrogate. -/
theorem onlyPassword_iff (bcrypt : Bcrypt H) (salt : Nat) (hp : passwordField length p = true) :
    OnlyPassword bcrypt length salt p ↔
      byteLength p < MAX_PASSWORD_BYTES ∧ replacement ∉ chars p := by
  simp only [passwordField, Bool.and_eq_true, decide_eq_true_eq] at hp
  constructor
  · intro honly
    constructor
    · refine Nat.lt_of_le_of_ne hp.1.2 fun hfull => ?_
      have hsame := (honly (p ++ [97]) (presented_of_ne_nil (by simp))).mp (verify_append hfull)
      exact absurd (congrArg List.length hsame) (by simp)
    · intro hmem
      obtain ⟨q, hne, hchars⟩ := exists_other_of_replacement hmem
      have hq : q ≠ [] := by
        rintro rfl
        rw [← hchars] at hmem
        exact absurd hmem List.not_mem_nil
      refine hne ((honly q (presented_of_ne_nil hq)).mp ?_)
      rw [verify_iff, bytes_congr hchars]
  · rintro ⟨hshort, hclean⟩ q _
    refine ⟨fun h => eq_of_chars hclean (chars_of_bytes (bytes_of_verify hshort h)), ?_⟩
    rintro rfl
    exact verify_iff.mpr rfl

/-! ## A password of 72 bytes -/

/-- The hash that keeps what bcrypt reads. -/
def truncating : Bcrypt (List UInt8) where
  hash _ p := (bytes p).take 72
  compare q hash := (bytes q).take 72 == hash
  compare_hash _ _ _ := beq_iff_eq

/-- 69 letters after the three classes. -/
def fullPassword : Text := ofString "Aa1" ++ List.replicate 69 120

/-- A password that fits. -/
def shortPassword : Text := ofString "Secret123"

/-- A password that fits is the only one. -/
theorem onlyPassword_iff_short : OnlyPassword truncating List.length 0 shortPassword ↔
    byteLength shortPassword < MAX_PASSWORD_BYTES ∧ replacement ∉ chars shortPassword :=
  onlyPassword_iff truncating 0 (by decide +kernel)

/-- The API accepts a password of 72 bytes. -/
theorem passwordField_full : passwordField List.length fullPassword = true := by
  decide +kernel

/-- It opens with one more letter, too. -/
theorem not_onlyPassword :
    ¬ ∀ p, passwordField List.length p = true → OnlyPassword truncating List.length 0 p := by
  intro hall
  have hopen := (hall fullPassword passwordField_full (fullPassword ++ [97])
    (presented_of_ne_nil (by simp))).mp (verify_append (by decide +kernel))
  exact absurd (congrArg List.length hopen) (by simp)

end SmartPatents.Passwords
