/-
  The page numbers of `GET /patents`, `GET /inventors` and `GET /users`: `listPatentsValidation`,
  `searchValidation` and `listUsersValidation`, and the `skip` of `listPatents`, `listInventors` and
  `listUsers`.

  `limit` is at most 100, but `page` has a lower bound only, and `toInt` makes a double of however many
  digits there are.  So `skip = (page - 1) * limit` leaves the integers that doubles tell apart from
  page 1 + 2^53 / limit on, then those of a 64-bit OFFSET, and in the end it is an infinity.  Ids had the
  same fault, "surfacing as a 500 for what is plainly a bad request", and are bounded for it.

  A parameter that is given twice arrives as an array.  The chains check and convert each item; in the
  service the array is `NaN`, unless it has one item.

  What else the three validations check does not touch the numbers, and is left out.

  The numbers are those of the language, so the arithmetic is that of `Lib.Doubles` and
  `Lib.Arithmetic`.  `InRange` says what the service is after: `skip` is `(page - 1) * limit` as
  whole numbers, and doubles tell it from its neighbours.  `SmallPage` is the condition on the
  query string, in the numbers that it spells.  `inRange_iff` has both directions for each of the
  three routes; the six chains are two, `pageChain` and `limitChain`, and the services one,
  `window`.

  `take` is handed to the driver as it is.  An array of one item is a number in arithmetic and no
  number for the driver, so such a request fails later; the theorem is about `skip`.
-/
import SmartPatents.Lib.Arithmetic
import SmartPatents.Reads

namespace SmartPatents.PageNumbers

open Doubles

/-! ## The query string -/

/-- A parameter of the query string, once or several times; a single one is a text or an object. -/
inductive Param (V : Type)
  | single (v : V)
  | array (first : V) (rest : List V)

variable {V W : Type}

/-- The values of a parameter, in the order of the query string. -/
def Param.items : Param V → List V
  | .single v => [v]
  | .array first rest => first :: rest

/-- A sanitiser runs on every item and leaves the shape alone. -/
def Param.map (f : V → W) : Param V → Param W
  | .single v => .single (f v)
  | .array first rest => .array (f first) (rest.map f)

/-- A value in arithmetic.  An array is read as its text: that of one number is the number, in that of
    several there are commas. -/
def Param.toNumber : Param Number → Number
  | .single x => x
  | .array x [] => x
  | .array _ (_ :: _) => .nan

/-- The part of `req.query` that the numbers are read from; `none` is a parameter that is absent. -/
structure PageQuery (V : Type) where
  page : Option (Param V)
  limit : Option (Param V)

/-- What the service finds in `req.query`. -/
structure Numbers where
  page : Option (Param Number)
  limit : Option (Param Number)

/-! ## The validations -/

/-- The integer that `[-+]?[0-9]+` spells. -/
def integerOf (text : String) : Option Int := Numeral.exponent text.toList

/-- What the chains call of the library.  `isInt` compares doubles, which is exact for bounds below
    2^53; `toInt` is `parseInt(text, 10)`. -/
structure Validator (V : Type) where
  toString : V → String
  isInt : Nat → Option Nat → String → Bool
  toInt : String → Number
  isInt_iff : ∀ min max text, min < 2 ^ 53 → (∀ m ∈ max, m < 2 ^ 53) →
    (isInt min max text = true ↔
      ∃ n : Int, integerOf text = some n ∧ min ≤ n ∧ ∀ m ∈ max, n ≤ (m : Nat))
  toInt_eq : ∀ text n, integerOf text = some n → toInt text = ofRat n

/-- One entry of the errors of a chain, as a 400 lists them. -/
structure FieldError where
  field : String
  message : String
deriving DecidableEq

/-- `query(field).optional().isInt({ min, max }).withMessage(message).toInt()`. -/
structure IntChain where
  field : String
  min : Nat
  max : Option Nat
  message : String

/-- One error for each item. -/
def IntChain.errors (validator : Validator V) (chain : IntChain) : Option (Param V) → List FieldError
  | none => []
  | some p =>
    (p.items.filter fun v => !validator.isInt chain.min chain.max (validator.toString v)).map
      fun _ => ⟨chain.field, chain.message⟩

/-- `toInt()` on what the client sent: each value becomes a text, and the text a number. -/
def sanitise (validator : Validator V) (value : Option (Param V)) : Option (Param Number) :=
  value.map fun p => p.map fun v => validator.toInt (validator.toString v)

/-- The two chains and `handleValidationErrors`. -/
def validate (page limit : IntChain) (validator : Validator V) (query : PageQuery V) :
    Except (List FieldError) Numbers :=
  match page.errors validator query.page ++ limit.errors validator query.limit with
  | [] => .ok ⟨sanitise validator query.page, sanitise validator query.limit⟩
  | errors => .error errors

/-- The two chains of `listPatentsValidation`. -/
def listPatentsValidation : Validator V → PageQuery V → Except (List FieldError) Numbers :=
  validate ⟨"page", 1, none, "Page must be a positive integer"⟩
    ⟨"limit", 1, some 100, "Limit must be between 1 and 100"⟩

/-- The two chains of `searchValidation`, for the inventors. -/
def searchValidation : Validator V → PageQuery V → Except (List FieldError) Numbers :=
  validate ⟨"page", 1, none, "Page must be a positive integer"⟩
    ⟨"limit", 1, some 100, "Limit must be between 1 and 100"⟩

/-- The two chains of `listUsersValidation`. -/
def listUsersValidation : Validator V → PageQuery V → Except (List FieldError) Numbers :=
  validate ⟨"page", 1, none, "Page must be a positive integer"⟩
    ⟨"limit", 1, some 100, "Limit must be between 1 and 100"⟩

/-! ## The services -/

/-- A literal of the source. -/
def literal (n : Nat) : Number := ofRat n

/-- What a service takes out of its arguments, and asks the database for.  `limit` is the number that
    it hands over as `take`; an array with one item is a number in the product, but as a `take` the
    driver refuses it. -/
structure Window where
  page : Number
  limit : Number
  skip : Number

/-- An argument with a default. -/
def argument (default : Nat) (value : Option (Param Number)) : Number :=
  (value.map Param.toNumber).getD (literal default)

/-- `({ page = …, limit = … })` and `skip: (page - 1) * limit`. -/
def window (page limit : Nat) (numbers : Numbers) : Window :=
  let page := argument page numbers.page
  let limit := argument limit numbers.limit
  ⟨page, limit, (page.sub (literal 1)).mul limit⟩

/-- The defaults of `listPatents`. -/
def listPatents : Numbers → Window := window 1 20

/-- The defaults of `listInventors`. -/
def listInventors : Numbers → Window := window 1 20

/-- The defaults of `listUsers`. -/
def listUsers : Numbers → Window := window 1 20

/-- An OFFSET or a LIMIT, a 64-bit integer; everything else is an error of the driver. -/
def bigint : Number → Option Nat
  | .finite x =>
    if x.value.den = 1 ∧ 0 ≤ x.value.num ∧ x.value.num < 2 ^ 63 then some x.value.num.toNat else none
  | _ => none

/-- `findMany({ skip, take })` on sorted rows; `none` ends in a 500. -/
def findMany {R : Type} (w : Window) (rows : List R) : Option (List R) :=
  match bigint w.skip, bigint w.limit with
  | some skip, some take => some ((rows.drop skip).take take)
  | _, _ => none

/-! ## The three routes -/

/-- The three listings that take a page. -/
inductive Route
  | patents
  | inventors
  | users

/-- The chains in front of a listing. -/
def Route.validation : Route → Validator V → PageQuery V → Except (List FieldError) Numbers
  | .patents => listPatentsValidation
  | .inventors => searchValidation
  | .users => listUsersValidation

/-- What a listing hands to the database. -/
def Route.service : Route → Numbers → Window
  | .patents => listPatents
  | .inventors => listInventors
  | .users => listUsers

/-- `skip` is `(page - 1) * limit`, and small enough for doubles to tell it from its neighbours. -/
def InRange (w : Window) : Prop :=
  ∃ page limit : Nat, 1 ≤ page ∧ w.page.Is page ∧ w.limit.Is limit ∧
    (page - 1) * limit ≤ 2 ^ 53 - 1 ∧ w.skip.Is ((page - 1) * limit : Nat)

/-- A whole number in range is bound as itself. -/
theorem bigint_of_is {x : Number} {n : Nat} (h : x.Is n) (hn : n < 2 ^ 63) : bigint x = some n := by
  obtain ⟨d, rfl, hd⟩ := h
  rw [bigint, hd, Rat.num_natCast, Rat.den_natCast, if_pos ⟨rfl, by omega, by exact_mod_cast hn⟩,
    Int.toNat_natCast]

/-- A window of 64-bit integers is a page of the listing. -/
theorem findMany_eq {R : Type} {w : Window} {page limit : Nat} (hlimit : w.limit.Is limit)
    (hskip : w.skip.Is ((page - 1) * limit : Nat)) (hlimit' : limit < 2 ^ 63)
    (hskip' : (page - 1) * limit < 2 ^ 63) (rows : List R) :
    findMany w rows = some (Reads.slice page limit rows) := by
  rw [findMany, bigint_of_is hlimit hlimit', bigint_of_is hskip hskip']
  rfl

/-! ## Arithmetic -/

section Skip

variable {page limit : Nat}

/-- A literal of the source is the number it says. -/
theorem literal_is {n : Nat} (h : n ≤ 2 ^ 53) : (literal n).Is n := ofRat_natCast h

/-- Up to 2^53 the page loses nothing on the way. -/
theorem skip_eq {x : Number} (hx : x.Is page) (hpage : 1 ≤ page) (hpage' : page ≤ 2 ^ 53)
    (hlimit : limit ≤ 2 ^ 53) :
    (x.sub (literal 1)).mul (ofRat limit) = ofRat ((page - 1) * limit : Nat) := by
  have hsub : (x.sub (literal 1)).Is (page - 1 : Nat) := by
    rw [hx.sub (literal_is (by decide)), ← Nat.cast_sub hpage]
    exact ofRat_natCast (by omega)
  rw [hsub.mul (ofRat_natCast hlimit), ← Nat.cast_mul]

/-- Up to 2^53 the arithmetic of `skip` is exact. -/
theorem skip_exact (hpage : 1 ≤ page) (hlimit : 1 ≤ limit) (hlimit' : limit ≤ 2 ^ 53)
    (hsmall : (page - 1) * limit ≤ 2 ^ 53 - 1) : (ofRat page).Is page ∧
      (((ofRat page).sub (literal 1)).mul (ofRat limit)).Is ((page - 1) * limit : Nat) := by
  have hle : page - 1 ≤ (page - 1) * limit := Nat.le_mul_of_pos_right _ hlimit
  have hpage' : page ≤ 2 ^ 53 := by omega
  have his : (ofRat page).Is page := ofRat_natCast hpage'
  refine ⟨his, ?_⟩
  rw [skip_eq his hpage hpage' hlimit']
  exact ofRat_natCast (by omega)

/-- `toInt` takes 2^53 + 1 for 2^53. -/
theorem ofRat_first : (ofRat ((2 ^ 53 + 1 : Nat) : ℚ)).Is (2 ^ 53 : Nat) := by
  have h := ofRat_tie
  rwa [Nat.cast_add, Nat.cast_pow, Nat.cast_ofNat, Nat.cast_one]

/-- A skip from 2^53 on stays there, except where `toInt` has taken 2^53 + 1 for 2^53. -/
theorem skip_large (hlimit : 1 ≤ limit) (hlimit' : limit ≤ 2 ^ 53)
    (hlarge : 2 ^ 53 ≤ (page - 1) * limit) (htie : ¬ (page = 2 ^ 53 + 1 ∧ limit = 1)) :
    (((ofRat page).sub (literal 1)).mul (ofRat limit)).AtLeast (2 ^ 53 : Nat) := by
  rcases Nat.lt_trichotomy page (2 ^ 53 + 1) with hpage | rfl | hpage
  · -- the page is exact
    have hpos : 1 ≤ page := by
      by_contra hzero
      rw [Nat.sub_eq_zero_of_le (by omega), Nat.zero_mul] at hlarge
      exact absurd hlarge (by decide)
    rw [skip_eq (ofRat_natCast (by omega)) hpos (by omega) hlimit']
    exact atLeast_ofRat_natCast (k := 2 ^ 53) (Nat.le_refl _) (Nat.cast_le.mpr hlarge)
  · rw [skip_eq ofRat_first (by decide) (Nat.le_refl _) hlimit']
    have htwo : 2 ≤ limit := by omega
    have hdouble : 2 ^ 53 ≤ (2 ^ 53 - 1) * limit :=
      Nat.le_trans (by decide) (Nat.mul_le_mul_left _ htwo)
    exact atLeast_ofRat_natCast (k := 2 ^ 53) (Nat.le_refl _) (Nat.cast_le.mpr hdouble)
  · -- the next double is 2^53 + 2
    have hlimit₁ : (1 : ℚ) ≤ limit := by exact_mod_cast hlimit
    have hsub : ((ofRat page).sub (literal 1)).AtLeast (2 ^ 53 : Nat) := by
      refine (atLeast_ofRat_next hpage).sub (literal_is (n := 1) (by decide)) (Nat.le_refl _) ?_
      push_cast
      linarith
    refine hsub.mul (ofRat_natCast hlimit') (Nat.le_refl _) (Nat.cast_pos.mpr hlimit) ?_
    exact le_mul_of_one_le_right (Nat.cast_nonneg _) hlimit₁

end Skip

/-! ## What is accepted -/

/-- The parameter says `n`: it is not there and `n` is the default, or it is there once. -/
def Spells (validator : Validator V) (default : Nat) : Option (Param V) → Nat → Prop
  | none, n => n = default
  | some p, n => ∃ v, p.items = [v] ∧ integerOf (validator.toString v) = some (n : Int)

/-- The page that the query string asks for lies in range, or is the one that `toInt` takes for its
    neighbour. -/
def SmallPage (validator : Validator V) (query : PageQuery V) : Prop :=
  ∃ page limit : Nat, Spells validator 1 query.page page ∧ Spells validator 20 query.limit limit ∧
    ((page - 1) * limit ≤ 2 ^ 53 - 1 ∨ page = 2 ^ 53 + 1 ∧ limit = 1)

section Accepted

variable {validator : Validator V} {chain : IntChain} {value : Option (Param V)} {default : Nat}
  {query : PageQuery V} {numbers : Numbers} {route : Route}

/-- A parameter spells one number at most. -/
theorem Spells.unique {n m : Nat} (hn : Spells validator default value n)
    (hm : Spells validator default value m) : n = m := by
  cases value with
  | none => exact hn.trans hm.symm
  | some p =>
    obtain ⟨v, hv, hvn⟩ := hn
    obtain ⟨w, hw, hwm⟩ := hm
    cases hv.symm.trans hw
    exact Int.ofNat.inj (Option.some.inj (hvn.symm.trans hwm))

/-- The bounds of a chain lie below 2^53, and around the default. -/
structure Bounds (chain : IntChain) (default : Nat) : Prop where
  min_lt : chain.min < 2 ^ 53
  max_lt : ∀ m ∈ chain.max, m < 2 ^ 53
  min_le : chain.min ≤ default
  le_max : ∀ m ∈ chain.max, default ≤ m

/-- Every item of an accepted parameter is a natural number in the bounds. -/
theorem item_of_accepted (hbounds : Bounds chain default) {p : Param V} {v : V}
    (h : chain.errors validator (some p) = []) (hv : v ∈ p.items) :
    ∃ n : Nat, integerOf (validator.toString v) = some (n : Int) ∧ chain.min ≤ n ∧
      ∀ m ∈ chain.max, n ≤ m := by
  rw [IntChain.errors, List.map_eq_nil_iff, List.filter_eq_nil_iff] at h
  have hint := h v hv
  rw [Bool.not_eq_true, Bool.not_eq_false',
    validator.isInt_iff _ _ _ hbounds.min_lt hbounds.max_lt] at hint
  obtain ⟨n, hn, hmin, hmax⟩ := hint
  obtain ⟨k, rfl⟩ := Int.eq_ofNat_of_zero_le (Int.le_trans (Int.natCast_nonneg _) hmin)
  exact ⟨k, hn, Int.ofNat_le.mp hmin, fun m hm => Int.ofNat_le.mp (hmax m hm)⟩

/-- **An accepted parameter** is the number that it says, or `NaN` where it is given several times. -/
theorem argument_cases (hbounds : Bounds chain default) (h : chain.errors validator value = []) :
    (∃ n : Nat, Spells validator default value n ∧ chain.min ≤ n ∧ (∀ m ∈ chain.max, n ≤ m) ∧
      argument default (sanitise validator value) = ofRat n) ∨
    ((∀ n, ¬ Spells validator default value n) ∧
      argument default (sanitise validator value) = .nan) := by
  have hsingle : ∀ v : V, (∃ n : Nat, integerOf (validator.toString v) = some (n : Int) ∧
      chain.min ≤ n ∧ ∀ m ∈ chain.max, n ≤ m) → ∀ p : Param V, p.items = [v] →
      ∃ n : Nat, Spells validator default (some p) n ∧ chain.min ≤ n ∧ (∀ m ∈ chain.max, n ≤ m) ∧
        validator.toInt (validator.toString v) = ofRat n := by
    rintro v ⟨n, hn, hmin, hmax⟩ p hp
    exact ⟨n, ⟨v, hp, hn⟩, hmin, hmax, validator.toInt_eq _ _ hn⟩
  match value with
  | none => exact Or.inl ⟨default, rfl, hbounds.min_le, hbounds.le_max, rfl⟩
  | some (.single v) =>
    exact Or.inl (hsingle v (item_of_accepted hbounds h (List.mem_singleton.mpr rfl)) _ rfl)
  | some (.array v []) =>
    exact Or.inl (hsingle v (item_of_accepted hbounds h (List.mem_singleton.mpr rfl)) _ rfl)
  | some (.array v (w :: rest)) =>
    refine Or.inr ⟨?_, rfl⟩
    rintro n ⟨u, hu, -⟩
    cases hu

/-- A query that passes has no error in either chain, and its numbers are handed on. -/
theorem validate_ok {page limit : IntChain} (h : validate page limit validator query = .ok numbers) :
    page.errors validator query.page = [] ∧ limit.errors validator query.limit = [] ∧
      numbers = ⟨sanitise validator query.page, sanitise validator query.limit⟩ := by
  unfold validate at h
  split at h
  · rename_i hnil
    obtain ⟨hpage, hlimit⟩ := List.append_eq_nil_iff.mp hnil
    exact ⟨hpage, hlimit, (Except.ok.inj h).symm⟩
  · cases h

/-- The chain of `page`, the same in all three validations: a lower bound and nothing above. -/
def pageChain : IntChain := ⟨"page", 1, none, "Page must be a positive integer"⟩

/-- The chain of `limit`, the same in all three validations. -/
def limitChain : IntChain := ⟨"limit", 1, some 100, "Limit must be between 1 and 100"⟩

/-- The default page is 1. -/
theorem pageChain_bounds : Bounds pageChain 1 where
  min_lt := by decide
  max_lt := by decide
  min_le := Nat.le_refl 1
  le_max := by decide

/-- The default limit is within its own bounds. -/
theorem limitChain_bounds : Bounds limitChain 20 where
  min_lt := by decide
  max_lt := by decide
  min_le := by decide
  le_max := by decide

/-- The three validations are one, and so are the three windows. -/
theorem Route.validation_eq (route : Route) :
    route.validation validator query = validate pageChain limitChain validator query := by
  cases route <;> rfl

/-- The three services compute the same. -/
theorem Route.service_eq (route : Route) : route.service numbers = window 1 20 numbers := by
  cases route <;> rfl

/-- On a small page the numbers are right. -/
theorem inRange_of_smallPage (h : route.validation validator query = .ok numbers)
    (hsmall : SmallPage validator query) : InRange (route.service numbers) := by
  rw [route.validation_eq] at h
  obtain ⟨hpage, hlimit, rfl⟩ := validate_ok h
  obtain ⟨page, limit, hspage, hslimit, harith⟩ := hsmall
  rw [route.service_eq]
  rcases argument_cases pageChain_bounds hpage with ⟨n, hn, hmin, -, hargPage⟩ | ⟨hnone, -⟩
  case inr => exact absurd hspage (hnone page)
  rcases argument_cases limitChain_bounds hlimit with ⟨m, hm, hmin', hmax, hargLimit⟩ | ⟨hnone, -⟩
  case inr => exact absurd hslimit (hnone limit)
  obtain rfl := hspage.unique hn
  obtain rfl := hslimit.unique hm
  have hlimit' : limit ≤ 2 ^ 53 := Nat.le_trans (hmax 100 rfl) (by decide)
  unfold InRange window
  dsimp only
  rw [hargPage, hargLimit]
  rcases harith with hle | ⟨rfl, rfl⟩
  · obtain ⟨his, hskip⟩ := skip_exact hmin hmin' hlimit' hle
    exact ⟨page, limit, hmin, his, ofRat_natCast hlimit', hle, hskip⟩
  · refine ⟨2 ^ 53, 1, by decide, ofRat_first, ofRat_natCast hlimit', by decide, ?_⟩
    rw [skip_eq ofRat_first (by decide) (Nat.le_refl _) hlimit']
    exact ofRat_natCast (by decide)

/-- On any other they are not: rounding moves `skip`, or the database refuses it. -/
theorem smallPage_of_inRange (h : route.validation validator query = .ok numbers)
    (hrange : InRange (route.service numbers)) : SmallPage validator query := by
  rw [route.validation_eq] at h
  obtain ⟨hpage, hlimit, rfl⟩ := validate_ok h
  rw [route.service_eq] at hrange
  obtain ⟨p, l, -, hp, hl, hsmall, hskip⟩ := hrange
  unfold window at hp hl hskip
  dsimp only at hp hl hskip
  have hnan : ∀ q, ¬ Number.nan.Is q := by
    rintro q ⟨d, hd, -⟩
    cases hd
  rcases argument_cases pageChain_bounds hpage with ⟨page, hspage, -, -, hargPage⟩ | ⟨-, hargPage⟩
  case inr => exact absurd (hargPage ▸ hp) (hnan _)
  rcases argument_cases limitChain_bounds hlimit with
    ⟨limit, hslimit, hmin, hmax, hargLimit⟩ | ⟨-, hargLimit⟩
  case inr => exact absurd (hargLimit ▸ hl) (hnan _)
  refine ⟨page, limit, hspage, hslimit, ?_⟩
  by_contra hlarge
  rw [not_or, Nat.not_le] at hlarge
  -- the skip is at least 2^53, and at most 2^53 - 1
  have hlimit' : limit ≤ 2 ^ 53 := Nat.le_trans (hmax 100 rfl) (by decide)
  have hatLeast := skip_large hmin hlimit' (by omega) hlarge.2
  rw [← hargPage, ← hargLimit] at hatLeast
  have hle := Nat.cast_le.mp (hatLeast.le hskip)
  omega

/-- What is in range is answered with its page of the rows. -/
theorem findMany_of_inRange {R : Type} (h : route.validation validator query = .ok numbers)
    (hrange : InRange (route.service numbers)) (rows : List R) :
    ∃ page limit : Nat, (route.service numbers).page.Is page ∧
      (route.service numbers).limit.Is limit ∧
        findMany (route.service numbers) rows = some (Reads.slice page limit rows) := by
  obtain ⟨page, limit, -, hp, hl, hsmall, hskip⟩ := hrange
  refine ⟨page, limit, hp, hl, findMany_eq hl hskip ?_ (by omega) rows⟩
  rw [route.validation_eq] at h
  obtain ⟨-, hlimit, rfl⟩ := validate_ok h
  rw [route.service_eq] at hl
  rcases argument_cases limitChain_bounds hlimit with ⟨m, -, -, hmax, harg⟩ | ⟨-, harg⟩
  · have hm : m ≤ 100 := hmax 100 rfl
    have hargIs : (argument 20 (sanitise validator query.limit)).Is m := by
      rw [harg]
      exact ofRat_natCast (Nat.le_trans hm (by decide))
    have heq : limit = m := Nat.cast_injective (hl.unique hargIs)
    omega
  · obtain ⟨d, hd, -⟩ := hl
    cases harg.symm.trans hd

/-- **Page numbers stay in range** if and only if page and limit are given once at most and the page is
    at most `1 + (2 ^ 53 - 1) / limit`, or it is 2^53 + 1 with one row to a page. -/
theorem inRange_iff (h : route.validation validator query = .ok numbers) :
    InRange (route.service numbers) ↔ SmallPage validator query :=
  ⟨smallPage_of_inRange h, inRange_of_smallPage h⟩

end Accepted

/-! ## Page 9223372036854775808 -/

/-- The library on parameters that are texts. -/
def standard : Validator String where
  toString := id
  isInt min max text :=
    match integerOf text with
    | some n => (min : Int) ≤ n && max.all fun m => n ≤ (m : Int)
    | none => false
  toInt text :=
    match integerOf text with
    | some n => ofRat n
    | none => .nan
  isInt_iff min max text _ _ := by
    cases integerOf text with
    | none => simp
    | some n => cases max <;> simp
  toInt_eq text n h := by rw [h]

/-- GET /patents?page=2&limit=10, an ordinary request. -/
def secondPage : PageQuery String := ⟨some (.single "2"), some (.single "10")⟩

/-- The chains admit the second page. -/
theorem secondPage_ok : Route.users.validation standard secondPage =
    .ok ⟨sanitise standard secondPage.page, sanitise standard secondPage.limit⟩ := rfl

theorem inRange_iff_second :
    InRange (Route.users.service
      ⟨sanitise standard secondPage.page, sanitise standard secondPage.limit⟩) ↔
        SmallPage standard secondPage :=
  inRange_iff secondPage_ok

/-- GET /patents?page=9223372036854775808, which every chain admits. -/
def farPage : PageQuery String := ⟨some (.single "9223372036854775808"), none⟩

/-- The chains admit the far page too. -/
theorem farPage_ok : Route.patents.validation standard farPage =
    .ok ⟨sanitise standard farPage.page, none⟩ := rfl

/-- It is accepted, and asks for more than a 64-bit OFFSET can skip. -/
theorem not_inRange :
    ¬ ∀ (route : Route) (query : PageQuery String) (numbers : Numbers),
      route.validation standard query = .ok numbers → InRange (route.service numbers) := by
  intro hall
  obtain ⟨page, limit, ⟨v, hv, hpage⟩, hlimit, harith⟩ :=
    smallPage_of_inRange farPage_ok (hall _ _ _ farPage_ok)
  cases hv
  have hfar : integerOf (standard.toString "9223372036854775808") = some 9223372036854775808 := rfl
  have hpage' : (page : Int) = 9223372036854775808 := Option.some.inj (hpage.symm.trans hfar)
  have hlimit' : limit = 20 := hlimit
  subst hlimit'
  omega

example : findMany (listPatents ⟨sanitise standard farPage.page, none⟩) [1, 2, 3] = none := by
  decide +kernel

end SmartPatents.PageNumbers
