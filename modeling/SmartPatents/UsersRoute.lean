/-
  GET /users, from the client to the database: `listUsers` of `frontend/src/services/userService.ts`,
  `listUsersValidation`, and `listUsers` of `src/services/userService.js`.

  The client writes its parameters into a query string; the server reads the string, checks what it
  finds and makes numbers of the numbers.  Nothing is lost on the way (`responds_iff`): the answer is
  the page of the accounts that the client has asked for, and there is none only where the search
  text is too long.  That takes a page that doubles can still count to, `(page - 1) * limit` at most
  2^53 - 1; a page farther out is the subject of `PageNumbers`.  Express reads the string with a
  library of its own, which does more with names in brackets and names that come twice
  (`QueryParser`); on names like ours it reads what the form encoding has written (`FormUrl`).

  What is proved of the parts: the form encoding is a round trip (`Lib.FormUrl`), a number is read
  back from its text (`integerOf_toString`), a role and a search text pass their chains
  (`role_through`, `search_through`), and the service gets the numbers that were asked for
  (`page_argument`, `limit_argument`).  `responds_iff` puts them together, and the libraries
  between client and service are parameters with what their documentation says of names like
  these.
-/
import SmartPatents.Directory
import SmartPatents.Lib.FormUrl
import SmartPatents.Lib.Json
import SmartPatents.PageNumbers
import Mathlib.Data.List.DropRight

namespace SmartPatents.UsersRoute

open Access Directory Doubles PageNumbers Paging Reads

/-! ## The client -/

/-- What the page passes to `listUsers`; an absent parameter is left out of the query. -/
structure ListUsersParams where
  page : Option Nat
  limit : Option Nat
  role : Option Role
  search : Option String
deriving DecidableEq

/-- The values of the `role` enum, as the query string spells them. -/
def roleText : Role → String
  | .user => "user"
  | .admin => "admin"

/-- The calls of `q.set`: a number that is not 0, a text that is not empty. -/
def ListUsersParams.fields (params : ListUsersParams) : List (String × String) :=
  ((params.page.filter (· != 0)).toList.map fun n => ("page", toString n)) ++
    ((params.limit.filter (· != 0)).toList.map fun n => ("limit", toString n)) ++
    (params.role.toList.map fun r => ("role", roleText r)) ++
    (truthy params.search).toList.map fun s => ("search", s)

/-- `q.toString()`. -/
def queryString (params : ListUsersParams) : List Char :=
  FormUrl.serialise (params.fields.map fun f => (f.1.toList, f.2.toList))

/-! ## The query of a request -/

/-- The names that every object has. -/
def inherited : List String :=
  ["constructor", "hasOwnProperty", "isPrototypeOf", "propertyIsEnumerable", "toLocaleString",
    "toString", "valueOf"]

/-- Names that are parameters and nothing else: no brackets, none twice, none of every object. -/
structure Plain (fields : List FormUrl.Field) : Prop where
  distinct : (fields.map Prod.fst).Nodup
  letters : ∀ f ∈ fields, f.1 ≠ [] ∧ ∀ c ∈ f.1, c.isAlpha = true
  own : ∀ f ∈ fields, String.ofList f.1 ∉ inherited
  few : fields.length ≤ 1000

/-- What Express makes of a query string; a value is a text or an object. -/
structure QueryParser (V : Type) where
  ofText : String → V
  parse : List Char → String → Option (Param V)
  parse_plain : ∀ text fields, FormUrl.parse text = some fields → Plain fields → ∀ name : String,
    parse text name =
      (fields.lookup name.toList).map fun value => .single (ofText (String.ofList value))

/-- With what the chains call of their library. -/
structure Library (V : Type) extends QueryParser V, Validator V where
  isText : V → Bool
  isLength : Nat → Nat → String → Bool
  toString_ofText : ∀ s, toString (ofText s) = s
  isText_ofText : ∀ s, isText (ofText s) = true

variable {V : Type}

/-- `req.query` of GET /users; `none` is a parameter that is absent. -/
structure Query (V : Type) where
  page : Option (Param V)
  limit : Option (Param V)
  role : Option (Param V)
  search : Option (Param V)

/-- `req.query`. -/
def reqQuery (lib : Library V) (text : List Char) : Query V where
  page := lib.parse text "page"
  limit := lib.parse text "limit"
  role := lib.parse text "role"
  search := lib.parse text "search"

/-! ## `listUsersValidation` -/

/-- `query('role').optional().isIn(['user', 'admin'])`. -/
def roleErrors (lib : Library V) : Option (Param V) → List FieldError
  | none => []
  | some p =>
    (p.items.filter fun v => lib.toString v ∉ ["user", "admin"]).map fun _ =>
      ⟨"role", "Role must be either user or admin"⟩

/-- `optional({ values: 'falsy' })` passes over what is not there, and over an empty text. -/
def isFalsy (lib : Library V) : Option (Param V) → Bool
  | none => true
  | some (.single v) => lib.isText v && lib.toString v == ""
  | some (.array _ _) => false

/-- `isString()`: a parameter given twice is an array and fails. -/
def isString (lib : Library V) : Param V → Bool
  | .single v => lib.isText v
  | .array _ _ => false

/-- `trim()`. -/
def trim (s : String) : String := String.ofList (Numeral.trim s.toList)

/-- `query('search').optional({ values: 'falsy' }).isString().trim().isLength({ min: 1, max: 255 })`. -/
def searchErrors (lib : Library V) (value : Option (Param V)) : List FieldError :=
  match value with
  | none => []
  | some p =>
    if isFalsy lib value then []
    else
      (if isString lib p then [] else [⟨"search", "Invalid value"⟩]) ++
        (p.items.filter fun v => !lib.isLength 1 255 (trim (lib.toString v))).map fun _ =>
          ⟨"search", "Invalid value"⟩

/-- What the handler takes out of an accepted query. -/
structure Arguments where
  numbers : Numbers
  role : Option (Param Role)
  search : Option String

/-- An accepted text. -/
def roleOf (text : String) : Role := if text = "admin" then .admin else .user

/-- The role that the chain hands on, item by item. -/
def acceptedRole (lib : Library V) (value : Option (Param V)) : Option (Param Role) :=
  value.map fun p => p.map fun v => roleOf (lib.toString v)

/-- The search text that the chain hands on, trimmed. -/
def acceptedSearch (lib : Library V) : Option (Param V) → Option String
  | some (.single v) => some (trim (lib.toString v))
  | _ => none

/-- The four chains and `handleValidationErrors`. -/
def listUsersValidation (lib : Library V) (query : Query V) : Except (List FieldError) Arguments :=
  match PageNumbers.listUsersValidation lib.toValidator ⟨query.page, query.limit⟩,
    roleErrors lib query.role ++ searchErrors lib query.search with
  | .ok numbers, [] => .ok ⟨numbers, acceptedRole lib query.role, acceptedSearch lib query.search⟩
  | .ok _, errors => .error errors
  | .error errors, more => .error (errors ++ more)

/-- What `count` finds in `counted` and `findMany` in `listed`.  Both are in one transaction, but each
    reads what has been committed before it. -/
structure Lists (contains : String → String → Bool) (f : UserFilters) (counted listed : Accounts)
    (page limit : Nat) (answer : Page Account) : Prop where
  items : ∃ sorted, Arrangement newestUser (matchingUsers contains f listed) sorted ∧
    answer.items = slice page limit sorted
  total : answer.total = (matchingUsers contains f counted).length
  page_eq : answer.page = page
  limit_eq : answer.limit = limit
  totalPages_eq : answer.totalPages = totalPages answer.total limit

/-- `answer` is a possible 200 of GET /users with query string `text`.  A list of roles, and a page
    that a 64-bit OFFSET does not reach, are errors of the driver. -/
inductive Responds (lib : Library V) (contains : String → String → Bool)
    (counted listed : Accounts) (text : List Char) (answer : Page Account) : Prop
  | mk {args : Arguments} {role : Option Role} {page limit : Nat}
      (hvalid : listUsersValidation lib (reqQuery lib text) = .ok args)
      (hrole : args.role = role.map .single)
      (hpage : (PageNumbers.listUsers args.numbers).page.Is page)
      (hlimit : (PageNumbers.listUsers args.numbers).limit.Is limit)
      (hskip : (PageNumbers.listUsers args.numbers).skip.Is ((page - 1) * limit : Nat))
      (hoffset : (page - 1) * limit < 2 ^ 63)
      (hanswer : Lists contains ⟨role, args.search⟩ counted listed page limit answer) :
      Responds lib contains counted listed text answer

/-- Between the two nothing has been committed. -/
theorem lists_self {contains : String → String → Bool} {f : UserFilters} {users : Accounts}
    {page limit : Nat} {answer : Page Account} : Lists contains f users users page limit answer ↔
      Answers newestUser (matchingUsers contains f users) page limit answer := by
  constructor
  · rintro ⟨⟨sorted, harrangement, hitems⟩, htotal, hpage, hlimit, hpages⟩
    refine ⟨sorted, harrangement, ?_⟩
    have hlength : answer.total = sorted.length := htotal.trans harrangement.perm.length_eq.symm
    obtain ⟨items, total, page', limit', totalPages'⟩ := answer
    dsimp only at hitems hlength hpage hlimit hpages
    rw [paginate, hitems, hpages, hpage, hlimit, hlength]
  · rintro ⟨sorted, harrangement, rfl⟩
    exact ⟨⟨sorted, harrangement, rfl⟩, harrangement.perm.length_eq, rfl, rfl, rfl⟩

/-! ## The parameters come through -/

section Through

variable {lib : Library V} {params : ListUsersParams} {contains : String → String → Bool}
  {counted listed : Accounts} {answer : Page Account}

theorem names_sublist {α : Type} (o : Option α) (name : String) (text : α → String) :
    ((o.toList.map fun a => (name, text a)).map Prod.fst).Sublist [name] := by
  cases o with
  | none => exact List.nil_sublist _
  | some a => exact List.Sublist.refl _

/-- The fields of a query are in their order, each at most once. -/
theorem names_fields (params : ListUsersParams) :
    (params.fields.map Prod.fst).Sublist ["page", "limit", "role", "search"] := by
  rw [ListUsersParams.fields, List.map_append, List.map_append, List.map_append]
  exact (((names_sublist _ "page" _).append (names_sublist _ "limit" _)).append
    (names_sublist _ "role" _)).append (names_sublist _ "search" _)

/-- The names of the client are plain. -/
theorem plain_fields (params : ListUsersParams) :
    Plain (params.fields.map fun f => (f.1.toList, f.2.toList)) := by
  have hnames := names_fields params
  have hmem : ∀ f ∈ params.fields.map fun f => (f.1.toList, f.2.toList),
      ∃ name ∈ ["page", "limit", "role", "search"], f.1 = name.toList := by
    intro f hf
    obtain ⟨g, hg, rfl⟩ := List.mem_map.mp hf
    exact ⟨g.1, hnames.subset (List.mem_map_of_mem hg), rfl⟩
  refine ⟨?_, fun f hf => ?_, fun f hf => ?_, ?_⟩
  · have hsame : (params.fields.map fun f => (f.1.toList, f.2.toList)).map Prod.fst =
        (params.fields.map Prod.fst).map String.toList := by
      rw [List.map_map, List.map_map]
      rfl
    rw [hsame]
    exact (List.Nodup.sublist (hnames.map String.toList) (by decide))
  · have hletters : ∀ name ∈ ["page", "limit", "role", "search"],
        name.toList ≠ [] ∧ name.toList.all Char.isAlpha = true := by decide
    obtain ⟨name, hname, hf'⟩ := hmem f hf
    rw [hf']
    exact ⟨(hletters name hname).1, List.all_eq_true.mp (hletters name hname).2⟩
  · have hown : ∀ name ∈ ["page", "limit", "role", "search"], name ∉ inherited := by
      simp [inherited]
    obtain ⟨name, hname, hf'⟩ := hmem f hf
    rw [hf', String.ofList_toList]
    exact hown name hname
  · have hlength := hnames.length_le
    rw [List.length_map] at hlength ⊢
    exact Nat.le_trans hlength (by decide)

/-- A field is looked up by its name, as text or as characters. -/
theorem lookup_toList (fields : List (String × String)) (name : String) :
    (fields.map fun f => (f.1.toList, f.2.toList)).lookup name.toList =
      (fields.lookup name).map String.toList := by
  induction fields with
  | nil => rfl
  | cons f fields ih =>
    rw [List.map_cons, List.lookup_cons, List.lookup_cons, ih]
    by_cases h : name = f.1
    · have htexts : (name.toList == f.1.toList) = true := by rw [h, beq_self_eq_true]
      have hnames : (name == f.1) = true := by rw [h, beq_self_eq_true]
      rw [htexts, hnames]
      rfl
    · have htexts : (name.toList == f.1.toList) = false :=
        beq_eq_false_iff_ne.mpr fun heq => h (String.toList_inj.mp heq)
      have hnames : (name == f.1) = false := beq_eq_false_iff_ne.mpr h
      rw [htexts, hnames]

/-- What the server finds under a name. -/
theorem parse_queryString (lib : Library V) (params : ListUsersParams) (name : String) :
    lib.parse (queryString params) name =
      (params.fields.lookup name).map fun value => .single (lib.ofText value) := by
  rw [queryString, lib.parse_plain _ _ (FormUrl.parse_serialise _) (plain_fields params),
    lookup_toList, Option.map_map]
  refine congrArg (fun f => (params.fields.lookup name).map f) (funext fun value => ?_)
  rw [Function.comp_apply, String.ofList_toList]

/-- The query that arrives: every parameter once, as a text. -/
theorem reqQuery_queryString (lib : Library V) (params : ListUsersParams) :
    reqQuery lib (queryString params) =
      { page := (params.page.filter (· != 0)).map fun n => .single (lib.ofText (toString n))
        limit := (params.limit.filter (· != 0)).map fun n => .single (lib.ofText (toString n))
        role := params.role.map fun r => .single (lib.ofText (roleText r))
        search := (truthy params.search).map fun s => .single (lib.ofText s) } := by
  simp only [reqQuery, parse_queryString, ListUsersParams.fields]
  cases params.page.filter (· != 0) <;> cases params.limit.filter (· != 0) <;>
    cases params.role <;> cases truthy params.search <;> rfl

/-! ### Numbers -/

/-- A number comes back from its text. -/
theorem integerOf_toString (n : Nat) : integerOf (toString n) = some (n : Int) := by
  have hdigits : ∀ c ∈ Nat.toDigits 10 n, c.isDigit = true :=
    fun c hc => Nat.isDigit_of_mem_toDigits (by decide) (by decide) hc
  have hnatural : Numeral.natural 10 (Nat.toDigits 10 n) = some n := by
    rw [Json.natural_digits Nat.toDigits_ne_nil hdigits, ← Nat.ofDigitChars_eq_foldl,
      Nat.ofDigitChars_ten_toDigits]
  rw [integerOf, Nat.toString_eq_ofList_toDigits, String.toList_ofList]
  unfold Numeral.exponent
  split
  · rename_i hsign
    exact absurd (hdigits '-' (hsign ▸ List.mem_cons_self)) (by decide)
  · rename_i hsign
    exact absurd (hdigits '+' (hsign ▸ List.mem_cons_self)) (by decide)
  · rw [hnatural]
    rfl

/-- A number of the client passes its chain, and is the same number in the service. -/
theorem number_through (lib : Library V) {chain : IntChain} {default : Nat}
    (hbounds : Bounds chain default) {value : Option Nat}
    (hvalue : ∀ n ∈ value, chain.min ≤ n ∧ ∀ m ∈ chain.max, n ≤ m) :
    chain.errors lib.toValidator (value.map fun n => .single (lib.ofText (toString n))) = [] ∧
      argument default (sanitise lib.toValidator
        (value.map fun n => .single (lib.ofText (toString n)))) =
          ofRat ((value.getD default : Nat) : ℚ) := by
  cases value with
  | none => exact ⟨rfl, rfl⟩
  | some n =>
    obtain ⟨hmin, hmax⟩ := hvalue n rfl
    have hint : lib.isInt chain.min chain.max (toString n) = true := by
      refine (lib.isInt_iff _ _ _ hbounds.min_lt hbounds.max_lt).mpr ⟨n, integerOf_toString n, ?_, ?_⟩
      · exact Int.ofNat_le.mpr hmin
      · exact fun m hm => Int.ofNat_le.mpr (hmax m hm)
    constructor
    · simp only [IntChain.errors, Option.map_some, Param.items, List.filter_singleton,
        lib.toString_ofText, hint]
      rfl
    · have htoInt := lib.toInt_eq _ _ (integerOf_toString n)
      simp only [argument, sanitise, Option.map_some, Param.map, Param.toNumber, Option.getD_some,
        lib.toString_ofText, htoInt, Int.cast_natCast]

/-! ### Texts -/

theorem roleOf_roleText (r : Role) : roleOf (roleText r) = r := by
  cases r <;> rfl

/-- A role passes its chain and arrives. -/
theorem role_through (lib : Library V) (role : Option Role) :
    roleErrors lib (role.map fun r => .single (lib.ofText (roleText r))) = [] ∧
      acceptedRole lib (role.map fun r => .single (lib.ofText (roleText r))) =
        role.map .single := by
  cases role with
  | none => exact ⟨rfl, rfl⟩
  | some r =>
    constructor
    · have hmem : roleText r ∈ ["user", "admin"] := by cases r <;> decide
      simp only [roleErrors, Option.map_some, Param.items, List.filter_singleton,
        lib.toString_ofText, hmem]
      rfl
    · simp only [acceptedRole, Option.map_some, Param.map, lib.toString_ofText, roleOf_roleText]

/-- What has been trimmed stays as it is. -/
theorem trim_trim (s : String) : trim (trim s) = trim s := by
  have hlist : ∀ cs : List Char, Numeral.trim (Numeral.trim cs) = Numeral.trim cs := by
    intro cs
    have hstart : (Numeral.trim cs).dropWhile Numeral.isSpace = Numeral.trim cs := by
      refine List.dropWhile_eq_self_iff.mpr ?_
      intro hlength
      have hstarts : Numeral.trim cs <+: cs.dropWhile Numeral.isSpace :=
        List.rdropWhile_prefix _ _
      rw [hstarts.getElem hlength]
      exact List.dropWhile_get_zero_not _ _ _
    calc Numeral.trim (Numeral.trim cs)
        = ((Numeral.trim cs).dropWhile Numeral.isSpace).rdropWhile Numeral.isSpace := rfl
      _ = (Numeral.trim cs).rdropWhile Numeral.isSpace := by rw [hstart]
      _ = Numeral.trim cs := List.rdropWhile_idempotent _ _
  rw [trim, trim, String.toList_ofList, hlist]

/-- A search text passes unless it is too long, and arrives trimmed. -/
theorem search_through (lib : Library V) (search : Option String) :
    (searchErrors lib ((truthy search).map fun s => .single (lib.ofText s)) = [] ↔
        ∀ s ∈ truthy search, lib.isLength 1 255 (trim s) = true) ∧
      acceptedSearch lib ((truthy search).map fun s => .single (lib.ofText s)) =
        (truthy search).map trim := by
  cases hsearch : truthy search with
  | none => exact ⟨⟨fun _ _ h => absurd h (Option.not_mem_none _), fun _ => rfl⟩, rfl⟩
  | some s =>
    have hne : s ≠ "" := (Listing.truthy_eq_some.mp hsearch).2
    constructor
    · have hfalsy : isFalsy lib (some (.single (lib.ofText s))) = false := by
        simp [isFalsy, lib.toString_ofText, hne]
      simp [searchErrors, hfalsy, isString, lib.isText_ofText, lib.toString_ofText, Param.items]
    · simp [acceptedSearch, lib.toString_ofText]

/-! ### The answer -/

/-- Numbers that the server accepts, and a page that doubles tell from its neighbours. -/
structure Asks (params : ListUsersParams) : Prop where
  page : ∀ n ∈ params.page, 1 ≤ n
  limit : ∀ n ∈ params.limit, 1 ≤ n ∧ n ≤ 100
  small : (params.page.getD 1 - 1) * params.limit.getD 20 ≤ 2 ^ 53 - 1

theorem filter_of_pos {value : Option Nat} (h : ∀ n ∈ value, 1 ≤ n) :
    value.filter (· != 0) = value := by
  cases value with
  | none => rfl
  | some n =>
    have hne : n ≠ 0 := Nat.one_le_iff_ne_zero.mp (h n rfl)
    simp [hne]

/-- The numbers of the client, as the service gets them. -/
def numbersOf (lib : Library V) (params : ListUsersParams) : Numbers where
  page := sanitise lib.toValidator (params.page.map fun n => .single (lib.ofText (toString n)))
  limit := sanitise lib.toValidator (params.limit.map fun n => .single (lib.ofText (toString n)))

/-- What the page asks for passes the validation, up to the length of the search text. -/
theorem validation_through (hasks : Asks params) :
    listUsersValidation lib (reqQuery lib (queryString params)) =
      match searchErrors lib ((truthy params.search).map fun s => .single (lib.ofText s)) with
      | [] => .ok ⟨numbersOf lib params, params.role.map .single, (truthy params.search).map trim⟩
      | errors => .error errors := by
  have hpage := number_through lib pageChain_bounds
    fun n (hn : n ∈ params.page) => ⟨hasks.page n hn, fun _ hm => absurd hm (Option.not_mem_none _)⟩
  have hlimit := number_through lib limitChain_bounds
    fun n (hn : n ∈ params.limit) =>
      ⟨(hasks.limit n hn).1, fun _ hm => Option.some.inj hm ▸ (hasks.limit n hn).2⟩
  have hnumbers : PageNumbers.listUsersValidation lib.toValidator
      ⟨params.page.map fun n => .single (lib.ofText (toString n)),
        params.limit.map fun n => .single (lib.ofText (toString n))⟩ =
        .ok (numbersOf lib params) := by
    show validate pageChain limitChain _ _ = _
    unfold validate
    dsimp only
    rw [hpage.1, hlimit.1]
    rfl
  rw [reqQuery_queryString, filter_of_pos hasks.page,
    filter_of_pos fun n hn => (hasks.limit n hn).1, listUsersValidation]
  dsimp only
  rw [hnumbers, (role_through lib params.role).1, (role_through lib params.role).2,
    (search_through lib params.search).2, List.nil_append]
  cases searchErrors lib ((truthy params.search).map fun s => .single (lib.ofText s)) <;> rfl

/-- The service gets the page that was asked for, or the first. -/
theorem page_argument (hasks : Asks params) :
    (PageNumbers.listUsers (numbersOf lib params)).page = ofRat ((params.page.getD 1 : Nat) : ℚ) :=
  (number_through lib pageChain_bounds fun n hn =>
    ⟨hasks.page n hn, fun _ hm => absurd hm (Option.not_mem_none _)⟩).2

theorem limit_argument (hasks : Asks params) :
    (PageNumbers.listUsers (numbersOf lib params)).limit = ofRat ((params.limit.getD 20 : Nat) : ℚ) :=
  (number_through lib limitChain_bounds fun n hn =>
    ⟨(hasks.limit n hn).1, fun _ hm => Option.some.inj hm ▸ (hasks.limit n hn).2⟩).2

/-- The service gets the numbers that the client has asked for, and skips what lies before. -/
theorem numbers_through (hasks : Asks params) :
    (PageNumbers.listUsers (numbersOf lib params)).page.Is (params.page.getD 1 : Nat) ∧
      (PageNumbers.listUsers (numbersOf lib params)).limit.Is (params.limit.getD 20 : Nat) ∧
        (PageNumbers.listUsers (numbersOf lib params)).skip.Is
          ((params.page.getD 1 - 1) * params.limit.getD 20 : Nat) := by
  have hpage : 1 ≤ params.page.getD 1 := by
    cases h : params.page with
    | none => exact Nat.le_refl 1
    | some n => exact hasks.page n h
  have hlimit : 1 ≤ params.limit.getD 20 ∧ params.limit.getD 20 ≤ 100 := by
    cases h : params.limit with
    | none => decide
    | some n => exact hasks.limit n h
  have hlimit' : params.limit.getD 20 ≤ 2 ^ 53 := Nat.le_trans hlimit.2 (by decide)
  obtain ⟨his, hskip⟩ := skip_exact hpage hlimit.1 hlimit' hasks.small
  have hwindow : (PageNumbers.listUsers (numbersOf lib params)).skip =
      (((PageNumbers.listUsers (numbersOf lib params)).page).sub (literal 1)).mul
        (PageNumbers.listUsers (numbersOf lib params)).limit := rfl
  rw [hwindow, page_argument hasks, limit_argument hasks]
  exact ⟨his, ofRat_natCast hlimit', hskip⟩

/-- The server answers the query string of a client as the client means it. -/
theorem answers_of_responds (hasks : Asks params)
    (h : Responds lib contains counted listed (queryString params) answer) :
    (∀ s ∈ truthy params.search, lib.isLength 1 255 (trim s) = true) ∧
      Lists contains ⟨params.role, (truthy params.search).map trim⟩ counted listed
        (params.page.getD 1) (params.limit.getD 20) answer := by
  obtain ⟨hvalid, hrole, hpage', hlimit', -, -, hanswer⟩ := h
  obtain ⟨hpage, hlimit, -⟩ := numbers_through hasks
  rw [validation_through hasks] at hvalid
  split at hvalid
  · rename_i hnil
    obtain rfl := (Except.ok.inj hvalid).symm
    obtain rfl := Option.map_injective (fun _ _ h => Param.single.inj h) hrole
    obtain rfl : params.page.getD 1 = _ := Nat.cast_injective (hpage.unique hpage')
    obtain rfl : params.limit.getD 20 = _ := Nat.cast_injective (hlimit.unique hlimit')
    exact ⟨(search_through lib params.search).1.mp hnil, hanswer⟩
  · cases hvalid

/-- What the service answers is what the route responds with. -/
theorem responds_of_answers (hasks : Asks params)
    (hlength : ∀ s ∈ truthy params.search, lib.isLength 1 255 (trim s) = true)
    (hanswer : Lists contains ⟨params.role, (truthy params.search).map trim⟩ counted listed
      (params.page.getD 1) (params.limit.getD 20) answer) :
    Responds lib contains counted listed (queryString params) answer := by
  obtain ⟨hpage, hlimit, hskip⟩ := numbers_through hasks
  have hvalid : listUsersValidation lib (reqQuery lib (queryString params)) =
      .ok ⟨numbersOf lib params, params.role.map .single, (truthy params.search).map trim⟩ := by
    rw [validation_through hasks, (search_through lib params.search).1.mpr hlength]
  exact ⟨hvalid, rfl, hpage, hlimit, hskip, Nat.lt_of_le_of_lt hasks.small (by decide), hanswer⟩

/-- **What the client asks for is what it gets.**  The answers to its query string are the answers
    to its parameters, with the spaces around the search text gone; there are none if and only if
    the rest of the text is too short or too long. -/
theorem responds_iff (hasks : Asks params) :
    Responds lib contains counted listed (queryString params) answer ↔
      (∀ s ∈ truthy params.search, lib.isLength 1 255 (trim s) = true) ∧
        Lists contains ⟨params.role, (truthy params.search).map trim⟩ counted listed
          (params.page.getD 1) (params.limit.getD 20) answer := by
  constructor
  · intro h
    exact answers_of_responds hasks h
  · intro h
    exact responds_of_answers hasks h.1 h.2

end Through

/-! ## Admins, called Ada -/

section Ada

/-- The libraries on the query strings of the client. -/
def plainLibrary : Library String where
  toValidator := standard
  ofText := id
  parse text name :=
    ((FormUrl.parse text).getD []).lookup name.toList |>.map fun v => .single (String.ofList v)
  parse_plain text fields h _ name := by rw [h]; rfl
  isText _ := true
  isLength min max s := min ≤ s.length && s.length ≤ max
  toString_ofText _ := rfl
  isText_ofText _ := rfl

/-- A search with a role, and with characters that a query string escapes. -/
def adasParams : ListUsersParams := ⟨some 1, some 10, some .admin, some " Ada & Co. "⟩

theorem asks_adasParams : Asks adasParams := ⟨by decide, by decide, by decide⟩

example : String.ofList (queryString adasParams) =
    "page=1&limit=10&role=admin&search=+Ada+%26+Co.+" := by
  decide +kernel

/-- The account the search finds. -/
def ada : Account :=
  { id := 7, name := "Ada & Co.", email := "ada@co.test", passwordHash := "", role := .admin,
    createdAt := 5 }

/-- Another administrator, whom it does not find. -/
def bob : Account :=
  { id := 8, name := "Bob", email := "bob@co.test", passwordHash := "", role := .admin,
    createdAt := 6 }

/-- The table with both. -/
def adaAndBob : Accounts := ⟨[ada, bob], by decide⟩

/-- The search for Ada finds her. -/
theorem responds_iff_ada :
    Responds plainLibrary (· == ·) adaAndBob adaAndBob (queryString adasParams)
      ⟨[ada], 1, 1, 10, 1⟩ := by
  have hanswer : Answers newestUser
      (matchingUsers (· == ·) ⟨some .admin, some "Ada & Co."⟩ adaAndBob) 1 10
      ⟨[ada], 1, 1, 10, 1⟩ := ⟨[ada], ⟨by decide, by decide⟩, rfl⟩
  exact (responds_iff asks_adasParams).mpr ⟨by decide +kernel, lists_self.mpr hanswer⟩

end Ada

end SmartPatents.UsersRoute
