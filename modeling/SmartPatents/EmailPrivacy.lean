/-
  Who learns whose email address.

  `hideEmails viewer d` is the database with every address blanked that is not the viewer's own: the
  address of every other account and of every inventor profile not linked to the viewer.  Two
  databases that differ in these addresses only are equal once they are hidden (`SameButEmails`).

  An endpoint keeps them private if its body can be computed from the hidden database.  The
  inventor directory and the review history do (`listInventors_hide`, `getInventorById_hide`,
  `listReviews_hide`).  The two patent endpoints do not: `toPatentInventorDto` spreads
  `toInventorDto`, address included, for whoever reads the patent.  `sameBodies_iff` is the exact
  extent of it: the five bodies agree if and only if the credited inventors of the patents the
  viewer can see have the same addresses in both databases.

  The viewer is not an admin here; admins see every address.  An address that is the viewer's own
  is not hidden, so it is the same in both databases.

  The three endpoints that keep addresses private have a lemma each.  For the two patent endpoints
  the question comes down to the credits of one patent (`creditDtos_eq_iff`).
-/
import SmartPatents.Reads

namespace SmartPatents.EmailPrivacy

open Access Dto Reads

/-! ## Hiding addresses -/

/-- An account as somebody else may see it. -/
def hideUser (viewer : Caller) (u : User) : User :=
  if u.id = viewer.userId then u else { u with email := "" }

/-- An inventor as somebody who is not linked to the profile may see it. -/
def hideInventor (viewer : Caller) (i : Inventor) : Inventor :=
  if i.userId = some viewer.userId then i else { i with email := "" }

/-- To hide an address leaves all else as it is. -/
@[simp] theorem hideUser_id (viewer : Caller) (u : User) : (hideUser viewer u).id = u.id := by
  unfold hideUser; split <;> rfl

@[simp] theorem hideUser_name (viewer : Caller) (u : User) :
    (hideUser viewer u).name = u.name := by
  unfold hideUser; split <;> rfl

section Inventor

variable (viewer : Caller) (i : Inventor)

@[simp] theorem hideInventor_id : (hideInventor viewer i).id = i.id := by
  unfold hideInventor; split <;> rfl

@[simp] theorem hideInventor_userId : (hideInventor viewer i).userId = i.userId := by
  unfold hideInventor; split <;> rfl

@[simp] theorem hideInventor_fullName : (hideInventor viewer i).fullName = i.fullName := by
  unfold hideInventor; split <;> rfl

@[simp] theorem hideInventor_organization :
    (hideInventor viewer i).organization = i.organization := by
  unfold hideInventor; split <;> rfl

@[simp] theorem hideInventor_createdAt : (hideInventor viewer i).createdAt = i.createdAt := by
  unfold hideInventor; split <;> rfl

end Inventor

/-- The database without the addresses that are not the viewer's own. -/
def hideEmails (viewer : Caller) (d : Db) : Db :=
  { d with
    users := d.users.update (hideUser viewer) (hideUser_id viewer)
    inventors := d.inventors.update (hideInventor viewer) (hideInventor_id viewer) }

/-- The two databases differ at most in email columns of other people. -/
def SameButEmails (viewer : Caller) (d d' : Db) : Prop := hideEmails viewer d = hideEmails viewer d'

/-- The bodies of the five read paths, for all their parameters. -/
structure SameBodies (sql : Sql) (viewer : Caller) (d d' : Db) : Prop where
  patents : ∀ f page limit,
    listPatents sql f page limit viewer d = listPatents sql f page limit viewer d'
  patent : ∀ id, getPatentById id viewer d = getPatentById id viewer d'
  reviews : ∀ id, listReviews sql id viewer d = listReviews sql id viewer d'
  inventors : ∀ page limit,
    listInventors sql page limit viewer d = listInventors sql page limit viewer d'
  inventor : ∀ id, getInventorById id viewer d = getInventorById id viewer d'

/-- The address of an inventor, if there is one. -/
def emailOf (d : Db) (inventorId : Nat) : Option String :=
  (d.inventors.get? inventorId).map Inventor.email

/-- The credited inventors of the patents that the viewer can see have the same addresses. -/
def CreditedEmailsAgree (viewer : Caller) (d d' : Db) : Prop :=
  ∀ p ∈ d.patents, visible viewer p = true →
    ∀ l ∈ d.patentInventors, l.patentId = p.id → emailOf d l.inventorId = emailOf d' l.inventorId

section Viewer

variable {sql : Sql} {viewer : Caller} {d d' : Db}

/-! ## Paths that apply the viewer rule -/

/-- A non-admin sees one address. -/
theorem canSeeEmailOf_user (hviewer : viewer.role = .user) (subject : Option Nat) :
    canSeeEmailOf (some viewer) subject = decide (subject = some viewer.userId) := by
  have hrole : (viewer.role == Role.admin) = false := by
    rw [hviewer]
    rfl
  rw [canSeeEmailOf, hrole, Bool.false_or, beq_eq_decide]

/-- A party is shown without its address already. -/
theorem partyDto_hide (hviewer : viewer.role = .user) (u : User) :
    partyDto (hideUser viewer u).party (some viewer) = partyDto u.party (some viewer) := by
  by_cases hu : u.id = viewer.userId
  · rw [hideUser, if_pos hu]
  · have hsee : canSeeEmailOf (some viewer) (some u.id) = false := by
      rw [canSeeEmailOf_user hviewer]
      simpa using hu
    simp [partyDto, User.party, hsee]

/-- A nested account shows the same from the hidden database. -/
theorem party_hide (hviewer : viewer.role = .user) (userId : Nat) :
    ((hideEmails viewer d).party? userId).map (partyDto · (some viewer)) =
      (d.party? userId).map (partyDto · (some viewer)) := by
  have hget : (hideEmails viewer d).users.get? userId = (d.users.get? userId).map (hideUser viewer) :=
    Table.get?_update d.users (hideUser viewer) (hideUser_id viewer) userId
  rw [Db.party?, Db.party?, hget]
  cases d.users.get? userId with
  | none => rfl
  | some u => exact congrArg some (partyDto_hide hviewer u)

theorem linked_hide (hviewer : viewer.role = .user) (userId : Option Nat) :
    (userId.bind (hideEmails viewer d).party?).map (partyDto · (some viewer)) =
      (userId.bind d.party?).map (partyDto · (some viewer)) := by
  cases userId with
  | none => rfl
  | some id => exact party_hide hviewer id

theorem inventorDetail_hide (hviewer : viewer.role = .user) (i : Inventor) :
    toInventorDetailDto ((hideEmails viewer d).inventorInclude (hideInventor viewer i))
        (some viewer) false =
      toInventorDetailDto (d.inventorInclude i) (some viewer) false := by
  have huser := linked_hide (d := d) hviewer i.userId
  have hemail : (if canSeeEmailOf (some viewer) i.userId then some (hideInventor viewer i).email
      else none) = if canSeeEmailOf (some viewer) i.userId then some i.email else none := by
    by_cases hi : i.userId = some viewer.userId
    · rw [hideInventor, if_pos hi]
    · rw [canSeeEmailOf_user hviewer]
      simp [hi]
  simp only [toInventorDetailDto, toInventorDto, Db.inventorInclude, hideInventor_id,
    hideInventor_userId, hideInventor_fullName, hideInventor_organization,
    hideInventor_createdAt, Bool.false_or, huser, hemail]

/-- The read of an inventor does not depend on hidden addresses. -/
theorem getInventorById_hide (hviewer : viewer.role = .user) (id : Nat) :
    getInventorById id viewer (hideEmails viewer d) = getInventorById id viewer d := by
  have hget : (hideEmails viewer d).inventors.get? id =
      (d.inventors.get? id).map (hideInventor viewer) :=
    Table.get?_update d.inventors (hideInventor viewer) (hideInventor_id viewer) id
  rw [getInventorById, getInventorById, hget]
  cases d.inventors.get? id with
  | none => rfl
  | some i => exact congrArg Except.ok (inventorDetail_hide hviewer i)

/-- The directory is sorted by names, not by addresses. -/
theorem listInventors_hide (hviewer : viewer.role = .user) (page limit : Nat) :
    listInventors sql page limit viewer (hideEmails viewer d) =
      listInventors sql page limit viewer d := by
  have hsort : (hideEmails viewer d).inventors.rows.insertionSort (alphabetic sql · ·) =
      (d.inventors.rows.insertionSort (alphabetic sql · ·)).map (hideInventor viewer) := by
    refine (List.map_insertionSort (alphabetic sql · ·) (alphabetic sql · ·) (hideInventor viewer)
      d.inventors.rows fun a _ b _ => ?_).symm
    simp [alphabetic]
  rw [listInventors, listInventors, hsort]
  simp only [paginate, Page.map, slice, List.length_map, ← List.map_drop, ← List.map_take,
    List.map_map, Function.comp_def, inventorDetail_hide hviewer]

theorem listReviews_hide (hviewer : viewer.role = .user) (id : Nat) :
    listReviews sql id viewer (hideEmails viewer d) = listReviews sql id viewer d := by
  have hreview : ∀ r, toPatentReviewDto ((hideEmails viewer d).reviewInclude r) (some viewer) =
      toPatentReviewDto (d.reviewInclude r) (some viewer) := by
    intro r
    have hparty := linked_hide (d := d) hviewer r.reviewerId
    simp only [toPatentReviewDto, Db.reviewInclude, hparty]
  have hpatents : (hideEmails viewer d).patents = d.patents := rfl
  have hreviews : (hideEmails viewer d).reviews = d.reviews := rfl
  simp only [listReviews, findOwnedPatent, hpatents, hreviews, hreview]
  cases d.patents.get? id with
  | none => rfl
  | some p => dsimp only; split <;> rfl

/-! ## Credits -/

/-- A query that gives the same on the hidden database gives the same on both. -/
theorem SameButEmails.query {α : Type} (h : SameButEmails viewer d d') (f : Db → α)
    (hf : ∀ e, f (hideEmails viewer e) = f e) : f d = f d' :=
  (hf d).symm.trans ((congrArg f h).trans (hf d'))

/-- Databases that differ in addresses only have the same inventors otherwise. -/
theorem SameButEmails.inventor (h : SameButEmails viewer d d') (id : Nat) :
    (d.inventors.get? id).map (hideInventor viewer) =
      (d'.inventors.get? id).map (hideInventor viewer) := by
  have hget := congrArg (fun e : Db => e.inventors.get? id) h
  simpa only [hideEmails, Table.get?_update] using hget

/-- An inventor row is determined by what is not hidden and its address. -/
theorem eq_of_hideInventor {i i' : Inventor} (h : hideInventor viewer i = hideInventor viewer i')
    (hemail : i.email = i'.email) : i = i' := by
  have hid := congrArg Inventor.id h
  have huser := congrArg Inventor.userId h
  have hname := congrArg Inventor.fullName h
  have horg := congrArg Inventor.organization h
  have hcreated := congrArg Inventor.createdAt h
  simp only [hideInventor_id, hideInventor_userId, hideInventor_fullName,
    hideInventor_organization, hideInventor_createdAt] at hid huser hname horg hcreated
  cases i
  cases i'
  simp_all

/-- Lists of lookups that succeed at the same places are equal iff the lookups are. -/
theorem filterMap_eq_iff {α β : Type} {f g : α → Option β} :
    ∀ l : List α, (∀ a ∈ l, (f a).isSome = (g a).isSome) →
      (l.filterMap f = l.filterMap g ↔ ∀ a ∈ l, f a = g a)
  | [], _ => by simp
  | a :: l, h => by
      have hl := filterMap_eq_iff l fun b hb => h b (List.mem_cons_of_mem a hb)
      have ha := h a List.mem_cons_self
      rw [List.filterMap_cons, List.filterMap_cons, List.forall_mem_cons]
      cases hf : f a with
      | none =>
        rw [hf, Option.isSome_none, eq_comm, Option.isSome_eq_false_iff, Option.isNone_iff_eq_none]
          at ha
        simpa [ha] using hl
      | some b =>
        rw [hf, Option.isSome_some, eq_comm, Option.isSome_iff_exists] at ha
        obtain ⟨c, hc⟩ := ha
        simp [hc, hl]

/-- The DTO of one credit shows the address, and nothing else that differs. -/
theorem creditDto_eq_iff (h : SameButEmails viewer d d') (l : PatentInventor) :
    (d.credited l).map toPatentInventorDto = (d'.credited l).map toPatentInventorDto ↔
      emailOf d l.inventorId = emailOf d' l.inventorId := by
  have hrow := h.inventor l.inventorId
  unfold Db.credited emailOf
  cases hi : d.inventors.get? l.inventorId with
  | none =>
    rw [hi, Option.map_none, eq_comm, Option.map_eq_none_iff] at hrow
    simp [hrow]
  | some i =>
    rw [hi, Option.map_some, eq_comm, Option.map_eq_some_iff] at hrow
    obtain ⟨i', hi', hhide⟩ := hrow
    simp only [hi', Option.map_some, Option.some.injEq]
    constructor
    · intro hdto
      exact congrArg (fun x : PatentInventorDto => x.email) hdto
    · intro hemail
      rw [eq_of_hideInventor hhide.symm hemail]

theorem creditsOf_eq (h : SameButEmails viewer d d') (id : Nat) :
    d.creditsOf id = d'.creditsOf id :=
  h.query (fun e => e.creditsOf id) fun _ => rfl

theorem mem_creditsOf {l : PatentInventor} {id : Nat} :
    l ∈ d.creditsOf id ↔ l ∈ d.patentInventors ∧ l.patentId = id := by
  simp [Db.creditsOf, Table.mem_def]

/-- The credits of a patent show the same iff the addresses of its inventors are the same. -/
theorem creditDtos_eq_iff (h : SameButEmails viewer d d') (p : Patent) :
    (d.patentInclude p).inventors.map toPatentInventorDto =
        (d'.patentInclude p).inventors.map toPatentInventorDto ↔
      ∀ l ∈ d.patentInventors, l.patentId = p.id →
        emailOf d l.inventorId = emailOf d' l.inventorId := by
  have hsome : ∀ l ∈ d.creditsOf p.id, ((d.credited l).map toPatentInventorDto).isSome =
      ((d'.credited l).map toPatentInventorDto).isSome := by
    intro l _
    have hrow := congrArg Option.isSome (h.inventor l.inventorId)
    simpa [Db.credited] using hrow
  simp only [Db.patentInclude, ← creditsOf_eq h p.id, List.map_filterMap]
  rw [filterMap_eq_iff _ hsome]
  constructor
  · intro hall l hl hid
    exact (creditDto_eq_iff h l).mp (hall l (mem_creditsOf.mpr ⟨hl, hid⟩))
  · intro hall l hl
    obtain ⟨hmem, hid⟩ := mem_creditsOf.mp hl
    exact (creditDto_eq_iff h l).mpr (hall l hmem hid)

/-! ## Patents -/

/-- Apart from the credits, a patent shows the same. -/
theorem toPatentDto_eq (hviewer : viewer.role = .user) (h : SameButEmails viewer d d')
    {p : Patent} (hcredits : (d.patentInclude p).inventors.map toPatentInventorDto =
      (d'.patentInclude p).inventors.map toPatentInventorDto) :
    toPatentDto (d.patentInclude p) (some viewer) =
      toPatentDto (d'.patentInclude p) (some viewer) := by
  have hparty : (d.party? p.submittedBy).map (partyDto · (some viewer)) =
      (d'.party? p.submittedBy).map (partyDto · (some viewer)) := by
    rw [← party_hide (d := d) hviewer, ← party_hide (d := d') hviewer, h]
  have hcategories : (d.patentInclude p).categories = (d'.patentInclude p).categories :=
    h.query (fun e => (e.patentInclude p).categories) fun _ => rfl
  have hsubmitter : ((d.patentInclude p).submitter).map (partyDto · (some viewer)) =
      ((d'.patentInclude p).submitter).map (partyDto · (some viewer)) := hparty
  simp only [toPatentDto, hsubmitter, hcategories, hcredits]
  rfl

/-- A patent shows the addresses of its inventors, and depends on no other. -/
theorem getPatentById_eq (hviewer : viewer.role = .user) (h : SameButEmails viewer d d')
    (hagree : CreditedEmailsAgree viewer d d') (id : Nat) :
    getPatentById id viewer d = getPatentById id viewer d' := by
  have hget : d'.patents.get? id = d.patents.get? id :=
    (h.query (fun e => e.patents.get? id) fun _ => rfl).symm
  unfold getPatentById findVisiblePatent
  rw [hget]
  cases hp : d.patents.get? id with
  | none => rfl
  | some p =>
    by_cases hvis : visible viewer p = true
    · have hmem := (Table.get?_eq_some.mp hp).1
      have hdto := toPatentDto_eq hviewer h ((creditDtos_eq_iff h p).mpr (hagree p hmem hvis))
      simp only [hvis, if_true, Except.map, toPatentDetailDto, hdto]
      rfl
    · simp only [hvis, Bool.false_eq_true, if_false]

theorem listPatents_eq (hviewer : viewer.role = .user) (h : SameButEmails viewer d d')
    (hagree : CreditedEmailsAgree viewer d d') (f : Filters) (page limit : Nat) :
    listPatents sql f page limit viewer d = listPatents sql f page limit viewer d' := by
  have hrows : d'.patents.rows.filter (listFilter sql.contains f viewer d') =
      d.patents.rows.filter (listFilter sql.contains f viewer d) :=
    (h.query (fun e => e.patents.rows.filter (listFilter sql.contains f viewer e))
      fun _ => rfl).symm
  unfold listPatents
  simp only [hrows, paginate, Page.map, slice]
  congr 1
  refine List.map_congr_left fun p hp => ?_
  have hmem := List.mem_of_mem_drop (List.mem_of_mem_take hp)
  rw [List.mem_insertionSort, List.mem_filter] at hmem
  have hvis : visible viewer p = true := by
    have hfilter := hmem.2
    simp only [listFilter, Bool.and_eq_true] at hfilter
    exact hfilter.1.1.1.1.1
  exact toPatentDto_eq hviewer h ((creditDtos_eq_iff h p).mpr (hagree p hmem.1 hvis))

/-- A visible patent gives away the addresses of its inventors. -/
theorem agree_of_getPatentById (h : SameButEmails viewer d d')
    (hsame : ∀ id, getPatentById id viewer d = getPatentById id viewer d') :
    CreditedEmailsAgree viewer d d' := by
  intro p hp hvis
  have hget : d.patents.get? p.id = some p := Table.get?_of_mem hp
  have hget' : d'.patents.get? p.id = some p :=
    (h.query (fun e => e.patents.get? p.id) fun _ => rfl).symm.trans hget
  have hbody := hsame p.id
  simp only [getPatentById, findVisiblePatent, hget, hget', hvis, if_true, Except.map,
    Except.ok.injEq] at hbody
  exact (creditDtos_eq_iff h p).mp (congrArg (fun x : PatentDetailDto => x.inventors) hbody)

/-- **Email privacy, exactly.**  To a non-admin two databases that differ only in other people's
    addresses look the same on the five read paths if and only if the addresses of the credited
    inventors of visible patents are the same. -/
theorem sameBodies_iff (hviewer : viewer.role = .user) (h : SameButEmails viewer d d') :
    SameBodies sql viewer d d' ↔ CreditedEmailsAgree viewer d d' := by
  constructor
  · intro hsame
    exact agree_of_getPatentById h hsame.patent
  · intro hagree
    refine ⟨listPatents_eq hviewer h hagree, getPatentById_eq hviewer h hagree, fun id => ?_,
      fun page limit => ?_, fun id => ?_⟩
    · exact h.query (listReviews sql id viewer) fun _ => listReviews_hide hviewer id
    · exact h.query (listInventors sql page limit viewer) fun _ =>
        listInventors_hide hviewer page limit
    · exact h.query (getInventorById id viewer) fun _ => getInventorById_hide hviewer id

end Viewer

/-! ## An approved patent and a stranger -/

/-- Account 1 has an approved patent that credits inventor 5, who has no account. -/
def registry (submitterEmail inventorEmail : String) : Db where
  users := ⟨[⟨1, "Ada", submitterEmail, "hash", .user⟩, ⟨2, "Bob", "bob@b.org", "hash", .user⟩],
    by simp⟩
  patents := ⟨[⟨1, "Title", "Abstract", "Specification", none, 1, none, none, .approved, 1, none,
    none, 0, 0⟩], by decide⟩
  reviews := Table.empty
  inventors := ⟨[⟨5, none, "Grace", inventorEmail, none, 0⟩], by simp⟩
  categories := Table.empty
  patentInventors := ⟨[⟨1, 5, 1⟩], by decide⟩
  patentCategories := Table.empty
  outbox := Table.empty

/-- A reader without rights. -/
def bob : Caller := ⟨2, .user⟩

/-- Operators simple enough to evaluate. -/
def plainSql : Sql where
  collate := fun a b => a ≤ b
  contains := fun s t => s == t
  tie := id

/-- The address of the submitter stays private. -/
theorem sameBodies_submitter :
    SameBodies plainSql bob (registry "ada@a.org" "grace@c.org")
      (registry "ada@home.org" "grace@c.org") := by
  have hsame : SameButEmails bob (registry "ada@a.org" "grace@c.org")
      (registry "ada@home.org" "grace@c.org") := rfl
  exact (sameBodies_iff rfl hsame).mpr fun _ _ _ _ _ _ => rfl

/-- The address of the credited inventor does not: GET /patents/1 sends it to Bob. -/
theorem not_sameBodies :
    ¬ ∀ (sql : Sql) (viewer : Caller) (d d' : Db), viewer.role = .user →
      SameButEmails viewer d d' → SameBodies sql viewer d d' := by
  intro hall
  have hsame := hall plainSql bob (registry "ada@a.org" "grace@c.org")
    (registry "ada@a.org" "grace@home.org") rfl rfl
  have hbody := congrArg (fun r => r.toOption.map fun p => p.inventors.map fun i => i.email)
    (hsame.patent 1)
  exact absurd hbody (by decide)

end SmartPatents.EmailPrivacy
