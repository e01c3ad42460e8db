/-
  Does a read tell invisible patents from absent ones?

  Two databases that agree on everything the viewer may see (`SameVisible`) should give the viewer
  the same responses.  Three of the four read paths do: the listing filters by visibility, and
  `findVisiblePatent` answers 404 for an invisible patent as for an absent one.

  The review history is gated by `findOwnedPatent`, the gatekeeper of the write paths, which answers
  403 for a patent of somebody else and 404 for none.  `sameReads_iff` is the exact extent of it:
  the responses agree if and only if the ids of invisible patents are the same in both databases.

  The agreement is asked of the rows that the endpoints read, of the patents that the viewer may
  see; the other patents may differ in everything, in number as well.  Pages and totals are part
  of a response.

  `findOwnedPatent` is right for the writes.  It is the one read behind it that gives an id away.

  One lemma for each of the paths that conceal, and for the fourth one the two directions of the
  equivalence: an id that is hidden in one database and absent in the other is told apart by the
  status of its response.
-/
import SmartPatents.Listing

namespace SmartPatents.ReadPrivacy

open Access Dto Reads Listing

/-! ## Two databases and one viewer -/

/-- The PATENT_REVIEW rows of a patent. -/
def reviewRows (d : Db) (id : Nat) : List PatentReview :=
  d.reviews.rows.filter fun r => r.patentId == id

/-- The databases agree on the patents that the viewer may see, with their links and reviews. -/
structure SameVisible (viewer : Caller) (d d' : Db) : Prop where
  patents : ∀ p, visible viewer p = true → (p ∈ d.patents ↔ p ∈ d'.patents)
  record : ∀ p ∈ d.patents, visible viewer p = true → d.patentInclude p = d'.patentInclude p
  links : ∀ p ∈ d.patents, visible viewer p = true →
    d.categoryLinksOf p.id = d'.categoryLinksOf p.id
  reviews : ∀ p ∈ d.patents, visible viewer p = true → reviewRows d p.id = reviewRows d' p.id
  reviewers : ∀ p ∈ d.patents, visible viewer p = true →
    ∀ r ∈ reviewRows d p.id, d.reviewInclude r = d'.reviewInclude r

/-- The responses of the four read endpoints, for all their parameters. -/
structure SameReads (sql : Sql) (signer : Signer) (viewer : Caller) (d d' : Db) : Prop where
  list : ∀ f page limit,
    listPatents sql f page limit viewer d = listPatents sql f page limit viewer d'
  patent : ∀ id, getPatentById id viewer d = getPatentById id viewer d'
  document : ∀ id, getDocumentUrl signer id viewer d = getDocumentUrl signer id viewer d'
  reviews : ∀ id, listReviews sql id viewer d = listReviews sql id viewer d'

/-- The id belongs to a patent that the viewer may not see. -/
def Hidden (viewer : Caller) (d : Db) (id : Nat) : Prop :=
  ∃ p ∈ d.patents, p.id = id ∧ visible viewer p = false

section Viewer

variable {sql : Sql} {signer : Signer} {viewer : Caller} {d d' : Db} {id : Nat}

/-- To look the same is symmetric. -/
theorem SameVisible.symm (h : SameVisible viewer d d') : SameVisible viewer d' d := by
  have hback : ∀ p ∈ d'.patents, visible viewer p = true → p ∈ d.patents :=
    fun p hp hvis => (h.patents p hvis).mpr hp
  refine ⟨fun p hvis => (h.patents p hvis).symm,
    fun p hp hvis => (h.record p (hback p hp hvis) hvis).symm,
    fun p hp hvis => (h.links p (hback p hp hvis) hvis).symm,
    fun p hp hvis => (h.reviews p (hback p hp hvis) hvis).symm, fun p hp hvis r hr => ?_⟩
  have hmem := hback p hp hvis
  rw [← h.reviews p hmem hvis] at hr
  exact (h.reviewers p hmem hvis r hr).symm

/-- A visible patent is found in both databases. -/
theorem SameVisible.get? (h : SameVisible viewer d d') {p : Patent}
    (hget : d.patents.get? id = some p) (hvis : visible viewer p = true) :
    d'.patents.get? id = some p := by
  obtain ⟨hmem, hid⟩ := Table.get?_eq_some.mp hget
  exact Table.get?_eq_some.mpr ⟨(h.patents p hvis).mp hmem, hid⟩

/-- A patent that is there and not visible is hidden. -/
theorem hidden_of_get? {p : Patent} (hget : d.patents.get? id = some p)
    (hvis : visible viewer p = false) : Hidden viewer d id := by
  obtain ⟨hmem, hid⟩ := Table.get?_eq_some.mp hget
  exact ⟨p, hmem, hid, hvis⟩

theorem get?_of_hidden (h : Hidden viewer d id) :
    ∃ p, d.patents.get? id = some p ∧ visible viewer p = false := by
  obtain ⟨p, hmem, hid, hvis⟩ := h
  exact ⟨p, Table.get?_eq_some.mpr ⟨hmem, hid⟩, hvis⟩

/-! ## The paths that conceal -/

/-- The listings have the same rows. -/
theorem SameVisible.listing (h : SameVisible viewer d d') (f : Filters) :
    Listing.listing sql f viewer d = Listing.listing sql f viewer d' := by
  have hforth : ∀ {e e' : Db}, SameVisible viewer e e' → ∀ p,
      p ∈ Listing.listing sql f viewer e → p ∈ Listing.listing sql f viewer e' := by
    intro e e' h p hp
    obtain ⟨hmem, hlisted⟩ := mem_listing.mp hp
    have hvis : visible viewer p = true := visible_eq_true.mpr hlisted.visible
    refine mem_listing.mpr ⟨(h.patents p hvis).mp hmem, { hlisted with category := ?_ }⟩
    intro c hc
    obtain ⟨l, hl, hpatent, hcategory⟩ := hlisted.category c hc
    have hlink : l ∈ e.categoryLinksOf p.id := List.mem_filter.mpr ⟨hl, by simpa using hpatent⟩
    rw [h.links p hmem hvis] at hlink
    exact ⟨l, (List.mem_filter.mp hlink).1, hpatent, hcategory⟩
  have hperm : (Listing.listing sql f viewer d).Perm (Listing.listing sql f viewer d') :=
    (List.perm_ext_iff_of_nodup listing_nodup listing_nodup).mpr
      fun p => ⟨hforth h p, hforth h.symm p⟩
  refine Paging.eq_of_separated hperm listing_sorted listing_sorted fun a ha b hb hab hba => ?_
  exact Table.eq_of_key (mem_listing.mp ha).1 (mem_listing.mp hb).1 (id_of_newestPatent hab hba)

/-- A listing shows visible patents, and nothing of the others. -/
theorem SameVisible.listPatents (h : SameVisible viewer d d') (f : Filters) (page limit : Nat) :
    listPatents sql f page limit viewer d = listPatents sql f page limit viewer d' := by
  have hrows : Listing.listing sql f viewer d = Listing.listing sql f viewer d' := h.listing f
  have hitems : ∀ p ∈ slice page limit (Listing.listing sql f viewer d),
      toPatentDto (d.patentInclude p) (some viewer) =
        toPatentDto (d'.patentInclude p) (some viewer) := by
    intro p hp
    obtain ⟨hmem, hlisted⟩ := mem_listing.mp (List.mem_of_mem_drop (List.mem_of_mem_take hp))
    rw [h.record p hmem (visible_eq_true.mpr hlisted.visible)]
  change (paginate page limit (Listing.listing sql f viewer d)).map _ =
    (paginate page limit (Listing.listing sql f viewer d')).map _
  rw [← hrows]
  simp only [Page.map, paginate]
  rw [List.map_congr_left hitems]

/-- An invisible patent is not found, as if it were absent. -/
theorem SameVisible.findVisiblePatent (h : SameVisible viewer d d') (id : Nat) :
    findVisiblePatent id viewer d = findVisiblePatent id viewer d' := by
  unfold Access.findVisiblePatent
  cases hget : d.patents.get? id with
  | some p =>
    cases hvis : visible viewer p with
    | true =>
      obtain ⟨hmem, -⟩ := Table.get?_eq_some.mp hget
      simp only [h.get? hget hvis, hvis, h.record p hmem hvis]
    | false =>
      cases hget' : d'.patents.get? id with
      | none => simp [hvis]
      | some p' =>
        cases hvis' : visible viewer p' with
        | true =>
          have hsame := h.symm.get? hget' hvis'
          rw [hget] at hsame
          obtain rfl := Option.some.inj hsame
          rw [hvis] at hvis'
          nomatch hvis'
        | false => simp [hvis, hvis']
  | none =>
    cases hget' : d'.patents.get? id with
    | none => rfl
    | some p' =>
      cases hvis' : visible viewer p' with
      | true =>
        have hsame := h.symm.get? hget' hvis'
        rw [hget] at hsame
        nomatch hsame
      | false => simp [hvis']

/-! ## The path that confirms -/

/-- A patent that the viewer may not see is somebody else's. -/
theorem findOwnedPatent_of_hidden (h : Hidden viewer d id) :
    findOwnedPatent id viewer d = .error (forbidden "You can only modify patents you submitted") := by
  obtain ⟨p, hget, hvis⟩ := get?_of_hidden h
  simp only [visible, Bool.or_eq_false_iff] at hvis
  simp only [findOwnedPatent, hget, bne, hvis.1.2, hvis.1.1, Bool.not_false, Bool.and_true, if_true]

/-- A patent that is not there is not found. -/
theorem findOwnedPatent_of_none (h : d.patents.get? id = none) :
    findOwnedPatent id viewer d = .error (notFound "Patent not found") := by
  simp only [findOwnedPatent, h]

/-- Where the same ids are hidden, the gate of the write paths lets the viewer pass alike. -/
theorem SameVisible.findOwnedPatent (h : SameVisible viewer d d')
    (hhidden : Hidden viewer d id ↔ Hidden viewer d' id) :
    findOwnedPatent id viewer d = findOwnedPatent id viewer d' := by
  cases hget : d.patents.get? id with
  | some p =>
    cases hvis : visible viewer p with
    | true =>
      obtain ⟨hmem, -⟩ := Table.get?_eq_some.mp hget
      simp only [Access.findOwnedPatent, hget, h.get? hget hvis, h.record p hmem hvis]
    | false =>
      have hd := hidden_of_get? hget hvis
      rw [findOwnedPatent_of_hidden hd, findOwnedPatent_of_hidden (hhidden.mp hd)]
  | none =>
    cases hget' : d'.patents.get? id with
    | none => rw [findOwnedPatent_of_none hget, findOwnedPatent_of_none hget']
    | some p' =>
      cases hvis' : visible viewer p' with
      | true =>
        have hsame := h.symm.get? hget' hvis'
        rw [hget] at hsame
        nomatch hsame
      | false =>
        obtain ⟨p, hp, -⟩ := get?_of_hidden (hhidden.mpr (hidden_of_get? hget' hvis'))
        rw [hget] at hp
        nomatch hp

/-- Whoever passes that gate may see the patent. -/
theorem visible_of_findOwnedPatent {record : PatentRecord}
    (h : findOwnedPatent id viewer d = .ok record) :
    ∃ p ∈ d.patents, p.id = id ∧ visible viewer p = true := by
  unfold Access.findOwnedPatent at h
  split at h
  · nomatch h
  · rename_i p hget
    obtain ⟨hmem, hid⟩ := Table.get?_eq_some.mp hget
    split at h
    · nomatch h
    · rename_i howned
      refine ⟨p, hmem, hid, ?_⟩
      by_cases hadmin : viewer.isAdmin = true
      · simp [visible, hadmin]
      · have hsub : p.submittedBy = viewer.userId := by simpa [hadmin] using howned
        simp [visible, hsub]

/-- The reviews of a patent tell whether it is hidden, and nothing else. -/
theorem SameVisible.listReviews (h : SameVisible viewer d d')
    (hhidden : Hidden viewer d id ↔ Hidden viewer d' id) :
    listReviews sql id viewer d = listReviews sql id viewer d' := by
  unfold Reads.listReviews
  rw [← h.findOwnedPatent hhidden]
  cases hfind : Access.findOwnedPatent id viewer d with
  | error e => rfl
  | ok record =>
    obtain ⟨p, hmem, rfl, hvis⟩ := visible_of_findOwnedPatent hfind
    have hrows := h.reviews p hmem hvis
    unfold reviewRows at hrows
    simp only [Except.map, ← hrows]
    refine congrArg Except.ok (List.map_congr_left fun r hr => ?_)
    rw [h.reviewers p hmem hvis r (List.mem_filter.mpr (by simpa using hr))]

/-- The review history tells a hidden patent from an absent one. -/
theorem hidden_of_listReviews (h : SameVisible viewer d d')
    (hreviews : listReviews sql id viewer d = listReviews sql id viewer d')
    (hhidden : Hidden viewer d id) : Hidden viewer d' id := by
  unfold Reads.listReviews at hreviews
  rw [findOwnedPatent_of_hidden hhidden] at hreviews
  cases hget' : d'.patents.get? id with
  | none =>
    rw [findOwnedPatent_of_none hget'] at hreviews
    exact absurd (congrArg AppError.status (Except.error.inj hreviews)) (by decide)
  | some p' =>
    cases hvis' : visible viewer p' with
    | false => exact hidden_of_get? hget' hvis'
    | true =>
      obtain ⟨p, hget, hvis⟩ := get?_of_hidden hhidden
      have hsame := h.symm.get? hget' hvis'
      rw [hget] at hsame
      obtain rfl := Option.some.inj hsame
      rw [hvis] at hvis'
      nomatch hvis'

/-- **What the reads reveal of invisible patents is which ids they have**, and nothing else. -/
theorem sameReads_iff (h : SameVisible viewer d d') :
    SameReads sql signer viewer d d' ↔ ∀ id, Hidden viewer d id ↔ Hidden viewer d' id := by
  constructor
  · intro hreads id
    exact ⟨hidden_of_listReviews h (hreads.reviews id),
      hidden_of_listReviews h.symm (hreads.reviews id).symm⟩
  · intro hhidden
    refine ⟨fun f page limit => h.listPatents f page limit, fun id => ?_, fun id => ?_,
      fun id => h.listReviews (hhidden id)⟩
    · rw [getPatentById, getPatentById, h.findVisiblePatent]
    · rw [getDocumentUrl, getDocumentUrl, h.findVisiblePatent]

end Viewer

/-! ## A stranger and a draft -/

/-- A user who has submitted nothing. -/
def stranger : Caller := ⟨1, .user⟩

/-- A database of these patents and nothing else. -/
def databaseOf (patents : Table Patent Patent.id) : Db where
  users := Table.empty
  patents := patents
  reviews := Table.empty
  inventors := Table.empty
  categories := Table.empty
  patentInventors := Table.empty
  patentCategories := Table.empty
  outbox := Table.empty

/-- A draft of account 9. -/
def draftTitled (title : String) : Patent :=
  ⟨1, title, "It boils.", "Heat.", none, 1, none, none, .draft, 9, none, none, 5, 5⟩

/-- One draft, somebody else's. -/
def withDraft (title : String) : Db :=
  databaseOf ⟨[draftTitled title], List.nodup_singleton 1⟩

/-- The same database without it. -/
def withoutDraft : Db := databaseOf Table.empty

/-- A database that shows nothing to the viewer agrees with every other such database. -/
theorem sameVisible_of_invisible {viewer : Caller} {d d' : Db}
    (hd : ∀ p ∈ d.patents, visible viewer p = false)
    (hd' : ∀ p ∈ d'.patents, visible viewer p = false) : SameVisible viewer d d' := by
  have hnone : ∀ {q : Prop} {p : Patent}, p ∈ d.patents → visible viewer p = true → q := by
    intro q p hp hvis
    rw [hd p hp] at hvis
    nomatch hvis
  refine ⟨fun p hvis => ⟨fun hp => hnone hp hvis, fun hp => ?_⟩, fun p hp hvis => hnone hp hvis,
    fun p hp hvis => hnone hp hvis, fun p hp hvis => hnone hp hvis, fun p hp hvis => hnone hp hvis⟩
  rw [hd' p hp] at hvis
  nomatch hvis

/-- The stranger does not see the draft. -/
theorem invisible_withDraft (title : String) :
    ∀ p ∈ (withDraft title).patents, visible stranger p = false := by
  intro p hp
  obtain rfl : p = draftTitled title := List.mem_singleton.mp hp
  rfl

/-- A signer for the examples. -/
def anySigner : Signer := ⟨fun key => key, 900, 5⟩

theorem sameReads_of_titles :
    SameReads plainSql anySigner stranger (withDraft "Kettle") (withDraft "Teapot") ↔
      ∀ id, Hidden stranger (withDraft "Kettle") id ↔ Hidden stranger (withDraft "Teapot") id :=
  sameReads_iff (sameVisible_of_invisible (invisible_withDraft "Kettle")
    (invisible_withDraft "Teapot"))

/-- The stranger gets 403 for the reviews of the draft, and 404 where there is none. -/
theorem not_sameReads :
    ¬ ∀ (sql : Sql) (signer : Signer) (viewer : Caller) (d d' : Db), viewer.role = .user →
      SameVisible viewer d d' → SameReads sql signer viewer d d' := by
  intro hall
  have hsame := hall plainSql anySigner stranger (withDraft "Kettle") withoutDraft rfl
    (sameVisible_of_invisible (invisible_withDraft "Kettle")
      fun p hp => absurd hp (Table.not_mem_empty p))
  exact absurd (hsame.reviews 1) (by decide)

end SmartPatents.ReadPrivacy
