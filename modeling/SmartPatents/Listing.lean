/-
  GET /patents is exact.

  A query answers with one of the orders that ORDER BY permits (`Answers`): ties may be broken one
  way for one page and another way for the next.  `newestPatent` leaves no ties, because ids are
  unique, so every query sorts alike and the pages fit together: `listing_exact`.

  The filter of the query is compared with what a listing is for, `Listed`: the caller may see the
  patent, and it satisfies every filter that was supplied.

  `listing` is the list of all rows that belong to the listing in the one order they can have.
  Its pages are slices of it: `Answers.eq` for one query, and `listing_exact` for all pages up to
  `totalPages`, one after the other.  Nothing is assumed of the operators behind a search, nor of
  how the database breaks ties.

  All pages are read from one state of the tables.  A patent that is approved between two queries
  moves between pages, as in every listing by offset.
-/
import SmartPatents.Lib.Paging
import SmartPatents.Reads

namespace SmartPatents.Listing

open Access Dto Reads

/-! ## What a listing is for -/

/-- `p` belongs into the listing: the caller may see it, and every supplied filter holds. -/
structure Listed (sql : Sql) (f : Filters) (user : Caller) (d : Db) (p : Patent) : Prop where
  visible : user.role = .admin ∨ p.submittedBy = user.userId ∨ p.status = .approved
  status : ∀ s, f.status = some s → p.status = s
  jurisdiction : ∀ j, f.jurisdiction = some j → j ≠ "" → p.jurisdiction = some j
  submittedBy : ∀ u, f.submittedBy = some u → p.submittedBy = u
  category : ∀ c, f.categoryId = some c →
    ∃ l ∈ d.patentCategories, l.patentId = p.id ∧ l.categoryId = c
  search : ∀ s, f.search = some s → s ≠ "" → sql.contains p.title s = true ∨
    sql.contains p.abstract s = true ∨ ∃ n, p.publicationNumber = some n ∧ sql.contains n s = true

/-- Newest first; of two patents created at the same time, the one with the higher id. -/
def Newer (a b : Patent) : Prop :=
  b.createdAt < a.createdAt ∨ (a.createdAt = b.createdAt ∧ b.id < a.id)

/-- One possible answer of the database to the queries of `listPatents`. -/
def Answers (sql : Sql) (f : Filters) (page limit : Nat) (user : Caller) (d : Db)
    (answer : Page PatentDto) : Prop :=
  ∃ rows : List Patent, rows.Perm (d.patents.rows.filter (listFilter sql.contains f user d)) ∧
    rows.Pairwise (fun a b => newestPatent a b = true) ∧
    answer = (paginate page limit rows).map fun p => toPatentDto (d.patentInclude p) (some user)

section Filter

variable {sql : Sql} {f : Filters} {user : Caller} {d : Db} {p : Patent}

/-- A filter that is absent lets everything through. -/
theorem given_eq_true {α : Type} {f : Option α} {p : α → Bool} :
    given f p = true ↔ ∀ a, f = some a → p a = true := by
  cases f <;> simp [given]

theorem truthy_eq_some {f : Option String} {s : String} :
    truthy f = some s ↔ f = some s ∧ s ≠ "" := by
  simp [truthy, Option.filter_eq_some_iff]

/-- Who sees a patent: an admin, its submitter, or everybody once it is approved. -/
theorem visible_eq_true : visible user p = true ↔
    user.role = .admin ∨ p.submittedBy = user.userId ∨ p.status = .approved := by
  simp [visible, Caller.isAdmin, or_assoc]

/-- **The filter means what it is for.** -/
theorem listFilter_eq_true : listFilter sql.contains f user d p = true ↔ Listed sql f user d p := by
  have hcategory : ∀ c, ((d.categoryLinksOf p.id).any fun l => l.categoryId == c) = true ↔
      ∃ l ∈ d.patentCategories, l.patentId = p.id ∧ l.categoryId = c := by
    intro c
    simp [Db.categoryLinksOf, Table.mem_def]
  have hsearch : ∀ s, matchesSearch sql.contains p s = true ↔ sql.contains p.title s = true ∨
      sql.contains p.abstract s = true ∨
        ∃ n, p.publicationNumber = some n ∧ sql.contains n s = true := by
    intro s
    simp [matchesSearch, Option.any_eq_true, or_assoc]
  simp only [listFilter, Bool.and_eq_true, given_eq_true, truthy_eq_some, visible_eq_true,
    hcategory, hsearch, beq_iff_eq]
  constructor
  · rintro ⟨⟨⟨⟨⟨hvis, hstatus⟩, hjur⟩, hsub⟩, hcat⟩, hsea⟩
    exact ⟨hvis, hstatus, fun j hj hne => hjur j ⟨hj, hne⟩, hsub, hcat,
      fun s hs hne => hsea s ⟨hs, hne⟩⟩
  · rintro ⟨hvis, hstatus, hjur, hsub, hcat, hsea⟩
    exact ⟨⟨⟨⟨⟨hvis, hstatus⟩, fun j hj => hjur j hj.1 hj.2⟩, hsub⟩, hcat⟩,
      fun s hs => hsea s hs.1 hs.2⟩

end Filter

/-! ## The order -/

/-- The order of the listing: newest first, then by id. -/
theorem newestPatent_iff {a b : Patent} : newestPatent a b = true ↔
    b.createdAt < a.createdAt ∨ (a.createdAt = b.createdAt ∧ b.id ≤ a.id) := by
  simp [newestPatent]

/-- Times are totally ordered. -/
theorem newestPatent_total (a b : Patent) :
    newestPatent a b = true ∨ newestPatent b a = true := by
  rw [newestPatent_iff, newestPatent_iff]
  rcases Nat.lt_trichotomy a.createdAt b.createdAt with h | h | h
  · exact Or.inr (Or.inl h)
  · rcases Nat.le_total a.id b.id with hid | hid
    · exact Or.inr (Or.inr ⟨h.symm, hid⟩)
    · exact Or.inl (Or.inr ⟨h, hid⟩)
  · exact Or.inl (Or.inl h)

/-- It is transitive. -/
theorem newestPatent_trans {a b c : Patent} (hab : newestPatent a b = true)
    (hbc : newestPatent b c = true) : newestPatent a c = true := by
  rw [newestPatent_iff] at *
  rcases hab with hab | ⟨hab, hid⟩
  · rcases hbc with hbc | ⟨hbc, -⟩
    · exact Or.inl (Nat.lt_trans hbc hab)
    · exact Or.inl (hbc ▸ hab)
  · rcases hbc with hbc | ⟨hbc, hid'⟩
    · exact Or.inl (hab ▸ hbc)
    · exact Or.inr ⟨hab.trans hbc, Nat.le_trans hid' hid⟩

/-- Two rows that come before each other have the same id. -/
theorem id_of_newestPatent {a b : Patent} (hab : newestPatent a b = true)
    (hba : newestPatent b a = true) : a.id = b.id := by
  rw [newestPatent_iff] at *
  rcases hab with hab | ⟨heq, hid⟩
  · rcases hba with hba | ⟨heq, -⟩
    · exact absurd hab (Nat.lt_asymm hba)
    · exact absurd (heq ▸ hab) (Nat.lt_irrefl _)
  · rcases hba with hba | ⟨-, hid'⟩
    · exact absurd (heq ▸ hba) (Nat.lt_irrefl _)
    · exact Nat.le_antisymm hid' hid

section Order

variable {sql : Sql} {f : Filters} {user : Caller} {d : Db} {page limit : Nat}
  {answer : Page PatentDto}

/-- The rows of the listing, in order. -/
def listing (sql : Sql) (f : Filters) (user : Caller) (d : Db) : List Patent :=
  (d.patents.rows.filter (listFilter sql.contains f user d)).insertionSort (newestPatent · ·)

/-- Sorting neither loses nor doubles a row. -/
theorem listing_perm :
    (listing sql f user d).Perm (d.patents.rows.filter (listFilter sql.contains f user d)) :=
  List.perm_insertionSort _ _

theorem listing_sorted : (listing sql f user d).Pairwise fun a b => newestPatent a b = true := by
  have : Std.Total fun a b => newestPatent a b = true := ⟨newestPatent_total⟩
  have : IsTrans Patent fun a b => newestPatent a b = true := ⟨fun _ _ _ => newestPatent_trans⟩
  exact List.pairwise_insertionSort _ _

/-- The rows listed are those that the reader may see and the filters let through. -/
theorem mem_listing {p : Patent} :
    p ∈ listing sql f user d ↔ p ∈ d.patents ∧ Listed sql f user d p := by
  rw [listing_perm.mem_iff, List.mem_filter, listFilter_eq_true, Table.mem_def]

/-- `listPatents` is a possible answer. -/
theorem answers_listPatents :
    Answers sql f page limit user d (listPatents sql f page limit user d) :=
  ⟨listing sql f user d, listing_perm, listing_sorted, rfl⟩

/-- **There is no other**: the order leaves no ties. -/
theorem Answers.eq (h : Answers sql f page limit user d answer) :
    answer = listPatents sql f page limit user d := by
  obtain ⟨rows, hperm, hsorted, rfl⟩ := h
  have hrows : rows = listing sql f user d := by
    refine Paging.eq_of_separated (hperm.trans listing_perm.symm) hsorted listing_sorted
      fun a ha b hb hab hba => ?_
    have hmem : ∀ {p}, p ∈ rows → p ∈ d.patents := fun hp =>
      (List.mem_filter.mp (hperm.mem_iff.mp hp)).1
    exact Table.eq_of_key (hmem ha) (hmem hb) (id_of_newestPatent hab hba)
  rw [hrows]
  rfl

theorem listing_nodup : (listing sql f user d).Nodup := by
  rw [listing_perm.nodup_iff]
  exact (List.Nodup.of_map _ d.patents.nodup).sublist List.filter_sublist

/-- The order of the listing is strict. -/
theorem listing_newer : (listing sql f user d).Pairwise Newer := by
  refine (listing_sorted.and listing_nodup).imp_of_mem fun {a b} ha hb h => ?_
  obtain ⟨hnewest, hne⟩ := h
  rcases newestPatent_iff.mp hnewest with hlt | ⟨heq, hid⟩
  · exact Or.inl hlt
  · refine Or.inr ⟨heq, Nat.lt_of_le_of_ne hid fun h => hne ?_⟩
    exact Table.eq_of_key (mem_listing.mp ha).1 (mem_listing.mp hb).1 h.symm

/-- An empty listing still has one page. -/
theorem totalPages_eq (total limit : Nat) :
    totalPages total limit = max 1 ((total + limit - 1) / limit) := by
  unfold totalPages
  generalize (total + limit - 1) / limit = pages
  dsimp only
  split <;> omega

/-- The pages hold all rows. -/
theorem le_totalPages (hlimit : 0 < limit) (total : Nat) :
    total ≤ totalPages total limit * limit := by
  have hle := Paging.le_pages hlimit total
  have hmono : (total + limit - 1) / limit * limit ≤ totalPages total limit * limit := by
    refine Nat.mul_le_mul_right limit ?_
    rw [totalPages_eq]
    exact Nat.le_max_right _ _
  exact Nat.le_trans hle hmono

end Order

/-! ## All pages -/

/-- **The listing is exact.**  Whatever order each query answers in, the pages are one after the
    other all patents that belong into the listing, each once, newest first. -/
theorem listing_exact {sql : Sql} {f : Filters} {user : Caller} {d : Db} {limit : Nat}
    {answers : Nat → Page PatentDto} (hlimit : 1 ≤ limit)
    (hanswers : ∀ page, Answers sql f page limit user d (answers page)) :
    ∃ rows : List Patent,
      rows.Nodup ∧ (∀ p, p ∈ rows ↔ p ∈ d.patents ∧ Listed sql f user d p) ∧ rows.Pairwise Newer ∧
      let pages := max 1 ((rows.length + limit - 1) / limit)
      ((List.range pages).flatMap fun i => (answers (i + 1)).items) =
          rows.map (fun p => toPatentDto (d.patentInclude p) (some user)) ∧
        ∀ page, (answers page).total = rows.length ∧ (answers page).totalPages = pages ∧
          (pages < page → (answers page).items = []) := by
  refine ⟨listing sql f user d, listing_nodup, fun p => mem_listing, listing_newer, ?_⟩
  intro pages
  have hpages : pages = totalPages (listing sql f user d).length limit :=
    (totalPages_eq _ _).symm
  have henough : (listing sql f user d).length ≤ pages * limit :=
    hpages ▸ le_totalPages hlimit _
  have hanswer : ∀ page, answers page = (paginate page limit (listing sql f user d)).map fun p =>
      toPatentDto (d.patentInclude p) (some user) := fun page => (hanswers page).eq
  constructor
  · have hitems : ∀ i, (answers (i + 1)).items =
        (((listing sql f user d).drop (i * limit)).take limit).map fun p =>
          toPatentDto (d.patentInclude p) (some user) := by
      intro i
      rw [hanswer]
      rfl
    simp only [hitems]
    rw [← List.map_flatMap, Paging.flatMap_pages_of_le henough]
  · intro page
    rw [hanswer page]
    refine ⟨rfl, hpages.symm, fun hlater => ?_⟩
    have hempty := Paging.page_eq_nil (i := page - 1) henough (by omega)
    change List.map _ (((listing sql f user d).drop ((page - 1) * limit)).take limit) = []
    rw [hempty, List.map_nil]

/-! ## Two drafts of one moment -/

/-- A user who is nobody's admin, for the examples below. -/
def reader : Caller := ⟨1, .user⟩

/-- A draft with this id and submitter. -/
def patentOf (id submittedBy : Nat) : Patent :=
  ⟨id, "Kettle", "It boils.", "Heat.", none, 1, none, none, .draft, submittedBy, none, none, 5, 5⟩

/-- Two drafts of the reader, created at the same time, and a draft of somebody else. -/
def threeDrafts : Db where
  users := Table.empty
  patents := ⟨[patentOf 1 1, patentOf 2 9, patentOf 3 1], by decide⟩
  reviews := Table.empty
  inventors := Table.empty
  categories := Table.empty
  patentInventors := Table.empty
  patentCategories := Table.empty
  outbox := Table.empty

/-- Operators simple enough to evaluate: search is equality, and equal stamps go by id. -/
def plainSql : Sql := ⟨fun a b => a ≤ b, fun text search => text == search, id⟩

/-- A listing without filters. -/
def allPatents : Filters := ⟨none, none, none, none, none⟩

/-- One row per page. -/
theorem listing_exact_threeDrafts :
    ∃ rows : List Patent,
      rows.Nodup ∧
      (∀ p, p ∈ rows ↔ p ∈ threeDrafts.patents ∧ Listed plainSql allPatents reader threeDrafts p) ∧
      rows.Pairwise Newer ∧
      let pages := max 1 ((rows.length + 1 - 1) / 1)
      ((List.range pages).flatMap fun i =>
          (listPatents plainSql allPatents (i + 1) 1 reader threeDrafts).items) =
          rows.map (fun p => toPatentDto (threeDrafts.patentInclude p) (some reader)) ∧
        ∀ page, (listPatents plainSql allPatents page 1 reader threeDrafts).total = rows.length ∧
          (listPatents plainSql allPatents page 1 reader threeDrafts).totalPages = pages ∧
          (pages < page →
            (listPatents plainSql allPatents page 1 reader threeDrafts).items = []) :=
  @listing_exact plainSql allPatents reader threeDrafts 1
    (fun page => listPatents plainSql allPatents page 1 reader threeDrafts) (Nat.le_refl 1)
    fun _ => answers_listPatents

example :
    (listPatents plainSql allPatents 1 1 reader threeDrafts).items.map PatentDto.id = ["3"] := by
  decide

end SmartPatents.Listing
