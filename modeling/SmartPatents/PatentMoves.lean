/-
  What a statement can do, said once.

  `Move` lists, location by location, the outcomes of the statements of the patent machine, each
  with what its checks have established.  `move_of_code` says that there are no others, so that a
  result about keys, links or records goes by cases on a `Move` and does not open `code` again.

  The constructors carry the guards: what a lookup has found, what a write has checked, and where
  the request goes on.  What is thrown is left open (`throws`), as a request that throws gives its
  transaction up.

  A layer of assertions then needs one lemma that goes by cases on `Move`: `linkAt_move` for the
  links, `recordAt_move` for the record in an event, `keyAt_move` for the keys that are supplied.
-/
import SmartPatents.PatentOutline

namespace SmartPatents.PatentService

open ReadCommitted Runs Access Lifecycle Relations Storage PatentEvents

/-! ## Moves -/

/-- A statement outside `requestUpload` issues no key and uploads nothing. -/
structure Tamed (x x' : Ext) : Prop where
  issued : x'.issued = x.issued
  uploaded : x'.uploaded = x.uploaded
  objects : ∀ obj ∈ x'.objects, obj ∈ x.objects
  handed : ∀ key ∈ x.handed, key ∈ x'.handed

/-- The credits that `insertInventors` writes. -/
def creditRows (id : Nat) (links : List InventorLink) : List PatentInventor :=
  links.map fun l => ⟨id, l.inventorId, l.inventorOrder⟩

/-- The links that `insertCategories` writes. -/
def categoryRows (id : Nat) (ids : List Nat) : List PatentCategory := ids.map fun c => ⟨id, c⟩

/-- What the INSERT of category links has checked. -/
structure CategoriesFit (d : Db) (id : Nat) (ids : List Nat) : Prop where
  nodup : ids.Nodup
  fresh : ∀ c ∈ ids, d.patentCategories.get? (id, c) = none
  known : ∀ c ∈ ids, (d.categories.get? c).isSome

/-- What the INSERT of credits has checked. -/
structure InventorsFit (d : Db) (id : Nat) (links : List InventorLink) : Prop where
  nodup : (links.map InventorLink.inventorId).Nodup
  fresh : ∀ l ∈ links, d.patentInventors.get? (id, l.inventorId) = none
  known : ∀ l ∈ links, (d.inventors.get? l.inventorId).isSome

/-- The inventors that an edit resolves, if it supplies any. -/
def ResolvesInventors (updates : Updates) (d : Db) (links : Option (List InventorLink)) : Prop :=
  match updates.inventors with
  | none => links = none
  | some inventors => ∃ ls, resolveInventorLinks inventors d = .ok ls ∧ links = some ls

/-- The categories that an edit resolves, if it supplies any. -/
def ResolvesCategories (updates : Updates) (d : Db) (ids : Option (List Nat)) : Prop :=
  match updates.categoryIds with
  | none => ids = none
  | some categoryIds => ∃ cs, resolveCategoryIds categoryIds d = .ok cs ∧ ids = some cs

/-- Where an edit goes after its first checks. -/
def afterChecks (updates : Updates) (patent : PatentRecord) : UpdateLoc :=
  if replacingDocument updates patent.toPatent then .attached patent else .publication patent

/-- Where a review goes after its insert. -/
def afterReview (event : Option PatentEvent) (record : PatentRecord) : ReviewLoc :=
  match event with
  | none => .commit record
  | some event => .enqueue event record

/-- The outcome of one statement of request `r` at a location, run on `d` and `x`. -/
inductive Move (r : Request) (d : Db) (x : Ext) (o : Oracle) : Loc → Outcome → Prop
  | throws {l x' ws e} (hx : Tamed x x')
      (hws : ws = [] ∨ ∃ row, ws = [Write.insertReview row]) : Move r d x o l (ws, x', .throwing e)
  | issue {user filename contentType reply} (hreq : r = .requestUpload user filename contentType) :
      Move r d x o .start
        ([],
          { x with issued := (user.userId, buildObjectKey user.userId o.uuid filename) :: x.issued },
          .done reply)
  | createStart {user input} (hreq : r = .createPatent user input)
      (hbelongs : keyBelongsToUser input.documentKey user.userId = true) :
      Move r d x o .start
        ([], { x with handed := input.documentKey :: x.handed }, .create .head)
  | updateStart {user id updates patent} (hreq : r = .updatePatent user id updates)
      (hfind : findOwnedPatent id user d = .ok patent)
      (heditable : patent.status ∈ EDITABLE_STATUSES) :
      Move r d x o .start
        ([], { x with handed := updates.documentKey.toList ++ x.handed },
          .update (afterChecks updates patent))
  | submitStart {user id} (hreq : r = .submitForReview user id) :
      Move r d x o .start ([], x, .submit .write)
  | reviewStart {action admin id comments} (hreq : Reviews r action admin id comments) :
      Move r d x o .start ([], x, .review .before)
  | deleteStart {user id patent} (hreq : r = .deletePatent user id)
      (hfind : findOwnedPatent id user d = .ok patent) (hdraft : patent.status = .draft) :
      Move r d x o .start ([], x, .delete (.write patent))
  | createHead {user input size} (hreq : r = .createPatent user input)
      (hhead : headObject x.objects input.documentKey = some size) :
      Move r d x o (.create .head) ([], x, .create .inventorLinks)
  | createOversized {size} : Move r d x o (.create .head) ([], x, .create (.oversized size))
  | createInventorLinks {user input links} (hreq : r = .createPatent user input)
      (hlinks : resolveInventorLinks (input.inventors.getD []) d = .ok links) :
      Move r d x o (.create .inventorLinks) ([], x, .create (.categoryIds links))
  | createCategoryIds {user input links ids} (hreq : r = .createPatent user input)
      (hids : resolveCategoryIds (input.categoryIds.getD []) d = .ok ids) :
      Move r d x o (.create (.categoryIds links)) ([], x, .create (.publication links ids))
  | createPublication {user input links ids} (hreq : r = .createPatent user input) :
      Move r d x o (.create (.publication links ids)) ([], x, .create (.insert links ids))
  | createInsert {user input links ids} (hreq : r = .createPatent user input)
      (hfree : uniqueClash d (draftOf user input x.nextPatentId o.now) = false) :
      Move r d x o (.create (.insert links ids))
        ([.insertPatent (draftOf user input x.nextPatentId o.now)],
          { x with nextPatentId := x.nextPatentId + 1 },
          .create (.linkCategories x.nextPatentId links ids))
  | createLinkCategories {user input id links ids} (hreq : r = .createPatent user input)
      (hfit : CategoriesFit d id ids) :
      Move r d x o (.create (.linkCategories id links ids))
        ((categoryRows id ids).map .insertCategory, x, .create (.linkInventors id links))
  | createLinkInventors {user input id links} (hreq : r = .createPatent user input)
      (hfit : InventorsFit d id links) :
      Move r d x o (.create (.linkInventors id links))
        ((creditRows id links).map .insertInventor, x, .create (.reread id))
  | createReread {user input id row} (hreq : r = .createPatent user input) (hrow : row ∈ d.patents)
      (hid : row.id = id) :
      Move r d x o (.create (.reread id)) ([], x, .create (.commit (d.patentInclude row)))
  | updateAttached {user id updates patent} (hreq : r = .updatePatent user id updates)
      (hbelongs : keyBelongsToUser (updates.documentKey.getD "") user.userId = true) :
      Move r d x o (.update (.attached patent)) ([], x, .update (.head patent))
  | updateHead {user id updates patent size} (hreq : r = .updatePatent user id updates)
      (hhead : headObject x.objects (updates.documentKey.getD "") = some size) :
      Move r d x o (.update (.head patent)) ([], x, .update (.publication patent))
  | updateOversized {patent size} :
      Move r d x o (.update (.head patent)) ([], x, .update (.oversized size))
  | updatePublication {user id updates patent} (hreq : r = .updatePatent user id updates) :
      Move r d x o (.update (.publication patent)) ([], x, .update (.inventorLinks patent))
  | updateInventorLinks {user id updates patent links} (hreq : r = .updatePatent user id updates)
      (hlinks : ResolvesInventors updates d links) :
      Move r d x o (.update (.inventorLinks patent)) ([], x, .update (.categoryIds patent links))
  | updateCategoryIds {user id updates patent links ids} (hreq : r = .updatePatent user id updates)
      (hids : ResolvesCategories updates d ids) :
      Move r d x o (.update (.categoryIds patent links)) ([], x, .update (.write patent links ids))
  | updateWrite {user id updates patent links ids row} (hreq : r = .updatePatent user id updates)
      (hlands : Lands d id EDITABLE_STATUSES row)
      (hfree : uniqueClash d (edited updates patent.toPatent row o.now) = false) :
      Move r d x o (.update (.write patent links ids))
        ([.updatePatent row (edited updates patent.toPatent row o.now)], x,
          thenCategories patent links ids)
  | updateRefused {patent links ids} :
      Move r d x o (.update (.write patent links ids)) ([], x, .update .refused)
  | updateUnlinkCategories {user id updates patent links ids}
      (hreq : r = .updatePatent user id updates) :
      Move r d x o (.update (.unlinkCategories patent links ids))
        ((d.categoryLinksOf id).map .deleteCategory, x, .update (.linkCategories patent links ids))
  | updateLinkCategories {user id updates patent links ids}
      (hreq : r = .updatePatent user id updates) (hfit : CategoriesFit d id ids) :
      Move r d x o (.update (.linkCategories patent links ids))
        ((categoryRows id ids).map .insertCategory, x, thenInventors patent links)
  | updateUnlinkInventors {user id updates patent links} (hreq : r = .updatePatent user id updates) :
      Move r d x o (.update (.unlinkInventors patent links))
        ((d.creditsOf id).map .deleteInventor, x, .update (.linkInventors patent links))
  | updateLinkInventors {user id updates patent links} (hreq : r = .updatePatent user id updates)
      (hfit : InventorsFit d id links) :
      Move r d x o (.update (.linkInventors patent links))
        ((creditRows id links).map .insertInventor, x, .update (.reread patent))
  | updateReread {user id updates patent row} (hreq : r = .updatePatent user id updates)
      (hrow : row ∈ d.patents) (hid : row.id = id) :
      Move r d x o (.update (.reread patent))
        ([], x, .update (.commit patent (d.patentInclude row)))
  | submitWrite {user id row} (hreq : r = .submitForReview user id)
      (hlands : Lands d id (TRANSITIONS .submit).from row) :
      Move r d x o (.submit .write)
        ([.updatePatent row (transitioned .submit stampSubmitted o.now row)], x, .submit .reread)
  | submitRefused : Move r d x o (.submit .write) ([], x, .submit .refused)
  | submitReread {row} (hrow : row ∈ d.patents) :
      Move r d x o (.submit .reread) ([], x, .submit (.commit (d.patentInclude row)))
  | reviewBefore {before} : Move r d x o (.review .before) ([], x, .review (.write before))
  | reviewWrite {action admin id comments before row} (hreq : Reviews r action admin id comments)
      (hlands : Lands d id (TRANSITIONS action).from row) :
      Move r d x o (.review (.write before))
        ([.updatePatent row (transitioned action stampReviewed o.now row)], x,
          .review (.reread before))
  | reviewRefused {before} : Move r d x o (.review (.write before)) ([], x, .review .refused)
  | reviewReread {action admin id comments before row} (hreq : Reviews r action admin id comments)
      (hrow : row ∈ d.patents) (hid : row.id = id) :
      Move r d x o (.review (.reread before))
        ([], x, .review (.create before (d.patentInclude row)))
  | reviewCreate {action admin id comments before record}
      (hreq : Reviews r action admin id comments) :
      Move r d x o (.review (.create (some before) record))
        ([.insertReview (reviewRow admin id action comments x.nextReviewId o.now)],
          { x with nextReviewId := x.nextReviewId + 1 },
          .review (afterReview (buildEvent action record before o) record))
  | reviewEnqueue {action admin id comments event record}
      (hreq : Reviews r action admin id comments) :
      Move r d x o (.review (.enqueue event record))
        ([.insertEvent (eventRow id x.nextEventId event)],
          { x with nextEventId := x.nextEventId + 1 }, .review (.commit record))
  | deleteWrite {user id patent row} (hreq : r = .deletePatent user id)
      (hlands : Lands d id [.draft] row) :
      Move r d x o (.delete (.write patent))
        ([.deletePatent row], x, .delete (.commit patent))
  | deleteRefused {patent} : Move r d x o (.delete (.write patent)) ([], x, .delete .refused)
  | discard {key reply x'} (hx : Tamed x x') :
      Move r d x o (.discard key reply) ([], x', .done reply)

/-! ## There are no other outcomes -/

section Moves

variable {cfg : Config} {r : Request} {d : Db} {x x' : Ext} {o : Oracle} {l : Loc}

theorem Tamed.refl (x : Ext) : Tamed x x := ⟨rfl, rfl, fun _ h => h, fun _ h => h⟩

/-- To hand a key on is tame. -/
theorem tamed_handed (ks : List String) : Tamed x { x with handed := ks ++ x.handed } :=
  ⟨rfl, rfl, fun _ h => h, fun _ h => List.mem_append_right _ h⟩

theorem tamed_deleteObject (key : String) (deleted : Bool) :
    Tamed x { x with objects := deleteObject x.objects key deleted } := by
  refine ⟨rfl, rfl, fun obj hobj => ?_, fun _ h => h⟩
  have hobj : obj ∈ deleteObject x.objects key deleted := hobj
  unfold deleteObject at hobj
  split at hobj
  · exact (Table.mem_erase.mp hobj).1
  · exact hobj

/-- From anywhere a request may throw. -/
theorem move_throwing (hx : Tamed x x') (e : Thrown) :
    Move r d x o l (goOn x' (.throwing e)) :=
  .throws hx (Or.inl rfl)

theorem move_throw (hx : Tamed x x') (e : AppError) : Move r d x o l (throw_ x' e) :=
  move_throwing hx _

/-- The database may refuse any statement. -/
theorem move_violates (code : String) : Move r d x o l (violates x code) :=
  move_throwing (Tamed.refl x) _

/-- A resolver that succeeds hands its result on. -/
theorem move_orThrow {α : Type} {res : Except AppError α} {next : α → Loc}
    (h : ∀ a, res = .ok a → Move r d x o l (goOn x (next a))) :
    Move r d x o l (orThrow x res next) := by
  unfold orThrow
  split
  · exact move_throw (Tamed.refl x) _
  · exact h _ rfl

/-- Behind the check of a key, the key is one of the caller's own. -/
theorem move_verifyDocument {key : String} {userId : Nat} {allow : Option Nat} {next : Loc}
    (hx : Tamed x x')
    (h : keyBelongsToUser key userId = true → Move r d x o l (goOn x' next)) :
    Move r d x o l (verifyDocument key userId allow next d x') := by
  unfold verifyDocument
  split
  · exact move_throw hx _
  · rename_i hbelongs
    have hbelongs : keyBelongsToUser key userId = true := by simpa using hbelongs
    split
    · exact h hbelongs
    · split
      · exact h hbelongs
      · exact move_throw hx _

/-- Behind the look into the bucket, there is an object under the key. -/
theorem move_verifyHead {key : String} {next : Loc} {oversized : Nat → Loc}
    (h : ∀ size, headObject x.objects key = some size → Move r d x o l (goOn x next))
    (hover : ∀ size, Move r d x o l (goOn x (oversized size))) :
    Move r d x o l (verifyHead cfg key next oversized x) := by
  unfold verifyHead
  split
  · exact move_throw (Tamed.refl x) _
  · rename_i size hsize
    split
    · exact hover _
    · exact h size hsize

/-- The look for the publication number establishes nothing that lasts. -/
theorem move_publicationNumber {number : Option String} {exceptId : Option Nat} {next : Loc}
    (h : Move r d x o l (goOn x next)) :
    Move r d x o l (assertPublicationNumberFree number exceptId next d x) := by
  unfold assertPublicationNumberFree
  split
  · exact h
  · split
    · exact h
    · split
      · exact h
      · exact move_throw (Tamed.refl x) _

/-- An INSERT of category links that goes through fits the foreign and unique keys. -/
theorem move_insertCategories {id : Nat} {ids : List Nat} {next : Loc}
    (h : CategoriesFit d id ids →
      Move r d x o l ((categoryRows id ids).map .insertCategory, x, next)) :
    Move r d x o l (insertCategories id ids next d x) := by
  unfold insertCategories
  split
  · exact move_violates _
  · rename_i hfit
    split
    · rename_i hknown
      have hrows : (ids.map fun c => Write.insertCategory ⟨id, c⟩) =
          (categoryRows id ids).map .insertCategory := by
        rw [categoryRows, List.map_map]
        rfl
      rw [hrows]
      simp only [Bool.not_eq_true', decide_eq_false_iff_not, not_or, not_not, Bool.not_eq_true,
        List.any_eq_false, Option.isSome_eq_false_iff, Option.isNone_iff_eq_none] at hfit
      exact h ⟨hfit.1, hfit.2, fun c hc => List.all_eq_true.mp hknown c hc⟩
    · exact move_violates _

/-- An INSERT of credits that goes through fits them too. -/
theorem move_insertInventors {id : Nat} {links : List InventorLink} {next : Loc}
    (h : InventorsFit d id links →
      Move r d x o l ((creditRows id links).map .insertInventor, x, next)) :
    Move r d x o l (insertInventors id links next d x) := by
  unfold insertInventors
  split
  · exact move_violates _
  · rename_i hfit
    split
    · rename_i hknown
      have hrows : (links.map fun l => Write.insertInventor ⟨id, l.inventorId, l.inventorOrder⟩) =
          (creditRows id links).map .insertInventor := by
        rw [creditRows, List.map_map]
        rfl
      rw [hrows]
      simp only [Bool.not_eq_true', decide_eq_false_iff_not, not_or, not_not, Bool.not_eq_true,
        List.any_eq_false, Option.isSome_eq_false_iff, Option.isNone_iff_eq_none] at hfit
      exact h ⟨hfit.1, hfit.2, fun l hl => List.all_eq_true.mp hknown l hl⟩
    · exact move_violates _

/-- The rereading finds the row. -/
theorem move_reread {id : Nat} {next : PatentRecord → Loc}
    (h : ∀ row ∈ d.patents, row.id = id → Move r d x o l (goOn x (next (d.patentInclude row)))) :
    Move r d x o l (reread id next d x) := by
  rcases reread_cases id next d x with hr | ⟨row, hrow, hid, hr⟩
  · rw [hr]
    exact move_throwing (Tamed.refl x) _
  · rw [hr]
    exact h row hrow hid

/-- A transition is refused, or it lands. -/
theorem move_transition {id : Nat} {action : Action} {stamp : Time → Patent → Patent}
    {next refused : Loc} (hrefused : Move r d x o l (goOn x refused))
    (h : ∀ row, Lands d id (TRANSITIONS action).from row →
      Move r d x o l ([.updatePatent row (transitioned action stamp o.now row)], x, next)) :
    Move r d x o l (applyTransition id action stamp next refused o d x) := by
  rcases applyTransition_cases id action stamp next refused o d x with hr | ⟨row, hlands, hr⟩
  · rw [hr]
    exact hrefused
  · rw [hr]
    exact h row hlands

/-! ### The statements of each request -/

/-- The checks in front of a review. -/
theorem move_review {action : Action} {admin : Caller} {id : Nat} {comments : Option String}
    (hreq : Reviews r action admin id comments) :
    Move r d x o .start (review admin id action d x) := by
  unfold review
  split
  · exact move_throw (Tamed.refl x) _
  · split
    · exact move_throw (Tamed.refl x) _
    · split
      · exact move_throw (Tamed.refl x) _
      · exact .reviewStart hreq

/-- The first statement of any request. -/
theorem move_start : Move r d x o .start (start cfg r o d x) := by
  unfold start
  cases r with
  | requestUpload user filename contentType =>
    dsimp only
    unfold requestUpload
    split
    · exact .issue rfl
    · exact move_throw (Tamed.refl x) _
  | createPatent user input =>
    exact move_verifyDocument (tamed_handed [input.documentKey]) fun hbelongs =>
      .createStart rfl hbelongs
  | updatePatent user id updates =>
    dsimp only
    unfold updatePatent
    split
    · exact move_throw (tamed_handed _) _
    · rename_i patent hfind
      split
      · exact move_throw (tamed_handed _) _
      · rename_i heditable
        have hmove : Move (.updatePatent user id updates) d x o .start
            ([], { x with handed := updates.documentKey.toList ++ x.handed },
              .update (afterChecks updates patent)) :=
          .updateStart rfl hfind (by simpa using heditable)
        split
        · rename_i hreplacing
          rwa [afterChecks, if_pos hreplacing] at hmove
        · rename_i hreplacing
          rwa [afterChecks, if_neg hreplacing] at hmove
  | submitForReview user id =>
    dsimp only
    unfold submitForReview
    split
    · exact move_throw (tamed_handed []) _
    · split
      · exact move_throw (tamed_handed []) _
      · split
        · exact move_throw (tamed_handed []) _
        · exact .submitStart rfl
  | approvePatent admin id comments => exact move_review .approve
  | declinePatent admin id comments => exact move_review .decline
  | deletePatent user id =>
    dsimp only
    unfold deletePatent
    split
    · exact move_throw (tamed_handed []) _
    · rename_i patent hfind
      split
      · exact move_throw (tamed_handed []) _
      · rename_i hdraft
        exact .deleteStart rfl hfind (by simpa using hdraft)

/-- The statements of `createPatent`. -/
theorem move_create {user : Caller} {input : CreateInput} {c : CreateLoc}
    {f : Oracle → Db → Ext → Outcome} (hreq : r = .createPatent user input)
    (hcode : createCode cfg user input c = .auto f ∨ createCode cfg user input c = .stmt f) :
    Move r d x o (.create c) (f o d x) := by
  cases c with
  | head =>
    rcases hcode with hcode | hcode
    · obtain rfl := Instr.auto.inj hcode
      exact move_verifyHead (fun _ hhead => .createHead hreq hhead) fun _ => .createOversized
    · cases hcode
  | oversized size =>
    rcases hcode with hcode | hcode
    · obtain rfl := Instr.auto.inj hcode
      exact move_throw (tamed_deleteObject _ _) _
    · cases hcode
  | inventorLinks =>
    rcases hcode with hcode | hcode
    · obtain rfl := Instr.auto.inj hcode
      exact move_orThrow fun _ hlinks => .createInventorLinks hreq hlinks
    · cases hcode
  | categoryIds links =>
    rcases hcode with hcode | hcode
    · obtain rfl := Instr.auto.inj hcode
      exact move_orThrow fun _ hids => .createCategoryIds hreq hids
    · cases hcode
  | publication links ids =>
    rcases hcode with hcode | hcode
    · obtain rfl := Instr.auto.inj hcode
      exact move_publicationNumber (.createPublication hreq)
    · cases hcode
  | insert links ids =>
    rcases hcode with hcode | hcode
    · cases hcode
    · obtain rfl := Instr.stmt.inj hcode
      have hx : Tamed x { x with nextPatentId := x.nextPatentId + 1 } :=
        ⟨rfl, rfl, fun _ h => h, fun _ h => h⟩
      unfold insertPatent
      dsimp only
      split
      · exact move_throwing hx _
      · rename_i hfree
        split
        · exact move_throwing hx _
        · exact .createInsert hreq (by simpa using hfree)
  | linkCategories id links ids =>
    rcases hcode with hcode | hcode
    · cases hcode
    · obtain rfl := Instr.stmt.inj hcode
      exact move_insertCategories fun hfit => .createLinkCategories hreq hfit
  | linkInventors id links =>
    rcases hcode with hcode | hcode
    · cases hcode
    · obtain rfl := Instr.stmt.inj hcode
      exact move_insertInventors fun hfit => .createLinkInventors hreq hfit
  | reread id =>
    rcases hcode with hcode | hcode
    · cases hcode
    · obtain rfl := Instr.stmt.inj hcode
      exact move_reread fun _ hrow hid => .createReread hreq hrow hid
  | commit record => rcases hcode with hcode | hcode <;> cases hcode

/-- The statements of `updatePatent`. -/
theorem move_update {user : Caller} {id : Nat} {updates : Updates} {u : UpdateLoc}
    {f : Oracle → Db → Ext → Outcome} (hreq : r = .updatePatent user id updates)
    (hcode : updateCode cfg user id updates u = .auto f ∨
      updateCode cfg user id updates u = .stmt f) :
    Move r d x o (.update u) (f o d x) := by
  cases u with
  | attached patent =>
    rcases hcode with hcode | hcode
    · obtain rfl := Instr.auto.inj hcode
      exact move_verifyDocument (Tamed.refl x) fun hbelongs => .updateAttached hreq hbelongs
    · nomatch hcode
  | head patent =>
    rcases hcode with hcode | hcode
    · obtain rfl := Instr.auto.inj hcode
      exact move_verifyHead (fun _ hhead => .updateHead hreq hhead) fun _ => .updateOversized
    · nomatch hcode
  | oversized size =>
    rcases hcode with hcode | hcode
    · obtain rfl := Instr.auto.inj hcode
      exact move_throw (tamed_deleteObject _ _) _
    · nomatch hcode
  | publication patent =>
    rcases hcode with hcode | hcode
    · obtain rfl := Instr.auto.inj hcode
      exact move_publicationNumber (.updatePublication hreq)
    · nomatch hcode
  | inventorLinks patent =>
    rcases hcode with hcode | hcode
    · obtain rfl := Instr.auto.inj hcode
      dsimp only
      split
      · rename_i hnone
        exact .updateInventorLinks hreq (by simp only [ResolvesInventors, hnone])
      · rename_i inventors hsome
        refine move_orThrow fun links hlinks => .updateInventorLinks hreq ?_
        simp only [ResolvesInventors, hsome]
        exact ⟨links, hlinks, rfl⟩
    · nomatch hcode
  | categoryIds patent links =>
    rcases hcode with hcode | hcode
    · obtain rfl := Instr.auto.inj hcode
      dsimp only
      split
      · rename_i hnone
        exact .updateCategoryIds hreq (by simp only [ResolvesCategories, hnone])
      · rename_i categoryIds hsome
        refine move_orThrow fun ids hids => .updateCategoryIds hreq ?_
        simp only [ResolvesCategories, hsome]
        exact ⟨ids, hids, rfl⟩
    · nomatch hcode
  | write patent links ids =>
    rcases hcode with hcode | hcode
    · nomatch hcode
    · obtain rfl := Instr.stmt.inj hcode
      rcases updateWrite_cases id updates patent links ids o d x with
        hr | hr | ⟨row, hlands, hfree, hr⟩
      · rw [hr]
        exact .updateRefused
      · rw [hr]
        exact move_violates _
      · rw [hr]
        exact .updateWrite hreq hlands hfree
  | refused =>
    rcases hcode with hcode | hcode
    · nomatch hcode
    · obtain rfl := Instr.stmt.inj hcode
      exact move_throw (Tamed.refl x) _
  | unlinkCategories patent links ids =>
    rcases hcode with hcode | hcode
    · nomatch hcode
    · obtain rfl := Instr.stmt.inj hcode
      exact .updateUnlinkCategories hreq
  | linkCategories patent links ids =>
    rcases hcode with hcode | hcode
    · nomatch hcode
    · obtain rfl := Instr.stmt.inj hcode
      exact move_insertCategories fun hfit => .updateLinkCategories hreq hfit
  | unlinkInventors patent links =>
    rcases hcode with hcode | hcode
    · nomatch hcode
    · obtain rfl := Instr.stmt.inj hcode
      exact .updateUnlinkInventors hreq
  | linkInventors patent links =>
    rcases hcode with hcode | hcode
    · nomatch hcode
    · obtain rfl := Instr.stmt.inj hcode
      exact move_insertInventors fun hfit => .updateLinkInventors hreq hfit
  | reread patent =>
    rcases hcode with hcode | hcode
    · nomatch hcode
    · obtain rfl := Instr.stmt.inj hcode
      exact move_reread fun _ hrow hid => .updateReread hreq hrow hid
  | commit patent record => rcases hcode with hcode | hcode <;> nomatch hcode

/-- The statements of `submitForReview`. -/
theorem move_submit {user : Caller} {id : Nat} {s : SubmitLoc} {f : Oracle → Db → Ext → Outcome}
    (hreq : r = .submitForReview user id) (hcode : submitCode id s = .stmt f) :
    Move r d x o (.submit s) (f o d x) := by
  cases s with
  | write =>
    obtain rfl := Instr.stmt.inj hcode
    exact move_transition .submitRefused fun _ hlands => .submitWrite hreq hlands
  | refused =>
    obtain rfl := Instr.stmt.inj hcode
    exact move_throw (Tamed.refl x) _
  | reread =>
    obtain rfl := Instr.stmt.inj hcode
    exact move_reread fun _ hrow _ => .submitReread hrow
  | commit record => nomatch hcode

/-- The review row, with the event that the status before asks for. -/
theorem move_createReview {action : Action} {admin : Caller} {id : Nat} {comments : Option String}
    {before : Option PatentStatus} {record : PatentRecord}
    (hreq : Reviews r action admin id comments) :
    Move r d x o (.review (.create before record))
      (createReview admin id action comments before record o d x) := by
  have hx : Tamed x { x with nextReviewId := x.nextReviewId + 1 } :=
    ⟨rfl, rfl, fun _ h => h, fun _ h => h⟩
  unfold createReview
  dsimp only
  split
  · exact move_throwing hx _
  · cases before with
    | none => exact .throws hx (Or.inr ⟨_, rfl⟩)
    | some before =>
      have hmove : Move r d x o (.review (.create (some before) record))
          ([.insertReview (reviewRow admin id action comments x.nextReviewId o.now)],
            { x with nextReviewId := x.nextReviewId + 1 },
            .review (afterReview (buildEvent action record before o) record)) :=
        .reviewCreate hreq
      dsimp only
      split
      · rename_i hnone
        rwa [hnone] at hmove
      · rename_i event hsome
        rwa [hsome] at hmove

/-- The statements of `approvePatent` and `declinePatent`. -/
theorem move_reviewCode {action : Action} {admin : Caller} {id : Nat} {comments : Option String}
    {s : ReviewLoc} {f : Oracle → Db → Ext → Outcome} (hreq : Reviews r action admin id comments)
    (hcode : reviewCode admin id action comments s = .stmt f) :
    Move r d x o (.review s) (f o d x) := by
  cases s with
  | before =>
    obtain rfl := Instr.stmt.inj hcode
    exact .reviewBefore
  | write before =>
    obtain rfl := Instr.stmt.inj hcode
    exact move_transition .reviewRefused fun _ hlands => .reviewWrite hreq hlands
  | refused =>
    obtain rfl := Instr.stmt.inj hcode
    exact move_throw (Tamed.refl x) _
  | reread before =>
    obtain rfl := Instr.stmt.inj hcode
    exact move_reread fun _ hrow hid => .reviewReread hreq hrow hid
  | create before record =>
    obtain rfl := Instr.stmt.inj hcode
    exact move_createReview hreq
  | enqueue event record =>
    obtain rfl := Instr.stmt.inj hcode
    exact .reviewEnqueue hreq
  | commit record => nomatch hcode

/-- The statements of `deletePatent`. -/
theorem move_delete {user : Caller} {id : Nat} {s : DeleteLoc} {f : Oracle → Db → Ext → Outcome}
    (hreq : r = .deletePatent user id) (hcode : deleteCode id s = .stmt f) :
    Move r d x o (.delete s) (f o d x) := by
  cases s with
  | write patent =>
    obtain rfl := Instr.stmt.inj hcode
    dsimp only
    rcases deleteWrite_cases id patent d x with hr | ⟨row, hlands, hr⟩
    · rw [hr]
      exact .deleteRefused
    · rw [hr]
      exact .deleteWrite hreq hlands
  | refused =>
    obtain rfl := Instr.stmt.inj hcode
    exact move_throw (Tamed.refl x) _
  | commit patent => nomatch hcode

/-- The deletion of an object after the commit. -/
theorem move_discardObject {key : Option String} {reply : Reply} :
    Move r d x o (.discard key reply) (discardObject key reply o x) := by
  unfold discardObject
  split
  · exact .discard (Tamed.refl x)
  · exact .discard (tamed_deleteObject _ _)

/-- **Every statement makes a move.** -/
theorem move_of_code {reqs : Nat → Request} {p : Nat} {f : Oracle → Db → Ext → Outcome}
    (hcode : code cfg reqs p l = .auto f ∨ code cfg reqs p l = .stmt f) :
    Move (reqs p) d x o l (f o d x) := by
  have hexec : ∃ i, Executes cfg (reqs p) i l ∧ (i = .auto f ∨ i = .stmt f) := by
    rcases hcode with hcode | hcode
    · exact ⟨_, executes_of_code hcode nofun, Or.inl rfl⟩
    · exact ⟨_, executes_of_code hcode nofun, Or.inr rfl⟩
  obtain ⟨i, hexec, hi⟩ := hexec
  cases hexec with
  | start hi' =>
    rcases hi with rfl | rfl
    · obtain rfl := Instr.auto.inj hi'
      exact move_start
    · nomatch hi'
  | create hreq hi' => exact move_create hreq (by rwa [hi'])
  | update hreq hi' => exact move_update hreq (by rwa [hi'])
  | @submit user id s hreq hi' =>
    rcases hi with rfl | rfl
    · cases s <;> nomatch hi'
    · exact move_submit hreq hi'
  | @review action admin id comments s hreq hi' =>
    rcases hi with rfl | rfl
    · cases s <;> nomatch hi'
    · exact move_reviewCode hreq hi'
  | @delete user id s hreq hi' =>
    rcases hi with rfl | rfl
    · cases s <;> nomatch hi'
    · exact move_delete hreq hi'
  | discard hi' =>
    rcases hi with rfl | rfl
    · obtain rfl := Instr.auto.inj hi'
      exact move_discardObject
    · nomatch hi'
  | throwing hi' =>
    rcases hi with rfl | rfl
    · nomatch hi'
    · nomatch hi'

/-- Only `requestUpload` issues a key, and nothing uploads. -/
theorem Move.tamed {res : Outcome} (h : Move r d x o l res) : Tamed x res.2.1 ∨
    ∃ user filename contentType, r = .requestUpload user filename contentType ∧ res.2.1 =
      { x with
        issued := (user.userId, buildObjectKey user.userId o.uuid filename) :: x.issued } := by
  have hsame : ∀ {x' : Ext}, x'.issued = x.issued → x'.uploaded = x.uploaded →
      x'.objects = x.objects → x'.handed = x.handed → Tamed x x' := by
    intro x' hissued huploaded hobjects hhanded
    exact ⟨hissued, huploaded, fun _ h => hobjects ▸ h, fun _ h => hhanded ▸ h⟩
  cases h with
  | throws hx => exact Or.inl hx
  | issue hreq => exact Or.inr ⟨_, _, _, hreq, rfl⟩
  | @createStart user input => exact Or.inl (tamed_handed [input.documentKey])
  | updateStart => exact Or.inl (tamed_handed _)
  | discard hx => exact Or.inl hx
  | _ => exact Or.inl (hsame rfl rfl rfl rfl)

/-- A commit ends the request, or leaves it with an object to discard. -/
theorem next_of_code_commit {reqs : Nat → Request} {p : Nat} {l' : Loc}
    (hcode : code cfg reqs p l = .commit l') :
    (∃ reply, l' = .done reply) ∨ ∃ key reply, l' = .discard key reply := by
  cases executes_of_code hcode nofun with
  | @create user input c hreq hi =>
    cases c <;> first | exact Or.inl ⟨_, (Instr.commit.inj hi).symm⟩ | nomatch hi
  | @update user id updates u hreq hi =>
    cases u with
    | commit patent record =>
      obtain rfl := Instr.commit.inj hi
      split
      · exact Or.inr ⟨_, _, rfl⟩
      · exact Or.inl ⟨_, rfl⟩
    | _ => nomatch hi
  | @submit user id c hreq hi =>
    cases c <;> first | exact Or.inl ⟨_, (Instr.commit.inj hi).symm⟩ | nomatch hi
  | @review action admin id comments c hreq hi =>
    cases c <;> first | exact Or.inl ⟨_, (Instr.commit.inj hi).symm⟩ | nomatch hi
  | @delete user id c hreq hi =>
    cases c <;> first | exact Or.inr ⟨_, _, (Instr.commit.inj hi).symm⟩ | nomatch hi
  | start hi => nomatch hi
  | discard hi => nomatch hi
  | throwing hi => nomatch hi

end Moves

end SmartPatents.PatentService
