/-
  One edit from beginning to end, with nobody else at work.

  The tables and the store may be in any state when the request starts.  If `updatePatent` throws, its
  transaction has been rolled back or has not begun, and the one thing it can have deleted is the
  object it was given, if that was too large; no patent has the key of such an object, because
  `verifyDocument` looked before it measured.  If `updatePatent` returns, exactly what was supplied is
  written, and the old document is discarded if another one was supplied (`updatePatent_alone`).

  A run makes at most one delete, so whether the store carries out its deletes is fixed for a run.  A
  statement may fail at any point before the commit; after it there is only `deleteObject`, which
  catches what it throws.

  The parts of the result, one definition each:

  * `Threw`: the tables are as before, and what is gone from the store is at most the oversized
    object that was supplied;
  * `Committed`: the caller was entitled, the row has the supplied fields, and the supplied lists
    have replaced the links;
  * `Discarded`: the old object is gone if and only if another key was supplied and the store
    carried the delete out, and every other object is where it was.

  `EditAt` is the assertion of the proof, one clause for each location of the update: what has
  been written so far, and what has been read.
-/
import SmartPatents.Lib.Lone
import SmartPatents.PatentLinks

namespace SmartPatents.UpdateAlone

open ReadCommitted Runs Access Lifecycle Relations Storage PatentEvents PatentService

/-! ## What an edit does -/

/-- Some supplied field of the content differs from the stored one. -/
def Differs (updates : Updates) (old : Patent) : Prop :=
  (∃ t, updates.title = some t ∧ t ≠ old.title) ∨
    (∃ t, updates.abstract = some t ∧ t ≠ old.abstract) ∨
    (∃ t, updates.specification = some t ∧ t ≠ old.specification) ∨
    ∃ k, updates.documentKey = some k ∧ some k ≠ old.documentKey

/-- A document key other than the stored one is supplied. -/
def Replaces (updates : Updates) (old : Patent) : Prop :=
  ∃ k, updates.documentKey = some k ∧ some k ≠ old.documentKey

/-- `new` is `old` with the supplied fields, and a new version if they differ. -/
structure Rewritten (updates : Updates) (old new : Patent) : Prop where
  title : new.title = updates.title.getD old.title
  abstract : new.abstract = updates.abstract.getD old.abstract
  specification : new.specification = updates.specification.getD old.specification
  documentKey : new.documentKey = updates.documentKey.or old.documentKey
  publicationNumber : new.publicationNumber = updates.publicationNumber.getD old.publicationNumber
  jurisdiction : new.jurisdiction = updates.jurisdiction.getD old.jurisdiction
  grown : Differs updates old → new.version = old.version + 1
  kept : ¬ Differs updates old → new.version = old.version
  id : new.id = old.id
  status : new.status = old.status
  submittedBy : new.submittedBy = old.submittedBy
  submittedAt : new.submittedAt = old.submittedAt
  reviewedAt : new.reviewedAt = old.reviewedAt
  createdAt : new.createdAt = old.createdAt

section Spec

variable (cfg : Config) (user : Caller) (id : Nat) (updates : Updates) (deleted : Bool) (d₀ : Db)
  (objects₀ : Bucket)

/-- The supplied object is over the limit, and no patent references it. -/
structure Oversized (key : String) : Prop where
  supplied : updates.documentKey = some key
  large : ∃ size, headObject objects₀ key = some size ∧ cfg.maxUploadBytes < size
  unreferenced : ∀ row ∈ d₀.patents, row.documentKey ≠ some key

/-- What an edit that throws leaves behind. -/
structure Threw (d : Db) (objects : Bucket) : Prop where
  tables : d = d₀
  storage : objects = objects₀ ∨
    ∃ key, Oversized cfg updates d₀ objects₀ key ∧ objects = objects₀.erase key

/-- What an edit that returns `record` has made of the tables: `old` is now `new`. -/
structure Committed (record : PatentRecord) (d : Db) (old new : Patent) : Prop where
  row : old ∈ d₀.patents
  target : old.id = id
  caller : old.submittedBy = user.userId ∨ user.isAdmin = true
  status : old.status = .draft ∨ old.status = .declined
  rewritten : Rewritten updates old new
  patents : d.patents = d₀.patents.put new
  categoryLinks : d.categoryLinksOf id =
    match updates.categoryIds with
    | none => d₀.categoryLinksOf id
    | some ids => ids.map fun c => ⟨id, bigInt c⟩
  creditLinks : credits.ofPatent d id =
    match updates.inventors with
    | none => credits.ofPatent d₀ id
    | some entries => entries.mapIdx fun index e =>
        ⟨id, bigInt e.inventorId, e.order.getD (index + 1)⟩
  otherLinks : ∀ other, other ≠ id → d.categoryLinksOf other = d₀.categoryLinksOf other ∧
    credits.ofPatent d other = credits.ofPatent d₀ other
  reviews : d.reviews = d₀.reviews
  events : d.outbox = d₀.outbox
  references : d.users = d₀.users ∧ d.inventors = d₀.inventors ∧ d.categories = d₀.categories
  reply : record = d.patentInclude new

/-- What it has made of the store. -/
structure Discarded (objects : Bucket) (old : Patent) : Prop where
  /-- The previous document is gone if and only if it was replaced and the delete succeeded. -/
  previous : ∀ key, truthy old.documentKey = some key → (headObject objects₀ key).isSome →
    (headObject objects key = none ↔ Replaces updates old ∧ deleted = true)
  others : ∀ obj : StoredObject, old.documentKey ≠ some obj.key → (obj ∈ objects ↔ obj ∈ objects₀)

/-- An edit that returns. -/
structure Returned (record : PatentRecord) (d : Db) (objects : Bucket) (old new : Patent) :
    Prop where
  tables : Committed user id updates d₀ record d old new
  storage : Discarded updates deleted objects₀ objects old

end Spec

/-- Nothing throws after the commit. -/
def MayFail : Loc → Prop
  | .discard _ _ | .done _ => False
  | _ => True

instance : DecidablePred MayFail
  | .discard _ _ | .done _ => .isFalse id
  | .start | .create _ | .update _ | .submit _ | .review _ | .delete _ | .throwing _ =>
    .isTrue trivial

/-- Request `p` runs alone. -/
abbrev Alone (p : Nat) (deleted : Bool) :
    State Db Ext Write Loc → Act Oracle Upload → Prop :=
  lone p (fun o : Oracle => o.deleted = deleted) MayFail

/-! ## Step by step -/

section Assertions

variable (cfg : Config) (user : Caller) (id : Nat) (updates : Updates) (deleted : Bool) (d₀ : Db)
  (objects₀ : Bucket)

/-- Nothing has been committed and nothing deleted. -/
structure Still (b : Base Db Ext Write) : Prop where
  tables : b.db = d₀
  objects : b.world.objects = objects₀

/-- The record that the edit has read. -/
structure Reading (patent : PatentRecord) : Prop where
  found : findOwnedPatent id user d₀ = .ok patent
  editable : patent.status ∈ EDITABLE_STATUSES

/-- The row has been written at `now`, and then links of it. -/
structure Writing (patent : PatentRecord) (now : Time) (ws : List Write) : Prop where
  written : ∃ vs : List Write, ws = .updatePatent patent.toPatent
      (edited updates patent.toPatent patent.toPatent now) :: vs ∧ ∀ w ∈ vs, w.linkOf = some id

/-- What an update has written at each of its locations, and what it knows of the row. -/
def EditAt (ws : List Write) : UpdateLoc → Prop
  | .attached patent =>
    ws = [] ∧ Reading user id d₀ patent ∧ replacingDocument updates patent.toPatent = true
  | .head patent =>
    ws = [] ∧ Reading user id d₀ patent ∧ ∃ key, updates.documentKey = some key ∧
      ∀ row ∈ d₀.patents, row.documentKey ≠ some key
  | .oversized _ => ws = [] ∧ ∃ key, Oversized cfg updates d₀ objects₀ key
  | .publication patent | .inventorLinks patent | .categoryIds patent _ | .write patent _ _ =>
    ws = [] ∧ Reading user id d₀ patent
  | .refused => ws = []
  | .unlinkCategories patent _ _ | .linkCategories patent _ _ | .unlinkInventors patent _
  | .linkInventors patent _ | .reread patent =>
    Reading user id d₀ patent ∧ ∃ now, Writing id updates patent now ws
  | .commit patent record =>
    Reading user id d₀ patent ∧ ∃ now, Writing id updates patent now ws ∧
      record = (after d₀ ws).patentInclude (edited updates patent.toPatent patent.toPatent now)

/-- The same for every location of the request, with the tables behind it: an update that runs alone
    has changed nothing until it commits. -/
def AloneAt (l : Loc) (b : Base Db Ext Write) (ws : List Write) : Prop :=
  match l with
  | .start => Still d₀ objects₀ b ∧ ws = []
  | .update u => Still d₀ objects₀ b ∧ EditAt cfg user id updates d₀ objects₀ ws u
  | .discard key reply => ws = [] ∧ b.world.objects = objects₀ ∧ ∃ record old new,
      reply = .patent record ∧ Committed user id updates d₀ record b.db old new ∧
        key = old.documentKey ∧ Replaces updates old
  | .throwing _ | .done (.thrown _) => Threw cfg updates d₀ objects₀ b.db b.world.objects
  | .done (.patent record) => ∃ old new,
      Returned user id updates deleted d₀ objects₀ record b.db b.world.objects old new
  | _ => False

end Assertions

section Facts

variable {cfg : Config} {user : Caller} {id : Nat} {updates : Updates} {deleted : Bool} {d₀ : Db}
  {objects₀ : Bucket} {patent : PatentRecord} {b : Base Db Ext Write} {ws vs : List Write}
  {now : Time}

/-- Who may edit: the submitter, or an admin. -/
theorem owner_of_findOwnedPatent (h : findOwnedPatent id user d₀ = .ok patent) :
    patent.submittedBy = user.userId ∨ user.isAdmin = true := by
  obtain ⟨row, hrow, hid, heq⟩ := row_of_findOwnedPatent h
  rw [findOwnedPatent, Table.get?_eq_some.mpr ⟨hrow, hid⟩] at h
  dsimp only at h
  split at h
  · nomatch h
  · rename_i hdenied
    rw [heq]
    by_cases howner : row.submittedBy = user.userId
    · exact Or.inl howner
    · refine Or.inr ?_
      simpa [howner] using hdenied

/-- What the request has read is a row of the table. -/
theorem Reading.row (h : Reading user id d₀ patent) :
    patent.toPatent ∈ d₀.patents ∧ patent.id = id := by
  obtain ⟨row, hrow, hid, heq⟩ := row_of_findOwnedPatent h.found
  exact ⟨heq ▸ hrow, heq ▸ hid⟩

theorem Reading.status (h : Reading user id d₀ patent) :
    patent.status = .draft ∨ patent.status = .declined := by
  simpa [EDITABLE_STATUSES] using h.editable

/-- A supplied key has passed the validator, so it is not empty. -/
theorem truthy_supplied (hkey : ∀ key, updates.documentKey = some key → documentKeyField key = true) :
    truthy updates.documentKey = updates.documentKey := by
  cases hsupplied : updates.documentKey with
  | none => rfl
  | some key => simp [truthy, ne_empty_of_documentKeyField (hkey key hsupplied)]

/-- The code's test for another document, on keys that the pattern admits. -/
theorem replacingDocument_iff
    (hkey : ∀ key, updates.documentKey = some key → documentKeyField key = true) {old : Patent} :
    replacingDocument updates old = true ↔ Replaces updates old := by
  rw [replacingDocument, truthy_supplied hkey, Option.any_eq_true]
  simp [Replaces]

/-- The code's test for a change of content. -/
theorem contentChanged_iff {old : Patent} :
    contentChanged updates old = true ↔ Differs updates old := by
  simp only [contentChanged, Bool.or_eq_true, Option.any_eq_true, bne_iff_ne, Differs, or_assoc]

/-- What the UPDATE makes of the row, column by column. -/
theorem rewritten_edited (updates : Updates) (old : Patent) (now : Time) :
    Rewritten updates old (edited updates old old now) where
  title := rfl
  abstract := rfl
  specification := rfl
  documentKey := rfl
  publicationNumber := rfl
  jurisdiction := rfl
  grown := fun h => if_pos (contentChanged_iff.mpr h)
  kept := fun h => if_neg fun hchanged => h (contentChanged_iff.mp hchanged)
  id := rfl
  status := rfl
  submittedBy := rfl
  submittedAt := rfl
  reviewedAt := rfl
  createdAt := rfl

/-- One more statement on the links. -/
theorem Writing.links (h : Writing id updates patent now ws) (hvs : ∀ w ∈ vs, w.linkOf = some id) :
    Writing id updates patent now (ws ++ vs) := by
  obtain ⟨us, rfl, hus⟩ := h.written
  refine ⟨us ++ vs, rfl, fun w hw => ?_⟩
  rcases List.mem_append.mp hw with hw | hw
  · exact hus w hw
  · exact hvs w hw

/-- The patent service writes no row of the tables that it refers to. -/
theorem references_after (d : Db) (ws : List Write) :
    (after d ws).users = d.users ∧ (after d ws).inventors = d.inventors ∧
      (after d ws).categories = d.categories := by
  let references := fun d : Db => (d.users, d.inventors, d.categories)
  have hkept : references (after d ws) = references d :=
    Writes.keeps apply references fun w _ d => by cases w <;> rfl
  simpa only [references, Prod.mk.injEq] using hkept

/-- **A complete transaction of an edit.** -/
theorem committed_of_writing (hread : Reading user id d₀ patent)
    (hws : Writing id updates patent now ws)
    (hlinked : Linked (.updatePatent user id updates) d₀ id ws) :
    Committed user id updates d₀
      ((after d₀ ws).patentInclude (edited updates patent.toPatent patent.toPatent now))
      (after d₀ ws) patent.toPatent (edited updates patent.toPatent patent.toPatent now) := by
  obtain ⟨hrow, hid⟩ := hread.row
  obtain ⟨hcategories, hcredits⟩ := hlinked.after
  obtain ⟨vs, rfl, hvs⟩ := hws.written
  obtain ⟨hpatents, hreviews, hevents⟩ := tables_of_update hvs
  have hother : ∀ other, other ≠ id →
      ∀ w ∈ Write.updatePatent patent.toPatent
        (edited updates patent.toPatent patent.toPatent now) :: vs, w.relinks ≠ some other := by
    intro other hne w hw
    rcases List.mem_cons.mp hw with rfl | hw
    · nofun
    · rw [relinks_of_linkOf (hvs w hw)]
      exact fun heq => hne (Option.some.inj heq).symm
  refine
    { row := hrow
      target := hid
      caller := owner_of_findOwnedPatent hread.found
      status := hread.status
      rewritten := rewritten_edited _ _ _
      patents := hpatents
      categoryLinks := ?_
      creditLinks := ?_
      otherLinks := fun other hne => ⟨LinkTable.ofPatent_after (T := categoryLinks) (hother other hne),
        LinkTable.ofPatent_after (hother other hne)⟩
      reviews := hreviews
      events := hevents
      references := references_after _ _
      reply := rfl }
  · rw [← ofPatent_categoryLinks, hcategories]
    cases hsupplied : updates.categoryIds with
    | none => simp [setsCategories, hsupplied, ofPatent_categoryLinks]
    | some ids => simp [setsCategories, hsupplied, categoryRows]
  · rw [hcredits]
    cases hsupplied : updates.inventors with
    | none => simp [setsCredits, hsupplied]
    | some entries =>
      simp only [setsCredits, hsupplied, Option.map_some, Option.getD_some, creditRows,
        requestedLinks]
      refine List.ext_getElem (by simp) fun i hi hi' => ?_
      rw [List.getElem_map, List.getElem_mapIdx, List.getElem_mapIdx]

/-! ## Every statement leads to the next assertion -/

/-- Drawing ids disturbs nobody. -/
theorem Still.world {x : Ext} (h : Still d₀ objects₀ b) (hx : x.objects = b.world.objects) :
    Still d₀ objects₀ { b with world := x } :=
  ⟨h.tables, hx.trans h.objects⟩

/-- Who throws before writing has changed nothing. -/
theorem Still.threw (h : Still d₀ objects₀ b) :
    Threw cfg updates d₀ objects₀ b.db b.world.objects :=
  ⟨h.tables, Or.inl h.objects⟩

/-- What a statement outside the transaction leads to. -/
def AutoAt (cfg : Config) (user : Caller) (id : Nat) (updates : Updates) (deleted : Bool) (d₀ : Db)
    (objects₀ : Bucket) (b : Base Db Ext Write) (res : Outcome) : Prop :=
  res.1 = [] ∧ AloneAt cfg user id updates deleted d₀ objects₀ res.2.2 { b with world := res.2.1 } []

/-- What a statement of the transaction leads to. -/
def StmtAt (cfg : Config) (user : Caller) (id : Nat) (updates : Updates) (deleted : Bool) (d₀ : Db)
    (objects₀ : Bucket) (b : Base Db Ext Write) (ws : List Write) (res : Outcome) : Prop :=
  AloneAt cfg user id updates deleted d₀ objects₀ res.2.2 { b with world := res.2.1 } (ws ++ res.1)

theorem autoAt_goOn {l : Loc} {x : Ext}
    (h : AloneAt cfg user id updates deleted d₀ objects₀ l { b with world := x } []) :
    AutoAt cfg user id updates deleted d₀ objects₀ b (goOn x l) := ⟨rfl, h⟩

/-- A check that fails leaves tables and bucket as they were. -/
theorem autoAt_throw {x : Ext} (h : Still d₀ objects₀ { b with world := x }) (e : AppError) :
    AutoAt cfg user id updates deleted d₀ objects₀ b (throw_ x e) := ⟨rfl, h.threw⟩

theorem autoAt_orThrow {α : Type} {r : Except AppError α} {next : α → Loc} (h : Still d₀ objects₀ b)
    (hnext : ∀ a, AloneAt cfg user id updates deleted d₀ objects₀ (next a) b []) :
    AutoAt cfg user id updates deleted d₀ objects₀ b (orThrow b.world r next) := by
  unfold orThrow
  split
  · exact autoAt_throw h _
  · exact autoAt_goOn (hnext _)

theorem stmtAt_goOn {l : Loc} (h : AloneAt cfg user id updates deleted d₀ objects₀ l b ws) :
    StmtAt cfg user id updates deleted d₀ objects₀ b ws (goOn b.world l) := by
  rw [StmtAt, goOn, List.append_nil]
  exact h

/-- A statement that throws has its transaction rolled back. -/
theorem stmtAt_throwing (h : Still d₀ objects₀ b) (e : Thrown) :
    StmtAt cfg user id updates deleted d₀ objects₀ b ws (goOn b.world (.throwing e)) :=
  stmtAt_goOn h.threw

/-- The first statement: the patent is read and may be edited. -/
theorem autoAt_start {o : Oracle}
    (h : Still d₀ objects₀ b) :
    AutoAt cfg user id updates deleted d₀ objects₀ b
      (start cfg (.updatePatent user id updates) o b.db b.world) := by
  have hworld : Still d₀ objects₀
      { b with world := { b.world with handed := updates.documentKey.toList ++ b.world.handed } } :=
    h.world rfl
  simp only [start, Request.documentKey, updatePatent, h.tables]
  split
  · exact autoAt_throw hworld _
  · rename_i patent hfound
    split
    · exact autoAt_throw hworld _
    · rename_i heditable
      have hread : Reading user id d₀ patent := ⟨hfound, by simpa using heditable⟩
      split
      · rename_i hreplacing
        exact autoAt_goOn ⟨hworld, rfl, hread, hreplacing⟩
      · exact autoAt_goOn ⟨hworld, rfl, hread⟩

/-- `verifyDocument` lets a key through that no patent has. -/
theorem autoAt_verifyDocument (h : Still d₀ objects₀ b) (hread : Reading user id d₀ patent)
    (hreplacing : replacingDocument updates patent.toPatent = true)
    (hkey : ∀ key, updates.documentKey = some key → documentKeyField key = true) :
    AutoAt cfg user id updates deleted d₀ objects₀ b
      (verifyDocument (updates.documentKey.getD "") user.userId (some id) (.update (.head patent))
        b.db b.world) := by
  obtain ⟨key, hsupplied, hother⟩ := (replacingDocument_iff hkey).mp hreplacing
  rw [h.tables, hsupplied, Option.getD_some]
  unfold verifyDocument
  split
  · exact autoAt_throw h _
  · split
    · rename_i hnone
      refine autoAt_goOn ⟨h, rfl, hread, key, hsupplied, fun row hrow heq => ?_⟩
      have hmiss := Table.find?_none hnone row hrow
      simp [heq] at hmiss
    · rename_i attached hsome
      split
      -- the patent itself does not have the key, or nothing would be replaced
      · rename_i hallowed
        obtain ⟨hmem, hattached⟩ := Table.find?_some hsome
        obtain ⟨hrow, hid⟩ := hread.row
        have hsame : attached = patent.toPatent :=
          Table.eq_of_key hmem hrow ((Option.some.inj hallowed).symm.trans hid.symm)
        exact absurd (eq_of_beq (hsame ▸ hattached)).symm hother
      · exact autoAt_throw h _

/-- The look into the bucket: no object, an oversized one, or one that will do. -/
theorem autoAt_verifyHead {key : String} (h : Still d₀ objects₀ b) (hread : Reading user id d₀ patent)
    (hsupplied : updates.documentKey = some key)
    (hunreferenced : ∀ row ∈ d₀.patents, row.documentKey ≠ some key) :
    AutoAt cfg user id updates deleted d₀ objects₀ b
      (verifyHead cfg (updates.documentKey.getD "") (.update (.publication patent))
        (fun s => .update (.oversized s)) b.world) := by
  rw [hsupplied, Option.getD_some]
  unfold verifyHead
  split
  · exact autoAt_throw h _
  · rename_i size hsize
    rw [h.objects] at hsize
    split
    · rename_i hlarge
      exact autoAt_goOn ⟨h, rfl, key, hsupplied, ⟨size, hsize, hlarge⟩, hunreferenced⟩
    · exact autoAt_goOn ⟨h, rfl, hread⟩

/-- The delete of an oversized upload is all that a failed edit can do to the store. -/
theorem autoAt_discardOversized {key : String} {size : Nat} {o : Oracle} (h : Still d₀ objects₀ b)
    (hoversized : Oversized cfg updates d₀ objects₀ key) :
    AutoAt cfg user id updates deleted d₀ objects₀ b
      (discardOversized cfg (updates.documentKey.getD "") size o b.world) := by
  rw [hoversized.supplied, Option.getD_some]
  refine ⟨rfl, h.tables, ?_⟩
  have hobjects : (discardOversized cfg key size o b.world).2.1.objects =
      deleteObject objects₀ key o.deleted := by
    rw [← h.objects]
    rfl
  rw [hobjects]
  unfold deleteObject
  split
  · exact Or.inr ⟨key, hoversized, rfl⟩
  · exact Or.inl rfl

/-- The look for the publication number changes nothing. -/
theorem autoAt_publication {number : Option String} (h : Still d₀ objects₀ b)
    (hread : Reading user id d₀ patent) :
    AutoAt cfg user id updates deleted d₀ objects₀ b
      (assertPublicationNumberFree number (some id) (.update (.inventorLinks patent)) b.db
        b.world) := by
  unfold assertPublicationNumberFree
  split
  · exact autoAt_goOn ⟨h, rfl, hread⟩
  · split
    · exact autoAt_goOn ⟨h, rfl, hread⟩
    · split
      · exact autoAt_goOn ⟨h, rfl, hread⟩
      · exact autoAt_throw h _

/-- What has been written of the row is still all, or links follow. -/
theorem aloneAt_thenInventors {links : Option (List InventorLink)} (h : Still d₀ objects₀ b)
    (hread : Reading user id d₀ patent) (hws : Writing id updates patent now ws) :
    AloneAt cfg user id updates deleted d₀ objects₀ (thenInventors patent links) b ws := by
  cases links with
  | none => exact ⟨h, hread, now, hws⟩
  | some links => exact ⟨h, hread, now, hws⟩

theorem aloneAt_thenCategories {links : Option (List InventorLink)} {ids : Option (List Nat)}
    (h : Still d₀ objects₀ b) (hread : Reading user id d₀ patent)
    (hws : Writing id updates patent now ws) :
    AloneAt cfg user id updates deleted d₀ objects₀ (thenCategories patent links ids) b ws := by
  cases ids with
  | none => exact aloneAt_thenInventors h hread hws
  | some ids => exact ⟨h, hread, now, hws⟩

/-- Alone, the row that the guarded UPDATE lands on is the one that was read. -/
theorem stmtAt_updateWrite {links : Option (List InventorLink)} {ids : Option (List Nat)}
    {o : Oracle} (h : Still d₀ objects₀ b) (hread : Reading user id d₀ patent) :
    StmtAt cfg user id updates deleted d₀ objects₀ b []
      (updateWrite id updates patent links ids o (after b.db []) b.world) := by
  rcases updateWrite_cases id updates patent links ids o (after b.db []) b.world with
    hrefused | hclash | ⟨row, hlands, hfree, hwrite⟩
  · rw [hrefused]
    exact stmtAt_goOn ⟨h, rfl⟩
  · rw [hclash]
    exact stmtAt_throwing h _
  · have hrow : row = patent.toPatent :=
      Table.eq_of_key hlands.mem (h.tables ▸ hread.row.1) (hlands.id.trans hread.row.2.symm)
    subst hrow
    rw [hwrite]
    exact aloneAt_thenCategories (h.world rfl) hread ⟨[], rfl, fun _ hw => absurd hw List.not_mem_nil⟩

/-- A statement on the links of the patent. -/
theorem stmtAt_links {l : Loc} (hvs : ∀ w ∈ vs, w.linkOf = some id)
    (hws : Writing id updates patent now ws)
    (hnext : Writing id updates patent now (ws ++ vs) →
      AloneAt cfg user id updates deleted d₀ objects₀ l b (ws ++ vs)) :
    StmtAt cfg user id updates deleted d₀ objects₀ b ws (vs, b.world, l) :=
  hnext (hws.links hvs)

/-- The category links go into the same transaction. -/
theorem stmtAt_insertCategories {ids : List Nat} {next : Loc} {d : Db} (h : Still d₀ objects₀ b)
    (hws : Writing id updates patent now ws)
    (hnext : ∀ {vs}, Writing id updates patent now vs →
      AloneAt cfg user id updates deleted d₀ objects₀ next b vs) :
    StmtAt cfg user id updates deleted d₀ objects₀ b ws
      (insertCategories id ids next d b.world) := by
  rcases insertCategories_cases id ids next d b.world with ⟨code, hr⟩ | hr
  · rw [hr]
    exact stmtAt_throwing h _
  · rw [hr]
    refine stmtAt_links (fun w hw => ?_) hws hnext
    obtain ⟨c, -, rfl⟩ := List.mem_map.mp hw
    rfl

theorem stmtAt_insertInventors {links : List InventorLink} {next : Loc} {d : Db}
    (h : Still d₀ objects₀ b) (hws : Writing id updates patent now ws)
    (hnext : ∀ {vs}, Writing id updates patent now vs →
      AloneAt cfg user id updates deleted d₀ objects₀ next b vs) :
    StmtAt cfg user id updates deleted d₀ objects₀ b ws
      (insertInventors id links next d b.world) := by
  rcases insertInventors_cases id links next d b.world with ⟨code, hr⟩ | hr
  · rw [hr]
    exact stmtAt_throwing h _
  · rw [hr]
    refine stmtAt_links (fun w hw => ?_) hws hnext
    obtain ⟨l, -, rfl⟩ := List.mem_map.mp hw
    rfl

/-- The record that is returned is that of the new row. -/
theorem stmtAt_reread (h : Still d₀ objects₀ b) (hread : Reading user id d₀ patent)
    (hws : Writing id updates patent now ws) :
    StmtAt cfg user id updates deleted d₀ objects₀ b ws
      (reread id (fun r => .update (.commit patent r)) (after b.db ws) b.world) := by
  rcases reread_cases id (fun r => .update (.commit patent r)) (after b.db ws) b.world with
    hr | ⟨row, hrow, hid, hr⟩
  · rw [hr]
    exact stmtAt_throwing h _
  · rw [hr]
    refine stmtAt_goOn ⟨h, hread, now, hws, ?_⟩
    rw [h.tables] at hrow ⊢
    obtain ⟨vs, rfl, hvs⟩ := hws.written
    let new := edited updates patent.toPatent patent.toPatent now
    have hpatents : (after d₀ (.updatePatent patent.toPatent new :: vs)).patents =
        d₀.patents.put new := (tables_of_update hvs).1
    have hnew : new ∈ d₀.patents.put new := Table.mem_put.mpr (Or.inl rfl)
    rw [hpatents] at hrow
    rw [Table.eq_of_key hrow hnew (hid.trans hread.row.2.symm)]

/-! ## The store -/

/-- An edit that keeps its document discards nothing. -/
theorem discarded_of_kept {old : Patent} (h : ¬ Replaces updates old) :
    Discarded updates deleted objects₀ objects₀ old where
  previous := by
    intro key hkey hstored
    refine iff_of_false (fun hnone => ?_) fun hreplaces => h hreplaces.1
    rw [hnone] at hstored
    nomatch hstored
  others := fun _ _ => Iff.rfl

/-- The delete of the previous document. -/
theorem discarded_of_delete {old : Patent} {key : String} (h : Replaces updates old)
    (hkey : old.documentKey = some key) :
    Discarded updates deleted objects₀ (deleteObject objects₀ key deleted) old where
  previous := by
    intro k hk hstored
    have hk' := Option.filter_eq_some_iff.mp hk
    obtain rfl : k = key := Option.some.inj (hk'.1.symm.trans hkey)
    have hne : k ≠ "" := by simpa using hk'.2
    unfold deleteObject
    cases deleted with
    | true =>
      refine iff_of_true ?_ ⟨h, rfl⟩
      rw [if_pos ⟨hne, rfl⟩, headObject, Option.map_eq_none_iff, Table.get?_eq_none]
      exact fun obj hobj => (Table.mem_erase.mp hobj).2
    | false =>
      refine iff_of_false (fun hnone => ?_) fun hreplaces => absurd hreplaces.2 (by decide)
      rw [if_neg (by simp)] at hnone
      rw [hnone] at hstored
      exact absurd hstored (by decide)
  others := by
    intro obj hother
    unfold deleteObject
    split
    · rw [Table.mem_erase]
      exact and_iff_left fun heq => hother (hkey.trans (congrArg some heq.symm))
    · exact Iff.rfl

/-- The last statement of an edit that replaces the document. -/
theorem autoAt_discard {key : Option String} {reply : Reply} {o : Oracle}
    (ho : o.deleted = deleted)
    (h : AloneAt cfg user id updates deleted d₀ objects₀ (.discard key reply) b ws) :
    AutoAt cfg user id updates deleted d₀ objects₀ b (discardObject key reply o b.world) := by
  obtain ⟨-, hobjects, record, old, new, rfl, hcommitted, rfl, hreplaces⟩ := h
  unfold discardObject
  split
  · rename_i hnone
    refine autoAt_goOn ⟨old, new, hcommitted, ?_⟩
    refine ⟨fun key hkey => ?_, fun obj _ => by rw [hobjects]⟩
    rw [hnone] at hkey
    nomatch hkey
  · rename_i key hkey
    refine autoAt_goOn ⟨old, new, hcommitted, ?_⟩
    have hdiscarded : Discarded updates deleted objects₀ (deleteObject objects₀ key deleted) old :=
      discarded_of_delete hreplaces hkey
    simpa only [hobjects, ho] using hdiscarded

end Facts

/-! ## The run -/

section Run

variable {cfg : Config} {user : Caller} {id : Nat} {updates : Updates} {deleted : Bool} {d₀ : Db}
  {objects₀ : Bucket} {b : Base Db Ext Write} {ws : List Write} {reqs : Nat → Request} {p : Nat}
  {l l' : Loc} {f : Oracle → Db → Ext → Outcome} {o : Oracle}

/-- The instruction `i` that an edit executes at a location. -/
inductive Edits (cfg : Config) (user : Caller) (id : Nat) (updates : Updates)
    (i : Instr Db Ext Write Oracle Loc) : Loc → Prop
  | start (hi : .auto (start cfg (.updatePatent user id updates)) = i) :
      Edits cfg user id updates i .start
  | update {u} (hi : updateCode cfg user id updates u = i) : Edits cfg user id updates i (.update u)
  | discard {key reply} (hi : .auto (fun o _ x => discardObject key reply o x) = i) :
      Edits cfg user id updates i (.discard key reply)
  | throwing {e} (hi : .rollback (.done (.thrown e)) = i) : Edits cfg user id updates i (.throwing e)

/-- The statements that an edit can meet. -/
theorem edits_of_code {i : Instr Db Ext Write Oracle Loc}
    (hreq : reqs p = .updatePatent user id updates) (hcode : code cfg reqs p l = i)
    (hne : i ≠ .halt) : Edits cfg user id updates i l := by
  have hexecutes := executes_of_code hcode hne
  rw [hreq] at hexecutes
  cases hexecutes with
  | start hi => exact .start hi
  | update hreq' hi =>
    obtain ⟨rfl, rfl, rfl⟩ := Request.updatePatent.inj hreq'
    exact .update hi
  | discard hi => exact .discard hi
  | throwing hi => exact .throwing hi
  | create hreq' => nomatch hreq'
  | submit hreq' => nomatch hreq'
  | review hreq' => nomatch hreq'
  | delete hreq' => nomatch hreq'

/-- A statement inside the transaction changes nothing that anybody can see. -/
theorem stmtAt_of_code (hreq : reqs p = .updatePatent user id updates)
    (hcode : code cfg reqs p l = .stmt f)
    (h : AloneAt cfg user id updates deleted d₀ objects₀ l b ws) :
    StmtAt cfg user id updates deleted d₀ objects₀ b ws (f o (after b.db ws) b.world) := by
  cases edits_of_code hreq hcode nofun with
  | @update u hi =>
    obtain ⟨hstill, hat⟩ := h
    cases u with
    | write patent links ids =>
      obtain rfl := Instr.stmt.inj hi
      obtain ⟨rfl, hread⟩ := hat
      exact stmtAt_updateWrite hstill hread
    | refused =>
      obtain rfl := Instr.stmt.inj hi
      exact stmtAt_throwing hstill _
    | unlinkCategories patent links ids =>
      obtain rfl := Instr.stmt.inj hi
      obtain ⟨hread, now, hws⟩ := hat
      refine stmtAt_links (fun w hw => ?_) hws fun hws => ⟨hstill, hread, now, hws⟩
      obtain ⟨l, hl, rfl⟩ := List.mem_map.mp hw
      have howner := (List.mem_filter.mp hl).2
      exact congrArg some (by simpa using howner)
    | linkCategories patent links ids =>
      obtain rfl := Instr.stmt.inj hi
      obtain ⟨hread, now, hws⟩ := hat
      exact stmtAt_insertCategories hstill hws fun hws => aloneAt_thenInventors hstill hread hws
    | unlinkInventors patent links =>
      obtain rfl := Instr.stmt.inj hi
      obtain ⟨hread, now, hws⟩ := hat
      refine stmtAt_links (fun w hw => ?_) hws fun hws => ⟨hstill, hread, now, hws⟩
      obtain ⟨l, hl, rfl⟩ := List.mem_map.mp hw
      exact congrArg some (credits.mem_ofPatent.mp (mem_creditsOf.mp hl)).2
    | linkInventors patent links =>
      obtain rfl := Instr.stmt.inj hi
      obtain ⟨hread, now, hws⟩ := hat
      exact stmtAt_insertInventors hstill hws fun hws => ⟨hstill, hread, now, hws⟩
    | reread patent =>
      obtain rfl := Instr.stmt.inj hi
      obtain ⟨hread, now, hws⟩ := hat
      exact stmtAt_reread hstill hread hws
    | _ => nomatch hi
  | start hi => nomatch hi
  | discard hi => nomatch hi
  | throwing hi => nomatch hi

/-- A check outside changes nothing either, or it discards an oversized upload and throws. -/
theorem autoAt_of_code (hreq : reqs p = .updatePatent user id updates)
    (hkey : ∀ key, updates.documentKey = some key → documentKeyField key = true)
    (hcode : code cfg reqs p l = .auto f) (ho : o.deleted = deleted)
    (h : AloneAt cfg user id updates deleted d₀ objects₀ l b ws) :
    AutoAt cfg user id updates deleted d₀ objects₀ b (f o b.db b.world) := by
  cases edits_of_code hreq hcode nofun with
  | start hi =>
    obtain rfl := Instr.auto.inj hi
    exact autoAt_start h.1
  | @update u hi =>
    obtain ⟨hstill, hat⟩ := h
    cases u with
    | attached patent =>
      obtain rfl := Instr.auto.inj hi
      obtain ⟨-, hread, hreplacing⟩ := hat
      exact autoAt_verifyDocument hstill hread hreplacing hkey
    | head patent =>
      obtain rfl := Instr.auto.inj hi
      obtain ⟨-, hread, key, hsupplied, hunreferenced⟩ := hat
      exact autoAt_verifyHead hstill hread hsupplied hunreferenced
    | oversized size =>
      obtain rfl := Instr.auto.inj hi
      obtain ⟨-, key, hoversized⟩ := hat
      exact autoAt_discardOversized hstill hoversized
    | publication patent =>
      obtain rfl := Instr.auto.inj hi
      exact autoAt_publication hstill hat.2
    | inventorLinks patent =>
      obtain rfl := Instr.auto.inj hi
      dsimp only
      split
      · exact autoAt_goOn ⟨hstill, rfl, hat.2⟩
      · exact autoAt_orThrow hstill fun _ => ⟨hstill, rfl, hat.2⟩
    | categoryIds patent links =>
      obtain rfl := Instr.auto.inj hi
      dsimp only
      split
      · exact autoAt_goOn ⟨hstill, rfl, hat.2⟩
      · exact autoAt_orThrow hstill fun _ => ⟨hstill, rfl, hat.2⟩
    | _ => nomatch hi
  | discard hi =>
    obtain rfl := Instr.auto.inj hi
    exact autoAt_discard ho h
  | throwing hi => nomatch hi

/-- What the statements before have linked, the next one goes on with. -/
theorem linkAt_of_statement (hreq : reqs p = .updatePatent user id updates)
    (hcode : code cfg reqs p l = .auto f ∨ code cfg reqs p l = .stmt f)
    (h : AloneAt cfg user id updates deleted d₀ objects₀ l b ws)
    (hlink : LinkAt (.updatePatent user id updates) l d₀ ws) :
    LinkAt (.updatePatent user id updates) (f o (after b.db ws) b.world).2.2 d₀
      (ws ++ (f o (after b.db ws) b.world).1) := by
  have hmove : Move (.updatePatent user id updates) (after b.db ws) b.world o l
      (f o (after b.db ws) b.world) := hreq ▸ move_of_code hcode
  cases l with
  | start =>
    obtain rfl : d₀ = b.db := h.1.tables.symm
    refine linkAt_move hmove hlink ?_ ?_
    · exact fun _ _ hl => nomatch hl
    · exact fun _ _ _ hl => nomatch hl
  | update u =>
    obtain rfl : d₀ = b.db := h.1.tables.symm
    refine linkAt_move hmove hlink ?_ ?_
    · exact fun _ _ hl => nomatch hl
    · rintro patent links ids hl
      obtain rfl := Loc.update.inj hl
      exact h.2.1
  | discard key reply =>
    rcases hcode with hcode | hcode
    · obtain rfl := Instr.auto.inj hcode
      unfold discardObject
      split
      · trivial
      · trivial
    · nomatch hcode
  | throwing e =>
    rcases hcode with hcode | hcode
    · nomatch hcode
    · nomatch hcode
  | done r =>
    rcases hcode with hcode | hcode
    · nomatch hcode
    · nomatch hcode
  | _ => exact h.elim

/-- The commit is the one step at which the tables change. -/
theorem aloneAt_of_commit (hreq : reqs p = .updatePatent user id updates)
    (hkey : ∀ key, updates.documentKey = some key → documentKeyField key = true)
    (hcode : code cfg reqs p l = .commit l')
    (h : AloneAt cfg user id updates deleted d₀ objects₀ l b ws)
    (hlink : LinkAt (.updatePatent user id updates) l d₀ ws) :
    AloneAt cfg user id updates deleted d₀ objects₀ l' ((patents cfg reqs).commitBase b p ws) [] ∧
      LinkAt (.updatePatent user id updates) l' d₀ [] := by
  cases edits_of_code hreq hcode nofun with
  | @update u hi =>
    obtain ⟨hstill, hat⟩ := h
    cases u with
    | commit patent record =>
      obtain rfl := Instr.commit.inj hi
      obtain ⟨hread, now, hws, rfl⟩ := hat
      have hdb : ((patents cfg reqs).commitBase b p ws).db = after d₀ ws := by
        rw [← hstill.tables]
        rfl
      have hobjects : ((patents cfg reqs).commitBase b p ws).world.objects = objects₀ :=
        hstill.objects
      have hcommitted := committed_of_writing hread hws hlink
      split
      · rename_i hreplacing
        refine ⟨⟨rfl, hobjects, _, patent.toPatent,
          edited updates patent.toPatent patent.toPatent now, rfl, ?_, rfl, ?_⟩, trivial⟩
        · rw [hdb]
          exact hcommitted
        · exact (replacingDocument_iff hkey).mp hreplacing
      · rename_i hkept
        refine ⟨⟨patent.toPatent, edited updates patent.toPatent patent.toPatent now, ?_, ?_⟩,
          trivial⟩
        · rw [hdb]
          exact hcommitted
        · rw [hobjects]
          exact discarded_of_kept fun h => hkept ((replacingDocument_iff hkey).mpr h)
    | _ => nomatch hi
  | start hi => nomatch hi
  | discard hi => nomatch hi
  | throwing hi => nomatch hi

/-- A failure or a rollback before the commit leaves everything as it was. -/
theorem threw_of_mayFail (hmay : MayFail l)
    (h : AloneAt cfg user id updates deleted d₀ objects₀ l b ws) :
    Threw cfg updates d₀ objects₀ b.db b.world.objects := by
  cases l with
  | start => exact h.1.threw
  | update u => exact h.1.threw
  | throwing e => exact h
  | discard => exact hmay.elim
  | done => exact hmay.elim
  | _ => exact h.elim

/-- The assertions of an edit that runs alone. -/
theorem lone_update (hreq : reqs p = .updatePatent user id updates)
    (hkey : ∀ key, updates.documentKey = some key → documentKeyField key = true) :
    Lone (patents cfg reqs) p (fun o : Oracle => o.deleted = deleted) MayFail fun l b ws =>
      AloneAt cfg user id updates deleted d₀ objects₀ l b ws ∧
        LinkAt (.updatePatent user id updates) l d₀ ws where
  stmt := fun hcode _ h =>
    ⟨stmtAt_of_code hreq hcode h.1, linkAt_of_statement hreq (Or.inr hcode) h.1 h.2⟩
  auto := by
    intro l f b ws o hcode ho h
    -- outside its transaction the edit has written nothing
    have hidle : ws = [] := by
      cases edits_of_code hreq hcode nofun with
      | start => exact h.1.2
      | discard => exact h.1.1
      | @update u hi =>
        obtain ⟨⟨-, hat⟩, -⟩ := h
        cases u <;> first | exact hat.1 | nomatch hi
      | throwing hi => nomatch hi
    subst hidle
    have hauto := autoAt_of_code hreq hkey hcode ho h.1
    have hlink := linkAt_of_statement (o := o) hreq (Or.inl hcode) h.1 h.2
    refine ⟨hauto.1, hauto.2, ?_⟩
    have hnone : (f o (after b.db []) b.world).1 = [] := hauto.1
    rw [hnone] at hlink
    exact hlink
  commit := fun hcode h => aloneAt_of_commit hreq hkey hcode h.1 h.2
  rollback := by
    intro l l' b ws hcode h
    cases edits_of_code hreq hcode nofun with
    | throwing hi =>
      obtain rfl := Instr.rollback.inj hi
      exact ⟨h.1, trivial⟩
    | start hi => nomatch hi
    | @update u hi => cases u <;> nomatch hi
    | discard hi => nomatch hi
  fail := fun hmay h => ⟨threw_of_mayFail hmay h.1, trivial⟩

/-- **updatePatent, end to end.** -/
theorem updatePatent_alone {σ₀ σ : State Db Ext Write Loc}
    (hreq : reqs p = .updatePatent user id updates)
    (hkey : ∀ key, updates.documentKey = some key → documentKeyField key = true)
    (hstart : σ₀.loc p = .start) (hpend : σ₀.pend = [])
    (hrun : Run (patents cfg reqs).step (Alone p deleted) σ₀ σ) :
    (∀ e, σ.loc p = .done (.thrown e) →
      Threw cfg updates σ₀.base.db σ₀.base.world.objects σ.base.db σ.base.world.objects) ∧
    ∀ record, σ.loc p = .done (.patent record) → ∃ old new,
      Returned user id updates deleted σ₀.base.db σ₀.base.world.objects record σ.base.db
        σ.base.world.objects old new := by
  have hinit : AloneAt cfg user id updates deleted σ₀.base.db σ₀.base.world.objects (σ₀.loc p)
      σ₀.base (own p σ₀.pend) ∧
        LinkAt (.updatePatent user id updates) (σ₀.loc p) σ₀.base.db (own p σ₀.pend) := by
    rw [hstart, hpend]
    exact ⟨⟨⟨rfl, rfl⟩, rfl⟩, trivial⟩
  have hat := ((lone_update hreq hkey).sound hinit hrun).1
  constructor
  · intro e hdone
    rw [hdone] at hat
    exact hat
  · intro record hdone
    rw [hdone] at hat
    exact hat

end Run

/-! ## Another document -/

/-- A patent that has been declined once. -/
def kettle : Patent where
  id := 1
  title := "Kettle"
  abstract := "It boils."
  specification := "Heat."
  documentKey := some (keyOf "a.pdf")
  version := 2
  publicationNumber := none
  jurisdiction := none
  status := .declined
  submittedBy := 1
  submittedAt := some 3
  reviewedAt := some 4
  createdAt := 2
  updatedAt := 4

/-- Ada's declined patent in one category, and two objects. -/
def oneKettle : State Db Ext Write Loc :=
  { blank with
    base :=
      { blank.base with
        db :=
          { blank.base.db with
            patents := ⟨[kettle], by decide⟩
            categories := ⟨[⟨4, "Home"⟩, ⟨5, "Steam"⟩], by decide⟩
            patentCategories := ⟨[⟨1, 4⟩], by decide⟩ }
        world :=
          { blank.base.world with
            objects := ⟨[⟨keyOf "a.pdf", 10⟩, ⟨keyOf "b.pdf", 20⟩], by decide⟩ } } }

/-- She supplies the other object and the other category. -/
def otherDocument : Updates :=
  ⟨none, none, none, some (keyOf "b.pdf"), none, none, some ["5"], none⟩

/-- Its submitter attaches another document. -/
abbrev redocument : Nat → Request := fun _ => .updatePatent ada 1 otherDocument

theorem redocument_runs :
    (execOk (patents pdfOnly redocument).step (Alone 0 true) oneKettle (steps 0 12)).isSome
      = true := by
  decide

/-- The state once the request has replied. -/
def redocumented : State Db Ext Write Loc :=
  (execOk (patents pdfOnly redocument).step (Alone 0 true) oneKettle (steps 0 12)).get
    redocument_runs

/-- The edit returns the patent with its new document, and the old object is gone. -/
theorem updatePatent_alone_redocument :
    ∃ record, redocumented.loc 0 = .done (.patent record) ∧ ∃ old new,
      Returned ada 1 otherDocument true oneKettle.base.db oneKettle.base.world.objects record
        redocumented.base.db redocumented.base.world.objects old new := by
  have hrun : Run (patents pdfOnly redocument).step (Alone 0 true) oneKettle redocumented :=
    Run.of_execOk (Option.some_get redocument_runs).symm
  have hkey : ∀ key, otherDocument.documentKey = some key → documentKeyField key = true := by
    intro key hsupplied
    obtain rfl := Option.some.inj hsupplied
    decide
  have hreq : redocument 0 = .updatePatent ada 1 otherDocument := rfl
  have hstart : oneKettle.loc 0 = .start := rfl
  have hpend : oneKettle.pend = [] := rfl
  obtain ⟨record, hrecord⟩ : ∃ record, redocumented.loc 0 = .done (.patent record) := ⟨_, rfl⟩
  exact ⟨record, hrecord, (updatePatent_alone hreq hkey hstart hpend hrun).2 record hrecord⟩

end SmartPatents.UpdateAlone
