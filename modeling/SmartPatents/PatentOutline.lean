/-
  The outline of the patent machine.

  One lemma for each operation of the source (`create_stmt`, `update_stmt`, `submit_stmt`,
  `review_stmt`, `delete_stmt`) leads from the assertion of a program point to the assertion of the
  next one, one for each (`commit_create`, …) from the last point to a `PatentTx`.  `holds_of_run`
  is what the rest of the development uses.

  `Outline` and `Layer` are those of `Lib.Serial`.  `layeredOver_of_run` is the general form, for
  any client of the store that draws no ids, and `layered_of_run` its case for the clients that
  upload once.

  In the order of the file:

  * `Executes`, the instruction that a request executes at each location;
  * the `_stmt` lemmas, by operation, and `Quiet` for the statements that write nothing and lead
    to a location that demands nothing;
  * the `commit_` lemmas, from the last assertion to the transaction;
  * `outline` and `holds_of_run`, which put them together for every run;
  * `patentsOver`, the same machine over a store whose clients upload as they like.
-/
import SmartPatents.PatentAssertions

namespace SmartPatents.PatentService

open ReadCommitted Runs Access Lifecycle Relations Storage PatentEvents

/-! ## What a location executes -/

/-- Location by location, the instruction `i` that request `r` executes there. -/
inductive Executes (cfg : Config) (r : Request) (i : Instr Db Ext Write Oracle Loc) : Loc → Prop
  | start (hi : .auto (start cfg r) = i) : Executes cfg r i .start
  | create {user input l} (hreq : r = .createPatent user input)
      (hi : createCode cfg user input l = i) : Executes cfg r i (.create l)
  | update {user id updates l} (hreq : r = .updatePatent user id updates)
      (hi : updateCode cfg user id updates l = i) : Executes cfg r i (.update l)
  | submit {user id l} (hreq : r = .submitForReview user id) (hi : submitCode id l = i) :
      Executes cfg r i (.submit l)
  | review {action admin id comments l} (hreq : Reviews r action admin id comments)
      (hi : reviewCode admin id action comments l = i) : Executes cfg r i (.review l)
  | delete {user id l} (hreq : r = .deletePatent user id) (hi : deleteCode id l = i) :
      Executes cfg r i (.delete l)
  | discard {key reply} (hi : .auto (fun o _ x => discardObject key reply o x) = i) :
      Executes cfg r i (.discard key reply)
  | throwing {e} (hi : .rollback (.done (.thrown e)) = i) : Executes cfg r i (.throwing e)

/-- Inversion of `code`. -/
theorem executes_of_code {cfg : Config} {reqs : Nat → Request} {p : Nat} {l : Loc}
    {i : Instr Db Ext Write Oracle Loc} (h : code cfg reqs p l = i) (hne : i ≠ .halt) :
    Executes cfg (reqs p) i l := by
  cases l with
  | start => exact .start h
  | create l =>
    simp only [code] at h
    split at h
    · rename_i hreq
      exact .create hreq h
    · exact absurd h.symm hne
  | update l =>
    simp only [code] at h
    split at h
    · rename_i hreq
      exact .update hreq h
    · exact absurd h.symm hne
  | submit l =>
    simp only [code] at h
    split at h
    · rename_i hreq
      exact .submit hreq h
    · exact absurd h.symm hne
  | review l =>
    simp only [code] at h
    split at h
    · rename_i hreq
      exact .review (hreq ▸ .approve) h
    · rename_i hreq
      exact .review (hreq ▸ .decline) h
    · exact absurd h.symm hne
  | delete l =>
    simp only [code] at h
    split at h
    · rename_i hreq
      exact .delete hreq h
    · exact absurd h.symm hne
  | discard key reply => exact .discard h
  | throwing e => exact .throwing h
  | done r => exact absurd h.symm hne

/-! ## What the statements do -/

section Cases

variable {id : Nat} {d : Db} {x : Ext} {o : Oracle} {next : Loc}

/-- The INSERT of category links either violates a constraint or writes all of them. -/
theorem insertCategories_cases (id : Nat) (ids : List Nat) (next : Loc) (d : Db) (x : Ext) :
    (∃ code, insertCategories id ids next d x = violates x code) ∨
      insertCategories id ids next d x = (ids.map fun c => .insertCategory ⟨id, c⟩, x, next) := by
  unfold insertCategories
  split
  · exact Or.inl ⟨_, rfl⟩
  · split
    · exact Or.inr rfl
    · exact Or.inl ⟨_, rfl⟩

theorem insertInventors_cases (id : Nat) (links : List InventorLink) (next : Loc) (d : Db)
    (x : Ext) :
    (∃ code, insertInventors id links next d x = violates x code) ∨
      insertInventors id links next d x =
        (links.map fun l => .insertInventor ⟨id, l.inventorId, l.inventorOrder⟩, x, next) := by
  unfold insertInventors
  split
  · exact Or.inl ⟨_, rfl⟩
  · split
    · exact Or.inr rfl
    · exact Or.inl ⟨_, rfl⟩

/-- A patent that has been deleted in the meantime makes the rereading throw; otherwise it answers
    with the row. -/
theorem reread_cases (id : Nat) (next : PatentRecord → Loc) (d : Db) (x : Ext) :
    reread id next d x = goOn x (.throwing .typeError) ∨
      ∃ row ∈ d.patents, row.id = id ∧ reread id next d x = goOn x (next (d.patentInclude row)) := by
  unfold reread
  split
  · exact Or.inl rfl
  · rename_i row hrow
    obtain ⟨hmem, hid⟩ := Table.get?_eq_some.mp hrow
    exact Or.inr ⟨row, hmem, hid, rfl⟩

/-- A guarded transition is refused, or it lands on a row whose status admits the action. -/
theorem applyTransition_cases (id : Nat) (action : Action) (stamp : Time → Patent → Patent)
    (next refused : Loc) (o : Oracle) (d : Db) (x : Ext) :
    applyTransition id action stamp next refused o d x = goOn x refused ∨
      ∃ row, Lands d id (TRANSITIONS action).from row ∧
        applyTransition id action stamp next refused o d x =
          ([.updatePatent row (transitioned action stamp o.now row)], x, next) := by
  unfold applyTransition
  split
  · exact Or.inl rfl
  · rename_i row hrow
    obtain ⟨hmem, hid⟩ := Table.get?_eq_some.mp hrow
    split
    · rename_i hstatus
      exact Or.inr ⟨row, ⟨hmem, hid, hstatus⟩, rfl⟩
    · exact Or.inl rfl

/-- The UPDATE of an edit is refused, violates a unique column, or lands on an editable row. -/
theorem updateWrite_cases (id : Nat) (updates : Updates) (patent : PatentRecord)
    (links : Option (List InventorLink)) (ids : Option (List Nat)) (o : Oracle) (d : Db)
    (x : Ext) :
    updateWrite id updates patent links ids o d x = goOn x (.update .refused) ∨
    updateWrite id updates patent links ids o d x = violates x "P2002" ∨
      ∃ row, Lands d id EDITABLE_STATUSES row ∧
        uniqueClash d (edited updates patent.toPatent row o.now) = false ∧
        updateWrite id updates patent links ids o d x =
          ([.updatePatent row (edited updates patent.toPatent row o.now)], x,
            thenCategories patent links ids) := by
  unfold updateWrite
  split
  · exact Or.inl rfl
  · rename_i row hrow
    obtain ⟨hmem, hid⟩ := Table.get?_eq_some.mp hrow
    split
    · rename_i hstatus
      dsimp only
      split
      · exact Or.inr (Or.inl rfl)
      · rename_i hfree
        exact Or.inr (Or.inr ⟨row, ⟨hmem, hid, hstatus⟩, by simpa using hfree, rfl⟩)
    · exact Or.inl rfl

/-- The guarded DELETE is refused, or it lands on a draft. -/
theorem deleteWrite_cases (id : Nat) (patent : PatentRecord) (d : Db) (x : Ext) :
    deleteWrite id patent d x = goOn x (.delete .refused) ∨
      ∃ row, Lands d id [.draft] row ∧
        deleteWrite id patent d x = ([.deletePatent row], x, .delete (.commit patent)) := by
  unfold deleteWrite
  split
  · exact Or.inl rfl
  · rename_i row hrow
    obtain ⟨hmem, hid⟩ := Table.get?_eq_some.mp hrow
    split
    · rename_i hstatus
      exact Or.inr ⟨row, ⟨hmem, hid, by simp [hstatus]⟩, rfl⟩
    · exact Or.inl rfl

end Cases

/-! ## Every statement leads to the next assertion -/

section Statements

variable {J : Nat → Loc → Patent → Prop} {cfg : Config} {reqs : Nat → Request} {p : Nat}
  {b : Base Db Ext Write} {ws : List Write} {o : Oracle}

/-- The sequences only move forward, so whatever happens outside the tables keeps the invariant. -/
theorem Inv.world {x' : Ext} (h : Inv b) (hext : Advances b.world x') :
    Inv { b with world := x' } where
  patentId := fun e he q hq => Nat.lt_of_lt_of_le (h.patentId e he q hq) hext.patent
  inserted := h.inserted
  reviewId := fun r hr => Nat.lt_of_lt_of_le (h.reviewId r hr) hext.review
  eventId := fun e he => Nat.lt_of_lt_of_le (h.eventId e he) hext.event
  documentKey := h.documentKey

/-- A committed patent has an id that the sequence has passed. -/
theorem Inv.id_lt (h : Inv b) {q : Patent} (hq : q ∈ b.db.patents) :
    q.id < b.world.nextPatentId := by
  by_contra hge
  refine h.inserted q hq fun e he r hr hid => ?_
  have hlt := h.patentId e he r hr
  omega

/-- A statement that writes nothing, and leads to a location that demands nothing. -/
structure Quiet (J : Nat → Loc → Patent → Prop) (reqs : Nat → Request) (p : Nat) (x : Ext)
    (r : Outcome) : Prop where
  none : r.1 = []
  world : Advances x r.2.1
  next : ∀ b, At J reqs p r.2.2 b []

variable {x : Ext}

theorem quiet_goOn {l : Loc} (hl : ∀ b, At J reqs p l b []) : Quiet J reqs p x (goOn x l) :=
  ⟨rfl, Advances.refl x, hl⟩

/-- Throwing writes nothing, whatever the request. -/
theorem quiet_throw (e : AppError) : Quiet J reqs p x (throw_ x e) := quiet_goOn fun _ => trivial

theorem quiet_violates (code : String) : Quiet J reqs p x (violates x code) :=
  quiet_goOn fun _ => trivial

/-- A resolver that throws or goes on writes nothing. -/
theorem quiet_orThrow {α : Type} {r : Except AppError α} {next : α → Loc}
    (hl : ∀ a b, At J reqs p (next a) b []) : Quiet J reqs p x (orThrow x r next) := by
  unfold orThrow
  split
  · exact quiet_throw _
  · exact quiet_goOn (hl _)

/-- A quiet statement outside a transaction commits nothing, so every invariant of the tables stays.
    -/
theorem Quiet.auto {r : Outcome} (h : Quiet J reqs p b.world r) (hinv : Inv b) :
    AutoOk (patents cfg reqs) Inv (At J reqs) (PatentTx J reqs) Advances p b r :=
  ⟨h.world, Or.inl ⟨h.none, hinv.world h.world, h.next _⟩⟩

/-- A quiet statement that opens a transaction leaves nothing pending. -/
theorem Quiet.stmt {r : Outcome} (h : Quiet J reqs p b.world r) (hinv : Inv b) :
    StmtOk Inv (At J reqs) Advances p b [] r :=
  ⟨h.world, hinv.world h.world, by rw [h.none]; exact h.next _⟩

/-- In a transaction with writes, a statement may still end in an error. -/
theorem stmt_throwing {e : Thrown} (hinv : Inv b) :
    StmtOk Inv (At J reqs) Advances p b ws (goOn b.world (.throwing e)) :=
  ⟨Advances.refl _, hinv, trivial⟩

/-- The look for a patent that has the document already only reads. -/
theorem quiet_verifyDocument {key : String} {userId : Nat} {allow : Option Nat} {next : Loc}
    {d : Db} (hl : ∀ b, At J reqs p next b []) :
    Quiet J reqs p x (verifyDocument key userId allow next d x) := by
  unfold verifyDocument
  split
  · exact quiet_throw _
  · split
    · exact quiet_goOn hl
    · split
      · exact quiet_goOn hl
      · exact quiet_throw _

/-- The look into the bucket only reads. -/
theorem quiet_verifyHead {key : String} {next : Loc} {oversized : Nat → Loc}
    (hl : ∀ b, At J reqs p next b []) (hover : ∀ n b, At J reqs p (oversized n) b []) :
    Quiet J reqs p x (verifyHead cfg key next oversized x) := by
  unfold verifyHead
  split
  · exact quiet_throw _
  · split
    · exact quiet_goOn (hover _)
    · exact quiet_goOn hl

/-- The deletion of an oversized object touches no row. -/
theorem quiet_discardOversized {key : String} {size : Nat} :
    Quiet J reqs p x (discardOversized cfg key size o x) :=
  ⟨rfl, ⟨Nat.le_refl _, Nat.le_refl _, Nat.le_refl _⟩, fun _ => trivial⟩

theorem quiet_discardObject {key : Option String} {reply : Reply} :
    Quiet J reqs p x (discardObject key reply o x) := by
  unfold discardObject
  split
  · exact quiet_goOn fun _ => rfl
  · exact ⟨rfl, ⟨Nat.le_refl _, Nat.le_refl _, Nat.le_refl _⟩, fun _ => rfl⟩

/-- The look for the publication number only reads. -/
theorem quiet_publicationNumber {number : Option String} {exceptId : Option Nat} {next : Loc}
    {d : Db} (hl : ∀ b, At J reqs p next b []) :
    Quiet J reqs p x (assertPublicationNumberFree number exceptId next d x) := by
  unfold assertPublicationNumberFree
  split
  · exact quiet_goOn hl
  · split
    · exact quiet_goOn hl
    · split
      · exact quiet_goOn hl
      · exact quiet_throw _

theorem quiet_review {admin : Caller} {id : Nat} {action : Action} {d : Db} :
    Quiet J reqs p x (review admin id action d x) := by
  unfold review
  split
  · exact quiet_throw _
  · split
    · exact quiet_throw _
    · split
      · exact quiet_throw _
      · exact quiet_goOn fun _ => rfl

/-- No request writes at its first statement. -/
theorem quiet_start {d : Db} : Quiet J reqs p x (start cfg (reqs p) o d x) := by
  have hhanded : ∀ {ks : List String} {r : Outcome},
      Quiet J reqs p { x with handed := ks } r → Quiet J reqs p x r :=
    fun h => ⟨h.none, ⟨h.world.patent, h.world.review, h.world.event⟩, h.next⟩
  unfold start
  dsimp only
  split
  · unfold requestUpload
    split
    · exact ⟨rfl, ⟨Nat.le_refl _, Nat.le_refl _, Nat.le_refl _⟩, fun _ => rfl⟩
    · exact hhanded (quiet_throw _)
  · exact hhanded (quiet_verifyDocument fun _ => rfl)
  · unfold updatePatent
    split
    · exact hhanded (quiet_throw _)
    · split
      · exact hhanded (quiet_throw _)
      · split
        · exact hhanded (quiet_goOn fun _ => rfl)
        · exact hhanded (quiet_goOn fun _ => rfl)
  · unfold submitForReview
    split
    · exact hhanded (quiet_throw _)
    · split
      · exact hhanded (quiet_throw _)
      · split
        · exact hhanded (quiet_throw _)
        · exact hhanded (quiet_goOn fun _ => rfl)
  · exact hhanded quiet_review
  · exact hhanded quiet_review
  · unfold deletePatent
    split
    · exact hhanded (quiet_throw _)
    · split
      · exact hhanded (quiet_throw _)
      · exact hhanded (quiet_goOn fun _ => rfl)

/-- A statement of a transaction that writes nothing hands its assertion on. -/
theorem stmt_goOn {l : Loc} (hinv : Inv b) (hat : At J reqs p l b ws) :
    StmtOk Inv (At J reqs) Advances p b ws (goOn b.world l) :=
  ⟨Advances.refl _, hinv, by rw [goOn, List.append_nil]; exact hat⟩

/-- The link rows of a patent keep an assertion that tolerates link rows. -/
theorem stmt_insertCategories {id : Nat} {ids : List Nat} {next : Loc} {d : Db} (hinv : Inv b)
    (hnext : ∀ vs : List Write, (∀ v ∈ vs, v.linkOf = some id) → At J reqs p next b (ws ++ vs)) :
    StmtOk Inv (At J reqs) Advances p b ws (insertCategories id ids next d b.world) := by
  rcases insertCategories_cases id ids next d b.world with ⟨code, hr⟩ | hr
  · rw [hr]
    exact stmt_throwing hinv
  · rw [hr]
    refine ⟨Advances.refl _, hinv, hnext _ fun v hv => ?_⟩
    obtain ⟨c, -, rfl⟩ := List.mem_map.mp hv
    rfl

/-- The INSERT of credits adds links of the one patent to what is pending. -/
theorem stmt_insertInventors {id : Nat} {links : List InventorLink} {next : Loc} {d : Db}
    (hinv : Inv b)
    (hnext : ∀ vs : List Write, (∀ v ∈ vs, v.linkOf = some id) → At J reqs p next b (ws ++ vs)) :
    StmtOk Inv (At J reqs) Advances p b ws (insertInventors id links next d b.world) := by
  rcases insertInventors_cases id links next d b.world with ⟨code, hr⟩ | hr
  · rw [hr]
    exact stmt_throwing hinv
  · rw [hr]
    refine ⟨Advances.refl _, hinv, hnext _ fun v hv => ?_⟩
    obtain ⟨l, -, rfl⟩ := List.mem_map.mp hv
    rfl

/-- The rereading inside a transaction sees the transaction's own writes. -/
theorem stmt_reread {id : Nat} {next : PatentRecord → Loc} {d : Db} (hinv : Inv b)
    (hnext : ∀ row ∈ d.patents, row.id = id → At J reqs p (next (d.patentInclude row)) b ws) :
    StmtOk Inv (At J reqs) Advances p b ws (reread id next d b.world) := by
  rcases reread_cases id next d b.world with hr | ⟨row, hrow, hid, hr⟩
  · rw [hr]
    exact stmt_throwing hinv
  · rw [hr]
    exact stmt_goOn hinv (hnext row hrow hid)

/-- A transition that lands is the first write of its transaction. -/
theorem stmt_applyTransition {id : Nat} {action : Action} {stamp : Time → Patent → Patent}
    {next refused : Loc} (hinv : Inv b) (hrefused : ∀ b, At J reqs p refused b [])
    (hnext : ∀ row, Lands b.db id (TRANSITIONS action).from row →
      At J reqs p next b [.updatePatent row (transitioned action stamp o.now row)]) :
    StmtOk Inv (At J reqs) Advances p b []
      (applyTransition id action stamp next refused o b.db b.world) := by
  rcases applyTransition_cases id action stamp next refused o b.db b.world with
    hr | ⟨row, hlands, hr⟩
  · rw [hr]
    exact Quiet.stmt (quiet_goOn hrefused) hinv
  · rw [hr]
    exact ⟨Advances.refl _, hinv, hnext row hlands⟩

/-! ### createPatent -/

/-- Links of the new patent extend a creation under way. -/
theorem Creating.append {id : Nat} {vs : List Write} (h : Creating reqs p b ws id)
    (hvs : ∀ w ∈ vs, w.linkOf = some id) : Creating reqs p b (ws ++ vs) id := by
  obtain ⟨user, input, now, ls, hreq, hunused, hlt, hfree, hls, rfl⟩ := h
  refine ⟨user, input, now, ls ++ vs, hreq, hunused, hlt, hfree, fun w hw => ?_, rfl⟩
  rcases List.mem_append.mp hw with hw | hw
  · exact hls w hw
  · exact hvs w hw

/-- The INSERT of a draft, with the links that go into the same statement. -/
theorem stmt_insertPatent {user : Caller} {input : CreateInput} {links : List InventorLink}
    {ids : List Nat} (hreq : reqs p = .createPatent user input) (hinv : Inv b) :
    StmtOk Inv (At J reqs) Advances p b [] (insertPatent user input links ids o b.db b.world) := by
  have hadv : Advances b.world { b.world with nextPatentId := b.world.nextPatentId + 1 } :=
    ⟨Nat.le_succ _, Nat.le_refl _, Nat.le_refl _⟩
  unfold insertPatent
  dsimp only
  split
  · exact ⟨hadv, hinv.world hadv, trivial⟩
  · rename_i hfree
    split
    · exact ⟨hadv, hinv.world hadv, trivial⟩
    · have hunused : Unused b.log b.world.nextPatentId :=
        fun e he q hq => Nat.ne_of_lt (hinv.patentId e he q hq)
      have hfree : uniqueClash b.db (draftOf user input b.world.nextPatentId o.now) = false := by
        simpa using hfree
      exact ⟨hadv, hinv.world hadv, user, input, o.now, [], hreq, hunused, Nat.lt_succ_self _, hfree,
        fun w hw => (List.not_mem_nil hw).elim, rfl⟩

/-- `createPatent`, from one program point to the next. -/
theorem create_stmt {user : Caller} {input : CreateInput} {l : CreateLoc}
    {f : Oracle → Db → Ext → Outcome} (hreq : reqs p = .createPatent user input)
    (hcode : createCode cfg user input l = .stmt f) (hinv : Inv b)
    (hat : At J reqs p (.create l) b ws) :
    StmtOk Inv (At J reqs) Advances p b ws (f o (after b.db ws) b.world) := by
  cases l with
  | insert links ids =>
    obtain rfl := Instr.stmt.inj hcode
    obtain rfl : ws = [] := hat
    exact stmt_insertPatent hreq hinv
  | linkCategories id links ids =>
    obtain rfl := Instr.stmt.inj hcode
    exact stmt_insertCategories hinv fun vs hvs => Creating.append hat hvs
  | linkInventors id links =>
    obtain rfl := Instr.stmt.inj hcode
    exact stmt_insertInventors hinv fun vs hvs => Creating.append hat hvs
  | reread id =>
    obtain rfl := Instr.stmt.inj hcode
    exact stmt_reread hinv fun row _ _ => ⟨id, hat⟩
  | _ => nomatch hcode

/-! ### updatePatent -/

/-- Links of the edited patent extend an edit under way. -/
theorem Editing.append {patent : PatentRecord} {user : Caller} {id : Nat} {updates : Updates}
    {vs : List Write} (h : Editing J reqs p b ws patent)
    (hreq : reqs p = .updatePatent user id updates) (hvs : ∀ w ∈ vs, w.linkOf = some id) :
    Editing J reqs p b (ws ++ vs) patent := by
  obtain ⟨user', id', updates', links, ids, old, now, ls, hreq', hlands, hJ, hfree, hls, rfl⟩ := h
  obtain ⟨rfl, rfl, rfl⟩ := Request.updatePatent.inj (hreq'.symm.trans hreq)
  refine ⟨user', id', updates', links, ids, old, now, ls ++ vs, hreq', hlands, hJ, hfree,
    fun w hw => ?_, rfl⟩
  rcases List.mem_append.mp hw with hw | hw
  · exact hls w hw
  · exact hvs w hw

/-- After its row an edit may go straight to its credits, or past them. -/
theorem at_thenInventors {patent : PatentRecord} {links : Option (List InventorLink)}
    (h : Editing J reqs p b ws patent) : At J reqs p (thenInventors patent links) b ws := by
  cases links <;> exact h

theorem at_thenCategories {patent : PatentRecord} {links : Option (List InventorLink)}
    {ids : Option (List Nat)} (h : Editing J reqs p b ws patent) :
    At J reqs p (thenCategories patent links ids) b ws := by
  cases ids
  · exact at_thenInventors h
  · exact h

/-- The UPDATE of an edit. What the request knows of the row it lands on is `J`. -/
theorem stmt_updateWrite {user : Caller} {id : Nat} {updates : Updates} {patent : PatentRecord}
    {links : Option (List InventorLink)} {ids : Option (List Nat)}
    (hreq : reqs p = .updatePatent user id updates)
    (hok : Landing J reqs p (.update (.write patent links ids)) b.db) (hinv : Inv b) :
    StmtOk Inv (At J reqs) Advances p b []
      (updateWrite id updates patent links ids o b.db b.world) := by
  rcases updateWrite_cases id updates patent links ids o b.db b.world with
    hr | hr | ⟨row, hlands, hfree, hr⟩
  · rw [hr]; exact Quiet.stmt (quiet_goOn fun _ => rfl) hinv
  · rw [hr]; exact Quiet.stmt (quiet_violates _) hinv
  · rw [hr]
    have hJ := hok id EDITABLE_STATUSES row (by rw [hreq]; rfl) hlands
    exact ⟨Advances.refl _, hinv, at_thenCategories ⟨user, id, updates, links, ids, row, o.now, [],
      hreq, hlands, hJ, hfree, fun w hw => (List.not_mem_nil hw).elim, rfl⟩⟩

/-- `updatePatent`, from one program point to the next. -/
theorem update_stmt {user : Caller} {id : Nat} {updates : Updates} {l : UpdateLoc}
    {f : Oracle → Db → Ext → Outcome} (hreq : reqs p = .updatePatent user id updates)
    (hcode : updateCode cfg user id updates l = .stmt f)
    (hok : Landing J reqs p (.update l) b.db) (hinv : Inv b)
    (hat : At J reqs p (.update l) b ws) :
    StmtOk Inv (At J reqs) Advances p b ws (f o (after b.db ws) b.world) := by
  cases l with
  | write patent links ids =>
    obtain rfl := Instr.stmt.inj hcode
    obtain rfl : ws = [] := hat
    exact stmt_updateWrite hreq hok hinv
  | refused =>
    obtain rfl := Instr.stmt.inj hcode
    exact stmt_throwing hinv
  | unlinkCategories patent links ids =>
    obtain rfl := Instr.stmt.inj hcode
    refine ⟨Advances.refl _, hinv, Editing.append hat hreq fun w hw => ?_⟩
    obtain ⟨l, hl, rfl⟩ := List.mem_map.mp hw
    exact congrArg some (by simpa using (List.mem_filter.mp hl).2)
  | linkCategories patent links ids =>
    obtain rfl := Instr.stmt.inj hcode
    exact stmt_insertCategories hinv fun vs hvs =>
      at_thenInventors (Editing.append hat hreq hvs)
  | unlinkInventors patent links =>
    obtain rfl := Instr.stmt.inj hcode
    refine ⟨Advances.refl _, hinv, Editing.append hat hreq fun w hw => ?_⟩
    obtain ⟨l, hl, rfl⟩ := List.mem_map.mp hw
    rw [Db.creditsOf, List.mem_insertionSort, List.mem_filter] at hl
    exact congrArg some (by simpa using hl.2)
  | linkInventors patent links =>
    obtain rfl := Instr.stmt.inj hcode
    exact stmt_insertInventors hinv fun vs hvs => Editing.append hat hreq hvs
  | reread patent =>
    obtain rfl := Instr.stmt.inj hcode
    exact stmt_reread hinv fun _ _ _ => hat
  | _ => nomatch hcode

/-! ### submitForReview and deletePatent -/

/-- `submitForReview`, from one program point to the next. -/
theorem submit_stmt {user : Caller} {id : Nat} {l : SubmitLoc} {f : Oracle → Db → Ext → Outcome}
    (hreq : reqs p = .submitForReview user id) (hcode : submitCode id l = .stmt f) (hinv : Inv b)
    (hat : At J reqs p (.submit l) b ws) :
    StmtOk Inv (At J reqs) Advances p b ws (f o (after b.db ws) b.world) := by
  cases l with
  | write =>
    obtain rfl := Instr.stmt.inj hcode
    obtain rfl : ws = [] := hat
    exact stmt_applyTransition hinv (fun _ => rfl) fun row hlands =>
      ⟨user, id, row, o.now, hreq, hlands, rfl⟩
  | refused =>
    obtain rfl := Instr.stmt.inj hcode
    exact stmt_throwing hinv
  | reread =>
    obtain rfl := Instr.stmt.inj hcode
    exact stmt_reread hinv fun _ _ _ => hat
  | commit record => nomatch hcode

/-- `deletePatent`, from one program point to the next. -/
theorem delete_stmt {user : Caller} {id : Nat} {l : DeleteLoc} {f : Oracle → Db → Ext → Outcome}
    (hreq : reqs p = .deletePatent user id) (hcode : deleteCode id l = .stmt f) (hinv : Inv b)
    (hat : At J reqs p (.delete l) b ws) :
    StmtOk Inv (At J reqs) Advances p b ws (f o (after b.db ws) b.world) := by
  cases l with
  | write patent =>
    obtain rfl := Instr.stmt.inj hcode
    obtain rfl : ws = [] := hat
    dsimp only
    rcases deleteWrite_cases id patent (after b.db []) b.world with hr | ⟨row, hlands, hr⟩
    · rw [hr]
      exact Quiet.stmt (quiet_goOn fun _ => rfl) hinv
    · rw [hr]
      exact ⟨Advances.refl _, hinv, user, id, row, hreq, hlands, rfl⟩
  | refused =>
    obtain rfl := Instr.stmt.inj hcode
    exact stmt_throwing hinv
  | commit patent => nomatch hcode

/-! ### approvePatent and declinePatent -/

/-- A request is a review in one way only. -/
theorem Reviews.unique {r : Request} {action action' : Action} {admin admin' : Caller}
    {id id' : Nat} {comments comments' : Option String} (h : Reviews r action admin id comments)
    (h' : Reviews r action' admin' id' comments') :
    action' = action ∧ admin' = admin ∧ id' = id ∧ comments' = comments := by
  cases h <;> cases h' <;> exact ⟨rfl, rfl, rfl, rfl⟩

/-- The guarded UPDATE of a review is the one of its transition. -/
theorem guardOf_review {r : Request} {action : Action} {admin : Caller} {id : Nat}
    {comments : Option String} (h : Reviews r action admin id comments)
    (before : Option PatentStatus) :
    guardOf r (.review (.write before)) = some (id, (TRANSITIONS action).from) := by
  cases h <;> rfl

/-- The review row, and the event it asks for, fit the decision that landed. -/
theorem stmt_createReview {action : Action} {admin : Caller} {id : Nat} {comments : Option String}
    {before : Option PatentStatus} {old : Patent} {now : Time} {record : PatentRecord}
    (hdec : Decides J reqs p b.db action admin id comments before old)
    (hrecord : record.toPatent = transitioned action stampReviewed now old) (hinv : Inv b) :
    StmtOk Inv (At J reqs) Advances p b
      [.updatePatent old (transitioned action stampReviewed now old)]
      (createReview admin id action comments before record o
        (after b.db [.updatePatent old (transitioned action stampReviewed now old)]) b.world) := by
  have hadv : Advances b.world { b.world with nextReviewId := b.world.nextReviewId + 1 } :=
    ⟨Nat.le_refl _, Nat.le_succ _, Nat.le_refl _⟩
  have hnew : NewReview b.db (reviewRow admin id action comments b.world.nextReviewId o.now) :=
    fun r hr => ⟨Nat.ne_of_lt (hinv.reviewId r hr), fun _ => hinv.reviewId r hr⟩
  unfold createReview
  dsimp only
  split
  · exact ⟨hadv, hinv.world hadv, trivial⟩
  · refine ⟨hadv, hinv.world hadv, ?_⟩
    cases before with
    | none => trivial
    | some before =>
      have hrev : ∀ event, event = buildEvent action record before o →
          Reviewed J reqs p
            { b with world := { b.world with nextReviewId := b.world.nextReviewId + 1 } }
            [.updatePatent old (transitioned action stampReviewed now old),
              .insertReview (reviewRow admin id action comments b.world.nextReviewId o.now)]
            record event :=
        fun event he => ⟨action, admin, id, comments, before, old, now, b.world.nextReviewId, o.now,
          o, hdec, hrecord, hnew, Nat.lt_succ_self _, he, rfl⟩
      dsimp only
      split
      · rename_i hnone
        exact ⟨_, [], record, none, id, hrev none hnone.symm,
          ⟨_, List.mem_cons_self, congrArg some hdec.lands.id⟩, rfl,
          fun e he => (List.not_mem_nil he).elim, rfl⟩
      · rename_i event hsome
        exact hrev (some event) hsome.symm

/-- A review under way has written its patent. -/
theorem Reviewed.touches {action : Action} {admin : Caller} {id : Nat} {comments : Option String}
    {record : PatentRecord} {event : Option PatentEvent}
    (hreq : Reviews (reqs p) action admin id comments) (h : Reviewed J reqs p b ws record event) :
    ∃ w ∈ ws, w.touches = some id := by
  obtain ⟨action', admin', id', comments', before, old, now, n, now', o, hdec, -, -, -, -, rfl⟩ := h
  obtain ⟨rfl, rfl, rfl, rfl⟩ := hreq.unique hdec.req
  exact ⟨_, List.mem_cons_self, congrArg some hdec.lands.id⟩

/-- The event goes into the transaction that has written the review. -/
theorem stmt_enqueueEvent {action : Action} {admin : Caller} {id : Nat} {comments : Option String}
    {event : PatentEvent} {record : PatentRecord}
    (hreq : Reviews (reqs p) action admin id comments)
    (hat : Reviewed J reqs p b ws record (some event)) (hinv : Inv b) :
    StmtOk Inv (At J reqs) Advances p b ws (enqueueEvent id event record b.world) := by
  have hadv : Advances b.world { b.world with nextEventId := b.world.nextEventId + 1 } :=
    ⟨Nat.le_refl _, Nat.le_refl _, Nat.le_succ _⟩
  refine ⟨hadv, hinv.world hadv, ws, _, record, some event, id, hat.world hadv, hat.touches hreq,
    ⟨b.world.nextEventId, rfl, fun e he => ?_⟩, fun e he => ?_, rfl⟩
  · exact ⟨Nat.ne_of_lt (hinv.eventId e he), fun _ => hinv.eventId e he⟩
  · obtain rfl := Write.insertEvent.inj (List.mem_singleton.mp he)
    exact Nat.lt_succ_self _

/-- `approvePatent` and `declinePatent`, from one program point to the next. -/
theorem review_stmt {action : Action} {admin : Caller} {id : Nat} {comments : Option String}
    {l : ReviewLoc} {f : Oracle → Db → Ext → Outcome}
    (hreq : Reviews (reqs p) action admin id comments)
    (hcode : reviewCode admin id action comments l = .stmt f)
    (hok : Landing J reqs p (.review l) b.db) (hinv : Inv b)
    (hat : At J reqs p (.review l) b ws) :
    StmtOk Inv (At J reqs) Advances p b ws (f o (after b.db ws) b.world) := by
  cases l with
  | before =>
    obtain rfl := Instr.stmt.inj hcode
    obtain rfl : ws = [] := hat
    exact Quiet.stmt (quiet_goOn fun _ => rfl) hinv
  | write before =>
    obtain rfl := Instr.stmt.inj hcode
    obtain rfl : ws = [] := hat
    refine stmt_applyTransition hinv (fun _ => rfl) fun row hlands => ?_
    have hJ := hok id _ row (guardOf_review hreq before) hlands
    exact ⟨o.now, action, row, ⟨admin, id, comments, hreq, hlands, hJ⟩, rfl⟩
  | refused =>
    obtain rfl := Instr.stmt.inj hcode
    exact stmt_throwing hinv
  | reread before =>
    obtain rfl := Instr.stmt.inj hcode
    refine stmt_reread hinv fun row hrow hid => ?_
    obtain ⟨now, action', old, hdec⟩ := hat
    refine ⟨now, action', old, hdec, ?_⟩
    obtain ⟨⟨admin', id', comments', hdec⟩, rfl⟩ := hdec
    obtain ⟨rfl, rfl, rfl, rfl⟩ := hreq.unique hdec.req
    -- the row it reads is the one it has just written
    rcases mem_patents_singleton.mp hrow with hw | ⟨-, hno⟩
    · exact (Option.some.inj hw).symm
    · exact absurd (congrArg some (hdec.lands.id.trans hid.symm)) hno
  | create before record =>
    obtain rfl := Instr.stmt.inj hcode
    obtain ⟨now, action', old, ⟨⟨admin', id', comments', hdec⟩, rfl⟩, hrecord⟩ := hat
    obtain ⟨rfl, rfl, rfl, rfl⟩ := hreq.unique hdec.req
    exact stmt_createReview hdec hrecord hinv
  | enqueue event record =>
    obtain rfl := Instr.stmt.inj hcode
    exact stmt_enqueueEvent hreq hat hinv
  | commit record => nomatch hcode

/-! ## Commits -/

/-- Next to link rows, the first write is the only one of another kind. -/
theorem eq_of_mem_links {id : Nat} {w v : Write} {ls : List Write}
    (hls : ∀ l ∈ ls, l.linkOf = some id) (hv : v ∈ w :: ls) (hnone : v.linkOf = none) : v = w := by
  rcases List.mem_cons.mp hv with rfl | hv
  · rfl
  · exact absurd ((hls v hv).symm.trans hnone) (Option.some_ne_none _)

/-- What a decision writes: the patent, the review, and at most an event. -/
theorem mem_decision {d : Db} {id : Nat} {old new : Patent} {r : PatentReview}
    {event : Option PatentEvent} {events : List Write} {v : Write}
    (hann : Announces d id event events)
    (hv : v ∈ Write.updatePatent old new :: .insertReview r :: events) :
    v = .updatePatent old new ∨ v = .insertReview r ∨ ∃ e, v = .insertEvent e ∧ v ∈ events := by
  rcases List.mem_cons.mp hv with hv | hv
  · exact Or.inl hv
  · rcases List.mem_cons.mp hv with hv | hv
    · exact Or.inr (Or.inl hv)
    · obtain ⟨e, n, -, hrow, -⟩ := event_of_announces hann hv
      exact Or.inr (Or.inr ⟨_, hrow, hv⟩)

/-- An UPDATE of a committed transaction replaces a row of the table and keeps its id. -/
theorem PatentTx.update_mem {d : Db} {log : List (Nat × List Write)}
    (htx : PatentTx J reqs p d log ws) {old new : Patent} (hw : Write.updatePatent old new ∈ ws) :
    old ∈ d.patents ∧ new.id = old.id := by
  cases htx with
  | create hreq hid hunused hfree hls => nomatch eq_of_mem_links hls hw rfl
  | update hreq hlands hknown hfree hls =>
    obtain ⟨rfl, rfl⟩ := Write.updatePatent.inj (eq_of_mem_links hls hw rfl)
    exact ⟨hlands.mem, rfl⟩
  | submit hreq hlands =>
    obtain ⟨rfl, rfl⟩ := Write.updatePatent.inj (List.mem_singleton.mp hw)
    exact ⟨hlands.mem, rfl⟩
  | review hdec hrecord hreview hevents =>
    rcases mem_decision hevents hw with hw | hw | ⟨e, hw, -⟩
    · obtain ⟨rfl, rfl⟩ := Write.updatePatent.inj hw
      exact ⟨hdec.lands.mem, rfl⟩
    · nomatch hw
    · nomatch hw
  | delete => simp at hw

/-- The key of the row a transaction leaves behind is on no other row. -/
theorem PatentTx.documentKey (htx : PatentTx J reqs p b.db b.log ws) (hinv : Inv b) :
    ∀ q ∈ (after b.db ws).patents, ∀ r ∈ (after b.db ws).patents, q.documentKey ≠ none →
      r.documentKey = q.documentKey → r.id = q.id := by
  rcases htx.row with ⟨new, htable, hnew⟩ | ⟨old, -, htable⟩
  · have hfree : ∀ q ∈ b.db.patents, q.id ≠ new.id → new.documentKey ≠ none →
        q.documentKey ≠ new.documentKey := by
      intro q hq hne hkey heq
      rcases hnew with ⟨old, hold, hid, hsame | hfree⟩ | ⟨-, hfree⟩
      · exact hne (hid ▸ hinv.documentKey old hold q hq (hsame ▸ hkey) (heq.trans hsame))
      · exact (uniqueClash_eq_false.mp hfree q hq hne).1 hkey heq
      · exact (uniqueClash_eq_false.mp hfree q hq hne).1 hkey heq
    intro q hq r hr hkey heq
    rw [htable, Table.mem_put] at hq hr
    rcases hq with rfl | ⟨hq, hqne⟩
    · rcases hr with rfl | ⟨hr, hrne⟩
      · rfl
      · exact absurd heq (hfree r hr hrne hkey)
    · rcases hr with rfl | ⟨hr, -⟩
      · exact absurd heq.symm (hfree q hq hqne (heq ▸ hkey))
      · exact hinv.documentKey q hq r hr hkey heq
  · intro q hq r hr hkey heq
    rw [htable, Table.mem_erase] at hq hr
    exact hinv.documentKey q hq.1 r hr.1 hkey heq

/-- A transaction keeps the invariant if the ids it inserts came from the sequences. -/
theorem Inv.commit (hinv : Inv b) (htx : PatentTx J reqs p b.db b.log ws)
    (hpatent : ∀ q, Write.insertPatent q ∈ ws → q.id < b.world.nextPatentId)
    (hreview : ∀ r, Write.insertReview r ∈ ws → r.id < b.world.nextReviewId)
    (hevent : ∀ e, Write.insertEvent e ∈ ws → e.id < b.world.nextEventId) :
    Inv ((patents cfg reqs).commitBase b p ws) where
  patentId := by
    intro e he q hq
    rcases List.mem_append.mp he with he | he
    · exact hinv.patentId e he q hq
    · rw [List.mem_singleton.mp he] at hq
      exact hpatent q hq
  inserted := by
    intro q hq hunused
    have hold : ∀ r ∈ b.db.patents, r.id ≠ q.id := by
      intro r hr hid
      refine hinv.inserted r hr fun e he x hx => ?_
      rw [hid]
      exact hunused e (List.mem_append_left _ he) x hx
    rcases patent_back ws hq with hq | ⟨w, hw, hwq⟩
    · exact hold q hq rfl
    · cases w with
      | insertPatent r =>
        exact hunused (p, ws) (List.mem_append_right _ List.mem_cons_self) r hw
          (congrArg Patent.id (Option.some.inj hwq))
      | updatePatent old new =>
        obtain ⟨hmem, hid⟩ := htx.update_mem hw
        obtain rfl := Option.some.inj hwq
        exact hold old hmem hid.symm
      | _ => nomatch hwq
  reviewId := by
    intro r hr
    rcases review_back ws hr with hr | hr
    · exact hinv.reviewId r hr
    · exact hreview r hr
  eventId := by
    intro e he
    rcases event_back ws he with he | he
    · exact hinv.eventId e he
    · exact hevent e he
  documentKey := htx.documentKey hinv

/-- What a commit has to show. -/
def CommitOk (J : Nat → Loc → Patent → Prop) (cfg : Config) (reqs : Nat → Request) (p : Nat)
    (b : Base Db Ext Write) (ws : List Write) : Prop :=
  Inv ((patents cfg reqs).commitBase b p ws) ∧ PatentTx J reqs p b.db b.log ws

/-- What `createPatent` commits is a `PatentTx`. -/
theorem commit_create {id : Nat} (hinv : Inv b) (hat : Creating reqs p b ws id) :
    CommitOk J cfg reqs p b ws := by
  obtain ⟨user, input, now, ls, hreq, hunused, hlt, hfree, hls, rfl⟩ := hat
  have hnew : ∀ q ∈ b.db.patents, q.id ≠ id := by
    intro q hq hid
    exact hinv.inserted q hq (hid ▸ hunused)
  have htx : PatentTx J reqs p b.db b.log (.insertPatent (draftOf user input id now) :: ls) :=
    .create hreq hnew hunused hfree hls
  refine ⟨hinv.commit htx (fun q hq => ?_) (fun r hr => ?_) fun e he => ?_, htx⟩
  · obtain rfl := Write.insertPatent.inj (eq_of_mem_links hls hq rfl)
    exact hlt
  · nomatch eq_of_mem_links hls hr rfl
  · nomatch eq_of_mem_links hls he rfl

/-- What `updatePatent` commits. -/
theorem commit_update {patent : PatentRecord} (hinv : Inv b) (hat : Editing J reqs p b ws patent) :
    CommitOk J cfg reqs p b ws := by
  obtain ⟨user, id, updates, links, ids, old, now, ls, hreq, hlands, hJ, hfree, hls, rfl⟩ := hat
  have htx : PatentTx J reqs p b.db b.log
      (.updatePatent old (edited updates patent.toPatent old now) :: ls) :=
    .update hreq hlands hJ hfree hls
  refine ⟨hinv.commit htx (fun q hq => ?_) (fun r hr => ?_) fun e he => ?_, htx⟩
  · nomatch eq_of_mem_links hls hq rfl
  · nomatch eq_of_mem_links hls hr rfl
  · nomatch eq_of_mem_links hls he rfl

/-- What `submitForReview` commits. -/
theorem commit_submit (hinv : Inv b) (hat : Submitting reqs p b ws) :
    CommitOk J cfg reqs p b ws := by
  obtain ⟨user, id, old, now, hreq, hlands, rfl⟩ := hat
  have htx : PatentTx J reqs p b.db b.log
      [.updatePatent old (transitioned .submit stampSubmitted now old)] := .submit hreq hlands
  exact ⟨hinv.commit htx (fun q hq => by simp at hq) (fun r hr => by simp at hr)
    fun e he => by simp at he, htx⟩

/-- What `deletePatent` commits. -/
theorem commit_delete (hinv : Inv b) (hat : Deleting reqs p b ws) :
    CommitOk J cfg reqs p b ws := by
  obtain ⟨user, id, old, hreq, hlands, rfl⟩ := hat
  have htx : PatentTx J reqs p b.db b.log [.deletePatent old] := .delete hreq hlands
  exact ⟨hinv.commit htx (fun q hq => by simp at hq) (fun r hr => by simp at hr)
    fun e he => by simp at he, htx⟩

/-- What a review commits. -/
theorem commit_review (hinv : Inv b) (hat : Enqueued J reqs p b ws) :
    CommitOk J cfg reqs p b ws := by
  obtain ⟨us, events, record, event, id, hrev, ⟨w, hw, htouch⟩, hann, hlt, rfl⟩ := hat
  obtain ⟨action, admin, id', comments, before, old, now, n, now', o, hdec, hrecord, hnew, hn, rfl,
    rfl⟩ := hrev
  obtain rfl : id' = id := by
    rcases List.mem_cons.mp hw with rfl | hw
    · exact hdec.lands.id.symm.trans (Option.some.inj htouch)
    · rw [List.mem_singleton.mp hw] at htouch
      nomatch htouch
  have htx : PatentTx J reqs p b.db b.log
      (.updatePatent old (transitioned action stampReviewed now old) ::
        .insertReview (reviewRow admin id' action comments n now') :: events) :=
    .review hdec hrecord hnew hann
  refine ⟨hinv.commit htx (fun q hq => ?_) (fun r hr => ?_) fun e he => ?_, htx⟩
  · rcases mem_decision hann hq with hq | hq | ⟨e, hq, -⟩
    · nomatch hq
    · nomatch hq
    · nomatch hq
  · rcases mem_decision hann hr with hr | hr | ⟨e, hr, -⟩
    · nomatch hr
    · obtain rfl := Write.insertReview.inj hr
      exact hn
    · nomatch hr
  · rcases mem_decision hann he with he | he | ⟨_, -, he⟩
    · nomatch he
    · nomatch he
    · exact hlt e he

end Statements

/-! ## The outline -/

variable {J : Nat → Loc → Patent → Prop} {cfg : Config} {reqs : Nat → Request}

/-- Only the points before a transaction are outside of one. -/
theorem auto_quiet {p : Nat} {l : Loc} {f : Oracle → Db → Ext → Outcome}
    (hcode : code cfg reqs p l = .auto f) (o : Oracle) (d : Db) (x : Ext) :
    Quiet J reqs p x (f o d x) := by
  cases executes_of_code hcode nofun with
  | start hi =>
    obtain rfl := Instr.auto.inj hi
    exact quiet_start
  | @create user input l hreq hi =>
    cases l with
    | head =>
      obtain rfl := Instr.auto.inj hi
      exact quiet_verifyHead (fun _ => rfl) fun _ _ => rfl
    | oversized size =>
      obtain rfl := Instr.auto.inj hi
      exact quiet_discardOversized
    | inventorLinks =>
      obtain rfl := Instr.auto.inj hi
      exact quiet_orThrow fun _ _ => rfl
    | categoryIds links =>
      obtain rfl := Instr.auto.inj hi
      exact quiet_orThrow fun _ _ => rfl
    | publication links ids =>
      obtain rfl := Instr.auto.inj hi
      exact quiet_publicationNumber fun _ => rfl
    | _ => nomatch hi
  | @update user id updates l hreq hi =>
    cases l with
    | attached patent =>
      obtain rfl := Instr.auto.inj hi
      exact quiet_verifyDocument fun _ => rfl
    | head patent =>
      obtain rfl := Instr.auto.inj hi
      exact quiet_verifyHead (fun _ => rfl) fun _ _ => rfl
    | oversized size =>
      obtain rfl := Instr.auto.inj hi
      exact quiet_discardOversized
    | publication patent =>
      obtain rfl := Instr.auto.inj hi
      exact quiet_publicationNumber fun _ => rfl
    | inventorLinks patent =>
      obtain rfl := Instr.auto.inj hi
      dsimp only
      split
      · exact quiet_goOn fun _ => rfl
      · exact quiet_orThrow fun _ _ => rfl
    | categoryIds patent links =>
      obtain rfl := Instr.auto.inj hi
      dsimp only
      split
      · exact quiet_goOn fun _ => rfl
      · exact quiet_orThrow fun _ _ => rfl
    | _ => nomatch hi
  | @submit user id l hreq hi => cases l <;> nomatch hi
  | @review action admin id comments l hreq hi => cases l <;> nomatch hi
  | @delete user id l hreq hi => cases l <;> nomatch hi
  | discard hi =>
    obtain rfl := Instr.auto.inj hi
    exact quiet_discardObject
  | throwing hi => nomatch hi

/-- At such a point nothing is uncommitted. -/
theorem idle_of_auto {p : Nat} {l : Loc} {f : Oracle → Db → Ext → Outcome}
    {b : Base Db Ext Write} {ws : List Write} (hcode : code cfg reqs p l = .auto f)
    (hat : At J reqs p l b ws) : ws = [] := by
  cases executes_of_code hcode nofun with
  | start => exact hat
  | @create user input l hreq hi => cases l <;> first | exact hat | nomatch hi
  | @update user id updates l hreq hi => cases l <;> first | exact hat | nomatch hi
  | @submit user id l hreq hi => cases l <;> nomatch hi
  | @review action admin id comments l hreq hi => cases l <;> nomatch hi
  | @delete user id l hreq hi => cases l <;> nomatch hi
  | discard => exact hat
  | throwing hi => nomatch hi

/-- Every statement of a transaction keeps the assertions, operation by operation. -/
theorem stmtOk {p : Nat} {l : Loc} {f : Oracle → Db → Ext → Outcome} {b : Base Db Ext Write}
    {ws : List Write} {o : Oracle} (hcode : code cfg reqs p l = .stmt f)
    (hok : Landing J reqs p l b.db) (hinv : Inv b) (hat : At J reqs p l b ws) :
    StmtOk Inv (At J reqs) Advances p b ws (f o (after b.db ws) b.world) := by
  cases executes_of_code hcode nofun with
  | create hreq hi => exact create_stmt hreq hi hinv hat
  | update hreq hi => exact update_stmt hreq hi hok hinv hat
  | submit hreq hi => exact submit_stmt hreq hi hinv hat
  | review hreq hi => exact review_stmt hreq hi hok hinv hat
  | delete hreq hi => exact delete_stmt hreq hi hinv hat
  | start hi => nomatch hi
  | discard hi => nomatch hi
  | throwing hi => nomatch hi

/-- Every commit is a `PatentTx`, operation by operation. -/
theorem commitOk {p : Nat} {l l' : Loc} {b : Base Db Ext Write} {ws : List Write}
    (hcode : code cfg reqs p l = .commit l') (hinv : Inv b) (hat : At J reqs p l b ws) :
    CommitOk J cfg reqs p b ws ∧ ∀ b, At J reqs p l' b [] := by
  cases executes_of_code hcode nofun with
  | @create user input l hreq hi =>
    cases l with
    | commit record =>
      obtain rfl := Instr.commit.inj hi
      obtain ⟨id, hat⟩ := hat
      exact ⟨commit_create hinv hat, fun _ => rfl⟩
    | _ => nomatch hi
  | @update user id updates l hreq hi =>
    cases l with
    | commit patent record =>
      obtain rfl := Instr.commit.inj hi
      refine ⟨commit_update hinv hat, fun b => ?_⟩
      split <;> rfl
    | _ => nomatch hi
  | @submit user id l hreq hi =>
    cases l with
    | commit record =>
      obtain rfl := Instr.commit.inj hi
      exact ⟨commit_submit hinv hat, fun _ => rfl⟩
    | _ => nomatch hi
  | @review action admin id comments l hreq hi =>
    cases l with
    | commit record =>
      obtain rfl := Instr.commit.inj hi
      exact ⟨commit_review hinv hat, fun _ => rfl⟩
    | _ => nomatch hi
  | @delete user id l hreq hi =>
    cases l with
    | commit patent =>
      obtain rfl := Instr.commit.inj hi
      exact ⟨commit_delete hinv hat, fun _ => rfl⟩
    | _ => nomatch hi
  | start hi => nomatch hi
  | discard hi => nomatch hi
  | throwing hi => nomatch hi

/-- Only a thrown error rolls back. -/
theorem eq_of_rollback {p : Nat} {l l' : Loc} (hcode : code cfg reqs p l = .rollback l') :
    ∃ e, l' = .done (.thrown e) := by
  cases executes_of_code hcode nofun with
  | @throwing e hi =>
    obtain rfl := Instr.rollback.inj hi
    exact ⟨e, rfl⟩
  | @create user input l hreq hi => cases l <;> nomatch hi
  | @update user id updates l hreq hi => cases l <;> nomatch hi
  | @submit user id l hreq hi => cases l <;> nomatch hi
  | @review action admin id comments l hreq hi => cases l <;> nomatch hi
  | @delete user id l hreq hi => cases l <;> nomatch hi
  | start hi => nomatch hi
  | discard hi => nomatch hi

/-- An upload draws no ids. -/
def LeavesSequences (client : Upload → Ext → Option Ext) : Prop :=
  ∀ u x x', client u x = some x' → x'.nextPatentId = x.nextPatentId ∧
    x'.nextReviewId = x.nextReviewId ∧ x'.nextEventId = x.nextEventId

/-- A client that leaves the sequences alone moves nothing backwards. -/
theorem advances_of_client {client : Upload → Ext → Option Ext} (hclient : LeavesSequences client)
    {u : Upload} {x x' : Ext} (hu : client u x = some x') : Advances x x' := by
  obtain ⟨hpatent, hreview, hevent⟩ := hclient u x x' hu
  exact ⟨Nat.le_of_eq hpatent.symm, Nat.le_of_eq hreview.symm, Nat.le_of_eq hevent.symm⟩

/-- A PUT to the bucket draws no id. -/
theorem leavesSequences_upload (cfg : Config) : LeavesSequences (upload cfg) := by
  intro u x x' hu
  cases u with
  | put key size =>
    simp only [upload] at hu
    split at hu
    · obtain rfl := Option.some.inj hu
      exact ⟨rfl, rfl, rfl⟩
    · nomatch hu

/-- **The outline of the patent machine.** -/
theorem outline (J : Nat → Loc → Patent → Prop) (cfg : Config) (reqs : Nat → Request) :
    Outline (patents cfg reqs) (Landing J reqs) Inv (At J reqs) (PatentTx J reqs) Advances where
  stmt := fun hcode hok hinv hat => stmtOk hcode hok hinv hat
  idle := fun hcode hat => idle_of_auto hcode hat
  auto := fun hcode _ hinv _ => (auto_quiet hcode _ _ _).auto hinv
  commit := by
    intro p l l' b ws hcode _ hinv hat
    obtain ⟨⟨hinv', htx⟩, hnext⟩ := commitOk hcode hinv hat
    exact ⟨hinv', htx, hnext _⟩
  rollback := by
    intro p l l' b ws hcode _
    obtain ⟨e, rfl⟩ := eq_of_rollback hcode
    rfl
  fail := fun _ => rfl
  env := by
    intro u loc b x' henv hinv
    have hadv : Advances b.world x' := advances_of_client (leavesSequences_upload cfg) henv
    exact ⟨hadv, hinv.world hadv⟩
  world := fun hext hat => at_world hext hat
  other := fun _ _ hat htx hap => at_other hat htx hap

theorem inv_init (users : Table User User.id) (inventors : Table Inventor Inventor.id)
    (categories : Table Category Category.id) : Inv (init users inventors categories).base := by
  refine ⟨fun e he => ?_, fun q hq => ?_, fun r hr => ?_, fun e he => ?_, fun q hq => ?_⟩
  · nomatch he
  · exact absurd hq (Table.not_mem_empty q)
  · exact absurd hr (Table.not_mem_empty r)
  · exact absurd he (Table.not_mem_empty e)
  · exact absurd hq (Table.not_mem_empty q)

section Runs

variable {users : Table User User.id} {inventors : Table Inventor Inventor.id}
  {categories : Table Category Category.id} {σ : State Db Ext Write Loc}

/-- **Every run in which the landings meet `J`**: the assertions hold, and the log is a serial
    execution of `PatentTx`. -/
theorem holds_of_run
    (hrun : Run (patents cfg reqs).step (Machine.localOk (Landing J reqs))
      (init users inventors categories) σ) :
    Outline.Holds (patents cfg reqs) Inv (At J reqs) (PatentTx J reqs)
      (init users inventors categories) σ :=
  (outline J cfg reqs).sound (Outline.holds_init rfl rfl (inv_init _ _ _) fun _ => rfl) hrun

end Runs

/-! ## Other clients of the store -/

/-- The machine where clients upload as `client` says, and not as `upload` does. -/
def patentsOver (client : Upload → Ext → Option Ext) (cfg : Config) (reqs : Nat → Request) :
    Machine Db Ext Write Row Oracle Upload Loc :=
  { patents cfg reqs with env := fun u _ x => client u x }

/-- A client that holds a URL may upload to it at any time, as often and as much as it likes. -/
def uploadFreely (u : Upload) (x : Ext) : Option Ext :=
  match u with
  | .put key size =>
    if key ∈ x.issued.map Prod.snd then
      some { x with objects := x.objects.put ⟨key, size⟩, uploaded := key :: x.uploaded }
    else none

theorem leavesSequences_uploadFreely : LeavesSequences uploadFreely := by
  intro u x x' hu
  cases u with
  | put key size =>
    simp only [uploadFreely] at hu
    split at hu
    · obtain rfl := Option.some.inj hu
      exact ⟨rfl, rfl, rfl⟩
    · nomatch hu

section Clients

variable {client : Upload → Ext → Option Ext} {users : Table User User.id}
  {inventors : Table Inventor Inventor.id} {categories : Table Category Category.id}
  {σ : State Db Ext Write Loc}

/-- The outline of the machine, over any client of the bucket. -/
theorem outlineOver (hclient : LeavesSequences client) :
    Outline (patentsOver client cfg reqs) (Landing J reqs) Inv (At J reqs) (PatentTx J reqs)
      Advances := by
  refine (outline J cfg reqs).withEnv fun {u _ b x'} henv hinv => ?_
  have hadv : Advances b.world x' := advances_of_client hclient henv
  exact ⟨hadv, hinv.world hadv⟩

/-- **Every run over such a store**, with a layer. -/
theorem layeredOver_of_run (hclient : LeavesSequences client) {Inv₂ : Base Db Ext Write → Prop}
    {At₂ : Nat → Loc → Base Db Ext Write → List Write → Prop}
    {Tx₂ : Nat → Db → List (Nat × List Write) → List Write → Prop} {Ext₂ : Ext → Ext → Prop}
    (hlayer : Layer (patentsOver client cfg reqs) (Landing J reqs) Inv (At J reqs) (PatentTx J reqs)
      Inv₂ At₂ Tx₂ Ext₂)
    (hinv : Inv₂ (init users inventors categories).base)
    (hat : ∀ p, At₂ p .start (init users inventors categories).base [])
    (hrun : Run (patentsOver client cfg reqs).step (Machine.localOk (Landing J reqs))
      (init users inventors categories) σ) :
    Outline.Holds (patentsOver client cfg reqs) (fun b => Inv b ∧ Inv₂ b)
      (fun p l b ws => At J reqs p l b ws ∧ At₂ p l b ws)
      (fun p d log ws => PatentTx J reqs p d log ws ∧ Tx₂ p d log ws)
      (init users inventors categories) σ :=
  ((outlineOver hclient).layer hlayer).sound
    (Outline.holds_init rfl rfl ⟨inv_init _ _ _, hinv⟩ fun p => ⟨rfl, hat p⟩) hrun

/-- `upload` is such a client: every run of the patent machine, with a layer. -/
theorem layered_of_run {Inv₂ : Base Db Ext Write → Prop}
    {At₂ : Nat → Loc → Base Db Ext Write → List Write → Prop}
    {Tx₂ : Nat → Db → List (Nat × List Write) → List Write → Prop} {Ext₂ : Ext → Ext → Prop}
    (hlayer : Layer (patents cfg reqs) (Landing J reqs) Inv (At J reqs) (PatentTx J reqs)
      Inv₂ At₂ Tx₂ Ext₂)
    (hinv : Inv₂ (init users inventors categories).base)
    (hat : ∀ p, At₂ p .start (init users inventors categories).base [])
    (hrun : Run (patents cfg reqs).step (Machine.localOk (Landing J reqs))
      (init users inventors categories) σ) :
    Outline.Holds (patents cfg reqs) (fun b => Inv b ∧ Inv₂ b)
      (fun p l b ws => At J reqs p l b ws ∧ At₂ p l b ws)
      (fun p d log ws => PatentTx J reqs p d log ws ∧ Tx₂ p d log ws)
      (init users inventors categories) σ :=
  layeredOver_of_run (leavesSequences_upload cfg) hlayer hinv hat hrun

/-- A result that needs to know nothing about the landings holds in every run. -/
theorem landingOver_of_always {σ' : State Db Ext Write Loc}
    (h : Run (patentsOver client cfg reqs).step always σ σ') :
    Run (patentsOver client cfg reqs).step
      (Machine.localOk (Landing (fun _ _ _ => True) reqs)) σ σ' := by
  refine h.mono fun τ a _ => ?_
  cases a with
  | run p o => exact fun _ _ _ _ _ => trivial
  | _ => trivial

end Clients

end SmartPatents.PatentService
