/-
  Nothing is edited under review.

  A submit moves a patent out of the statuses that an edit may write to, and only a decline leads
  back.  The guard is on the row, though, while an edit also writes the link tables and a decision
  copies five tables into its event.  All of it happens under the lock of the row: a decision reads
  the record that it puts into its event after its guarded write (`recordLayer`), and from the
  commit of a submit to the next decline every decision reads the same one (`frozen_of_run`).

  `Frozen` compares the rows column by column and lets a decision set its stamps; the link tables
  are compared as lists.  `recordLayer` is the part about events: what a decision announces was
  read after its guarded write and under its lock, so no edit can come between the two.

  `Undisturbed` is the invariant of the second half, by induction over what commits after the
  submit: the row is frozen, and every approve among these commits carries the record that was
  submitted.  An edit that read the patent before the submit finds it under review at its guarded
  write, and is refused there (`editThenSubmit`).
-/
import SmartPatents.PatentLinks

namespace SmartPatents.UnderReview

open ReadCommitted Runs Access Lifecycle Relations Storage PatentEvents PatentService

/-! ## What a record is read from -/

section Records

variable {d d' : Db} {w : Write} {ws : List Write}

/-- The tables that patent requests only read. -/
structure SameReference (d d' : Db) : Prop where
  users : d'.users = d.users
  inventors : d'.inventors = d.inventors
  categories : d'.categories = d.categories

theorem SameReference.trans {d'' : Db} (h : SameReference d d') (h' : SameReference d' d'') :
    SameReference d d'' :=
  ⟨h'.users.trans h.users, h'.inventors.trans h.inventors, h'.categories.trans h.categories⟩

/-- A patent transaction leaves users, inventors and categories alone. -/
theorem sameReference_after (ws : List Write) (d : Db) : SameReference d (after d ws) := by
  refine List.foldlRecOn (motive := SameReference d) ws apply ⟨rfl, rfl, rfl⟩ fun d' hd' w _ => ?_
  have hwrite : SameReference d' (apply d' w) := by cases w <;> exact ⟨rfl, rfl, rfl⟩
  exact hd'.trans hwrite

/-- The record of a row depends on its links and on the reference tables. -/
theorem patentInclude_congr {row : Patent} (href : SameReference d d')
    (hcategories : d'.categoryLinksOf row.id = d.categoryLinksOf row.id)
    (hcredits : d'.creditsOf row.id = d.creditsOf row.id) :
    d'.patentInclude row = d.patentInclude row := by
  have hcredited : d'.credited = d.credited := by
    funext l
    rw [Db.credited, Db.credited, href.inventors]
  rw [Db.patentInclude, Db.patentInclude, hcategories, hcredits, hcredited, Db.party?, Db.party?,
    href.users, href.categories]

end Records

/-! ## The record in an event -/

/-- A decision of request `r` on the row `new` announces `event`. -/
def Announced (r : Request) (d : Db) (new : Patent) (event : PatentEvent) : Prop :=
  ∃ action admin id comments before o, Reviews r action admin id comments ∧
    buildEvent action (d.patentInclude new) before o = some event

/-- Every event that a transaction inserts describes the row it has written. -/
def RecordTx (r : Request) (d : Db) (ws : List Write) : Prop :=
  ∀ e, Write.insertEvent e ∈ ws → ∃ old new id n event,
    ws.head? = some (.updatePatent old new) ∧ Announced r d new event ∧ e = eventRow id n event

/-- The record that a decision carries is that of the row it has written. -/
def RecordAt (r : Request) (l : Loc) (d : Db) (ws : List Write) : Prop :=
  match l with
  | .review (.create _ record) => ∃ old new, ws = [.updatePatent old new] ∧
      record = d.patentInclude new
  | .review (.enqueue event _) => ∃ old new row, ws = [.updatePatent old new, .insertReview row] ∧
      Announced r d new event
  | .review (.commit _) => RecordTx r d ws
  | _ => True

section Layer

variable {J : Nat → Loc → Patent → Prop} {cfg : Config} {reqs : Nat → Request} {p q : Nat} {l : Loc}
  {r : Request} {b : Base Db Ext Write} {d d' : Db} {x : Ext} {o : Oracle} {res : Outcome}
  {ws vs : List Write}

/-- What an event announces depends on what its patent shows. -/
theorem Announced.congr {new : Patent} {event : PatentEvent} (h : Announced r d new event)
    (hsame : d'.patentInclude new = d.patentInclude new) : Announced r d' new event := by
  obtain ⟨action, admin, id, comments, before, o, hreq, hevent⟩ := h
  exact ⟨action, admin, id, comments, before, o, hreq, hsame ▸ hevent⟩

/-- An edit has no event to write. -/
theorem recordAt_thenInventors {patent : PatentRecord} {links : Option (List InventorLink)} :
    RecordAt r (thenInventors patent links) d ws := by
  cases links <;> trivial

/-- A decision reads back the row that it has just written. -/
theorem recordAt_reread {action : Action} {admin : Caller} {id : Nat} {comments : Option String}
    {before : Option PatentStatus} {row : Patent} (hreq : Reviews (reqs p) action admin id comments)
    (hrow : row ∈ (after b.db ws).patents) (hid : row.id = id)
    (hat : At J reqs p (.review (.reread before)) b ws) :
    RecordAt (reqs p) (.review (.create before ((after b.db ws).patentInclude row))) b.db ws := by
  obtain ⟨now, action', old, ⟨admin', id', comments', hdec⟩, rfl⟩ := hat
  obtain ⟨rfl, rfl, rfl, rfl⟩ := hreq.unique hdec.req
  refine ⟨old, transitioned action' stampReviewed now old, rfl, ?_⟩
  rcases mem_patents_singleton.mp hrow with hw | ⟨-, hno⟩
  · obtain rfl := Option.some.inj hw
    rfl
  · exact absurd (congrArg some (hdec.lands.id.trans hid.symm)) hno

/-- The event of a review announces the record that was read back. -/
theorem recordAt_afterReview {action : Action} {admin : Caller} {id : Nat}
    {comments : Option String} {before : PatentStatus} {record : PatentRecord} {row : PatentReview}
    (hreq : Reviews r action admin id comments)
    (hrec : RecordAt r (.review (.create (some before) record)) d ws) :
    RecordAt r (.review (afterReview (buildEvent action record before o) record)) d
      (ws ++ [.insertReview row]) := by
  obtain ⟨old, new, rfl, rfl⟩ := hrec
  cases hevent : buildEvent action (d.patentInclude new) before o with
  | none =>
    intro e he
    simp at he
  | some event => exact ⟨old, new, row, rfl, action, admin, id, comments, before, o, hreq, hevent⟩

/-- **Step lemma.** -/
theorem recordAt_move (hmove : Move (reqs p) (after b.db ws) x o l res)
    (hat : At J reqs p l b ws) (hrec : RecordAt (reqs p) l b.db ws) :
    RecordAt (reqs p) res.2.2 b.db (ws ++ res.1) := by
  cases hmove with
  | @updateWrite user id updates patent links ids =>
    cases ids with
    | none => exact recordAt_thenInventors
    | some ids => trivial
  | updateLinkCategories => exact recordAt_thenInventors
  | reviewReread hreq hrow hid =>
    rw [List.append_nil]
    exact recordAt_reread hreq hrow hid hat
  | reviewCreate hreq => exact recordAt_afterReview hreq hrec
  | @reviewEnqueue action admin id comments event record hreq =>
    obtain ⟨old, new, row, rfl, hannounced⟩ := hrec
    intro e he
    have he : e = eventRow id x.nextEventId event := by simpa using he
    exact ⟨old, new, _, _, _, rfl, hannounced, he⟩
  | _ => trivial

/-- The record survives what other transactions do: the row is locked, and its links with it. -/
theorem recordAt_other (hat : At J reqs p l b ws) (hrec : RecordAt (reqs p) l b.db ws)
    (hsame : ∀ new : Patent, (∃ w ∈ ws, w.touches = some new.id) →
      d'.patentInclude new = b.db.patentInclude new) : RecordAt (reqs p) l d' ws := by
  cases l with
  | review s =>
    cases s with
    | create before record =>
      obtain ⟨now, action, old, ⟨-, rfl⟩, -⟩ := hat
      obtain ⟨old', new, hws, rfl⟩ := hrec
      obtain ⟨rfl, rfl⟩ := Write.updatePatent.inj (List.cons.inj hws).1
      exact ⟨_, _, rfl, (hsame _ ⟨_, List.mem_cons_self, rfl⟩).symm⟩
    | enqueue event record =>
      obtain ⟨old, new, row, rfl, hannounced⟩ := hrec
      obtain ⟨action, admin, id, comments, before, old', now, n, now', o, -, -, -, -, -, hws⟩ := hat
      obtain ⟨rfl, rfl⟩ := Write.updatePatent.inj (List.cons.inj hws).1
      exact ⟨_, _, row, rfl, hannounced.congr (hsame _ ⟨_, List.mem_cons_self, rfl⟩)⟩
    | commit record =>
      intro e he
      obtain ⟨old, new, id, n, event, hhead, hannounced, heq⟩ := hrec e he
      exact ⟨old, new, id, n, event, hhead,
        hannounced.congr (hsame new ⟨_, List.mem_of_mem_head? hhead, rfl⟩), heq⟩
    | _ => trivial
  | _ => trivial

/-- Only a decision enqueues events. -/
theorem recordTx_of_not_reviews (htx : PatentTx J reqs p d log ws)
    (hnot : ∀ action admin id comments, ¬ Reviews (reqs p) action admin id comments) :
    RecordTx (reqs p) d ws := by
  intro e he
  cases htx with
  | create _ _ _ _ hls => nomatch eq_of_mem_links hls he rfl
  | update _ _ _ _ hls => nomatch eq_of_mem_links hls he rfl
  | submit => simp at he
  | review hdec => exact absurd hdec.req (hnot _ _ _ _)
  | delete => simp at he

/-- What commits is a transaction whose event is about its record. -/
theorem recordTx_of_commit {l' : Loc} (hcode : code cfg reqs p l = .commit l')
    (htx : PatentTx J reqs p d log ws) (hrec : RecordAt (reqs p) l d ws) :
    RecordTx (reqs p) d ws := by
  have hnot : ∀ {r : Request}, reqs p = r → (∀ action admin id comments,
      ¬ Reviews r action admin id comments) → RecordTx (reqs p) d ws := by
    rintro r rfl hr
    exact recordTx_of_not_reviews htx hr
  cases executes_of_code hcode nofun with
  | @review action admin id comments s hreq hi =>
    cases s with
    | commit record => exact hrec
    | _ => nomatch hi
  | create hreq => exact hnot hreq fun _ _ _ _ h => by cases h
  | update hreq => exact hnot hreq fun _ _ _ _ h => by cases h
  | submit hreq => exact hnot hreq fun _ _ _ _ h => by cases h
  | delete hreq => exact hnot hreq fun _ _ _ _ h => by cases h
  | start hi => nomatch hi
  | discard hi => nomatch hi
  | throwing hi => nomatch hi

/-- After a commit nothing is pending. -/
theorem recordAt_of_commit {l' : Loc} (hcode : code cfg reqs p l = .commit l') :
    RecordAt (reqs p) l' d [] := by
  rcases next_of_code_commit hcode with ⟨reply, rfl⟩ | ⟨key, reply, rfl⟩
  · trivial
  · trivial

/-- **The layer of records.** -/
theorem recordLayer (J : Nat → Loc → Patent → Prop) (cfg : Config) (reqs : Nat → Request) :
    Layer (patents cfg reqs) (Landing J reqs) Inv (At J reqs) (PatentTx J reqs) (fun _ => True)
      (fun p l b ws => RecordAt (reqs p) l b.db ws) (fun p d _ ws => RecordTx (reqs p) d ws)
      (fun _ _ => True) where
  stmt := fun {_ _ _ b _ _} hcode _ _ hat _ hrec =>
    ⟨trivial, trivial, recordAt_move (b := b) (move_of_code (Or.inr hcode)) hat hrec⟩
  auto := by
    intro p l f b o hcode _ _ hat _ hrec
    have hnone := (auto_quiet (J := J) hcode o b.db b.world).none
    have hnext := recordAt_move (b := b) (move_of_code (o := o) (d := after b.db [])
      (x := b.world) (Or.inl hcode)) hat hrec
    have hwrites : (f o (after b.db []) b.world).1 = [] := hnone
    rw [List.nil_append, hwrites] at hnext
    exact ⟨trivial, Or.inl ⟨hnone, trivial, hnext⟩⟩
  commit := fun hcode _ _ _ htx _ hrec =>
    ⟨trivial, recordTx_of_commit hcode htx hrec, recordAt_of_commit hcode⟩
  rollback := by
    intro p l l' b ws hcode _
    obtain ⟨e, rfl⟩ := eq_of_rollback hcode
    trivial
  fail := fun _ => trivial
  env := fun _ _ => ⟨trivial, trivial⟩
  world := fun _ hrec => hrec
  other := fun {p q l b ws vs} _ _ hat htx _ hrec _ hap =>
    recordAt_other hat hrec fun _ htouch => patentInclude_congr (sameReference_after vs b.db)
      (htx.keepsLinks (T := categoryLinks) hap htouch)
      (creditsOf_congr (htx.keepsLinks hap htouch))

end Layer

/-- **What an approve writes**: the row, the review, and the event with the record of the row. -/
theorem approve_writes {J : Nat → Loc → Patent → Prop} {reqs : Nat → Request} {p : Nat} {d : Db}
    {log : List (Nat × List Write)} {ws : List Write} {admin : Caller} {id : Nat}
    {comments : Option String} (hreq : reqs p = .approvePatent admin id comments)
    (htx : PatentTx J reqs p d log ws) (hrecord : RecordTx (reqs p) d ws) :
    ∃ old now review n eventId at_, Lands d id (TRANSITIONS .approve).from old ∧
      NewEvent d (eventRow id n (patentVersionUpserted
        (d.patentInclude (transitioned .approve stampReviewed now old)) eventId at_)) ∧
      ws = [.updatePatent old (transitioned .approve stampReviewed now old), .insertReview review,
        .insertEvent (eventRow id n (patentVersionUpserted
          (d.patentInclude (transitioned .approve stampReviewed now old)) eventId at_))] := by
  cases htx with
  | create hreq' => nomatch hreq.symm.trans hreq'
  | update hreq' => nomatch hreq.symm.trans hreq'
  | submit hreq' => nomatch hreq.symm.trans hreq'
  | delete hreq' => nomatch hreq.symm.trans hreq'
  | @review action admin' id' comments' before old now record n now' o events hdec hrec hreview
      hevents =>
    -- the record in the event is the one just written
    obtain ⟨rfl, rfl, rfl, rfl⟩ := (hreq ▸ Reviews.approve).unique hdec.req
    obtain ⟨m, rfl, hnew⟩ := hevents
    obtain ⟨old', new, id₀, m', event, hhead, hannounced, heq⟩ := hrecord _
      (List.mem_cons_of_mem _ (List.mem_cons_of_mem _ List.mem_cons_self))
    obtain ⟨rfl, rfl⟩ := Write.updatePatent.inj (Option.some.inj hhead)
    obtain ⟨action', admin'', id'', comments'', before', o', hreq', hevent⟩ := hannounced
    obtain ⟨rfl, -, -, -⟩ := hdec.req.unique hreq'
    have hpayload : patentVersionUpserted record o.uuid o.now = event :=
      congrArg Outbox.OutboxEvent.payload heq
    obtain rfl := Option.some.inj hevent
    rw [hpayload] at hnew ⊢
    exact ⟨old, now, _, m, o'.uuid, o'.now, hdec.lands, hnew, rfl⟩

/-! ## Between a submit and the next decline -/

section Runs

variable {cfg : Config} {reqs : Nat → Request} {users : Table User User.id}
  {inventors : Table Inventor Inventor.id} {categories : Table Category Category.id}
  {σ σ' : State Db Ext Write Loc} {id : Nat} {row row' : Patent}
  {log more : List (Nat × List Write)} {d : Db} {ws : List Write} {p : Nat}

/-- What is known of a transaction: its writes, its links and the record in its event. -/
def ReviewedTx (reqs : Nat → Request) (p : Nat) (d : Db) (log : List (Nat × List Write))
    (ws : List Write) : Prop :=
  (PatentTx (fun _ _ _ => True) reqs p d log ws ∧ LinkTx (reqs p) d ws) ∧
    PatentTx (fun _ _ _ => True) reqs p d log ws ∧ RecordTx (reqs p) d ws

/-- In every run events announce what was committed with them. -/
theorem reviewed_of_run
    (hrun : Run (patents cfg reqs).step always (init users inventors categories) σ) :
    (patents cfg reqs).Serial (ReviewedTx reqs) (init users inventors categories).base.db
      σ.base.log := by
  have hrun := landing_of_always hrun
  exact (linked_of_run hrun).and
    (layered_of_run (recordLayer _ cfg reqs) trivial (fun _ => trivial) hrun).serial

/-- `row'` in `d'` is `row` in `d` with another status; nothing that an edit writes has changed. -/
structure Frozen (d : Db) (row : Patent) (d' : Db) (row' : Patent) : Prop where
  columns : row' = { row with
    status := row'.status, reviewedAt := row'.reviewedAt, updatedAt := row'.updatedAt }
  categories : d'.categoryLinksOf row.id = d.categoryLinksOf row.id
  credits : d'.creditsOf row.id = d.creditsOf row.id

/-- The one event of an approve of patent `id` carries `record`. -/
def Carries (id : Nat) (record : PatentRecord) (ws : List Write) : Prop :=
  ∃ n eventId now, ∀ e, Write.insertEvent e ∈ ws ↔
    e = eventRow id n (patentVersionUpserted record eventId now)

/-- What holds of patent `id` after the transactions `more` since its submit. -/
structure Undisturbed (reqs : Nat → Request) (id : Nat) (d : Db) (row : Patent) (d' : Db)
    (row' : Patent) (more : List (Nat × List Write)) : Prop where
  found : d'.patents.get? id = some row'
  frozen : Frozen d row d' row'
  unedited : ∀ e ∈ more, ∀ user updates, reqs e.1 ≠ .updatePatent user id updates
  carried : ∀ e ∈ more, ∀ admin comments, reqs e.1 = .approvePatent admin id comments →
    Carries id (d.patentInclude row) e.2

/-- An approve announces the record of the row that it has written, and nothing else. -/
theorem carries_of_tx {d' : Db} {admin : Caller} {comments : Option String}
    (hreq : reqs p = .approvePatent admin id comments) (htx : ReviewedTx reqs p d' log ws)
    (hold : d'.patents.get? id = some row') (href : SameReference d d')
    (hfrozen : Frozen d row d' row') (hid : row.id = id) : Carries id (d.patentInclude row) ws := by
  obtain ⟨old, now, review, n, eventId, at_, hlands, -, rfl⟩ :=
    approve_writes hreq htx.2.1 htx.2.2
  subst hid
  obtain rfl := Option.some.inj (hlands.get?.symm.trans hold)
  have hsame : d'.patentInclude row = d.patentInclude row :=
    patentInclude_congr href hfrozen.categories hfrozen.credits
  -- the row that is written differs from the frozen one in columns that no event shows
  have hshown : patentVersionUpserted (d'.patentInclude
      (transitioned .approve stampReviewed now old)) eventId at_ =
        patentVersionUpserted (d.patentInclude row) eventId at_ := by
    rw [hfrozen.columns, ← hsame]
    rfl
  refine ⟨n, eventId, at_, fun e => ?_⟩
  rw [hshown]
  simp

/-- **Step lemma.**  No transaction but a decline disturbs a patent under review. -/
theorem Undisturbed.tx {d' : Db} (h : Undisturbed reqs id d row d' row' more)
    (hstatus : row'.status = .pendingAdmin ∨ row'.status = .approved) (href : SameReference d d')
    (htx : ReviewedTx reqs p d' log ws)
    (hno : ∀ admin comments, reqs p ≠ .declinePatent admin id comments) (hid : row.id = id) :
    ∃ new, Undisturbed reqs id d row (after d' ws) new (more ++ [(p, ws)]) ∧
      (new.status = .pendingAdmin ∨ new.status = .approved) := by
  have hlinks := htx.1.1.links htx.1.2 id
  have hkept : (∀ user updates, reqs p ≠ .updatePatent user id updates) →
      (∀ e ∈ more ++ [(p, ws)], ∀ user updates, reqs e.1 ≠ .updatePatent user id updates) :=
    fun hp => List.forall_mem_append.mpr ⟨h.unedited, List.forall_mem_singleton.mpr hp⟩
  have hcarried : (∀ admin comments, reqs p = .approvePatent admin id comments →
        Carries id (d.patentInclude row) ws) →
      ∀ e ∈ more ++ [(p, ws)], ∀ admin comments, reqs e.1 = .approvePatent admin id comments →
        Carries id (d.patentInclude row) e.2 :=
    fun hp => List.forall_mem_append.mpr ⟨h.carried, List.forall_mem_singleton.mpr hp⟩
  have hfrozen : ∀ {new : Patent}, new = { row' with
        status := new.status, reviewedAt := new.reviewedAt, updatedAt := new.updatedAt } →
      (after d' ws).categoryLinksOf id = d'.categoryLinksOf id ∧
        (after d' ws).creditsOf id = d'.creditsOf id → Frozen d row (after d' ws) new := by
    rintro new hnew ⟨hcategories, hcredits⟩
    rw [← hid] at hcategories hcredits
    refine ⟨?_, hcategories.trans h.frozen.categories, hcredits.trans h.frozen.credits⟩
    rw [hnew, h.frozen.columns]
  cases htx.1.1.effect id with
  | other hreq hsame =>
    refine ⟨row', ⟨hsame.trans h.found, hfrozen rfl (hlinks.other_kept hreq h.found),
      hkept fun user updates he => hreq (he ▸ rfl),
      hcarried fun admin comments he => absurd (he ▸ rfl) hreq⟩, hstatus⟩
  | create hreq hunused hmem hold => cases hold.symm.trans h.found
  | update hreq hold heditable =>
    obtain rfl := Option.some.inj (hold.symm.trans h.found)
    rcases hstatus with hs | hs <;> rw [hs] at heditable <;> simp [EDITABLE_STATUSES] at heditable
  | submit hreq hold hsubmittable =>
    obtain rfl := Option.some.inj (hold.symm.trans h.found)
    rcases hstatus with hs | hs <;> rw [hs] at hsubmittable <;> simp [TRANSITIONS] at hsubmittable
  | @review action admin comments before now record n now' o m old hreq hold _ _ _ _ hnew =>
    obtain rfl := Option.some.inj (hold.symm.trans h.found)
    have hunedited : ∀ user updates, reqs p ≠ .updatePatent user id updates := by
      intro user updates he
      rw [he] at hreq
      cases hreq
    -- of the two decisions the decline is excluded
    have happrove : action = .approve := by
      generalize hr : reqs p = r at hreq
      cases hreq with
      | approve => rfl
      | decline => exact absurd hr (hno _ _)
    subst happrove
    exact ⟨_, ⟨hnew, hfrozen rfl (hlinks.review_kept hreq), hkept hunedited,
      hcarried fun admin comments he => carries_of_tx he htx h.found href h.frozen hid⟩, Or.inr rfl⟩
  | delete hreq hold hdraft =>
    obtain rfl := Option.some.inj (hold.symm.trans h.found)
    rcases hstatus with hs | hs <;> cases hs.symm.trans hdraft

/-- The row that a submit has left. -/
theorem submitted_row {user : Caller}
    (hrun : Run (patents cfg reqs).step always (init users inventors categories) σ)
    (hlast : σ.base.log = log ++ [(p, ws)]) (hsubmit : reqs p = .submitForReview user id) :
    ∃ row, σ.base.db.patents.get? id = some row ∧ row.id = id ∧ row.status = .pendingAdmin := by
  have hserial := reviewed_of_run hrun
  have hreplay := (holds_of_run (landing_of_always hrun)).replay
  rw [hlast] at hserial hreplay
  rw [Machine.replay_concat] at hreplay
  cases hserial.last.2.1.1.effect id with
  | submit hreq hold hstatus hrow =>
    have hid := (Table.get?_eq_some.mp hold).2
    rw [hreplay]
    exact ⟨_, hrow, hid, rfl⟩
  | other hreq =>
    rw [hsubmit] at hreq
    exact absurd rfl hreq
  | create hreq => nomatch hsubmit.symm.trans hreq
  | update hreq => nomatch hsubmit.symm.trans hreq
  | review hreq =>
    rw [hsubmit] at hreq
    nomatch hreq
  | delete hreq => nomatch hsubmit.symm.trans hreq

/-- **Nothing is edited under review.**  From the commit of a submit on, as long as no decline of
    the patent commits, no edit of it commits, what an edit writes stays as it was, and every
    approve announces the record that was submitted. -/
theorem frozen_of_run {user : Caller}
    (hrun : Run (patents cfg reqs).step always (init users inventors categories) σ)
    (hlater : Run (patents cfg reqs).step always σ σ')
    (hlast : σ.base.log = log ++ [(p, ws)]) (hsubmit : reqs p = .submitForReview user id)
    (hlog : σ'.base.log = σ.base.log ++ more)
    (hno : ∀ e ∈ more, ∀ admin comments, reqs e.1 ≠ .declinePatent admin id comments) :
    ∃ row row', σ.base.db.patents.get? id = some row ∧
      Undisturbed reqs id σ.base.db row σ'.base.db row' more := by
  obtain ⟨row, hrow, hid, hstatus⟩ := submitted_row hrun hlast hsubmit
  have hserial := reviewed_of_run (hrun.trans hlater)
  have hstep := since (fun d more' =>
      (∀ e ∈ more', ∀ admin comments, reqs e.1 ≠ .declinePatent admin id comments) →
      SameReference σ.base.db d ∧ ∃ row', Undisturbed reqs id σ.base.db row d row' more' ∧
        (row'.status = .pendingAdmin ∨ row'.status = .approved))
    hserial (landing_of_always hrun) (landing_of_always hlater) hlog (fun hP htx hno => ?_) ?_
  · obtain ⟨-, row', hundisturbed, -⟩ := hstep hno
    exact ⟨row, row', hrow, hundisturbed⟩
  · obtain ⟨href, row', hundisturbed, hstatus'⟩ := hP fun e he => hno e (List.mem_append_left _ he)
    refine ⟨href.trans (sameReference_after _ _), hundisturbed.tx hstatus' href htx ?_ hid⟩
    exact hno _ (List.mem_append_right _ List.mem_cons_self)
  · intro _
    exact ⟨⟨rfl, rfl, rfl⟩, row, ⟨hrow, ⟨rfl, rfl, rfl⟩, fun e he => (List.not_mem_nil he).elim,
      fun e he => (List.not_mem_nil he).elim⟩, Or.inl hstatus⟩

/-! ## An edit that comes too late -/

/-- Edit 3 of the draft, its submit and an approve. -/
def lateEdit : Nat → Request
  | 0 => .requestUpload ada "a.pdf" "application/pdf"
  | 1 => .createPatent ada firstInput
  | 2 => .submitForReview ada 1
  | 3 => .updatePatent ada 1 ⟨some "Pot", none, none, none, none, none, some [], none⟩
  | _ => .approvePatent root 1 none

/-- The edit reads the draft before it is submitted. -/
def editThenSubmit : List (Act Oracle Upload) := drafted ++ steps 3 4 ++ steps 2 4

/-- It finds the patent under review; then the patent is approved. -/
def refusedThenApproved : List (Act Oracle Upload) := steps 3 3 ++ steps 4 7

theorem editThenSubmit_runs : ((exec (patents pdfOnly lateEdit).step blank editThenSubmit).bind
    fun σ => σ.base.log.getLast?.map Prod.fst) = some 2 := by
  decide

theorem refusedThenApproved_runs :
    ((exec (patents pdfOnly lateEdit).step blank editThenSubmit).bind
      fun σ => exec (patents pdfOnly lateEdit).step σ refusedThenApproved).isSome = true := by
  decide

theorem lateEdit_declines (p : Nat) (admin : Caller) (comments : Option String) :
    lateEdit p ≠ .declinePatent admin 1 comments := by
  intro h
  match p with
  | 0 => nomatch h
  | 1 => nomatch h
  | 2 => nomatch h
  | 3 => nomatch h
  | n + 4 => nomatch h

/-- An edit that comes too late is refused, and the patent is approved as submitted. -/
theorem frozen_of_lateEdit : ∃ σ σ' more row row',
    exec (patents pdfOnly lateEdit).step blank editThenSubmit = some σ ∧
    exec (patents pdfOnly lateEdit).step σ refusedThenApproved = some σ' ∧
    σ'.base.log = σ.base.log ++ more ∧ σ.base.db.patents.get? 1 = some row ∧
    Undisturbed lateEdit 1 σ.base.db row σ'.base.db row' more := by
  obtain ⟨σ', hσ'⟩ := Option.isSome_iff_exists.mp refusedThenApproved_runs
  obtain ⟨σ, hσ, hσ'⟩ := Option.bind_eq_some_iff.mp hσ'
  have hlast := editThenSubmit_runs
  rw [hσ, Option.bind_some, Option.map_eq_some_iff] at hlast
  obtain ⟨⟨p, ws⟩, hlast, hp⟩ := hlast
  obtain rfl : p = 2 := hp
  obtain ⟨log, hlast⟩ := List.getLast?_eq_some_iff.mp hlast
  have hlater : Run (patents pdfOnly lateEdit).step always σ σ' := Run.of_exec hσ'
  obtain ⟨more, hmore⟩ := Machine.log_of_run _ hlater
  have hsubmit : lateEdit 2 = .submitForReview ada 1 := rfl
  obtain ⟨row, row', hrow, hundisturbed⟩ := frozen_of_run (Run.of_exec hσ) hlater hlast hsubmit
    hmore.symm fun e _ => lateEdit_declines e.1
  exact ⟨σ, σ', more, row, row', hσ, hσ', hmore.symm, hrow, hundisturbed⟩

end Runs

end SmartPatents.UnderReview
