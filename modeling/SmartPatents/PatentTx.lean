/-
  What a committed patent transaction is.

  `PatentTx` lists the five kinds of transaction the patent machine commits: a new draft, an edit, a
  submission, a review, a deletion.  `outline` shows that the statement-level machine commits
  nothing else, whatever the interleaving, and from there on patents are a SERIAL log of `PatentTx`
  (`holds_of_run`).

  Two of the guarded writes rest on something the request has read before, outside any lock: an
  edit decides from the record it read first whether the content changes, a decline decides from
  the status it read at the start of its transaction whether the patent is withdrawn.  What such a
  write knows about the row it lands on is the parameter `J` of this file: a run in which every
  landing meets `J` (`Landing`) has a log of transactions that meet it.

  A transaction is described by its writes and by what they found: the guards of the UPDATE, the
  row as it was, the ids that were new.  What a request had read before appears as `J` only, so a
  result that needs nothing of it takes `J` as always true.

  That transactions of other requests change nothing that an open one rests on comes from the
  locks (`Apart`): row locks by table and id, and the values of the unique columns.

  The five kinds, one constructor each:

  * `create`: the row of a draft, and links of it;
  * `update`: the row as the edit leaves it, and writes about its links;
  * `submit`: the row with its new status and stamp;
  * `review`: the row, one review, and the event if the decision is announced;
  * `delete`: a draft goes, and the cascade takes along what refers to it.
-/
import SmartPatents.Lib.Writes
import SmartPatents.PatentService

namespace SmartPatents.PatentService

open ReadCommitted Runs Access Lifecycle Relations Storage PatentEvents

/-! ## Writes and tables -/

/-- The database after a list of writes. -/
abbrev after (d : Db) (ws : List Write) : Db := ws.foldl apply d

/-- The patent row a write leaves behind. -/
def Write.patent? : Write → Option Patent
  | .insertPatent p | .updatePatent _ p => some p
  | _ => none

/-- The patent row a write inserts, replaces or deletes. -/
def Write.touches : Write → Option Nat
  | .insertPatent p | .updatePatent _ p | .deletePatent p => some p.id
  | _ => none

/-- The patent whose links a write changes. -/
def Write.linkOf : Write → Option Nat
  | .insertCategory l | .deleteCategory l => some l.patentId
  | .insertInventor l | .deleteInventor l => some l.patentId
  | _ => none

/-- The patent that a new review or event is about. -/
def Write.trailOf : Write → Option Nat
  | .insertReview r => some r.patentId
  | .insertEvent e => some e.aggregateId
  | _ => none

/-- A write of a link leaves no trail. -/
theorem trailOf_of_linkOf {w : Write} {id : Nat} (h : w.linkOf = some id) : w.trailOf = none := by
  cases w <;> first | rfl | nomatch h

section Tables

variable {d : Db} {w : Write} {ws vs : List Write}

/-- A row after a write is the one written, or one that the write does not touch. -/
theorem mem_patents_apply {x : Patent} :
    x ∈ (apply d w).patents ↔
      w.patent? = some x ∨ (x ∈ d.patents ∧ w.touches ≠ some x.id) := by
  cases w <;> simp [apply, Write.patent?, Write.touches, Table.mem_put, Table.mem_erase, eq_comm]

theorem mem_patents_singleton {x : Patent} :
    x ∈ (after d [w]).patents ↔
      w.patent? = some x ∨ (x ∈ d.patents ∧ w.touches ≠ some x.id) :=
  mem_patents_apply

/-- A review after a write is the one inserted, or an old one that no deletion has taken along. -/
theorem mem_reviews_apply {x : PatentReview} :
    x ∈ (apply d w).reviews ↔ w = .insertReview x ∨
      (x ∈ d.reviews ∧ (∀ r, w = .insertReview r → x.id ≠ r.id) ∧
        ∀ old, w = .deletePatent old → x.patentId ≠ old.id) := by
  cases w with
  | insertReview r => simp [apply, Table.mem_put, eq_comm]
  | deletePatent old => simp [apply, Table.mem_deleteWhere]
  | _ => simp [apply]

/-- An event after a write is the one inserted, or an old one. -/
theorem mem_outbox_apply {x : Outbox.OutboxEvent PatentEvent} :
    x ∈ (apply d w).outbox ↔ w = .insertEvent x ∨
      (x ∈ d.outbox ∧ ∀ e, w = .insertEvent e → x.id ≠ e.id) := by
  cases w <;> simp [apply, Table.mem_put, eq_comm]

/-- A row of the new database is an old one, or was written. -/
theorem patent_back (ws : List Write) {d : Db} {x : Patent} (hx : x ∈ (after d ws).patents) :
    x ∈ d.patents ∨ ∃ w ∈ ws, w.patent? = some x := by
  refine Writes.back apply (P := fun d => x ∈ d.patents) (fun w _ d hx => ?_) hx
  rcases mem_patents_apply.mp hx with hw | ⟨hx, -⟩
  · exact Or.inr hw
  · exact Or.inl hx

/-- A row that no write touches stays. -/
theorem patent_forth (ws : List Write) {d : Db} {x : Patent} (hx : x ∈ d.patents)
    (hno : ∀ w ∈ ws, w.touches ≠ some x.id) : x ∈ (after d ws).patents :=
  List.foldlRecOn (motive := fun d => x ∈ d.patents) ws apply hx
    fun _ hx w hw => mem_patents_apply.mpr (Or.inr ⟨hx, hno w hw⟩)

/-- A review found after some writes was there before, or one of them inserted it. -/
theorem review_back (ws : List Write) {d : Db} {x : PatentReview} (hx : x ∈ (after d ws).reviews) :
    x ∈ d.reviews ∨ Write.insertReview x ∈ ws := by
  have hback := Writes.back apply (P := fun d => x ∈ d.reviews)
    (Q := fun w => w = Write.insertReview x) (fun w _ d hx => (mem_reviews_apply.mp hx).symm.imp_left And.left) hx
  rcases hback with hx | ⟨w, hw, rfl⟩
  · exact Or.inl hx
  · exact Or.inr hw

theorem event_back (ws : List Write) {d : Db} {x : Outbox.OutboxEvent PatentEvent}
    (hx : x ∈ (after d ws).outbox) : x ∈ d.outbox ∨ Write.insertEvent x ∈ ws := by
  have hback := Writes.back apply (P := fun d => x ∈ d.outbox)
    (Q := fun w => w = Write.insertEvent x) (fun w _ d hx => (mem_outbox_apply.mp hx).symm.imp_left And.left) hx
  rcases hback with hx | ⟨w, hw, rfl⟩
  · exact Or.inl hx
  · exact Or.inr hw

/-- Link writes change neither patents nor reviews nor events. -/
theorem after_links {id : Nat} (ls : List Write) {d : Db} (hls : ∀ w ∈ ls, w.linkOf = some id) :
    (after d ls).patents = d.patents ∧ (after d ls).reviews = d.reviews ∧
      (after d ls).outbox = d.outbox := by
  have hkept := Writes.keeps apply (d := d) (fun d : Db => (d.patents, d.reviews, d.outbox))
    fun w hw d => by
      have hlink := hls w hw
      cases w <;> first | rfl | cases hlink
  simpa only [Prod.mk.injEq] using hkept

/-- The value of a unique column is free for a row. -/
theorem uniqueClash_eq_false {p : Patent} : uniqueClash d p = false ↔ ∀ q ∈ d.patents, q.id ≠ p.id →
    (p.documentKey ≠ none → q.documentKey ≠ p.documentKey) ∧
    (p.publicationNumber ≠ none → q.publicationNumber ≠ p.publicationNumber) := by
  unfold uniqueClash
  rw [List.any_eq_false]
  refine forall_congr' fun q => forall_congr' fun _ => ?_
  cases p.documentKey <;> cases p.publicationNumber <;> simp

end Tables

/-! ## Locks -/

section Locks

variable {cfg : Config} {reqs : Nat → Request} {ws vs : List Write} {d : Db}

/-- Whoever touches a patent locks its row. -/
theorem mem_locks_of_touches {w : Write} {id : Nat} (h : w.touches = some id) :
    ⟨.patent id, false⟩ ∈ locks w := by
  cases w <;> simp_all [Write.touches, locks, patentLocks]

/-- Whoever writes a document key locks it, since the column is unique. -/
theorem mem_locks_of_documentKey {w : Write} {p : Patent} {key : String} (h : w.patent? = some p)
    (hkey : p.documentKey = some key) : ⟨.documentKey key, false⟩ ∈ locks w := by
  cases w <;> simp_all [Write.patent?, locks, patentLocks]

theorem mem_locks_of_publicationNumber {w : Write} {p : Patent} {number : String}
    (h : w.patent? = some p) (hnumber : p.publicationNumber = some number) :
    ⟨.publicationNumber number, false⟩ ∈ locks w := by
  cases w <;> simp_all [Write.patent?, locks, patentLocks]

/-- Transactions that hold no clashing locks touch different patents. -/
theorem touches_ne (hap : (patents cfg reqs).Apart ws vs) {w v : Write} {id : Nat} (hw : w ∈ ws)
    (hv : v ∈ vs) (h : w.touches = some id) : v.touches ≠ some id :=
  fun h' => hap.excludes hw hv (mem_locks_of_touches h) false (mem_locks_of_touches h')

/-- A row that a transaction has locked stays when another one commits. -/
theorem mem_after_of_apart (hap : (patents cfg reqs).Apart ws vs) {w : Write} {p : Patent}
    (hw : w ∈ ws) (h : w.touches = some p.id) (hp : p ∈ d.patents) : p ∈ (after d vs).patents :=
  patent_forth vs hp fun _ hv => touches_ne hap hw hv h

/-- Unique values that a transaction has written stay free for its row. -/
theorem uniqueClash_after (hap : (patents cfg reqs).Apart ws vs) {w : Write} {p : Patent}
    (hw : w ∈ ws) (h : w.patent? = some p) (hfree : uniqueClash d p = false) :
    uniqueClash (after d vs) p = false := by
  rw [uniqueClash_eq_false] at hfree ⊢
  intro q hq hne
  rcases patent_back vs hq with hq | ⟨v, hv, hvq⟩
  · exact hfree q hq hne
  · constructor
    -- both would have locked the value
    · intro hkey heq
      obtain ⟨key, hkey⟩ := Option.ne_none_iff_exists'.mp hkey
      exact hap.excludes hw hv (mem_locks_of_documentKey h hkey) false
        (mem_locks_of_documentKey hvq (heq.trans hkey))
    · intro hnumber heq
      obtain ⟨number, hnumber⟩ := Option.ne_none_iff_exists'.mp hnumber
      exact hap.excludes hw hv (mem_locks_of_publicationNumber h hnumber) false
        (mem_locks_of_publicationNumber hvq (heq.trans hnumber))

end Locks

/-! ## The transactions -/

/-- `row` is the row that a guarded write `WHERE id AND status IN statuses` lands on. -/
structure Lands (d : Db) (id : Nat) (statuses : List PatentStatus) (row : Patent) : Prop where
  mem : row ∈ d.patents
  id : row.id = id
  status : row.status ∈ statuses

/-- The guard of the edit and of the decision. -/
def guardOf : Request → Loc → Option (Nat × List PatentStatus)
  | .updatePatent _ id _, .update (.write _ _ _) => some (id, EDITABLE_STATUSES)
  | .approvePatent _ id _, .review (.write _) => some (id, (TRANSITIONS .approve).from)
  | .declinePatent _ id _, .review (.write _) => some (id, (TRANSITIONS .decline).from)
  | _, _ => none

/-- Where request `p` is about to write, the row it lands on meets `J`. -/
def Landing (J : Nat → Loc → Patent → Prop) (reqs : Nat → Request) (p : Nat) (l : Loc) (d : Db) :
    Prop :=
  ∀ id statuses row, guardOf (reqs p) l = some (id, statuses) → Lands d id statuses row → J p l row

/-- The two decisions. -/
inductive Reviews : Request → Action → Caller → Nat → Option String → Prop
  | approve {admin id comments} :
      Reviews (.approvePatent admin id comments) .approve admin id comments
  | decline {admin id comments} :
      Reviews (.declinePatent admin id comments) .decline admin id comments

/-- No transaction has inserted a patent with this id. -/
def Unused (log : List (Nat × List Write)) (id : Nat) : Prop :=
  ∀ e ∈ log, ∀ q, Write.insertPatent q ∈ e.2 → q.id ≠ id

/-- The id of `row` is new, and above those of the other reviews of its patent. -/
def NewReview (d : Db) (row : PatentReview) : Prop :=
  ∀ r ∈ d.reviews, r.id ≠ row.id ∧ (r.patentId = row.patentId → r.id < row.id)

/-- The id of `e` is new, and above those of the other events of its patent. -/
def NewEvent (d : Db) (e : Outbox.OutboxEvent PatentEvent) : Prop :=
  ∀ f ∈ d.outbox, f.id ≠ e.id ∧ (f.aggregateId = e.aggregateId → f.id < e.id)

/-- The OUTBOX_EVENT row of an event of patent `id`. -/
def eventRow (id n : Nat) (event : PatentEvent) : Outbox.OutboxEvent PatentEvent :=
  Outbox.enqueue n AGGREGATE_TYPE id event.eventType event

/-- The writes of `enqueue`, if there is an event. -/
def Announces (d : Db) (id : Nat) (event : Option PatentEvent) (ws : List Write) : Prop :=
  match event with
  | none => ws = []
  | some event => ∃ n, ws = [.insertEvent (eventRow id n event)] ∧ NewEvent d (eventRow id n event)

/-- The decision of request `p` lands on `old`. -/
structure Decides (J : Nat → Loc → Patent → Prop) (reqs : Nat → Request) (p : Nat) (d : Db)
    (action : Action) (admin : Caller) (id : Nat) (comments : Option String)
    (before : Option PatentStatus) (old : Patent) : Prop where
  req : Reviews (reqs p) action admin id comments
  lands : Lands d id (TRANSITIONS action).from old
  known : J p (.review (.write before)) old

/-- The transactions of request `p`, committed on database `d` after `log`. -/
inductive PatentTx (J : Nat → Loc → Patent → Prop) (reqs : Nat → Request) (p : Nat) (d : Db)
    (log : List (Nat × List Write)) : List Write → Prop
  | create {user input id now ls} (hreq : reqs p = .createPatent user input)
      (hid : ∀ q ∈ d.patents, q.id ≠ id) (hunused : Unused log id)
      (hfree : uniqueClash d (draftOf user input id now) = false)
      (hls : ∀ w ∈ ls, w.linkOf = some id) :
      PatentTx J reqs p d log (.insertPatent (draftOf user input id now) :: ls)
  | update {user id updates links ids now ls} {patent : PatentRecord} {old : Patent}
      (hreq : reqs p = .updatePatent user id updates) (hlands : Lands d id EDITABLE_STATUSES old)
      (hknown : J p (.update (.write patent links ids)) old)
      (hfree : uniqueClash d (edited updates patent.toPatent old now) = false)
      (hls : ∀ w ∈ ls, w.linkOf = some id) :
      PatentTx J reqs p d log (.updatePatent old (edited updates patent.toPatent old now) :: ls)
  | submit {user id old now} (hreq : reqs p = .submitForReview user id)
      (hlands : Lands d id (TRANSITIONS .submit).from old) :
      PatentTx J reqs p d log [.updatePatent old (transitioned .submit stampSubmitted now old)]
  | review {action admin id comments before old now record n now' o events}
      (hdec : Decides J reqs p d action admin id comments (some before) old)
      (hrecord : record.toPatent = transitioned action stampReviewed now old)
      (hreview : NewReview d (reviewRow admin id action comments n now'))
      (hevents : Announces d id (buildEvent action record before o) events) :
      PatentTx J reqs p d log
        (.updatePatent old (transitioned action stampReviewed now old) ::
          .insertReview (reviewRow admin id action comments n now') :: events)
  | delete {user id old} (hreq : reqs p = .deletePatent user id) (hlands : Lands d id [.draft] old) :
      PatentTx J reqs p d log [.deletePatent old]

section Tx

variable {J : Nat → Loc → Patent → Prop} {cfg : Config} {reqs : Nat → Request} {p q : Nat} {d : Db}
  {ws vs : List Write} {log : List (Nat × List Write)}

/-- Every write of an announcement is the one event it announces. -/
theorem event_of_announces {id : Nat} {event : Option PatentEvent} (h : Announces d id event ws)
    {w : Write} (hw : w ∈ ws) :
    ∃ e n, event = some e ∧ w = .insertEvent (eventRow id n e) ∧ NewEvent d (eventRow id n e) := by
  cases event with
  | none =>
    obtain rfl : ws = [] := h
    nomatch hw
  | some e =>
    obtain ⟨n, rfl, hnew⟩ := h
    exact ⟨e, n, rfl, List.mem_singleton.mp hw, hnew⟩

/-- A transaction that inserts a review or enqueues an event has locked the patent it is about. -/
theorem PatentTx.trail (htx : PatentTx J reqs p d log ws) {w : Write} (hw : w ∈ ws) {id : Nat}
    (h : w.trailOf = some id) :
    (∃ v ∈ ws, v.touches = some id) ∧
      ∀ e, w = .insertEvent e → ∃ n event, e = eventRow id n event := by
  cases htx with
  | create hreq hid hunused hfree hls =>
    rcases List.mem_cons.mp hw with rfl | hw
    · nomatch h
    · nomatch h.symm.trans (trailOf_of_linkOf (hls w hw))
  | update hreq hlands hknown hfree hls =>
    rcases List.mem_cons.mp hw with rfl | hw
    · nomatch h
    · nomatch h.symm.trans (trailOf_of_linkOf (hls w hw))
  | submit =>
    obtain rfl := List.mem_singleton.mp hw
    nomatch h
  | @review action admin id' comments before old now record n now' o events hdec hrecord hreview
      hevents =>
    rcases List.mem_cons.mp hw with rfl | hw
    · nomatch h
    · rcases List.mem_cons.mp hw with rfl | hw
      · exact ⟨⟨_, List.mem_cons_self, h ▸ congrArg some hdec.lands.id⟩, nofun⟩
      · obtain ⟨event, m, -, rfl, -⟩ := event_of_announces hevents hw
        obtain rfl : id' = id := Option.some.inj h
        refine ⟨⟨_, List.mem_cons_self, congrArg some hdec.lands.id⟩, fun e he => ?_⟩
        exact ⟨m, event, (Write.insertEvent.inj he).symm⟩
  | delete =>
    obtain rfl := List.mem_singleton.mp hw
    nomatch h

/-- A transaction that leaves a trail of a patent has written its row. -/
theorem PatentTx.touches_of_trail (htx : PatentTx J reqs p d log ws) {w : Write} (hw : w ∈ ws)
    {id : Nat} (h : w.trailOf = some id) : ∃ v ∈ ws, v.touches = some id :=
  (htx.trail hw h).1

/-! ## Other transactions do not break what a transaction rests on -/

/-- Another transaction cannot take the row from under a guarded write: the row is locked. -/
theorem Lands.after {id : Nat} {statuses : List PatentStatus} {row : Patent} {w : Write}
    (h : Lands d id statuses row) (hap : (patents cfg reqs).Apart ws vs) (hw : w ∈ ws)
    (htouch : w.touches = some id) : Lands (after d vs) id statuses row :=
  ⟨mem_after_of_apart hap hw (h.id ▸ htouch) h.mem, h.id, h.status⟩

theorem Unused.after {r : Patent} (h : Unused log r.id)
    (hap : (patents cfg reqs).Apart ws vs) (hw : Write.insertPatent r ∈ ws) :
    Unused (log ++ [(q, vs)]) r.id := by
  intro e he x hx
  rcases List.mem_append.mp he with he | he
  · exact h e he x hx
  · rw [List.mem_singleton.mp he] at hx
    intro hid
    exact touches_ne hap hw hx rfl (congrArg some hid)

theorem NewReview.after {row : PatentReview} {w : Write} (h : NewReview d row)
    (hap : (patents cfg reqs).Apart ws vs) (hw : w ∈ ws) (htouch : w.touches = some row.patentId)
    (hrow : Write.insertReview row ∈ ws) (htx : PatentTx J reqs q d log vs) :
    NewReview (after d vs) row := by
  intro r hr
  rcases review_back vs hr with hr | hr
  · exact h r hr
  · constructor
    · intro hid
      refine hap.excludes hrow hr (k := .review row.id) (List.mem_singleton.mpr rfl) false ?_
      exact hid ▸ List.mem_singleton.mpr rfl
    · intro hpatent
      obtain ⟨v, hv, hvtouch⟩ := htx.touches_of_trail hr rfl
      exact absurd (hpatent ▸ hvtouch) (touches_ne hap hw hv htouch)

theorem NewEvent.after {e : Outbox.OutboxEvent PatentEvent} {w : Write} (h : NewEvent d e)
    (hap : (patents cfg reqs).Apart ws vs) (hw : w ∈ ws) (htouch : w.touches = some e.aggregateId)
    (hrow : Write.insertEvent e ∈ ws) (htx : PatentTx J reqs q d log vs) :
    NewEvent (after d vs) e := by
  intro f hf
  rcases event_back vs hf with hf | hf
  · exact h f hf
  · constructor
    · intro hid
      refine hap.excludes hrow hf (k := .event e.id) (List.mem_singleton.mpr rfl) false ?_
      exact hid ▸ List.mem_singleton.mpr rfl
    · intro hpatent
      obtain ⟨v, hv, hvtouch⟩ := htx.touches_of_trail hf rfl
      exact absurd (hpatent ▸ hvtouch) (touches_ne hap hw hv htouch)

/-! ## The tables after a transaction -/

/-- The tables after a creation: one patent more, and links. -/
theorem tables_of_insert {ls : List Write} {patent : Patent} {id : Nat}
    (hls : ∀ w ∈ ls, w.linkOf = some id) :
    (after d (.insertPatent patent :: ls)).patents = d.patents.put patent ∧
      (after d (.insertPatent patent :: ls)).reviews = d.reviews ∧
      (after d (.insertPatent patent :: ls)).outbox = d.outbox :=
  after_links ls (d := apply d (.insertPatent patent)) hls

/-- The tables after an edit: one patent replaced, and links. -/
theorem tables_of_update {ls : List Write} {old new : Patent} {id : Nat}
    (hls : ∀ w ∈ ls, w.linkOf = some id) :
    (after d (.updatePatent old new :: ls)).patents = d.patents.put new ∧
      (after d (.updatePatent old new :: ls)).reviews = d.reviews ∧
      (after d (.updatePatent old new :: ls)).outbox = d.outbox :=
  after_links ls (d := apply d (.updatePatent old new)) hls

/-- A transaction writes one patent row, of an id that is new or that it has found. -/
theorem PatentTx.row (htx : PatentTx J reqs p d log ws) :
    (∃ new, (after d ws).patents = d.patents.put new ∧
      ((∃ old ∈ d.patents, new.id = old.id ∧ (new.documentKey = old.documentKey ∨
          uniqueClash d new = false)) ∨
        (Write.insertPatent new ∈ ws ∧ uniqueClash d new = false))) ∨
    ∃ old ∈ d.patents, (after d ws).patents = d.patents.erase old.id := by
  cases htx with
  | create hreq hid hunused hfree hls =>
    exact Or.inl ⟨_, (tables_of_insert hls).1, Or.inr ⟨List.mem_cons_self, hfree⟩⟩
  | update hreq hlands hknown hfree hls =>
    exact Or.inl ⟨_, (tables_of_update hls).1, Or.inl ⟨_, hlands.mem, rfl, Or.inr hfree⟩⟩
  | submit hreq hlands => exact Or.inl ⟨_, rfl, Or.inl ⟨_, hlands.mem, rfl, Or.inl rfl⟩⟩
  | @review action admin id comments before old now record n now' o events hdec hrecord hreview
      hevents =>
    refine Or.inl ⟨transitioned action stampReviewed now old, ?_,
      Or.inl ⟨old, hdec.lands.mem, rfl, Or.inl rfl⟩⟩
    cases he : buildEvent action record before o with
    | none =>
      rw [he] at hevents
      obtain rfl : events = [] := hevents
      rfl
    | some event =>
      rw [he] at hevents
      obtain ⟨n, rfl, -⟩ := hevents
      rfl
  | delete hreq hlands => exact Or.inr ⟨_, hlands.mem, rfl⟩

end Tx

end SmartPatents.PatentService
