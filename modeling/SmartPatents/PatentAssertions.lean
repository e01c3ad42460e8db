/-
  What a patent request may rest on at each program point.

  `At` is the assertion: before its transaction a request rests on nothing, inside it the row it has
  written still stands as it found it.  `at_other` shows that no transaction with disjoint locks
  breaks an assertion, `at_congr` that an assertion only reads the patents, their reviews and the
  outbox.

  An assertion speaks about the tables as they were when the request wrote, about its uncommitted
  writes, and about what is known of the row: what the guarded write found (`J`), that a new id is
  new, that a review is the last one of its patent.  `at_world` is for the parts of the state that
  only advance.

  The assertions by operation:

  * `Creating`, `Editing` — the row is written, and links of it may be;
  * `Submitting`, `Deleting` — the one write is made;
  * `Deciding`, `Reviewed`, `Enqueued` — the row, then the review, then the event.
-/
import SmartPatents.PatentTx

namespace SmartPatents.PatentService

open ReadCommitted Runs Access Lifecycle Relations Storage PatentEvents

/-! ## Assertions -/

/-- Ids come from sequences, every patent was inserted by the log, document keys are unique. -/
structure Inv (b : Base Db Ext Write) : Prop where
  patentId : ∀ e ∈ b.log, ∀ q, Write.insertPatent q ∈ e.2 → q.id < b.world.nextPatentId
  inserted : ∀ q ∈ b.db.patents, ¬ Unused b.log q.id
  reviewId : ∀ r ∈ b.db.reviews, r.id < b.world.nextReviewId
  eventId : ∀ e ∈ b.db.outbox, e.id < b.world.nextEventId
  documentKey : ∀ q ∈ b.db.patents, ∀ r ∈ b.db.patents, q.documentKey ≠ none →
    r.documentKey = q.documentKey → r.id = q.id

/-- Sequences only advance. -/
structure Advances (x x' : Ext) : Prop where
  patent : x.nextPatentId ≤ x'.nextPatentId
  review : x.nextReviewId ≤ x'.nextReviewId
  event : x.nextEventId ≤ x'.nextEventId

/-- Nothing has moved. -/
theorem Advances.refl (x : Ext) : Advances x x := ⟨Nat.le_refl _, Nat.le_refl _, Nat.le_refl _⟩

section Assertions

variable (J : Nat → Loc → Patent → Prop) (reqs : Nat → Request) (p : Nat) (b : Base Db Ext Write)
  (ws : List Write)

/-- The transaction of a create after its insert. -/
def Creating (id : Nat) : Prop :=
  ∃ user input now ls, reqs p = .createPatent user input ∧ Unused b.log id ∧
    id < b.world.nextPatentId ∧ uniqueClash b.db (draftOf user input id now) = false ∧
    (∀ w ∈ ls, w.linkOf = some id) ∧ ws = .insertPatent (draftOf user input id now) :: ls

/-- The transaction of an edit after its write. -/
def Editing (patent : PatentRecord) : Prop :=
  ∃ user id updates links ids old now ls, reqs p = .updatePatent user id updates ∧
    Lands b.db id EDITABLE_STATUSES old ∧ J p (.update (.write patent links ids)) old ∧
    uniqueClash b.db (edited updates patent.toPatent old now) = false ∧
    (∀ w ∈ ls, w.linkOf = some id) ∧
    ws = .updatePatent old (edited updates patent.toPatent old now) :: ls

/-- The request has moved a patent to review, and nothing else. -/
def Submitting : Prop :=
  ∃ user id old now, reqs p = .submitForReview user id ∧
    Lands b.db id (TRANSITIONS .submit).from old ∧
    ws = [.updatePatent old (transitioned .submit stampSubmitted now old)]

/-- The transaction of a review after its write. -/
def Deciding (before : Option PatentStatus) (now : Time) (action : Action) (old : Patent) : Prop :=
  (∃ admin id comments, Decides J reqs p b.db action admin id comments before old) ∧
    ws = [.updatePatent old (transitioned action stampReviewed now old)]

/-- The transaction of a review after its insert, with the event that is still to be enqueued. -/
def Reviewed (record : PatentRecord) (event : Option PatentEvent) : Prop :=
  ∃ action admin id comments before old now n now' o,
    Decides J reqs p b.db action admin id comments (some before) old ∧
    record.toPatent = transitioned action stampReviewed now old ∧
    NewReview b.db (reviewRow admin id action comments n now') ∧ n < b.world.nextReviewId ∧
    event = buildEvent action record before o ∧
    ws = [.updatePatent old (transitioned action stampReviewed now old),
      .insertReview (reviewRow admin id action comments n now')]

/-- The whole transaction of a review. -/
def Enqueued : Prop :=
  ∃ vs events record event id, Reviewed J reqs p b vs record event ∧
    (∃ w ∈ vs, w.touches = some id) ∧ Announces b.db id event events ∧
    (∀ e, Write.insertEvent e ∈ events → e.id < b.world.nextEventId) ∧ ws = vs ++ events

/-- The request has deleted a draft, and nothing else. -/
def Deleting : Prop :=
  ∃ user id old, reqs p = .deletePatent user id ∧ Lands b.db id [.draft] old ∧
    ws = [.deletePatent old]

end Assertions

/-- The assertion at every location. -/
def At (J : Nat → Loc → Patent → Prop) (reqs : Nat → Request) (p : Nat) :
    Loc → Base Db Ext Write → List Write → Prop
  | .create (.linkCategories id _ _), b, ws | .create (.linkInventors id _), b, ws
  | .create (.reread id), b, ws => Creating reqs p b ws id
  | .create (.commit _), b, ws => ∃ id, Creating reqs p b ws id
  | .update (.unlinkCategories patent _ _), b, ws | .update (.linkCategories patent _ _), b, ws
  | .update (.unlinkInventors patent _), b, ws | .update (.linkInventors patent _), b, ws
  | .update (.reread patent), b, ws | .update (.commit patent _), b, ws =>
      Editing J reqs p b ws patent
  | .submit .reread, b, ws | .submit (.commit _), b, ws => Submitting reqs p b ws
  | .review (.reread before), b, ws =>
      ∃ now action old, Deciding J reqs p b ws before now action old
  | .review (.create before record), b, ws =>
      ∃ now action old, Deciding J reqs p b ws before now action old ∧
        record.toPatent = transitioned action stampReviewed now old
  | .review (.enqueue event record), b, ws => Reviewed J reqs p b ws record (some event)
  | .review (.commit _), b, ws => Enqueued J reqs p b ws
  | .delete (.commit _), b, ws => Deleting reqs p b ws
  | .throwing _, _, _ => True
  | _, _, ws => ws = []

section Stable

variable {J : Nat → Loc → Patent → Prop} {cfg : Config} {reqs : Nat → Request} {p q : Nat}
  {b : Base Db Ext Write} {ws vs : List Write}

/-- The assertion at a location is one of seven: what keeps each of them keeps it. -/
theorem At.map {l : Loc} {b' : Base Db Ext Write} (hat : At J reqs p l b ws)
    (hcreate : ∀ id, Creating reqs p b ws id → Creating reqs p b' ws id)
    (hedit : ∀ patent, Editing J reqs p b ws patent → Editing J reqs p b' ws patent)
    (hsubmit : Submitting reqs p b ws → Submitting reqs p b' ws)
    (hdecide : ∀ {before now action old}, Deciding J reqs p b ws before now action old →
      Deciding J reqs p b' ws before now action old)
    (hreview : ∀ {record event}, Reviewed J reqs p b ws record event →
      Reviewed J reqs p b' ws record event)
    (henqueue : Enqueued J reqs p b ws → Enqueued J reqs p b' ws)
    (hdelete : Deleting reqs p b ws → Deleting reqs p b' ws) : At J reqs p l b' ws := by
  cases l with
  | create l =>
    cases l with
    | linkCategories id links ids => exact hcreate id hat
    | linkInventors id links => exact hcreate id hat
    | reread id => exact hcreate id hat
    | commit record =>
      obtain ⟨id, hat⟩ := hat
      exact ⟨id, hcreate id hat⟩
    | _ => exact hat
  | update l =>
    cases l with
    | unlinkCategories patent links ids => exact hedit patent hat
    | linkCategories patent links ids => exact hedit patent hat
    | unlinkInventors patent links => exact hedit patent hat
    | linkInventors patent links => exact hedit patent hat
    | reread patent => exact hedit patent hat
    | commit patent record => exact hedit patent hat
    | _ => exact hat
  | submit l =>
    cases l with
    | reread => exact hsubmit hat
    | commit record => exact hsubmit hat
    | _ => exact hat
  | review l =>
    cases l with
    | reread before =>
      obtain ⟨now, action, old, hdec⟩ := hat
      exact ⟨now, action, old, hdecide hdec⟩
    | create before record =>
      obtain ⟨now, action, old, hdec, hrecord⟩ := hat
      exact ⟨now, action, old, hdecide hdec, hrecord⟩
    | enqueue event record => exact hreview hat
    | commit record => exact henqueue hat
    | _ => exact hat
  | delete l =>
    cases l with
    | commit patent => exact hdelete hat
    | _ => exact hat
  | _ => exact hat

/-- Somebody else's commit leaves a creation under way valid. -/
theorem Creating.other {id : Nat} (h : Creating reqs p b ws id)
    (hap : (patents cfg reqs).Apart ws vs) :
    Creating reqs p ((patents cfg reqs).commitBase b q vs) ws id := by
  obtain ⟨user, input, now, ls, hreq, hunused, hlt, hfree, hls, rfl⟩ := h
  exact ⟨user, input, now, ls, hreq,
    Unused.after (r := draftOf user input id now) hunused hap List.mem_cons_self, hlt,
    uniqueClash_after hap List.mem_cons_self rfl hfree, hls, rfl⟩

theorem Editing.other {patent : PatentRecord} (h : Editing J reqs p b ws patent)
    (hap : (patents cfg reqs).Apart ws vs) :
    Editing J reqs p ((patents cfg reqs).commitBase b q vs) ws patent := by
  obtain ⟨user, id, updates, links, ids, old, now, ls, hreq, hlands, hJ, hfree, hls, rfl⟩ := h
  have htouch : (Write.updatePatent old (edited updates patent.toPatent old now)).touches
      = some id := congrArg some hlands.id
  exact ⟨user, id, updates, links, ids, old, now, ls, hreq,
    hlands.after hap List.mem_cons_self htouch, hJ,
    uniqueClash_after hap List.mem_cons_self rfl hfree, hls, rfl⟩

theorem Submitting.other (h : Submitting reqs p b ws) (hap : (patents cfg reqs).Apart ws vs) :
    Submitting reqs p ((patents cfg reqs).commitBase b q vs) ws := by
  obtain ⟨user, id, old, now, hreq, hlands, rfl⟩ := h
  have htouch : (Write.updatePatent old (transitioned .submit stampSubmitted now old)).touches
      = some id := congrArg some hlands.id
  exact ⟨user, id, old, now, hreq, hlands.after hap List.mem_cons_self htouch, rfl⟩

theorem Deleting.other (h : Deleting reqs p b ws) (hap : (patents cfg reqs).Apart ws vs) :
    Deleting reqs p ((patents cfg reqs).commitBase b q vs) ws := by
  obtain ⟨user, id, old, hreq, hlands, rfl⟩ := h
  have htouch : (Write.deletePatent old).touches = some id := congrArg some hlands.id
  exact ⟨user, id, old, hreq, hlands.after hap List.mem_cons_self htouch, rfl⟩

theorem Decides.other {action : Action} {admin : Caller} {id : Nat} {comments : Option String}
    {before : Option PatentStatus} {old : Patent} {now : Time}
    (h : Decides J reqs p b.db action admin id comments before old)
    (hap : (patents cfg reqs).Apart ws vs)
    (hw : Write.updatePatent old (transitioned action stampReviewed now old) ∈ ws) :
    Decides J reqs p (after b.db vs) action admin id comments before old :=
  ⟨h.req, h.lands.after hap hw (congrArg some h.lands.id), h.known⟩

theorem Deciding.other {before : Option PatentStatus} {now : Time} {action : Action} {old : Patent}
    (h : Deciding J reqs p b ws before now action old) (hap : (patents cfg reqs).Apart ws vs) :
    Deciding J reqs p ((patents cfg reqs).commitBase b q vs) ws before now action old := by
  obtain ⟨⟨admin, id, comments, hdec⟩, rfl⟩ := h
  exact ⟨⟨admin, id, comments, hdec.other hap List.mem_cons_self⟩, rfl⟩

theorem Reviewed.other {record : PatentRecord} {event : Option PatentEvent}
    (h : Reviewed J reqs p b ws record event) (hap : (patents cfg reqs).Apart ws vs)
    (htx : PatentTx J reqs q b.db b.log vs) :
    Reviewed J reqs p ((patents cfg reqs).commitBase b q vs) ws record event := by
  obtain ⟨action, admin, id, comments, before, old, now, n, now', o, hdec, hrecord, hnew, hlt,
    hevent, rfl⟩ := h
  have htouch : (Write.updatePatent old (transitioned action stampReviewed now old)).touches
      = some id := congrArg some hdec.lands.id
  exact ⟨action, admin, id, comments, before, old, now, n, now', o,
    hdec.other hap List.mem_cons_self, hrecord,
    hnew.after hap List.mem_cons_self htouch (List.mem_cons_of_mem _ List.mem_cons_self) htx, hlt,
    hevent, rfl⟩

theorem Enqueued.other (h : Enqueued J reqs p b ws) (hap : (patents cfg reqs).Apart ws vs)
    (htx : PatentTx J reqs q b.db b.log vs) :
    Enqueued J reqs p ((patents cfg reqs).commitBase b q vs) ws := by
  obtain ⟨us, events, record, event, id, hrev, ⟨w, hw, htouch⟩, hann, hlt, rfl⟩ := h
  have hapl : (patents cfg reqs).Apart us vs := fun w hw => hap w (List.mem_append_left _ hw)
  refine ⟨us, events, record, event, id, hrev.other hapl htx, ⟨w, hw, htouch⟩, ?_, hlt, rfl⟩
  cases event with
  | none => exact hann
  | some e =>
    obtain ⟨n, rfl, hnew⟩ := hann
    exact ⟨n, rfl, hnew.after hap (List.mem_append_left _ hw) htouch
      (List.mem_append_right _ List.mem_cons_self) htx⟩

/-- The assertion of `p` survives a transaction of another request. -/
theorem at_other {l : Loc} (hat : At J reqs p l b ws) (htx : PatentTx J reqs q b.db b.log vs)
    (hap : (patents cfg reqs).Apart ws vs) :
    At J reqs p l ((patents cfg reqs).commitBase b q vs) ws :=
  hat.map (fun _ h => h.other hap) (fun _ h => h.other hap) (fun h => h.other hap)
    (fun h => h.other hap) (fun h => h.other hap htx) (fun h => h.other hap htx)
    fun h => h.other hap

/-- Ids drawn by others do not matter to a review. -/
theorem Reviewed.world {record : PatentRecord} {event : Option PatentEvent} {x' : Ext}
    (h : Reviewed J reqs p b ws record event) (hext : Advances b.world x') :
    Reviewed J reqs p { b with world := x' } ws record event := by
  obtain ⟨action, admin, id, comments, before, old, now, n, now', o, hdec, hrecord, hnew, hlt,
    hrest⟩ := h
  exact ⟨action, admin, id, comments, before, old, now, n, now', o, hdec, hrecord, hnew,
    Nat.lt_of_lt_of_le hlt hext.review, hrest⟩

/-- It survives what the others do outside the database. -/
theorem at_world {l : Loc} {x' : Ext} (hext : Advances b.world x') (hat : At J reqs p l b ws) :
    At J reqs p l { b with world := x' } ws := by
  refine hat.map ?_ (fun _ h => h) (fun h => h) (fun h => h) (fun h => h.world hext) ?_ fun h => h
  · rintro id ⟨user, input, now, ls, hreq, hunused, hlt, hrest⟩
    exact ⟨user, input, now, ls, hreq, hunused, Nat.lt_of_lt_of_le hlt hext.patent, hrest⟩
  · rintro ⟨us, events, record, event, id, hrev, hw, hann, hlt, hws⟩
    exact ⟨us, events, record, event, id, hrev.world hext, hw, hann,
      fun e he => Nat.lt_of_lt_of_le (hlt e he) hext.event, hws⟩

/-! ## What an assertion reads -/

/-- `b'` is `b` as far as an assertion can tell: other tables may differ, and transactions that
    insert no patent may have committed. -/
structure SamePatents (b b' : Base Db Ext Write) : Prop where
  patents : b'.db.patents = b.db.patents
  reviews : b'.db.reviews = b.db.reviews
  outbox : b'.db.outbox = b.db.outbox
  world : b'.world = b.world
  unused : ∀ id, Unused b.log id ↔ Unused b'.log id

variable {b' : Base Db Ext Write}

/-- Whether a row clashes depends on the patents only. -/
theorem uniqueClash_congr {d d' : Db} (h : d'.patents = d.patents) (patent : Patent) :
    uniqueClash d' patent = uniqueClash d patent := by
  rw [uniqueClash, uniqueClash, h]

theorem Lands.congr {d d' : Db} {id : Nat} {statuses : List PatentStatus} {row : Patent}
    (h : Lands d id statuses row) (hsame : d'.patents = d.patents) : Lands d' id statuses row :=
  ⟨hsame ▸ h.mem, h.id, h.status⟩

theorem Decides.congr {action : Action} {admin : Caller} {id : Nat} {comments : Option String}
    {before : Option PatentStatus} {old : Patent}
    (h : Decides J reqs p b.db action admin id comments before old) (hsame : SamePatents b b') :
    Decides J reqs p b'.db action admin id comments before old :=
  ⟨h.req, h.lands.congr hsame.patents, h.known⟩

/-- A creation under way is about patents, reviews and events only. -/
theorem Creating.congr {id : Nat} (h : Creating reqs p b ws id) (hsame : SamePatents b b') :
    Creating reqs p b' ws id := by
  obtain ⟨user, input, now, ls, hreq, hunused, hlt, hfree, hrest⟩ := h
  exact ⟨user, input, now, ls, hreq, (hsame.unused id).mp hunused, hsame.world ▸ hlt,
    (uniqueClash_congr hsame.patents _).trans hfree, hrest⟩

theorem Editing.congr {patent : PatentRecord} (h : Editing J reqs p b ws patent)
    (hsame : SamePatents b b') : Editing J reqs p b' ws patent := by
  obtain ⟨user, id, updates, links, ids, old, now, ls, hreq, hlands, hJ, hfree, hrest⟩ := h
  exact ⟨user, id, updates, links, ids, old, now, ls, hreq, hlands.congr hsame.patents, hJ,
    (uniqueClash_congr hsame.patents _).trans hfree, hrest⟩

theorem Submitting.congr (h : Submitting reqs p b ws) (hsame : SamePatents b b') :
    Submitting reqs p b' ws := by
  obtain ⟨user, id, old, now, hreq, hlands, hws⟩ := h
  exact ⟨user, id, old, now, hreq, hlands.congr hsame.patents, hws⟩

theorem Deciding.congr {before : Option PatentStatus} {now : Time} {action : Action} {old : Patent}
    (h : Deciding J reqs p b ws before now action old) (hsame : SamePatents b b') :
    Deciding J reqs p b' ws before now action old := by
  obtain ⟨⟨admin, id, comments, hdec⟩, hws⟩ := h
  exact ⟨⟨admin, id, comments, hdec.congr hsame⟩, hws⟩

theorem Reviewed.congr {record : PatentRecord} {event : Option PatentEvent}
    (h : Reviewed J reqs p b ws record event) (hsame : SamePatents b b') :
    Reviewed J reqs p b' ws record event := by
  obtain ⟨action, admin, id, comments, before, old, now, n, now', o, hdec, hrecord, hnew, hlt,
    hrest⟩ := h
  exact ⟨action, admin, id, comments, before, old, now, n, now', o, hdec.congr hsame, hrecord,
    fun r hr => hnew r (hsame.reviews ▸ hr), hsame.world ▸ hlt, hrest⟩

theorem Enqueued.congr (h : Enqueued J reqs p b ws) (hsame : SamePatents b b') :
    Enqueued J reqs p b' ws := by
  obtain ⟨us, events, record, event, id, hrev, hw, hann, hlt, hws⟩ := h
  refine ⟨us, events, record, event, id, hrev.congr hsame, hw, ?_, hsame.world ▸ hlt, hws⟩
  cases event with
  | none => exact hann
  | some e =>
    obtain ⟨n, hevents, hnew⟩ := hann
    exact ⟨n, hevents, fun f hf => hnew f (hsame.outbox ▸ hf)⟩

theorem Deleting.congr (h : Deleting reqs p b ws) (hsame : SamePatents b b') :
    Deleting reqs p b' ws := by
  obtain ⟨user, id, old, hreq, hlands, hws⟩ := h
  exact ⟨user, id, old, hreq, hlands.congr hsame.patents, hws⟩

theorem at_congr {l : Loc} (hat : At J reqs p l b ws) (hsame : SamePatents b b') :
    At J reqs p l b' ws :=
  hat.map (fun _ h => h.congr hsame) (fun _ h => h.congr hsame) (fun h => h.congr hsame)
    (fun h => h.congr hsame) (fun h => h.congr hsame) (fun h => h.congr hsame)
    fun h => h.congr hsame

theorem Inv.congr (h : Inv b) (hsame : SamePatents b b') : Inv b' := by
  refine ⟨fun e he q hq => ?_, ?_, ?_, ?_, ?_⟩
  · rw [hsame.world]
    by_contra hle
    refine (hsame.unused q.id).mp (fun e' he' q' hq' hid => ?_) e he q hq rfl
    exact hle (hid ▸ h.patentId e' he' q' hq')
  · rw [hsame.patents]
    exact fun q hq hunused => h.inserted q hq ((hsame.unused q.id).mpr hunused)
  · rw [hsame.reviews, hsame.world]
    exact h.reviewId
  · rw [hsame.outbox, hsame.world]
    exact h.eventId
  · rw [hsame.patents]
    exact h.documentKey

end Stable

end SmartPatents.PatentService
