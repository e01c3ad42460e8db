/-
  What a transaction does to one patent.

  `PatentEffect` is `PatentTx` seen from a single patent id: its row, its reviews and its events
  before and after the commit.  A transaction of another patent leaves all three alone.  Every
  result about the life of a patent is an induction over the serial log with these six cases.

  The six: nothing happens to the patent, or it is inserted, edited, submitted, decided, or
  deleted.  Each says what becomes of its row, of its reviews and of its events, and what the
  request has read before, as far as it matters (`J`).

  The second half of the file is for the runs on fixed inputs of the modules above: the accounts,
  the configuration, and the draft that most of them begin with.

  `PatentTx.effect` is the only place where the six are computed from the writes.  `history` is
  the rule, and the invariants of `ReviewTrail`, `VersionContent`, `Corpus` and `PayloadSize` go
  by it.
-/
import SmartPatents.PatentOutline

namespace SmartPatents.PatentService

open ReadCommitted Runs Access Lifecycle Relations Storage PatentEvents

/-! ## The reviews and events of a patent -/

/-- The PATENT_REVIEW rows of a patent in id order. -/
def reviewsOf (d : Db) (id : Nat) : List PatentReview :=
  (d.reviews.rows.filter fun r => r.patentId == id).insertionSort fun r s => r.id ≤ s.id

/-- The OUTBOX_EVENT rows of a patent in id order. -/
def eventsOf (d : Db) (id : Nat) : List (Outbox.OutboxEvent PatentEvent) :=
  (d.outbox.rows.filter fun e => e.aggregateType == AGGREGATE_TYPE && e.aggregateId == id)
    |>.insertionSort fun e f => e.id ≤ f.id

/-- The types of the events of a patent, in id order. -/
def eventTypes (d : Db) (id : Nat) : List String :=
  (eventsOf d id).map Outbox.OutboxEvent.eventType

section Sorted

variable {α : Type} {k : α → Nat}

/-- To insert before a last element that is not smaller leaves it last. -/
theorem orderedInsert_concat {a x : α} (h : k a ≤ k x) : ∀ l : List α,
    (l ++ [x]).orderedInsert (fun b c => k b ≤ k c) a =
      l.orderedInsert (fun b c => k b ≤ k c) a ++ [x]
  | [] => by simp [h]
  | b :: l => by
      rw [List.cons_append, List.orderedInsert_cons, List.orderedInsert_cons,
        orderedInsert_concat h l]
      split <;> rfl

/-- A last element that is not below the others stays last. -/
theorem insertionSort_concat {x : α} : ∀ l : List α, (∀ a ∈ l, k a ≤ k x) →
    (l ++ [x]).insertionSort (fun b c => k b ≤ k c) =
      l.insertionSort (fun b c => k b ≤ k c) ++ [x]
  | [], _ => rfl
  | a :: l, h => by
      rw [List.cons_append, List.insertionSort_cons, List.insertionSort_cons,
        insertionSort_concat l fun b hb => h b (List.mem_cons_of_mem a hb),
        orderedInsert_concat (h a List.mem_cons_self)]

end Sorted

section Tables

variable {d d' : Db} {id : Nat}

/-- The trail of a patent is made of its reviews. -/
theorem mem_reviewsOf {r : PatentReview} : r ∈ reviewsOf d id ↔ r ∈ d.reviews ∧ r.patentId = id := by
  simp [reviewsOf, Table.mem_def]

/-- Its events are those of its aggregate. -/
theorem mem_eventsOf {e : Outbox.OutboxEvent PatentEvent} :
    e ∈ eventsOf d id ↔ e ∈ d.outbox ∧ e.aggregateType = AGGREGATE_TYPE ∧ e.aggregateId = id := by
  simp [eventsOf, Table.mem_def]

/-- The trail depends on the reviews only. -/
theorem reviewsOf_congr (h : d'.reviews = d.reviews) : reviewsOf d' id = reviewsOf d id := by
  rw [reviewsOf, reviewsOf, h]

/-- The events depend on the outbox only. -/
theorem eventsOf_congr (h : d'.outbox = d.outbox) : eventsOf d' id = eventsOf d id := by
  rw [eventsOf, eventsOf, h]

/-- A new review is the last one of its patent. -/
theorem reviewsOf_insert {row : PatentReview} (hnew : NewReview d row)
    (h : d'.reviews = d.reviews.put row) :
    reviewsOf d' id = if row.patentId = id then reviewsOf d id ++ [row] else reviewsOf d id := by
  rw [reviewsOf, h, Table.rows_put_of_new fun s hs => (hnew s hs).1, List.filter_append]
  by_cases hid : row.patentId = id
  · rw [if_pos hid]
    have hrow : [row].filter (fun r => r.patentId == id) = [row] := by simp [hid]
    rw [hrow]
    refine insertionSort_concat (k := PatentReview.id) _ fun r hr => ?_
    obtain ⟨hmem, hr⟩ := List.mem_filter.mp hr
    have hlt := (hnew r hmem).2 ((by simpa using hr : r.patentId = id).trans hid.symm)
    exact Nat.le_of_lt hlt
  · have hrow : [row].filter (fun r => r.patentId == id) = [] := by simp [hid]
    rw [if_neg hid, hrow, List.append_nil]
    rfl

/-- A new event is the last one of its patent. -/
theorem eventsOf_insert {m n : Nat} {event : PatentEvent} (hnew : NewEvent d (eventRow m n event))
    (h : d'.outbox = d.outbox.put (eventRow m n event)) :
    eventsOf d' id = if m = id then eventsOf d id ++ [eventRow m n event] else eventsOf d id := by
  rw [eventsOf, h, Table.rows_put_of_new fun s hs => (hnew s hs).1, List.filter_append]
  by_cases hid : m = id
  · rw [if_pos hid]
    have hrow : [eventRow m n event].filter
        (fun e => e.aggregateType == AGGREGATE_TYPE && e.aggregateId == id)
          = [eventRow m n event] := by
      simp [eventRow, Outbox.enqueue, hid]
    rw [hrow]
    refine insertionSort_concat (k := Outbox.OutboxEvent.id) _ fun e he => ?_
    obtain ⟨hmem, he⟩ := List.mem_filter.mp he
    have hid' : e.aggregateId = id := by
      simp only [Bool.and_eq_true, beq_iff_eq] at he
      exact he.2
    exact Nat.le_of_lt ((hnew e hmem).2 (hid'.trans hid.symm))
  · have hrow : [eventRow m n event].filter
        (fun e => e.aggregateType == AGGREGATE_TYPE && e.aggregateId == id) = [] := by
      simp [eventRow, Outbox.enqueue, hid]
    rw [if_neg hid, hrow, List.append_nil]
    rfl

/-- A delete takes the reviews of its patent along, and no others. -/
theorem reviewsOf_delete {old : Patent}
    (h : d'.reviews = d.reviews.deleteWhere fun r => r.patentId == old.id) :
    reviewsOf d' id = if old.id = id then [] else reviewsOf d id := by
  rw [reviewsOf, h, Table.deleteWhere, List.filter_filter]
  by_cases hid : old.id = id
  · rw [if_pos hid, List.filter_eq_nil_iff.mpr]
    · rfl
    · intro r _
      simp [hid]
  · rw [if_neg hid, reviewsOf]
    congr 1
    refine List.filter_congr fun r _ => ?_
    by_cases hr : r.patentId = id
    · have hne : id ≠ old.id := fun h => hid h.symm
      simp [hr, hne]
    · simp [hr]

end Tables

/-! ## The effect on one patent -/

/-- The patent that a request to an existing patent names. -/
def Request.subject : Request → Option Nat
  | .updatePatent _ id _ | .submitForReview _ id | .deletePatent _ id => some id
  | .approvePatent _ id _ | .declinePatent _ id _ => some id
  | _ => none

/-- A review is about the patent it names. -/
theorem Reviews.subject {r : Request} {action : Action} {admin : Caller} {id : Nat}
    {comments : Option String} (h : Reviews r action admin id comments) : r.subject = some id := by
  cases h <;> rfl

/-- What a transaction of request `p` that commits on `d` after `log` does to patent `id`. -/
inductive PatentEffect (J : Nat → Loc → Patent → Prop) (reqs : Nat → Request) (p : Nat) (d : Db)
    (log : List (Nat × List Write)) (ws : List Write) (id : Nat) : Prop
  | other (hreq : (reqs p).subject ≠ some id)
      (hrow : (after d ws).patents.get? id = d.patents.get? id)
      (hreviews : reviewsOf (after d ws) id = reviewsOf d id)
      (hevents : eventsOf (after d ws) id = eventsOf d id)
  | create {user input now} (hreq : reqs p = .createPatent user input) (hunused : Unused log id)
      (hmem : Write.insertPatent (draftOf user input id now) ∈ ws)
      (hold : d.patents.get? id = none)
      (hrow : (after d ws).patents.get? id = some (draftOf user input id now))
      (hreviews : reviewsOf (after d ws) id = reviewsOf d id)
      (hevents : eventsOf (after d ws) id = eventsOf d id)
  | update {user updates links ids now} {patent : PatentRecord} {old : Patent}
      (hreq : reqs p = .updatePatent user id updates) (hold : d.patents.get? id = some old)
      (hstatus : old.status ∈ EDITABLE_STATUSES)
      (hknown : J p (.update (.write patent links ids)) old)
      (hrow : (after d ws).patents.get? id = some (edited updates patent.toPatent old now))
      (hreviews : reviewsOf (after d ws) id = reviewsOf d id)
      (hevents : eventsOf (after d ws) id = eventsOf d id)
  | submit {user now} {old : Patent} (hreq : reqs p = .submitForReview user id)
      (hold : d.patents.get? id = some old) (hstatus : old.status ∈ (TRANSITIONS .submit).from)
      (hrow : (after d ws).patents.get? id = some (transitioned .submit stampSubmitted now old))
      (hreviews : reviewsOf (after d ws) id = reviewsOf d id)
      (hevents : eventsOf (after d ws) id = eventsOf d id)
  | review {action admin comments before now record n now' o m} {old : Patent}
      (hreq : Reviews (reqs p) action admin id comments) (hold : d.patents.get? id = some old)
      (hstatus : old.status ∈ (TRANSITIONS action).from)
      (hknown : J p (.review (.write (some before))) old)
      (hrecord : record.toPatent = transitioned action stampReviewed now old)
      (hmem : Write.insertReview (reviewRow admin id action comments n now') ∈ ws)
      (hrow : (after d ws).patents.get? id = some (transitioned action stampReviewed now old))
      (hreviews : reviewsOf (after d ws) id =
        reviewsOf d id ++ [reviewRow admin id action comments n now'])
      (hevents : eventsOf (after d ws) id =
        eventsOf d id ++ ((buildEvent action record before o).map (eventRow id m)).toList)
  | delete {user} {old : Patent} (hreq : reqs p = .deletePatent user id)
      (hold : d.patents.get? id = some old) (hstatus : old.status = .draft)
      (hrow : (after d ws).patents.get? id = none) (hreviews : reviewsOf (after d ws) id = [])
      (hevents : eventsOf (after d ws) id = eventsOf d id)

/-- Only an approval announces content, and then that of its record. -/
theorem upserted_of_buildEvent {action : Action} {record : PatentRecord} {before : PatentStatus}
    {o : Oracle} {u : Upserted} (h : buildEvent action record before o = some (.upserted u)) :
    .upserted u = patentVersionUpserted record o.uuid o.now := by
  cases action with
  | submit => nomatch h
  | approve => exact (Option.some.inj h).symm
  | decline =>
    rw [buildEvent] at h
    split at h
    · nomatch Option.some.inj h
    · nomatch h

section Effect

variable {J : Nat → Loc → Patent → Prop} {reqs : Nat → Request} {p : Nat} {d : Db}
  {ws : List Write} {log : List (Nat × List Write)}

/-- An id that was used stays used. -/
theorem not_unused_concat {id : Nat} (h : ¬ Unused log id) : ¬ Unused (log ++ [(p, ws)]) id :=
  fun hunused => h fun e he => hunused e (List.mem_append_left _ he)

/-- A guarded write lands on the row of its patent. -/
theorem Lands.get? {id : Nat} {statuses : List PatentStatus} {row : Patent}
    (h : Lands d id statuses row) : d.patents.get? id = some row :=
  Table.get?_eq_some.mpr ⟨h.mem, h.id⟩

/-- The row of `id` after the row of another patent was written. -/
theorem get?_put_ne {d' : Db} {new : Patent} {id : Nat} (h : d'.patents = d.patents.put new)
    (hid : new.id ≠ id) : d'.patents.get? id = d.patents.get? id := by
  rw [h, Table.get?_put, if_neg fun he => hid he.symm]

/-- A row written is found. -/
theorem get?_put_self {d' : Db} {new : Patent} {id : Nat} (h : d'.patents = d.patents.put new)
    (hid : new.id = id) : d'.patents.get? id = some new := by
  rw [h, Table.get?_put, if_pos hid.symm]

/-- The outbox after the events of a review. -/
theorem eventsOf_announces {d' : Db} {m : Nat} {event : Option PatentEvent} {events : List Write}
    (hann : Announces d m event events) (d₁ : Db) (h₁ : d₁.outbox = d.outbox)
    (h : d' = after d₁ events) (id : Nat) :
    d'.patents = d₁.patents ∧ d'.reviews = d₁.reviews ∧
      ∃ n, eventsOf d' id =
        if m = id then eventsOf d id ++ (event.map (eventRow m n)).toList else eventsOf d id := by
  subst h
  cases event with
  | none =>
    obtain rfl : events = [] := hann
    refine ⟨rfl, rfl, 0, ?_⟩
    have hsame : eventsOf (after d₁ []) id = eventsOf d id := eventsOf_congr h₁
    rw [hsame, Option.map_none, Option.toList_none, List.append_nil, ite_self]
  | some e =>
    obtain ⟨n, rfl, hnew⟩ := hann
    refine ⟨rfl, rfl, n, ?_⟩
    exact eventsOf_insert hnew (congrArg (fun t => t.put (eventRow m n e)) h₁)

/-- **Every transaction has one of the six effects on every patent.** -/
theorem PatentTx.effect (htx : PatentTx J reqs p d log ws) (id : Nat) :
    PatentEffect J reqs p d log ws id := by
  cases htx with
  | @create user input id' now ls hreq hid hunused hfree hls =>
    obtain ⟨hpatents, hreviews, hevents⟩ :=
      @tables_of_insert d ls (draftOf user input id' now) id' hls
    -- for another patent nothing changes
    by_cases hne : id' = id
    · subst hne
      exact .create hreq hunused List.mem_cons_self (Table.get?_eq_none.mpr hid)
        (get?_put_self hpatents rfl) (reviewsOf_congr hreviews) (eventsOf_congr hevents)
    · refine .other ?_ (get?_put_ne hpatents hne) (reviewsOf_congr hreviews)
        (eventsOf_congr hevents)
      rw [hreq]
      nofun
  | @update user id' updates links ids now ls patent old hreq hlands hknown hfree hls =>
    obtain ⟨hpatents, hreviews, hevents⟩ :=
      @tables_of_update d ls old (edited updates patent.toPatent old now) id' hls
    by_cases hne : id' = id
    · subst hne
      exact .update hreq hlands.get? hlands.status hknown (get?_put_self hpatents hlands.id)
        (reviewsOf_congr hreviews) (eventsOf_congr hevents)
    · refine .other ?_ (get?_put_ne hpatents fun h => hne (hlands.id.symm.trans h))
        (reviewsOf_congr hreviews) (eventsOf_congr hevents)
      rw [hreq]
      exact fun h => hne (Option.some.inj h)
  | @submit user id' old now hreq hlands =>
    by_cases hne : id' = id
    · subst hne
      exact .submit hreq hlands.get? hlands.status (get?_put_self rfl hlands.id) rfl rfl
    · refine .other ?_ (get?_put_ne rfl fun h => hne (hlands.id.symm.trans h)) rfl rfl
      rw [hreq]
      exact fun h => hne (Option.some.inj h)
  | @review action admin id' comments before old now record n now' o events hdec hrecord hreview
      hevents =>
    obtain ⟨hpatents, hreviews, m, hevents⟩ := eventsOf_announces hevents
      (after d [.updatePatent old (transitioned action stampReviewed now old),
        .insertReview (reviewRow admin id' action comments n now')]) rfl rfl id
    have hreviews : reviewsOf _ id =
        if id' = id then reviewsOf d id ++ [reviewRow admin id' action comments n now']
        else reviewsOf d id := reviewsOf_insert hreview hreviews
    by_cases hne : id' = id
    · subst hne
      rw [if_pos rfl] at hevents
      rw [if_pos rfl] at hreviews
      exact .review hdec.req hdec.lands.get? hdec.lands.status hdec.known hrecord
        (List.mem_cons_of_mem _ List.mem_cons_self) (get?_put_self hpatents hdec.lands.id) hreviews
        hevents
    · rw [if_neg hne] at hevents
      rw [if_neg hne] at hreviews
      refine .other ?_ (get?_put_ne hpatents fun h => hne (hdec.lands.id.symm.trans h)) hreviews
        hevents
      rw [hdec.req.subject]
      exact fun h => hne (Option.some.inj h)
  | @delete user id' old hreq hlands =>
    have hstatus : old.status = .draft := by simpa using hlands.status
    -- the cascade takes the reviews along, the events stay
    have hreviews := @reviewsOf_delete d (after d [.deletePatent old]) id old rfl
    have hrow : (after d [.deletePatent old]).patents.get? id =
        if id = old.id then none else d.patents.get? id := Table.get?_erase _ _ _
    by_cases hne : id' = id
    · subst hne
      rw [if_pos hlands.id] at hreviews
      rw [if_pos hlands.id.symm] at hrow
      exact .delete hreq hlands.get? hstatus hrow hreviews rfl
    · have hne' : old.id ≠ id := fun h => hne (hlands.id.symm.trans h)
      rw [if_neg hne'] at hreviews
      rw [if_neg fun h => hne' h.symm] at hrow
      refine .other ?_ hrow hreviews rfl
      rw [hreq]
      exact fun h => hne (Option.some.inj h)

variable {cfg : Config} {users : Table User User.id} {inventors : Table Inventor Inventor.id}
  {categories : Table Category Category.id} {σ σ' : State Db Ext Write Loc}

/-- **The rule for patents.**  What holds of a patent before any transaction, and survives the six
    effects, holds in every state that a run reaches. -/
theorem history (id : Nat) (P : Db → List (Nat × List Write) → Prop)
    (hinit : P (init users inventors categories).base.db [])
    (heffect : ∀ {d log p ws}, P d log → PatentEffect J reqs p d log ws id →
      P (after d ws) (log ++ [(p, ws)]))
    (hrun : Run (patents cfg reqs).step (Machine.localOk (Landing J reqs))
      (init users inventors categories) σ) :
    P σ.base.db σ.base.log := by
  obtain ⟨-, -, -, hserial, hreplay⟩ := holds_of_run hrun
  rw [hreplay]
  exact hserial.invariant hinit fun hP htx => heffect hP (htx.effect id)

/-- The same from any state of a run on. -/
theorem history_after (id : Nat) (P : Db → List (Nat × List Write) → Prop)
    (heffect : ∀ {d log p ws}, P d log → PatentEffect J reqs p d log ws id →
      P (after d ws) (log ++ [(p, ws)]))
    (hrun : Run (patents cfg reqs).step (Machine.localOk (Landing J reqs))
      (init users inventors categories) σ)
    (hlater : Run (patents cfg reqs).step (Machine.localOk (Landing J reqs)) σ σ')
    (hσ : P σ.base.db σ.base.log) : P σ'.base.db σ'.base.log := by
  have H := holds_of_run hrun
  have H' := holds_of_run (hrun.trans hlater)
  obtain ⟨more, hmore⟩ := Machine.log_of_run _ hlater
  have hserial := H'.serial
  rw [← hmore] at hserial
  rw [H'.replay, ← hmore]
  rw [H.replay] at hσ
  exact hserial.extend (fun hP htx => heffect hP (htx.effect id)) hσ

/-- Every row of the outbox is an event of a patent. -/
theorem mem_eventsOf_of_run (hrun : Run (patents cfg reqs).step (Machine.localOk (Landing J reqs))
    (init users inventors categories) σ) {e : Outbox.OutboxEvent PatentEvent}
    (he : e ∈ σ.base.db.outbox) : e ∈ eventsOf σ.base.db e.aggregateId := by
  obtain ⟨-, -, -, hserial, hreplay⟩ := holds_of_run hrun
  suffices h : ∀ e ∈ σ.base.db.outbox, e.aggregateType = AGGREGATE_TYPE from
    mem_eventsOf.mpr ⟨he, h e he, rfl⟩
  rw [hreplay]
  refine hserial.invariant (P := fun d _ => ∀ e ∈ d.outbox, e.aggregateType = AGGREGATE_TYPE)
    (fun e he => absurd he (Table.not_mem_empty e)) fun hP htx e he => ?_
  rcases event_back _ he with he | he
  · exact hP e he
  · obtain ⟨n, event, hrow⟩ := (htx.trail he rfl).2 e rfl
    exact congrArg Outbox.OutboxEvent.aggregateType hrow

/-- A result that needs to know nothing about the landings holds in every run. -/
theorem landing_of_always (h : Run (patents cfg reqs).step always σ σ') :
    Run (patents cfg reqs).step (Machine.localOk (Landing (fun _ _ _ => True) reqs)) σ σ' := by
  refine h.mono fun τ a _ => ?_
  cases a with
  | run p o => exact fun _ _ _ _ _ => trivial
  | _ => trivial

end Effect

/-! ## Evaluating runs -/

/-- Landing conditions that can be computed can be checked along a schedule. -/
instance {J : Nat → Loc → Patent → Prop} [∀ p l row, Decidable (J p l row)] {reqs : Nat → Request}
    (p : Nat) (l : Loc) (d : Db) : Decidable (Landing J reqs p l d) :=
  match h : guardOf (reqs p) l with
  | none => isTrue fun _ _ _ hg => by rw [h] at hg; nomatch hg
  | some (id, statuses) =>
    decidable_of_iff (∀ row ∈ d.patents.rows, row.id = id → row.status ∈ statuses → J p l row) (by
      constructor
      · intro hall id' statuses' row hg hlands
        rw [h] at hg
        obtain ⟨rfl, rfl⟩ := Prod.mk.inj (Option.some.inj hg)
        exact hall row hlands.mem hlands.id hlands.status
      · intro hland row hrow hid hstatus
        exact hland id statuses row h ⟨hrow, hid, hstatus⟩)

/-- An account that owns patents, and an administrator. -/
def ada : Caller := ⟨1, .user⟩

/-- An administrator. -/
def root : Caller := ⟨2, .admin⟩

/-- The accounts of the runs below. -/
def accounts : Table User User.id :=
  ⟨[⟨1, "Ada", "ada@example.com", "hash", .user⟩, ⟨2, "Root", "root@example.com", "hash", .admin⟩],
    by decide⟩

/-- A small configuration. -/
def pdfOnly : Config := ⟨["application/pdf"], 100, 900⟩

/-- The state before any request. -/
def blank : State Db Ext Write Loc := init accounts Table.empty Table.empty

/-- What `crypto.randomUUID()` gives. -/
def uuid : String := "3f2504e0-4f89-41d3-9a0c-0305e82c3301"

/-- The key that Ada gets for a file. -/
def keyOf (filename : String) : String := buildObjectKey 1 uuid filename

/-- The next `n` statements of request `p`. -/
def steps (p n : Nat) : List (Act Oracle Upload) := List.replicate n (.run p ⟨5, uuid, true⟩)

/-- Ada's draft. -/
def firstInput : CreateInput :=
  ⟨"Kettle", "It boils.", "Heat.", keyOf "a.pdf", none, none, none, none⟩

/-- Request 0 uploads the document of Ada's draft, request 1 creates it. -/
def drafted : List (Act Oracle Upload) :=
  steps 0 1 ++ [.env (.put (keyOf "a.pdf") 10)] ++ steps 1 10

/-- The life of one patent: approved, declined, approved again. -/
def oneLife : Nat → Request
  | 0 => .requestUpload ada "a.pdf" "application/pdf"
  | 1 => .createPatent ada firstInput
  | 2 => .submitForReview ada 1
  | 3 => .approvePatent root 1 none
  | 4 => .declinePatent root 1 (some "no")
  | 5 => .submitForReview ada 1
  | _ => .approvePatent root 1 none

/-- The draft is submitted. -/
def submitted : List (Act Oracle Upload) := drafted ++ steps 2 4

end SmartPatents.PatentService
