/-
  What a consumer of `patents.events` ends up with.

  The README tells consumers to order by `sequence` and to ignore an event whose sequence is below
  the last one applied for its patent.  So a consumer keeps the last writer (`index`), and what it
  holds depends on the set of messages that it got, however often and in whatever order.

  Here the two halves of the pipeline run side by side over one OUTBOX_EVENT table: the patent
  requests commit rows to it, any number of relays claim, send and mark them, and any of them may
  fail, time out or die at any point.  Once the rows of a patent are published, a consumer that got
  every message holds the LAST row of the patent (`index_of_run`).  Hence:

    * an approved patent is found under its own text (`searchable_of_run`), unconditionally;
    * nothing else is found, as long as declines know what they decline (`corpus_of_run`).

  The consumer is the reading of the README and no code of this repository: `index` keeps for each
  patent the message with the greatest `sequence`.  `DeliveredAll` lets messages come in any order
  and any number of times; only the set of them counts.

  The two halves meet in the table: a step of the API shows its new rows to the relays at once,
  and a relay changes nothing of a row but its delivery (`SameEvent`).  `Linked` keeps the two
  views together, so that the results about requests and those about relays can be used side by
  side.
-/
import SmartPatents.Lib.LastWriter
import SmartPatents.Corpus
import SmartPatents.RelayDurability

namespace SmartPatents.SearchIndex

open ReadCommitted Runs Access Lifecycle Storage PatentEvents PatentService
open Outbox (OutboxTable OutboxEvent)
open OutboxRelay (Message message SameEvent Durable)

/-! ## The pipeline -/

/-- The requests and the relays.  The rows of the outbox stand in `api` as they were written and in
    `relays` with their delivery columns. -/
structure State where
  api : ReadCommitted.State Db Ext Write Loc
  relays : OutboxRelay.State PatentEvent

/-- A step of the API, or one of the relays. -/
inductive Act
  | api (a : ReadCommitted.Act Oracle Upload)
  | relay (a : OutboxRelay.Act PatentEvent)

/-- The rows of `d` that the relays do not know. -/
def unseen (d : Db) (t : OutboxTable PatentEvent) : List (OutboxEvent PatentEvent) :=
  d.outbox.rows.filter fun e => (t.get? e.id).isNone

/-- The relays see a row as soon as it is committed. -/
def committed (d : Db) (t : OutboxTable PatentEvent) : OutboxTable PatentEvent :=
  t.putAll (unseen d t)

/-- Rows come from requests only. -/
def ofRelay : OutboxRelay.Act PatentEvent → Bool
  | .enqueue .. => false
  | _ => true

/-- One action. What the API commits is in the table of the relays at once. -/
def step (cfg : Config) (reqs : Nat → Request) (rcfg : OutboxRelay.Config PatentEvent)
    (σ : State) : Act → Option State
  | .api a => ((patents cfg reqs).step σ.api a).map fun api =>
    { api := api
      relays := { σ.relays with table := committed api.base.db σ.relays.table } }
  | .relay a =>
    if ofRelay a then
      (OutboxRelay.step rcfg σ.relays a).map fun relays => { σ with relays := relays }
    else none

/-- Nothing has run yet. -/
def init (users : Table User User.id) (inventors : Table Inventor Inventor.id)
    (categories : Table Category Category.id) : State where
  api := PatentService.init users inventors categories
  relays := OutboxRelay.init Table.empty

/-! ## The index -/

/-- What a consumer holds that has consumed `delivered`: for each patent, the message with the
    largest `sequence`. -/
def index (delivered : List (Message PatentEvent)) : Nat → Option (Message PatentEvent) :=
  LastWriter.project Message.key Message.sequence delivered

/-- The patent is found, under the content `u`. -/
def Shows (delivered : List (Message PatentEvent)) (id : Nat) (u : Upserted) : Prop :=
  ∃ m, index delivered id = some m ∧ m.payload = .upserted u

/-- The content is that of the row. -/
structure Describes (u : Upserted) (row : Patent) : Prop where
  patentId : u.patentId = toString row.id
  version : u.version = row.version
  title : u.title = row.title
  abstract : u.abstract = row.abstract
  specification : u.specification = row.specification
  publicationNumber : u.publicationNumber = row.publicationNumber
  jurisdiction : u.jurisdiction = row.jurisdiction
  documentKey : u.documentKey = row.documentKey
  submittedBy : u.submittedBy = toString row.submittedBy

/-- Every event of the patent is published. -/
def Drained (σ : State) (id : Nat) : Prop :=
  ∀ e ∈ σ.relays.table, e.aggregateId = id → e.publishedAt.isSome

/-- The consumer got what the broker accepted, in any order and any number of times. -/
def DeliveredAll (σ : State) (delivered : List (Message PatentEvent)) : Prop :=
  ∀ m, m ∈ delivered ↔ m ∈ σ.relays.accepted

/-! ## Requests and relays -/

section Projection

variable {cfg : Config} {reqs : Nat → Request} {rcfg : OutboxRelay.Config PatentEvent}
  {ok : ReadCommitted.State Db Ext Write Loc → ReadCommitted.Act Oracle Upload → Prop}
  {σ σ' : State}

/-- A condition on the steps of requests. -/
def onApi (ok : ReadCommitted.State Db Ext Write Loc → ReadCommitted.Act Oracle Upload → Prop)
    (σ : State) : Act → Prop
  | .api a => ok σ.api a
  | .relay _ => True

instance [∀ σ a, Decidable (ok σ a)] (σ : State) (a : Act) : Decidable (onApi ok σ a) :=
  match a with
  | .api a => inferInstanceAs (Decidable (ok σ.api a))
  | .relay _ => isTrue trivial

/-- What a step does. -/
inductive Effect (cfg : Config) (reqs : Nat → Request) (rcfg : OutboxRelay.Config PatentEvent)
    (σ : State) : Act → State → Prop
  | api {a api} (h : (patents cfg reqs).step σ.api a = some api) :
      Effect cfg reqs rcfg σ (.api a)
        { api := api
          relays := { σ.relays with table := committed api.base.db σ.relays.table } }
  | relay {a relays} (h : OutboxRelay.step rcfg σ.relays a = some relays)
      (hrows : ∀ x ∈ relays.table, ∃ e ∈ σ.relays.table, SameEvent x e) :
      Effect cfg reqs rcfg σ (.relay a) { σ with relays := relays }

/-- A relay adds no row. -/
theorem rows_of_relay {relays : OutboxRelay.State PatentEvent} {a : OutboxRelay.Act PatentEvent}
    (h : OutboxRelay.step rcfg σ.relays a = some relays) (hrelay : ofRelay a = true) :
    ∀ x ∈ relays.table, ∃ e ∈ σ.relays.table, SameEvent x e := by
  cases OutboxRelay.effect_of_step h with
  | enqueue => nomatch hrelay
  | claim =>
    intro x hx
    obtain ⟨e, he, rfl⟩ := Outbox.mem_claimBatch.mp hx
    exact ⟨e, he, OutboxRelay.sameEvent_claimRow e⟩
  | published =>
    intro x hx
    obtain ⟨e, he, rfl⟩ := Outbox.mem_markPublished.mp hx
    exact ⟨e, he, OutboxRelay.sameEvent_markPublishedRow e⟩
  | failed =>
    intro x hx
    obtain ⟨e, he, rfl⟩ := Outbox.mem_markFailed.mp hx
    exact ⟨e, he, OutboxRelay.sameEvent_markFailedRow e⟩
  | _ => exact fun x hx => ⟨x, hx, SameEvent.refl x⟩

/-- **Inversion**: from here on no proof opens `step`. -/
theorem effect_of_step {a : Act} (h : step cfg reqs rcfg σ a = some σ') :
    Effect cfg reqs rcfg σ a σ' := by
  cases a with
  | api a =>
    obtain ⟨api, hapi, rfl⟩ := Option.map_eq_some_iff.mp h
    exact .api hapi
  | relay a =>
    rw [step] at h
    split at h
    · rename_i hrelay
      obtain ⟨relays, hrelays, rfl⟩ := Option.map_eq_some_iff.mp h
      exact .relay hrelays (rows_of_relay hrelays hrelay)
    · nomatch h

/-- A run of the pipeline is a run of the requests. -/
theorem api_of_run (h : Run (step cfg reqs rcfg) (onApi ok) σ σ') :
    Run (patents cfg reqs).step ok σ.api σ'.api := by
  induction h with
  | refl => exact Run.refl _
  | tail _ hok hs ih =>
    cases effect_of_step hs with
    | api h => exact Run.tail ih hok h
    | relay => exact ih

end Projection

/-! ## The rows that requests write -/

section Rows

variable {cfg : Config} {reqs : Nat → Request} {users : Table User User.id}
  {inventors : Table Inventor Inventor.id} {categories : Table Category Category.id}
  {σ σ' : ReadCommitted.State Db Ext Write Loc} {e : OutboxEvent PatentEvent}

/-- Events of a patent are only ever added, at the end. -/
theorem eventsOf_prefix {J : Nat → Loc → Patent → Prop} {p : Nat} {d : Db}
    {log : List (Nat × List Write)} {ws : List Write} {id : Nat}
    (h : PatentEffect J reqs p d log ws id) : eventsOf d id <+: eventsOf (after d ws) id := by
  cases h with
  | other _ _ _ hevents => exact hevents ▸ List.prefix_refl _
  | create _ _ _ _ _ _ hevents => exact hevents ▸ List.prefix_refl _
  | update _ _ _ _ _ _ hevents => exact hevents ▸ List.prefix_refl _
  | submit _ _ _ _ _ hevents => exact hevents ▸ List.prefix_refl _
  | review _ _ _ _ _ _ _ _ hevents => exact hevents ▸ List.prefix_append _ _
  | delete _ _ _ _ _ hevents => exact hevents ▸ List.prefix_refl _

/-- No step of a request removes an event. -/
theorem outbox_of_step (hrun : Run (patents cfg reqs).step always
      (PatentService.init users inventors categories) σ) {a : ReadCommitted.Act Oracle Upload}
    (hs : (patents cfg reqs).step σ a = some σ') (he : e ∈ σ.base.db.outbox) :
    e ∈ σ'.base.db.outbox := by
  have hmem := mem_eventsOf_of_run (landing_of_always hrun) he
  have hmem' : e ∈ eventsOf σ'.base.db e.aggregateId :=
    history_after e.aggregateId (fun d _ => e ∈ eventsOf d e.aggregateId)
      (fun hP heff => ( eventsOf_prefix heff).subset hP) (landing_of_always hrun)
      (landing_of_always (Run.single trivial hs)) hmem
  exact (mem_eventsOf.mp hmem').1

/-- A row is written by `enqueue`, with the event of its patent. -/
theorem row_of_run (hrun : Run (patents cfg reqs).step always
      (PatentService.init users inventors categories) σ) (he : e ∈ σ.base.db.outbox) :
    ∃ n event, e = eventRow e.aggregateId n event := by
  obtain ⟨-, -, -, hserial, hreplay⟩ := holds_of_run (landing_of_always hrun)
  rw [hreplay] at he
  refine hserial.invariant
    (P := fun d _ => ∀ e ∈ d.outbox, ∃ n event, e = eventRow e.aggregateId n event)
    (fun e he => absurd he (Table.not_mem_empty e)) (fun hP htx e he => ?_) e he
  rcases event_back _ he with he | he
  · exact hP e he
  · exact (htx.trail he rfl).2 e rfl

/-- Nobody has claimed or published it there. -/
theorem fresh_of_run (hrun : Run (patents cfg reqs).step always
      (PatentService.init users inventors categories) σ) (he : e ∈ σ.base.db.outbox) :
    e.publishedAt = none ∧ e.claimedAt = none := by
  obtain ⟨n, event, hrow⟩ := row_of_run hrun he
  rw [hrow]
  exact ⟨rfl, rfl⟩

/-- The last event of a patent has the largest id. -/
theorem le_of_getLast? {d : Db} {id : Nat} {f : OutboxEvent PatentEvent}
    (hlast : (eventsOf d id).getLast? = some e) (hf : f ∈ eventsOf d id) : f.id ≤ e.id := by
  have : Std.Total fun a b : OutboxEvent PatentEvent => a.id ≤ b.id :=
    ⟨fun a b => Nat.le_total _ _⟩
  have : IsTrans (OutboxEvent PatentEvent) fun a b => a.id ≤ b.id := ⟨fun _ _ _ => Nat.le_trans⟩
  have hsorted : (eventsOf d id).Pairwise fun a b => a.id ≤ b.id :=
    List.pairwise_insertionSort _ _
  obtain ⟨front, hfront⟩ := List.getLast?_eq_some_iff.mp hlast
  rw [hfront] at hsorted hf
  rcases List.mem_append.mp hf with hf | hf
  · exact (List.pairwise_append.mp hsorted).2.2 f hf e List.mem_cons_self
  · exact Nat.le_of_eq (congrArg OutboxEvent.id (List.mem_singleton.mp hf))

/-- A row describes what was approved. -/
theorem describes_of_record {record : PatentRecord} {row : Patent} {uuid : String} {now : Time}
    {u : Upserted} (hrecord : record.toPatent = row)
    (hu : patentVersionUpserted record uuid now = .upserted u) : Describes u row := by
  obtain rfl := PatentEvent.upserted.inj hu
  subst hrecord
  exact ⟨rfl, rfl, rfl, rfl, rfl, rfl, rfl, rfl, rfl⟩

/-- **While a patent is approved, its last event says what it is.**  An approved row can only be
    declined, so nothing changes between the approval and the next event. -/
theorem last_of_approved (hrun : Run (patents cfg reqs).step always
      (PatentService.init users inventors categories) σ) {id : Nat} {row : Patent}
    (hrow : σ.base.db.patents.get? id = some row) (happroved : row.status = .approved) :
    ∃ e u, (eventsOf σ.base.db id).getLast? = some e ∧ e.payload = .upserted u ∧
      Describes u row := by
  refine history id (fun d _ => ∀ row, d.patents.get? id = some row → row.status = .approved →
    ∃ e u, (eventsOf d id).getLast? = some e ∧ e.payload = .upserted u ∧ Describes u row)
    (fun row hrow _ => by cases hrow) (fun {d log p ws} hP heff row hrow happroved => ?_)
    (landing_of_always hrun) row hrow happroved
  cases heff with
  | other _ hsame _ hevents =>
    rw [hevents]
    exact hP row (hsame ▸ hrow) happroved
  | create _ _ _ _ hnew =>
    obtain rfl := Option.some.inj (hnew.symm.trans hrow)
    nomatch happroved
  | update _ hold hstatus _ hnew =>
    obtain rfl := Option.some.inj (hnew.symm.trans hrow)
    -- an edit keeps the status, and an approved patent is not edited
    have hsame := happroved ▸ hstatus
    exact absurd hsame (by decide)
  | submit _ _ _ hnew =>
    obtain rfl := Option.some.inj (hnew.symm.trans hrow)
    nomatch happroved
  | @review action admin comments before now record n now' o m old hreq hold hstatus _ hrecord hmem
      hnew _ hevents =>
    obtain rfl := Option.some.inj (hnew.symm.trans hrow)
    generalize reqs p = r at hreq
    cases hreq with
    | approve =>
      rw [hevents]
      exact ⟨_, _, List.getLast?_concat, rfl, describes_of_record hrecord rfl⟩
    | decline => nomatch happroved
  | delete _ _ _ hnew =>
    rw [hnew] at hrow
    nomatch hrow

end Rows

/-! ## What links the two halves -/

section Linked

variable {cfg : Config} {reqs : Nat → Request} {rcfg : OutboxRelay.Config PatentEvent}
  {users : Table User User.id} {inventors : Table Inventor Inventor.id}
  {categories : Table Category Category.id} {σ σ' : State}

/-- The invariant of the pipeline. -/
structure Linked (rcfg : OutboxRelay.Config PatentEvent) (σ : State) : Prop where
  durable : Durable rcfg σ.relays
  written : ∀ e ∈ σ.relays.table, ∃ x ∈ σ.api.base.db.outbox, SameEvent e x
  visible : ∀ x ∈ σ.api.base.db.outbox, ∃ e ∈ σ.relays.table, SameEvent e x
  /-- The broker has accepted rows of the table, and nothing else. -/
  origin : ∀ m ∈ σ.relays.accepted, ∃ e ∈ σ.relays.table, m = message rcfg e

/-- What the relays have not seen is new to their table. -/
theorem mem_unseen {d : Db} {t : OutboxTable PatentEvent} {x : OutboxEvent PatentEvent} :
    x ∈ unseen d t ↔ x ∈ d.outbox ∧ ∀ e ∈ t, e.id ≠ x.id := by
  rw [unseen, List.mem_filter, Option.isNone_iff_eq_none, Table.get?_eq_none]
  rfl

theorem nodup_unseen (d : Db) (t : OutboxTable PatentEvent) :
    ((unseen d t).map OutboxEvent.id).Nodup :=
  d.outbox.nodup.sublist (List.filter_sublist.map _)

/-- After a commit their table has what it had, and what is new. -/
theorem mem_committed {d : Db} {t : OutboxTable PatentEvent} {x : OutboxEvent PatentEvent} :
    x ∈ committed d t ↔ x ∈ t ∨ x ∈ unseen d t := by
  rw [Table.mem_def, committed,
    Table.rows_putAll (nodup_unseen d t) fun r hr => (mem_unseen.mp hr).2, List.mem_append]
  rfl

/-- New rows do not disturb the relays. -/
theorem durable_putAll : ∀ (rows : List (OutboxEvent PatentEvent))
    (τ : OutboxRelay.State PatentEvent), Durable rcfg τ →
    (∀ r ∈ rows, r.publishedAt = none ∧ r.claimedAt = none) → (rows.map OutboxEvent.id).Nodup →
    (∀ r ∈ rows, ∀ e ∈ τ.table, e.id ≠ r.id) →
    Durable rcfg { τ with table := τ.table.putAll rows }
  | [], _, h, _, _, _ => h
  | r :: rows, τ, h, hfresh, hnodup, hnew => by
      obtain ⟨hr, hnodup⟩ := List.nodup_cons.mp hnodup
      obtain ⟨hpub, hclaim⟩ := hfresh r List.mem_cons_self
      have hone := h.enqueue hpub hclaim (hnew r List.mem_cons_self)
      refine durable_putAll rows { τ with table := τ.table.put r } hone
        (fun q hq => hfresh q (List.mem_cons_of_mem r hq)) hnodup fun q hq e he => ?_
      rcases Table.mem_put.mp he with rfl | ⟨he, -⟩
      · exact fun heq => hr (heq ▸ List.mem_map_of_mem hq)
      · exact hnew q (List.mem_cons_of_mem r hq) e he

/-- A step of the API only adds events. -/
theorem Linked.api {api : ReadCommitted.State Db Ext Write Loc} (h : Linked rcfg σ)
    (hgrows : ∀ x ∈ σ.api.base.db.outbox, x ∈ api.base.db.outbox)
    (hfresh : ∀ x ∈ api.base.db.outbox, x.publishedAt = none ∧ x.claimedAt = none) :
    Linked rcfg
      { api := api
        relays := { σ.relays with table := committed api.base.db σ.relays.table } } where
  durable := durable_putAll _ _ h.durable (fun r hr => hfresh r (mem_unseen.mp hr).1)
    (nodup_unseen _ _) fun r hr => (mem_unseen.mp hr).2
  written := by
    intro e he
    rcases mem_committed.mp he with he | he
    · obtain ⟨x, hx, hsame⟩ := h.written e he
      exact ⟨x, hgrows x hx, hsame⟩
    · exact ⟨e, (mem_unseen.mp he).1, SameEvent.refl e⟩
  visible := by
    intro x hx
    by_cases hseen : ∃ e ∈ σ.relays.table, e.id = x.id
    · -- a row that is known already is the same row
      obtain ⟨e, he, hid⟩ := hseen
      obtain ⟨y, hy, hsame⟩ := h.written e he
      obtain rfl : y = x := Table.eq_of_key (hgrows y hy) hx (hsame.id.symm.trans hid)
      exact ⟨e, mem_committed.mpr (Or.inl he), hsame⟩
    · refine ⟨x, mem_committed.mpr (Or.inr (mem_unseen.mpr ⟨hx, fun e he hid => ?_⟩)),
        SameEvent.refl x⟩
      exact hseen ⟨e, he, hid⟩
  origin := by
    intro m hm
    obtain ⟨e, he, hme⟩ := h.origin m hm
    exact ⟨e, mem_committed.mpr (Or.inl he), hme⟩

/-- What the broker has accepted after a step, it had accepted before, or a relay held it. -/
theorem accepted_of_relay {τ τ' : OutboxRelay.State PatentEvent} {a : OutboxRelay.Act PatentEvent}
    (hs : OutboxRelay.step rcfg τ a = some τ') {m : Message PatentEvent} (hm : m ∈ τ'.accepted) :
    m ∈ τ.accepted ∨ ∃ r, ∃ e ∈ (τ.loc r).held, m = message rcfg e := by
  cases OutboxRelay.effect_of_step hs with
  | @accept r since claimed published event rest hloc =>
    rcases List.mem_append.mp hm with hm | hm
    · exact Or.inl hm
    · refine Or.inr ⟨r, event, ?_, List.mem_singleton.mp hm⟩
      rw [hloc]
      exact List.mem_cons_self
  | _ => exact Or.inl hm

/-- A step of the relays keeps every event. -/
theorem Linked.relay {relays : OutboxRelay.State PatentEvent} {a : OutboxRelay.Act PatentEvent}
    (h : Linked rcfg σ) (hs : OutboxRelay.step rcfg σ.relays a = some relays)
    (hrows : ∀ x ∈ relays.table, ∃ e ∈ σ.relays.table, SameEvent x e) :
    Linked rcfg { σ with relays := relays } where
  durable := h.durable.step hs
  written := by
    intro x hx
    obtain ⟨e, he, hxe⟩ := hrows x hx
    obtain ⟨y, hy, hey⟩ := h.written e he
    exact ⟨y, hy, hxe.trans hey⟩
  visible := by
    intro y hy
    obtain ⟨e, he, hey⟩ := h.visible y hy
    obtain ⟨x, hx, hxe, -⟩ := OutboxRelay.persists_of_step hs e he
    exact ⟨x, hx, hxe.trans hey⟩
  origin := by
    intro m hm
    have hrow : ∃ e ∈ σ.relays.table, m = message rcfg e := by
      rcases accepted_of_relay hs hm with hm | ⟨r, e, he, rfl⟩
      · exact h.origin m hm
      · obtain ⟨x, hx, hsame⟩ := h.durable.held r e he
        exact ⟨x, hx, hsame.message.symm⟩
    obtain ⟨e, he, rfl⟩ := hrow
    obtain ⟨x, hx, hsame, -⟩ := OutboxRelay.persists_of_step hs e he
    exact ⟨x, hx, hsame.message.symm⟩

theorem linked_init : Linked rcfg (init users inventors categories) where
  durable := ⟨fun e he => absurd he (Table.not_mem_empty e),
    fun e he => absurd he (Table.not_mem_empty e), nofun, nofun⟩
  written := fun e he => absurd he (Table.not_mem_empty e)
  visible := fun e he => absurd he (Table.not_mem_empty e)
  origin := nofun

/-- **The halves stay linked**, in every run of the pipeline. -/
theorem linked_of_run
    (hrun : Run (step cfg reqs rcfg) (onApi always) (init users inventors categories) σ) :
    Linked rcfg σ := by
  refine hrun.invariant_reached (I := Linked rcfg) (fun τ a τ' hreach h _ hs => ?_) linked_init
  have hapi := api_of_run hreach
  cases effect_of_step hs with
  | api h' =>
    exact h.api (fun x hx => outbox_of_step hapi h' hx) fun x hx =>
      fresh_of_run (Run.tail hapi trivial h') hx
  | relay h' hrows => exact h.relay h' hrows

/-! ## What the consumer holds -/

/-- Delivered messages are numbered by their events. -/
theorem numbered_of_linked (h : Linked rcfg σ) {delivered : List (Message PatentEvent)}
    (hall : DeliveredAll σ delivered) :
    LastWriter.Numbered Message.key Message.sequence delivered := by
  intro m hm m' hm' _ hseq
  obtain ⟨e, he, rfl⟩ := h.origin m ((hall m).mp hm)
  obtain ⟨e', he', rfl⟩ := h.origin m' ((hall m').mp hm')
  rw [Table.eq_of_key he he' hseq]

/-- **The consumer holds the last row of every patent that is drained.** -/
theorem index_of_run
    (hrun : Run (step cfg reqs rcfg) (onApi always) (init users inventors categories) σ) {id : Nat}
    (hdrained : Drained σ id) {delivered : List (Message PatentEvent)}
    (hall : DeliveredAll σ delivered) :
    index delivered id = (eventsOf σ.api.base.db id).getLast?.map (message rcfg) := by
  have h := linked_of_run hrun
  have hnum := numbered_of_linked h hall
  -- a message of the patent is one of its events
  have hback : ∀ m ∈ delivered, m.key = id →
      ∃ e ∈ eventsOf σ.api.base.db id, m = message rcfg e := by
    intro m hm hkey
    obtain ⟨e, he, rfl⟩ := h.origin m ((hall m).mp hm)
    obtain ⟨x, hx, hsame⟩ := h.written e he
    have hevent := mem_eventsOf_of_run (landing_of_always (api_of_run hrun)) hx
    have hid : x.aggregateId = id := hsame.aggregateId.symm.trans hkey
    exact ⟨x, hid ▸ hevent, hsame.message⟩
  cases hlast : (eventsOf σ.api.base.db id).getLast? with
  | none =>
    refine LastWriter.project_eq_none_iff.mpr fun m hm hkey => ?_
    obtain ⟨e, he, -⟩ := hback m hm hkey
    rw [List.getLast?_eq_none_iff.mp hlast] at he
    nomatch he
  | some e =>
    have he : e ∈ eventsOf σ.api.base.db id := List.mem_of_getLast? hlast
    obtain ⟨hrow, -, hid⟩ := mem_eventsOf.mp he
    refine (LastWriter.project_eq_some_iff hnum).mpr ⟨(hall _).mpr ?_, hid, fun m hm hkey => ?_⟩
    · obtain ⟨x, hx, hsame⟩ := h.visible e hrow
      have hpub := hdrained x hx (hsame.aggregateId.trans hid)
      have hsent := h.durable.sent x hx hpub
      rwa [hsame.message] at hsent
    · obtain ⟨f, hf, rfl⟩ := hback m hm hkey
      exact le_of_getLast? hlast hf

/-- The consumer's last message about an approved patent is its last event. -/
theorem index_of_approved
    (hrun : Run (step cfg reqs rcfg) (onApi always) (init users inventors categories) σ)
    {row : Patent} (hrow : row ∈ σ.api.base.db.patents) (happroved : row.status = .approved)
    (hdrained : Drained σ row.id) {delivered : List (Message PatentEvent)}
    (hall : DeliveredAll σ delivered) : ∃ e u,
      index delivered row.id = some (message rcfg e) ∧ e.payload = .upserted u ∧ Describes u row := by
  obtain ⟨e, u, hlast, hpayload, hdesc⟩ :=
    last_of_approved (api_of_run hrun) (Table.get?_of_mem hrow) happroved
  refine ⟨e, u, ?_, hpayload, hdesc⟩
  rw [index_of_run hrun hdrained hall, hlast]
  rfl

/-- **An approved patent is found, under its own text.**  In every run of the pipeline, once the
    events of the patent are published. -/
theorem searchable_of_run
    (hrun : Run (step cfg reqs rcfg) (onApi always) (init users inventors categories) σ)
    {row : Patent} (hrow : row ∈ σ.api.base.db.patents) (happroved : row.status = .approved)
    (hdrained : Drained σ row.id) {delivered : List (Message PatentEvent)}
    (hall : DeliveredAll σ delivered) : ∃ u, Shows delivered row.id u ∧ Describes u row := by
  obtain ⟨e, u, hindex, hpayload, hdesc⟩ := index_of_approved hrun hrow happroved hdrained hall
  exact ⟨u, ⟨message rcfg e, hindex, hpayload⟩, hdesc⟩

/-- **The index is the corpus.**  If declines know whether the patent they decline is approved, a
    drained patent is found exactly while it is approved. -/
theorem corpus_of_run
    (hrun : Run (step cfg reqs rcfg) (onApi (Machine.localOk (Landing (Corpus.ReadRight reqs) reqs)))
      (init users inventors categories) σ) {id : Nat} (hdrained : Drained σ id)
    {delivered : List (Message PatentEvent)} (hall : DeliveredAll σ delivered) :
    (∃ u, Shows delivered id u) ↔ Corpus.Approved σ.api.base.db id := by
  have halways : Run (step cfg reqs rcfg) (onApi always) (init users inventors categories) σ :=
    hrun.mono fun τ a _ => by cases a <;> trivial
  have hindex := index_of_run halways hdrained hall
  constructor
  · rintro ⟨u, m, hm, hpayload⟩
    rw [hm] at hindex
    obtain ⟨e, hlast, rfl⟩ := Option.map_eq_some_iff.mp hindex.symm
    obtain ⟨hrow, -, -⟩ := mem_eventsOf.mp (List.mem_of_getLast? hlast)
    obtain ⟨n, event, heq⟩ := row_of_run (api_of_run halways) hrow
    have hagrees := Corpus.agrees_of_run (api_of_run hrun) id
    refine hagrees.last.mp ?_
    have hevent : event = .upserted u := (congrArg OutboxEvent.payload heq).symm.trans hpayload
    have htype : e.eventType = UPSERTED := by
      rw [heq, hevent]
      rfl
    rw [eventTypes, List.getLast?_map, hlast, Option.map_some, htype]
  · rintro ⟨row, hrow, rfl, happroved⟩
    obtain ⟨e, u, hlast, hpayload, -⟩ := index_of_approved halways hrow happroved hdrained hall
    exact ⟨u, message rcfg e, hlast, hpayload⟩

end Linked

/-! ## An approval that is sent twice -/

/-- A relay for the run below. -/
def smallBatches : OutboxRelay.Config PatentEvent := ⟨10, 5, "patents.events", fun _ _ => 0⟩

/-- The patent is approved.  The first relay sends the event and dies; after the timeout the second
    one sends it again and marks it. -/
def sentTwice : List Act :=
  (submitted ++ steps 3 7).map .api ++
    [.relay (.begin 0), .relay (.claim 0 [1]), .relay (.send 0 none), .relay (.crash 0),
      .relay (.tick 300001), .relay (.begin 1), .relay (.claim 1 [1]), .relay (.send 1 none),
      .relay (.mark 1 none)]

/-- Everything is published, and the patent is approved. -/
def onDisplay (σ : State) : Bool :=
  σ.relays.table.rows.all (fun e => e.publishedAt.isSome) &&
    σ.api.base.db.patents.rows.any (fun row => row.id == 1 && row.status == .approved)

theorem sentTwice_runs :
    (execOk (step pdfOnly oneLife smallBatches)
      (onApi (Machine.localOk (Landing (Corpus.ReadRight oneLife) oneLife)))
      (init accounts Table.empty Table.empty) sentTwice).any onDisplay = true := by
  decide

/-- What is needed of the run, read off the evaluation. -/
theorem sentTwice_state : ∃ σ, execOk (step pdfOnly oneLife smallBatches)
      (onApi (Machine.localOk (Landing (Corpus.ReadRight oneLife) oneLife)))
      (init accounts Table.empty Table.empty) sentTwice = some σ ∧
    Drained σ 1 ∧ ∃ row ∈ σ.api.base.db.patents, row.id = 1 ∧ row.status = .approved := by
  obtain ⟨σ, hσ, hdisplay⟩ := (Option.any_eq_true _ _).mp sentTwice_runs
  rw [onDisplay, Bool.and_eq_true, List.all_eq_true, List.any_eq_true] at hdisplay
  obtain ⟨hpublished, row, hrow, hid⟩ := hdisplay
  rw [Bool.and_eq_true, beq_iff_eq, beq_iff_eq] at hid
  exact ⟨σ, hσ, fun e he _ => hpublished e he, row, hrow, hid⟩

/-- The consumer gets both messages, and the second one twice. -/
theorem searchable_of_sentTwice : ∃ σ row u,
    exec (step pdfOnly oneLife smallBatches) (init accounts Table.empty Table.empty) sentTwice =
      some σ ∧ row ∈ σ.api.base.db.patents ∧
      Shows (σ.relays.accepted ++ σ.relays.accepted) row.id u ∧ Describes u row := by
  obtain ⟨σ, hσ, hdrained, row, hrow, hid, happroved⟩ := sentTwice_state
  have hexec := exec_of_execOk hσ
  have hrun : Run (step pdfOnly oneLife smallBatches) (onApi always)
      (init accounts Table.empty Table.empty) σ :=
    (Run.of_exec hexec).mono fun τ a _ => by cases a <;> trivial
  have hall : DeliveredAll σ (σ.relays.accepted ++ σ.relays.accepted) := fun m => by simp
  obtain ⟨u, hshows, hdesc⟩ := searchable_of_run hrun hrow happroved (hid ▸ hdrained) hall
  exact ⟨σ, row, u, hexec, hrow, hshows, hdesc⟩

/-- An event is sent twice, and the index shows the patent once. -/
theorem corpus_of_sentTwice : ∃ σ,
    exec (step pdfOnly oneLife smallBatches) (init accounts Table.empty Table.empty) sentTwice =
      some σ ∧ ((∃ u, Shows σ.relays.accepted 1 u) ↔ Corpus.Approved σ.api.base.db 1) := by
  obtain ⟨σ, hσ, hdrained, -⟩ := sentTwice_state
  exact ⟨σ, exec_of_execOk hσ, corpus_of_run (Run.of_execOk hσ) hdrained fun m => Iff.rfl⟩

end SmartPatents.SearchIndex
