/-
  Fat events are snapshots.

  An approve copies the record of its patent into the event it announces, and nothing announces a
  patent again until it is approved again.  While requests run one after another an approved patent
  stays what it was in every table that the patent service writes (`faithful_of_run`), but the names
  of its categories and inventors belong to other services, and a category can go altogether.  Until
  then the event says what the record says (`fatEvents_of_run`); `not_mirrored` renames a category.

  `Mirrors` is the whole payload, apart from the id and the time of the event.  `MirrorsIds` is
  what remains of it when names have changed since: every column of the row, and the ids and the
  order of the inventors.

  `Spares` is the condition on the writes in between: none changes a name or an organization that
  the event shows, and none deletes a category of the patent.  A write about something else meets
  it.

  Where requests overlap, an event may be out of date for other reasons; these are the subjects of
  `UnderReview` and `Corpus`.
-/
import SmartPatents.Lib.Solo
import SmartPatents.CatalogueOutline

namespace SmartPatents.FatEvents

open ReadCommitted Runs Access Lifecycle PatentEvents Catalogue UnderReview
open PatentService (Oracle categoryLinks credits PatentTx eventsOf)

/-! ## One request at a time -/

/-- A request that has not begun, or has ended. -/
def AtRest : Loc → Prop
  | .patent .start | .patent (.done _) | .reference .start | .reference (.done _) | .failed => True
  | _ => False

/-- What a request knows while the others are at rest: the record that it puts into its event, or
    that an inventor has no credits. -/
def SoloAt (reqs : Nat → Request) (p : Nat) (l : Loc) (b : Base Db Ext Write) (ws : List Write) :
    Prop :=
  match l with
  | .patent l => RecordAt (patentRequests reqs p) l b.db (ws.filterMap ofPatent?)
  | .reference l => Uncredited reqs p (.reference l) b.db
  | .failed => True

/-- The event of a transaction describes the row that it has written. -/
def SoloTx (reqs : Nat → Request) (p : Nat) (d : Db) (_ : List (Nat × List Write))
    (ws : List Write) : Prop :=
  RecordTx (patentRequests reqs p) d (ws.filterMap ofPatent?)

section Solo

variable {cfg : Storage.Config} {sameName : String → String → Bool} {reqs : Nat → Request}
  {p : Nat} {b : Base Db Ext Write}

/-- A reference request announces nothing. -/
theorem soloTx_of_reference {r : ReferenceRequest} {d : Db} {log : List (Nat × List Write)}
    {ws : List Write} (htx : ReferenceTx r d ws) : SoloTx reqs p d log ws := by
  intro e he
  obtain ⟨w, hw, hwe⟩ := List.mem_filterMap.mp he
  have hof := htx.ofReference w hw
  cases w with
  | patent w =>
    obtain rfl := Option.some.inj hwe
    exact hof.elim
  | _ => nomatch hwe

/-- A statement of a patent request inside its transaction. -/
theorem solo_stmt {l : Loc} {f : Oracle → Db → Ext → Outcome} {ws : List Write} {o : Oracle}
    (hcode : (catalogue cfg sameName reqs).code p l = .stmt f)
    (hat : (placed cfg sameName reqs).Asserts (PatentAt reqs) Guest p l b ws)
    (hat₂ : SoloAt reqs p l b ws) :
    SoloAt reqs p (f o ((catalogue cfg sameName reqs).applyAll b.db ws) b.world).2.2
      { b with world := (f o ((catalogue cfg sameName reqs).applyAll b.db ws) b.world).2.1 }
      (ws ++ (f o ((catalogue cfg sameName reqs).applyAll b.db ws) b.world).1) := by
  obtain ⟨l, vs, rfl, rfl, hbase⟩ := (guests cfg sameName reqs).host hat
    (fun f hf => by cases hcode.symm.trans hf) (fun hhalt => by cases hcode.symm.trans hhalt)
  obtain ⟨f', hf, hf'⟩ := Embedding.stmt_inv hcode
  have hmove := PatentService.move_of_code (o := o) (d := PatentService.after b.db vs)
    (x := b.world.patents) (Or.inr hf)
  have hrec : RecordAt (patentRequests reqs p) l b.db vs := by
    simpa only [SoloAt, placed, filterMap_patent] using hat₂
  have hnext := recordAt_move (b := (placed cfg sameName reqs).base b) hmove hbase.1.1 hrec
  rw [hf', (placed cfg sameName reqs).applyAll_map]
  change RecordAt _ _ _ ((vs.map Write.patent ++ List.map Write.patent _).filterMap ofPatent?)
  rw [← List.map_append, filterMap_patent]
  exact hnext

/-- A statement of a patent request outside its transaction: it writes nothing. -/
theorem solo_patent_auto {l : PatentService.Loc} {f : Oracle → Db → Ext → Outcome} {o : Oracle}
    (hcode : (catalogue cfg sameName reqs).code p (.patent l) = .auto f)
    (hbase : PatentAt reqs p l ((placed cfg sameName reqs).base b) [])
    (hat₂ : SoloAt reqs p (.patent l) b []) :
    SoloAuto (catalogue cfg sameName reqs) (SoloAt reqs) (SoloTx reqs) p b (f o b.db b.world) := by
  obtain ⟨f', hf, hf'⟩ := Embedding.auto_inv (T := placed cfg sameName reqs) hcode
  have hnone : (f' o (PatentService.after b.db []) b.world.patents).1 = [] :=
    (PatentService.auto_quiet (J := fun _ _ _ => True) hf o b.db b.world.patents).none
  have hmove := PatentService.move_of_code (o := o) (d := PatentService.after b.db [])
    (x := b.world.patents) (Or.inl hf)
  have hnext := recordAt_move (b := (placed cfg sameName reqs).base b) hmove hbase.1.1 hat₂
  have hwrites : (f o b.db b.world).1 = [] := by
    rw [hf']
    exact List.map_eq_nil_iff.mpr hnone
  refine ⟨fun _ => ?_, fun hsome => absurd hwrites hsome, fun hsome => absurd hwrites hsome⟩
  rw [hf']
  rw [List.nil_append, hnone] at hnext
  exact hnext

/-- A statement of a reference request.  Nobody acts between a count of 0 and its DELETE. -/
theorem solo_reference_auto {l : ReferenceLoc} {f : Oracle → Db → Ext → Outcome} {o : Oracle}
    (hcode : (catalogue cfg sameName reqs).code p (.reference l) = .auto f)
    (hnumbered : Numbered b.db b.world) (hat₂ : SoloAt reqs p (.reference l) b []) :
    SoloAuto (catalogue cfg sameName reqs) (SoloAt reqs) (SoloTx reqs) p b (f o b.db b.world) := by
  simp only [catalogue, code] at hcode
  split at hcode
  · rename_i r hreq
    have hperforms := performs_of_code (o := o) hcode hnumbered (hreq ▸ hat₂)
    generalize f o b.db b.world = out at hperforms
    cases hperforms with
    | reads hx hnumbered hnext =>
      exact ⟨fun _ id hid => hnext id (hreq ▸ hid), fun hsome => absurd rfl hsome,
        fun hsome => absurd rfl hsome⟩
    | writes hx htx =>
      have hdone : ∀ reply d, Uncredited reqs p (.reference (.done reply)) d :=
        fun reply d => uncredited_of_ne (by simp)
      exact ⟨fun _ => hdone _ _, fun _ => soloTx_of_reference htx, fun _ => hdone _ _⟩
  · cases hcode

/-- The commit of a patent request. -/
theorem solo_commit {l l' : Loc} {ws : List Write}
    (hcode : (catalogue cfg sameName reqs).code p l = .commit l')
    (hinv : PatentInv ((placed cfg sameName reqs).base b))
    (hat : (placed cfg sameName reqs).Asserts (PatentAt reqs) Guest p l b ws)
    (hat₂ : SoloAt reqs p l b ws) :
    SoloTx reqs p b.db b.log ws ∧
      SoloAt reqs p l' ((catalogue cfg sameName reqs).commitBase b p ws) [] := by
  obtain ⟨l, vs, rfl, rfl, hbase⟩ := (guests cfg sameName reqs).host hat
    (fun f hf => by cases hcode.symm.trans hf) (fun hhalt => by cases hcode.symm.trans hhalt)
  obtain ⟨l₁, hl₁, rfl⟩ := Embedding.commit_inv hcode
  have hrec : RecordAt (patentRequests reqs p) l b.db vs := by
    simpa only [SoloAt, placed, filterMap_patent] using hat₂
  obtain ⟨-, ⟨⟨htx, -⟩, -⟩, -⟩ := (patentOutline cfg reqs).commit
    (b := (placed cfg sameName reqs).base b) hl₁ (fun _ _ _ _ _ => trivial) hinv hbase
  refine ⟨?_, recordAt_of_commit hl₁⟩
  have hvs : ((vs.map (placed cfg sameName reqs).write).filterMap ofPatent?) = vs :=
    filterMap_patent vs
  rw [SoloTx, hvs]
  exact recordTx_of_commit hl₁ htx hrec

/-- **The layer for requests that run one after another.** -/
theorem soloLayer (cfg : Storage.Config) (sameName : String → String → Bool)
    (reqs : Nat → Request) :
    Solo (catalogue cfg sameName reqs) AtRest (Uncredited reqs)
      (fun b => PatentInv ((placed cfg sameName reqs).base b) ∧ GuestInv b)
      ((placed cfg sameName reqs).Asserts (PatentAt reqs) Guest) (SoloAt reqs) (SoloTx reqs) where
  rest := by
    intro p l b ws hrest
    cases l with
    | patent l =>
      cases l with
      | start => trivial
      | done reply => trivial
      | _ => exact hrest.elim
    | reference l =>
      cases l with
      | start => exact uncredited_of_ne (by simp)
      | done reply => exact uncredited_of_ne (by simp)
      | _ => exact hrest.elim
    | failed => trivial
  lok := by
    intro p l b ws hat₂
    cases l with
    | reference l => exact hat₂
    | patent l => exact uncredited_of_ne (by simp)
    | failed => exact uncredited_of_ne (by simp)
  stmt := fun hcode _ hat hat₂ => solo_stmt hcode hat hat₂
  auto := by
    intro p l f b o hcode hinv hat hat₂
    rcases hat with ⟨l, vs, rfl, hvs, hbase⟩ | ⟨hguest, -⟩
    · obtain rfl : vs = [] := List.map_eq_nil_iff.mp hvs.symm
      exact solo_patent_auto hcode hbase hat₂
    · cases l with
      | patent l => exact hguest.elim
      | failed => cases hcode
      | reference l => exact solo_reference_auto hcode hinv.2.numbered hat₂
  commit := fun hcode hinv hat hat₂ => solo_commit hcode hinv.1 hat hat₂
  rollback := by
    intro p l l' b hcode
    cases l with
    | patent l =>
      obtain ⟨l₁, hl₁, rfl⟩ := Embedding.rollback_inv (T := placed cfg sameName reqs) (l := l) hcode
      obtain ⟨e, rfl⟩ := PatentService.eq_of_rollback hl₁
      trivial
    | reference l =>
      -- no statement of a reference request opens a transaction
      simp only [catalogue, code] at hcode
      split at hcode
      · rcases @referenceCode_cases sameName _ l with ⟨f, hf⟩ | hnone
        · cases hcode.symm.trans hf
        · cases hcode.symm.trans hnone
      · cases hcode
    | failed => cases hcode
  fail := trivial
  world := by
    intro p l b x' ws hat₂
    cases l <;> exact hat₂

/-- What is known of a transaction where requests run one after another. -/
def SequentialTx (reqs : Nat → Request) (p : Nat) (d : Db) (log : List (Nat × List Write))
    (ws : List Write) : Prop :=
  CatalogueTx reqs p d log ws ∧ SoloTx reqs p d log ws

/-- A run of requests one after another is a serial log of their transactions. -/
theorem sequential_of_run {users : Table User User.id} {σ : State Db Ext Write Loc}
    (hrun : Run (catalogue cfg sameName reqs).step (alone AtRest) (init reqs users) σ) :
    (catalogue cfg sameName reqs).Serial (SequentialTx reqs) (init reqs users).base.db σ.base.log ∧
      σ.base.db = (catalogue cfg sameName reqs).replay (init reqs users).base.db σ.base.log := by
  have hholds := (soloLayer cfg sameName reqs).sound (outline cfg sameName reqs)
    (holds_init cfg sameName reqs users) (fun p => ?_) rfl hrun
  · exact ⟨(hholds.outline.serial.mono catalogueTx_of_commits).and hholds.serial,
      hholds.outline.replay⟩
  · simp only [init]
    cases reqs p <;> trivial

end Solo

/-! ## What an event shows of a record -/

/-- The payload of a PatentVersionUpserted event. -/
def upserted? : PatentEvent → Option Upserted
  | .upserted u => some u
  | .withdrawn _ => none

/-- The payload of the latest PatentVersionUpserted event of a patent. -/
def latestUpserted (d : Db) (id : Nat) : Option Upserted :=
  ((eventsOf d id).filterMap fun e => upserted? e.payload).getLast?

/-- `u` is what `patentVersionUpserted` makes of the record of `row`, apart from the id and the time
    of the event. -/
def Mirrors (d : Db) (row : Patent) (u : Upserted) : Prop :=
  patentVersionUpserted (d.patentInclude row) u.eventId u.occurredAt = .upserted u

/-- The same apart from the categories and from the names and organizations of the inventors. -/
def MirrorsIds (d : Db) (row : Patent) (u : Upserted) : Prop :=
  ∃ v, patentVersionUpserted (d.patentInclude row) u.eventId u.occurredAt = .upserted v ∧
    u = { v with categories := u.categories, inventors := u.inventors } ∧
    u.inventors.map (fun i => (i.id, i.order)) = v.inventors.map fun i => (i.id, i.order)

/-- What an event shows of a category link and of a credit. -/
def shownCategory (d : Db) (l : PatentCategory) : Option String :=
  (d.categories.get? l.categoryId).map Category.name

/-- A credited inventor, as an event shows it. -/
def shownInventor (d : Db) (l : PatentInventor) : Option EventInventor :=
  (d.credited l).map eventInventor

section Shown

variable {d d' : Db} {row : Patent}

/-- The columns of a row in an event, with what it shows of the links. -/
def payload (row : Patent) (categories : List String) (inventors : List EventInventor)
    (eventId : String) (now : Time) : Upserted where
  eventId := eventId
  patentId := toString row.id
  version := row.version
  title := row.title
  abstract := row.abstract
  specification := row.specification
  publicationNumber := row.publicationNumber
  jurisdiction := row.jurisdiction
  categories := categories
  inventors := inventors
  documentKey := row.documentKey
  submittedBy := toString row.submittedBy
  occurredAt := now

/-- An event shows the columns of the row, and every link by what it refers to. -/
theorem patentVersionUpserted_eq (d : Db) (row : Patent) (eventId : String) (now : Time) :
    patentVersionUpserted (d.patentInclude row) eventId now =
      .upserted (payload row ((d.categoryLinksOf row.id).filterMap (shownCategory d))
        ((d.creditsOf row.id).filterMap (shownInventor d)) eventId now) := by
  have hcategories : ((d.patentInclude row).categories.map Category.name) =
      (d.categoryLinksOf row.id).filterMap (shownCategory d) := by
    rw [Db.patentInclude, List.map_filterMap]
    rfl
  have hsorted : (d.patentInclude row).inventors.Pairwise
      fun a b => a.1.inventorOrder ≤ b.1.inventorOrder := by
    have htotal : Std.Total fun a b : PatentInventor => a.inventorOrder ≤ b.inventorOrder :=
      ⟨fun a b => Int.le_total _ _⟩
    have htrans : IsTrans PatentInventor fun a b => a.inventorOrder ≤ b.inventorOrder :=
      ⟨fun a b c => Int.le_trans⟩
    refine (List.pairwise_insertionSort (fun a b : PatentInventor =>
      a.inventorOrder ≤ b.inventorOrder) _).filterMap _ fun a a' hle b hb b' hb' => ?_
    obtain ⟨i, -, rfl⟩ := Option.map_eq_some_iff.mp hb
    obtain ⟨i', -, rfl⟩ := Option.map_eq_some_iff.mp hb'
    exact hle
  have hinventors : (((d.patentInclude row).inventors.insertionSort
      fun a b => a.1.inventorOrder ≤ b.1.inventorOrder).map eventInventor) =
        (d.creditsOf row.id).filterMap (shownInventor d) := by
    rw [hsorted.insertionSort_eq, Db.patentInclude, List.map_filterMap]
    rfl
  rw [patentVersionUpserted, hcategories, hinventors]
  rfl

/-- `d'` shows of patent `id` what `d` shows. -/
structure SameShown (d d' : Db) (id : Nat) : Prop where
  links : d'.categoryLinksOf id = d.categoryLinksOf id
  categories : ∀ l ∈ d.categoryLinksOf id, shownCategory d' l = shownCategory d l
  inventors : ∀ l ∈ d.creditsOf id, shownInventor d' l = shownInventor d l

/-- A patent shows what it shows. -/
theorem SameShown.refl (d : Db) (id : Nat) : SameShown d d id :=
  ⟨rfl, fun _ _ => rfl, fun _ _ => rfl⟩

/-- An event that mirrors a patent still does where the patent shows the same. -/
theorem Mirrors.of_sameShown {u : Upserted} (h : Mirrors d row u)
    (hcredits : d'.creditsOf row.id = d.creditsOf row.id) (hsame : SameShown d d' row.id) :
    Mirrors d' row u := by
  rw [Mirrors, patentVersionUpserted_eq, hsame.links, hcredits,
    List.filterMap_congr hsame.categories, List.filterMap_congr hsame.inventors,
    ← patentVersionUpserted_eq]
  exact h

/-- Where the credits refer to inventors, an event has their ids and orders. -/
theorem ids_of_shown (href : Referential d) (id : Nat) :
    ((d.creditsOf id).filterMap (shownInventor d)).map (fun i => (i.id, i.order)) =
      (d.creditsOf id).map fun l => (toString l.inventorId, l.inventorOrder) := by
  have hknown : ∀ l ∈ d.creditsOf id, (d.inventors.get? l.inventorId).isSome := by
    intro l hl
    exact href.credited l (credits.mem_ofPatent.mp (PatentService.mem_creditsOf.mp hl)).1
  generalize d.creditsOf id = ls at hknown
  induction ls with
  | nil => rfl
  | cons l ls ih =>
    obtain ⟨i, hi⟩ := Option.isSome_iff_exists.mp (hknown l List.mem_cons_self)
    have hshown : shownInventor d l = some (eventInventor (l, i)) := by
      rw [shownInventor, Db.credited, hi]
      rfl
    have hid : i.id = l.inventorId := (Table.get?_eq_some.mp hi).2
    rw [List.filterMap_cons_some hshown, List.map_cons, List.map_cons,
      ih fun l' hl' => hknown l' (List.mem_cons_of_mem l hl')]
    simp only [eventInventor, hid]

/-- The ids in it are right in any case. -/
theorem Mirrors.ids {u : Upserted} (h : Mirrors d row u)
    (hcredits : d'.creditsOf row.id = d.creditsOf row.id) (href : Referential d)
    (href' : Referential d') : MirrorsIds d' row u := by
  rw [Mirrors, patentVersionUpserted_eq] at h
  have hu := PatentEvent.upserted.inj h
  refine ⟨_, patentVersionUpserted_eq d' row u.eventId u.occurredAt, ?_, ?_⟩
  · rw [← hu]
    rfl
  · have hids : u.inventors = (d.creditsOf row.id).filterMap (shownInventor d) :=
      (congrArg Upserted.inventors hu).symm
    rw [hids, ids_of_shown href, ← hcredits]
    exact (ids_of_shown href' row.id).symm

/-! ## What leaves an event true -/

/-- The write changes nothing that the event shows of the links that patent `id` had in `d`. -/
def Spares (d : Db) (id : Nat) : Write → Prop
  | .updateCategory old new =>
    old.name = new.name ∨ ∀ l ∈ d.categoryLinksOf id, l.categoryId ≠ old.id
  | .deleteCategory old => ∀ l ∈ d.categoryLinksOf id, l.categoryId ≠ old.id
  | .updateInventor old new =>
    (old.fullName = new.fullName ∧ old.organization = new.organization) ∨
      ∀ l ∈ d.creditsOf id, l.inventorId ≠ old.id
  | _ => True

/-- An inventor written shows in the credits of its own. -/
theorem shownInventor_put {new : Inventor} (h : d'.inventors = d.inventors.put new)
    (l : PatentInventor) : shownInventor d' l =
      if l.inventorId = new.id then some (eventInventor (l, new)) else shownInventor d l := by
  rw [shownInventor, shownInventor, Db.credited, Db.credited, h, Table.get?_put]
  split <;> rfl

/-- A category written shows under its own links. -/
theorem shownCategory_put {new : Category} (h : d'.categories = d.categories.put new)
    (l : PatentCategory) : shownCategory d' l =
      if l.categoryId = new.id then some new.name else shownCategory d l := by
  rw [shownCategory, shownCategory, h, Table.get?_put]
  split <;> rfl

/-- **Step lemma.**  A transaction of a reference request that spares a patent. -/
theorem SameShown.reference {d₁ : Db} {id : Nat} {r : ReferenceRequest} {ws : List Write}
    (h : SameShown d₁ d id) (hcredits : d.creditsOf id = d₁.creditsOf id) (href : Referential d)
    (htx : ReferenceTx r d ws) (hspares : ∀ w ∈ ws, Spares d₁ id w) :
    SameShown d₁ (Catalogue.after d ws) id := by
  have hcredited : ∀ l ∈ d₁.creditsOf id, l ∈ d.patentInventors := by
    intro l hl
    rw [← hcredits] at hl
    exact (credits.mem_ofPatent.mp (PatentService.mem_creditsOf.mp hl)).1
  have hlinked : ∀ l ∈ d₁.categoryLinksOf id, l ∈ d.patentCategories ∧ l.patentId = id := by
    intro l hl
    rw [← h.links] at hl
    exact categoryLinks.mem_ofPatent.mp hl
  cases htx with
  | @createInventor user input n now hreq hnew =>
    refine ⟨h.links, h.categories, fun l hl => ?_⟩
    rw [shownInventor_put rfl l, if_neg fun he => ?_]
    · exact h.inventors l hl
    · have hsome := href.credited l (hcredited l hl)
      rw [he, show (inventorOf user input n now).id = n from rfl, hnew] at hsome
      cases hsome
  | @updateInventor user n updates old hreq hold =>
    refine ⟨h.links, h.categories, fun l hl => ?_⟩
    rw [shownInventor_put rfl l]
    split
    · rename_i he
      have hn : old.id = n := (Table.get?_eq_some.mp hold).2
      have he : l.inventorId = n := he.trans hn
      rcases hspares _ List.mem_cons_self with ⟨hname, horganization⟩ | hother
      · rw [← h.inventors l hl, shownInventor, Db.credited, he, hold]
        simp only [Option.map_some, eventInventor, ← hname, ← horganization]
        rfl
      · exact absurd (he.trans hn.symm) (hother l hl)
    · exact h.inventors l hl
  | @deleteInventor admin n old hreq hold hnone =>
    refine ⟨h.links, h.categories, fun l hl => ?_⟩
    have hn : old.id = n := (Table.get?_eq_some.mp hold).2
    have hne : l.inventorId ≠ old.id := by
      intro he
      have hmem : l ∈ creditsTo d n :=
        List.mem_filter.mpr ⟨hcredited l hl, by simpa using he.trans hn⟩
      rw [hnone] at hmem
      cases hmem
    have hget : (d.inventors.erase old.id).get? l.inventorId = d.inventors.get? l.inventorId := by
      rw [Table.get?_erase, if_neg hne]
    rw [← h.inventors l hl, shownInventor, shownInventor, Db.credited, Db.credited]
    exact congrArg (fun i => (i.map fun i => (l, i)).map eventInventor) hget
  | @createCategory admin name n hreq hnew =>
    refine ⟨h.links, fun l hl => ?_, h.inventors⟩
    rw [shownCategory_put rfl l, if_neg fun he => ?_]
    · exact h.categories l hl
    · have hsome := href.linked l (hlinked l hl).1
      rw [he, show (⟨n, name⟩ : Category).id = n from rfl, hnew] at hsome
      cases hsome
  | @updateCategory admin n name old hreq hold =>
    refine ⟨h.links, fun l hl => ?_, h.inventors⟩
    rw [shownCategory_put rfl l]
    split
    · rename_i he
      have hn : old.id = n := (Table.get?_eq_some.mp hold).2
      have he : l.categoryId = n := he.trans hn
      rcases hspares _ List.mem_cons_self with hname | hother
      · rw [← h.categories l hl, shownCategory, he, hold]
        exact congrArg some hname.symm
      · exact absurd (he.trans hn.symm) (hother l hl)
    · exact h.categories l hl
  | @deleteCategory admin n old hreq hold =>
    have hn : old.id = n := (Table.get?_eq_some.mp hold).2
    have hother : ∀ l ∈ d₁.categoryLinksOf id, l.categoryId ≠ old.id :=
      hspares _ (List.mem_append_right _ List.mem_cons_self)
    obtain ⟨hinventors, hcategories, -⟩ := tables_of_cascade d n old
    refine ⟨?_, fun l hl => ?_, fun l hl => ?_⟩
    · rw [Catalogue.categoryLinksOf_cascade old, h.links]
      rw [h.links]
      exact fun l hl => hn ▸ hother l hl
    · have hget :
          (d.categories.erase old.id).get? l.categoryId = d.categories.get? l.categoryId := by
        rw [Table.get?_erase, if_neg (hother l hl)]
      rw [← h.categories l hl, shownCategory, shownCategory, hcategories, hget]
    · rw [← h.inventors l hl, shownInventor, shownInventor, Db.credited, Db.credited, hinventors]

end Shown

/-! ## From the approve on -/

section Tracked

variable {cfg : Storage.Config} {sameName : String → String → Bool} {reqs : Nat → Request}
  {d₀ d d₁ : Db} {log later : List (Nat × List Write)} {p : Nat} {row : Patent} {u : Upserted}

/-- `e` is the transaction of an approve of patent `id` that announces `u`. -/
structure Approves (reqs : Nat → Request) (id : Nat) (u : Upserted) (e : Nat × List Write) :
    Prop where
  req : ∃ admin comments, reqs e.1 = .patent (.approvePatent admin id comments)
  announces : ∃ n, Write.patent (.insertEvent (PatentService.eventRow id n (.upserted u))) ∈ e.2

/-- `d₁` is what the approve of `row` has left behind, with its event `u`; since then `later` has
    led to `d`. -/
structure Kept (d₁ : Db) (later : List (Nat × List Write)) (d : Db) (row : Patent) (u : Upserted) :
    Prop where
  latest : latestUpserted d row.id = some u
  credits : d.creditsOf row.id = d₁.creditsOf row.id
  shown : (∀ e ∈ later, ∀ w ∈ e.2, Spares d₁ row.id w) → SameShown d₁ d row.id
  mirrors : Mirrors d₁ row u
  referential : Referential d₁

/-- The log since the approve of `row`. -/
def Tracked (M : Machine Db Ext Write PatentService.Row PatentService.Oracle PatentService.Upload
    Loc) (reqs : Nat → Request) (d₀ d : Db) (log : List (Nat × List Write)) (row : Patent) : Prop :=
  ∃ before e later u, log = before ++ e :: later ∧ Approves reqs row.id u e ∧
    Kept (M.replay d₀ (before ++ [e])) later d row u

/-- A reference transaction spares an event, or is one of those that change what is shown. -/
theorem Kept.reference {r : ReferenceRequest} {ws : List Write} (h : Kept d₁ later d row u)
    (href : Referential d) (htx : ReferenceTx r d ws) :
    Kept d₁ (later ++ [(p, ws)]) (Catalogue.after d ws) row u := by
  obtain ⟨-, -, -, hcredits, houtbox⟩ := htx.keeps
  have hevents : eventsOf (Catalogue.after d ws) row.id = eventsOf d row.id :=
    PatentService.eventsOf_congr houtbox
  have hsame : (Catalogue.after d ws).creditsOf row.id = d.creditsOf row.id := by
    rw [Db.creditsOf, hcredits]
    rfl
  refine ⟨?_, hsame.trans h.credits, fun hspares => ?_, h.mirrors, h.referential⟩
  · rw [latestUpserted, hevents]
    exact h.latest
  · have hshown := h.shown fun e he => hspares e (List.mem_append_left _ he)
    refine hshown.reference h.credits href htx ?_
    exact hspares (p, ws) (List.mem_append_right _ List.mem_cons_self)

/-- A transaction of a patent request that is about another patent. -/
theorem Kept.other {ws : List PatentService.Write} (h : Kept d₁ later d row u)
    (hevents : eventsOf (PatentService.after d ws) row.id = eventsOf d row.id)
    (hcategories : (PatentService.after d ws).categoryLinksOf row.id = d.categoryLinksOf row.id)
    (hcredits : (PatentService.after d ws).creditsOf row.id = d.creditsOf row.id) :
    Kept d₁ (later ++ [(p, ws.map .patent)]) (PatentService.after d ws) row u := by
  have href := sameReference_after ws d
  refine ⟨?_, hcredits.trans h.credits, fun hspares => ?_, h.mirrors, h.referential⟩
  · rw [latestUpserted, hevents]
    exact h.latest
  · have hshown := h.shown fun e he => hspares e (List.mem_append_left _ he)
    refine ⟨hcategories.trans hshown.links, fun l hl => ?_, fun l hl => ?_⟩
    · rw [shownCategory, href.categories]
      exact hshown.categories l hl
    · rw [shownInventor, Db.credited, href.inventors]
      exact hshown.inventors l hl

/-- An approve starts the record of its patent. -/
theorem Kept.approve {J : Nat → PatentService.Loc → Patent → Prop}
    {reqs : Nat → PatentService.Request} {log : List (Nat × List PatentService.Write)}
    {ws : List PatentService.Write} {admin : Caller} {comments : Option String}
    (hreq : reqs p = .approvePatent admin row.id comments) (htx : PatentTx J reqs p d log ws)
    (hlinks : PatentService.LinkTx (reqs p) d ws) (hrecord : RecordTx (reqs p) d ws)
    (hrow : (PatentService.after d ws).patents.get? row.id = some row)
    (href : Referential (PatentService.after d ws)) :
    ∃ u, (∃ n, PatentService.Write.insertEvent
        (PatentService.eventRow row.id n (.upserted u)) ∈ ws) ∧
      Kept (PatentService.after d ws) [] (PatentService.after d ws) row u := by
  have hreviews : PatentService.Reviews (reqs p) .approve admin row.id comments := by
    rw [hreq]
    exact .approve
  obtain ⟨hcategories, hcredits⟩ := (htx.links hlinks row.id).review_kept hreviews
  obtain ⟨old, now, review, n, eventId, at_, hlands, hnew, hws⟩ := approve_writes hreq htx hrecord
  have hpatents : (PatentService.after d ws).patents = d.patents.put
      (PatentService.transitioned .approve PatentService.stampReviewed now old) := by
    rw [hws]
    rfl
  have hsame : PatentService.transitioned .approve PatentService.stampReviewed now old = row :=
    Option.some.inj ((PatentService.get?_put_self hpatents hlands.id).symm.trans hrow)
  rw [hsame, patentVersionUpserted_eq] at hnew hws
  obtain ⟨u, hu⟩ : ∃ u, u = payload row ((d.categoryLinksOf row.id).filterMap (shownCategory d))
      ((d.creditsOf row.id).filterMap (shownInventor d)) eventId at_ := ⟨_, rfl⟩
  rw [← hu] at hnew hws
  have houtbox : (PatentService.after d ws).outbox =
      d.outbox.put (PatentService.eventRow row.id n (.upserted u)) := by
    rw [hws]
    rfl
  have hevents : PatentService.eventsOf (PatentService.after d ws) row.id =
      PatentService.eventsOf d row.id ++ [PatentService.eventRow row.id n (.upserted u)] := by
    rw [PatentService.eventsOf_insert hnew houtbox, if_pos rfl]
  refine ⟨u, ⟨n, ?_⟩, ?_, rfl, fun _ => SameShown.refl _ _, ?_, href⟩
  · rw [hws]
    exact List.mem_cons_of_mem _ (List.mem_cons_of_mem _ List.mem_cons_self)
  · rw [latestUpserted, hevents, List.filterMap_append]
    exact List.getLast?_concat
  · rw [Mirrors, patentInclude_congr (sameReference_after ws d) hcategories hcredits, hu]
    exact patentVersionUpserted_eq d row eventId at_

/-- What holds after the transactions of a log. -/
structure Faithful (M : Machine Db Ext Write PatentService.Row PatentService.Oracle
    PatentService.Upload Loc) (reqs : Nat → Request) (d₀ d : Db) (log : List (Nat × List Write)) :
    Prop where
  replay : d = M.replay d₀ log
  referential : Referential d
  tracked : ∀ row ∈ d.patents, row.status = .approved → Tracked M reqs d₀ d log row

/-- What holds of a row since its approve holds after another transaction. -/
theorem Tracked.concat {M : Machine Db Ext Write PatentService.Row PatentService.Oracle
    PatentService.Upload Loc} {ws : List Write} {d' : Db} (h : Tracked M reqs d₀ d log row)
    (hkept : ∀ {d₁ later u}, Kept d₁ later d row u → Kept d₁ (later ++ [(p, ws)]) d' row u) :
    Tracked M reqs d₀ d' (log ++ [(p, ws)]) row := by
  obtain ⟨before, e, later, u, rfl, happroves, h⟩ := h
  exact ⟨before, e, later ++ [(p, ws)], u, by simp, happroves, hkept h⟩

/-- **Step lemma.** -/
theorem Faithful.tx {ws : List Write} (h : Faithful (catalogue cfg sameName reqs) reqs d₀ d log)
    (htx : SequentialTx reqs p d log ws) :
    Faithful (catalogue cfg sameName reqs) reqs d₀ (Catalogue.after d ws) (log ++ [(p, ws)]) := by
  obtain ⟨htx, hrecord⟩ := htx
  have hreplay : Catalogue.after d ws =
      (catalogue cfg sameName reqs).replay d₀ (log ++ [(p, ws)]) := by
    rw [Machine.replay_concat, ← h.replay]
    rfl
  cases htx with
  | reference hreq htx =>
    refine ⟨hreplay, h.referential.reference htx, fun row hrow happroved => ?_⟩
    rw [htx.keeps.2.1] at hrow
    exact (h.tracked row hrow happroved).concat fun hkept => hkept.reference h.referential htx
  | @patent r ws hreq htx hlinks hrefers =>
    have hafter : Catalogue.after d (ws.map .patent) = PatentService.after d ws := List.foldl_map
    have href := h.referential.patent hrefers
    rw [hafter] at hreplay ⊢
    refine ⟨hreplay, href, fun row hrow happroved => ?_⟩
    rw [SoloTx, filterMap_patent] at hrecord
    have hfound := Table.get?_of_mem hrow
    have hstatus : ∀ {new : Patent}, (PatentService.after d ws).patents.get? row.id = some new →
        new.status = row.status :=
      fun hnew => congrArg Patent.status (Option.some.inj (hnew.symm.trans hfound))
    have hlinks' : PatentService.LinkTx (patentRequests reqs p) d ws :=
      (patentRequests_eq hreq).symm ▸ hlinks
    cases htx.effect row.id with
    | other hsubject hsame hreviews hevents =>
      have hold := hsame.symm.trans hfound
      obtain ⟨hcategories, hcredits⟩ := (htx.links hlinks' row.id).other_kept hsubject hold
      exact (h.tracked row (Table.get?_eq_some.mp hold).1 happroved).concat
        fun hkept => hkept.other hevents hcategories hcredits
    | create _ _ _ _ hnew =>
      nomatch (hstatus hnew).trans happroved
    | @update user updates links ids now patent old _ _ heditable _ hnew =>
      have hwas : old.status = .approved := (hstatus hnew).trans happroved
      rw [hwas] at heditable
      exact absurd heditable (by decide)
    | submit _ _ _ hnew => nomatch (hstatus hnew).trans happroved
    | @review action admin comments before now record n now' o m old hdecides _ _ _ _ _ hnew =>
      generalize hr : patentRequests reqs p = r' at hdecides
      cases hdecides with
      | decline => nomatch (hstatus hnew).trans happroved
      | approve =>
        obtain ⟨u, ⟨n, hevent⟩, hkept⟩ := Kept.approve hr htx hlinks' hrecord hfound href
        refine ⟨log, _, [], u, rfl, ⟨⟨admin, comments, ?_⟩, n, List.mem_map_of_mem hevent⟩,
          hreplay ▸ hkept⟩
        rw [hreq, ← hr, patentRequests_eq hreq]
    | delete _ _ _ hgone => nomatch hgone.symm.trans hfound

/-! ## Every run -/

variable {users : Table User User.id} {σ : State Db Ext Write Loc}

/-- In every run of requests one after another, events say what was committed. -/
theorem faithful_of_run
    (hrun : Run (catalogue cfg sameName reqs).step (alone AtRest) (init reqs users) σ) :
    Faithful (catalogue cfg sameName reqs) reqs (init reqs users).base.db σ.base.db σ.base.log := by
  obtain ⟨hserial, hreplay⟩ := sequential_of_run hrun
  rw [hreplay]
  refine hserial.invariant ⟨rfl, ⟨?_, ?_⟩, ?_⟩ fun h htx => h.tx htx
  · exact fun l hl => absurd hl (Table.not_mem_empty l)
  · exact fun l hl => absurd hl (Table.not_mem_empty l)
  · exact fun row hrow => absurd hrow (Table.not_mem_empty row)

/-- **Fat events are true snapshots.**  Where requests run one after another, the latest event of an
    approved patent is that of its approve, and it shows the current record but for the names of
    categories and inventors; all of it, where no later transaction has changed what it shows. -/
theorem fatEvents_of_run
    (hrun : Run (catalogue cfg sameName reqs).step (alone AtRest) (init reqs users) σ) :
    ∀ row ∈ σ.base.db.patents, row.status = .approved →
      ∃ before e later u, σ.base.log = before ++ e :: later ∧ Approves reqs row.id u e ∧
        latestUpserted σ.base.db row.id = some u ∧ MirrorsIds σ.base.db row u ∧
        ((∀ e' ∈ later, ∀ w ∈ e'.2, Spares ((catalogue cfg sameName reqs).replay
          (init reqs users).base.db (before ++ [e])) row.id w) → Mirrors σ.base.db row u) := by
  intro row hrow happroved
  have hfaithful := faithful_of_run hrun
  obtain ⟨before, e, later, u, hlog, happroves, hkept⟩ := hfaithful.tracked row hrow happroved
  refine ⟨before, e, later, u, hlog, happroves, hkept.latest, ?_, fun hspares => ?_⟩
  · exact hkept.mirrors.ids hkept.credits hkept.referential hfaithful.referential
  · exact hkept.mirrors.of_sameShown hkept.credits (hkept.shown hspares)

end Tracked

/-! ## A category that is renamed -/

instance : DecidablePred AtRest
  | .patent .start | .patent (.done _) | .reference .start | .reference (.done _) | .failed =>
    isTrue trivial
  | .patent (.create _) | .patent (.update _) | .patent (.submit _) | .patent (.review _)
  | .patent (.delete _) | .patent (.discard _ _) | .patent (.throwing _)
  | .reference .accountLinked | .reference .insertInventor | .reference .emailClash
  | .reference .updateInventor | .reference .countCredits | .reference .deleteInventor
  | .reference .insertCategory | .reference .nameClash | .reference .updateCategory
  | .reference .deleteCategory => isFalse id

instance (d : Db) (row : Patent) (u : Upserted) : Decidable (Mirrors d row u) :=
  inferInstanceAs (Decidable (_ = _))

/-- A patent is tagged, submitted and approved; then an administrator sends the request `last`. -/
def taggedThen (last : ReferenceRequest) : Nat → Request
  | 0 => .patent (.requestUpload PatentService.ada "a.pdf" "application/pdf")
  | 1 => .reference (.createCategory PatentService.root "Kitchen")
  | 2 => .patent (.createPatent PatentService.ada
      { PatentService.firstInput with categoryIds := some ["1"] })
  | 3 => .patent (.submitForReview PatentService.ada 1)
  | 4 => .patent (.approvePatent PatentService.root 1 none)
  | _ => .reference last

/-- The category gets another name. -/
def taggedPatent : Nat → Request := taggedThen (.updateCategory PatentService.root 1 "Cooking")

/-- There is one category more. -/
def taggedBefore : Nat → Request := taggedThen (.createCategory PatentService.root "Garden")

/-- A category, and a patent under it that is approved. -/
def untilApproved : List (Act PatentService.Oracle PatentService.Upload) :=
  PatentService.steps 0 1 ++ [.env (.put (PatentService.keyOf "a.pdf") 10)] ++
    PatentService.steps 1 2 ++ PatentService.steps 2 10 ++ PatentService.steps 3 4 ++
    PatentService.steps 4 7

/-- Then the category gets another name. -/
def oneByOne : List (Act PatentService.Oracle PatentService.Upload) :=
  untilApproved ++ PatentService.steps 5 3

theorem oneMore_runs :
    (execOk (catalogue PatentService.pdfOnly (· == ·) taggedBefore).step (aloneBelow AtRest 6)
      (init taggedBefore PatentService.accounts)
      (untilApproved ++ PatentService.steps 5 2)).isSome = true := by
  decide

/-- The state with the new category. -/
def enlarged : State Db Ext Write Loc :=
  (execOk (catalogue PatentService.pdfOnly (· == ·) taggedBefore).step (aloneBelow AtRest 6)
    (init taggedBefore PatentService.accounts)
    (untilApproved ++ PatentService.steps 5 2)).get oneMore_runs

/-- The write changes the name of nothing. -/
def plain : Write → Bool
  | .updateCategory .. | .deleteCategory _ | .updateInventor .. => false
  | _ => true

/-- A write that renames nothing spares every event. -/
theorem spares_of_plain {d : Db} {id : Nat} {w : Write} (h : plain w = true) : Spares d id w := by
  cases w with
  | updateCategory | deleteCategory | updateInventor => cases h
  | _ => trivial

/-- The new category is written after the approve, and all of the event is still true. -/
theorem fatEvents_of_enlarged : enlarged.base.db.categories.rows.length = 2 ∧
    ∃ row ∈ enlarged.base.db.patents, row.status = .approved ∧
      ∃ before e later u, enlarged.base.log = before ++ e :: later ∧
        Approves taggedBefore row.id u e ∧ latestUpserted enlarged.base.db row.id = some u ∧
        MirrorsIds enlarged.base.db row u ∧ Mirrors enlarged.base.db row u := by
  have hrun : Run (catalogue PatentService.pdfOnly (· == ·) taggedBefore).step (alone AtRest)
      (init taggedBefore PatentService.accounts) enlarged := by
    refine alone_of_below (fun q hq => ?_) (Run.of_execOk (Option.some_get oneMore_runs).symm)
    match q with
    | q + 6 => trivial
  have hplain : ∀ e ∈ enlarged.base.log, ∀ w ∈ e.2, plain w = true := by decide
  have hfound : ∃ row ∈ enlarged.base.db.patents.rows, row.status = .approved := by decide
  obtain ⟨row, hrow, happroved⟩ := hfound
  obtain ⟨before, e, later, u, hlog, happroves, hlatest, hids, hall⟩ :=
    fatEvents_of_run hrun row hrow happroved
  refine ⟨by decide, row, hrow, happroved, before, e, later, u, hlog, happroves, hlatest, hids,
    hall fun e' he' w hw => spares_of_plain (hplain e' ?_ w hw)⟩
  rw [hlog]
  exact List.mem_append_right _ (List.mem_cons_of_mem _ he')

theorem oneByOne_runs :
    (execOk (catalogue PatentService.pdfOnly (· == ·) taggedPatent).step (aloneBelow AtRest 6)
      (init taggedPatent PatentService.accounts) oneByOne).isSome = true := by
  decide

/-- The state after all of them. -/
def relabelled : State Db Ext Write Loc :=
  (execOk (catalogue PatentService.pdfOnly (· == ·) taggedPatent).step (aloneBelow AtRest 6)
    (init taggedPatent PatentService.accounts) oneByOne).get oneByOne_runs

theorem run_relabelled :
    Run (catalogue PatentService.pdfOnly (· == ·) taggedPatent).step (alone AtRest)
      (init taggedPatent PatentService.accounts) relabelled := by
  refine alone_of_below (fun q hq => ?_) (Run.of_execOk (Option.some_get oneByOne_runs).symm)
  match q with
  | q + 6 => trivial

/-- The event still says "Kitchen". -/
theorem not_mirrored :
    ¬ ∀ (cfg : Storage.Config) (sameName : String → String → Bool) (reqs : Nat → Request)
      (users : Table User User.id) (σ : State Db Ext Write Loc),
      Run (catalogue cfg sameName reqs).step (alone AtRest) (init reqs users) σ →
      ∀ row ∈ σ.base.db.patents, row.status = .approved →
        ∃ u, latestUpserted σ.base.db row.id = some u ∧ Mirrors σ.base.db row u := by
  intro hall
  have hmirrored := hall PatentService.pdfOnly (· == ·) taggedPatent PatentService.accounts
    relabelled run_relabelled
  have hstale : ∃ row ∈ relabelled.base.db.patents.rows, row.status = .approved ∧
      ((latestUpserted relabelled.base.db row.id).all
        fun u => !decide (Mirrors relabelled.base.db row u)) = true := by
    decide
  obtain ⟨row, hrow, happroved, hstale⟩ := hstale
  obtain ⟨u, hlatest, hmirrors⟩ := hmirrored row hrow happroved
  rw [hlatest] at hstale
  simp [hmirrors] at hstale

end SmartPatents.FatEvents
