/-
  Does every object that was once a document still belong to a patent?

  An edit that replaces the document of a patent discards the old one after its commit, and a delete
  discards the one of its draft.  Both discard the key that they read before the transaction; the
  key that their write takes off the row may be another one by then, and nobody discards that.

  Where every write takes off the key that its request has read (`KnowsKey`), the books balance: an
  attached object is on a row, or a request is about to discard it (`Accounted`).  So no document is
  orphaned once all requests have ended (`noOrphans_of_run`).

  `EverAttached` looks at the log, so an object counts from the commit that put its key on a row.
  An object that was uploaded and never attached is none of this; `storageService.js` accepts it
  and leaves it to a sweeper.

  `Accounted` is the invariant, and `doomed` names the key that a request is about to discard.
  The result is about the states in which no request is in progress, as an object whose deletion
  is on the way is still in the bucket.
-/
import SmartPatents.DocumentKeys
import SmartPatents.PatentMoves

namespace SmartPatents.OrphanedDocuments

open ReadCommitted Runs Access Lifecycle Relations Storage PatentEvents PatentService
open DocumentStore (Stored copied copyOf replacedKey)

/-! ## Orphans -/

/-- A client uploads to each issued key at most once, and before a request has supplied the key. -/
def uploadOnce (u : Upload) (x : Ext) : Option Ext :=
  match u with
  | .put key size =>
    if key ∈ x.issued.map Prod.snd ∧ key ∉ x.uploaded ∧ key ∉ x.handed then
      some { x with objects := x.objects.put ⟨key, size⟩, uploaded := key :: x.uploaded }
    else none

/-- The document key of the row that a write leaves behind. -/
def keyWritten (w : Write) : Option String := w.patent?.bind Patent.documentKey

/-- Some committed row has carried the key. -/
def EverAttached (log : List (Nat × List Write)) (key : String) : Prop :=
  ∃ e ∈ log, ∃ w ∈ e.2, keyWritten w = some key

/-- A row names the key. -/
def Carried (d : Db) (key : String) : Prop := ∃ row ∈ d.patents, row.documentKey = some key

/-- Every stored object that has ever been a patent's document is the document of a patent. -/
def NoOrphans (σ : State Db Ext Write Loc) : Prop :=
  ∀ key, EverAttached σ.base.log key → Stored σ.base.world key → Carried σ.base.db key

/-- The request has not begun, or has ended. -/
def AtRest : Loc → Prop
  | .start | .done _ => True
  | _ => False

/-- No request is in progress. -/
def Quiescent (σ : State Db Ext Write Loc) : Prop := ∀ p, AtRest (σ.loc p)

/-- The key that a request is about to discard. -/
def doomed : Loc → Option String
  | .discard key _ => key
  | _ => none

/-- The store carries out every delete, and a request that has committed comes to its delete. -/
def DeletesSucceed (σ : State Db Ext Write Loc) : Act Oracle Upload → Prop
  | .run _ o => o.deleted = true
  | .fail p => doomed (σ.loc p) = none
  | .env _ => True

/-- The key that the guarded write of a request takes off the row it lands on. -/
def displaced (r : Request) (row : Patent) : Option String :=
  match r with
  | .updatePatent _ _ updates =>
    if updates.documentKey.any fun k => some k != row.documentKey then row.documentKey else none
  | .deletePatent _ _ => row.documentKey
  | _ => none

/-- The key that the next statement of a request takes off a row. -/
def displacing (r : Request) (l : Loc) (d : Db) : Option String :=
  match r, l with
  | .updatePatent _ id _, .update (.write _ _ _) =>
    ((d.patents.get? id).filter fun row => row.status ∈ EDITABLE_STATUSES).bind (displaced r)
  | .deletePatent _ id, .delete (.write _) =>
    ((d.patents.get? id).filter fun row => row.status == .draft).bind (displaced r)
  | _, _ => none

/-- A request that takes a key off a row has read this key, and is going to discard it. -/
def KnowsKey (reqs : Nat → Request) (σ : State Db Ext Write Loc) : Act Oracle Upload → Prop
  | .run p _ => displacing (reqs p) (σ.loc p) σ.base.db = none ∨
      displacing (reqs p) (σ.loc p) σ.base.db = copied (reqs p) (σ.loc p)
  | _ => True

/-! ## The books -/

/-- The same for the row that a guarded write lands on. -/
def Knows (reqs : Nat → Request) (p : Nat) (l : Loc) (row : Patent) : Prop :=
  displaced (reqs p) row = none ∨ displaced (reqs p) row = copied (reqs p) l

/-- The request has supplied its key. -/
def Handing : Loc → Prop
  | .create _ | .update _ => True
  | _ => False

/-- Every object that was once attached is carried by a row, or its deletion is on the way. -/
structure Accounted (reqs : Nat → Request) (σ : State Db Ext Write Loc) : Prop where
  issued : ∀ e ∈ σ.base.world.issued, e.2 ≠ ""
  named : ∀ obj ∈ σ.base.world.objects, obj.key ≠ ""
  supplied : ∀ p key, Handing (σ.loc p) → (reqs p).documentKey = some key →
    key ∈ σ.base.world.handed
  handed : ∀ key, EverAttached σ.base.log key → key ∈ σ.base.world.handed
  accounted : ∀ key, EverAttached σ.base.log key → Stored σ.base.world key →
    Carried σ.base.db key ∨ ∃ p, doomed (σ.loc p) = some key
  /-- A delete is going to discard the key of the row it has deleted. -/
  deletes : ∀ p patent old, σ.loc p = .delete (.commit patent) →
    (p, Write.deletePatent old) ∈ σ.pend → ∀ key, old.documentKey = some key →
      patent.documentKey = some key

section Logs

variable {J : Nat → Loc → Patent → Prop} {reqs : Nat → Request} {p : Nat} {d : Db}
  {log : List (Nat × List Write)} {ws : List Write} {key : String}

/-- A write that puts a document into a row. -/
theorem keyWritten_eq_some {w : Write} :
    keyWritten w = some key ↔ ∃ new, w.patent? = some new ∧ new.documentKey = some key :=
  Option.bind_eq_some_iff

/-- A key has been attached before, or by the last commit. -/
theorem everAttached_concat : EverAttached (log ++ [(p, ws)]) key ↔
    EverAttached log key ∨ ∃ w ∈ ws, keyWritten w = some key := by
  constructor
  · rintro ⟨e, he, hw⟩
    rcases List.mem_append.mp he with he | he
    · exact Or.inl ⟨e, he, hw⟩
    · rw [List.mem_singleton.mp he] at hw
      exact Or.inr hw
  · rintro (⟨e, he, hw⟩ | hw)
    · exact ⟨e, List.mem_append_left _ he, hw⟩
    · exact ⟨(p, ws), List.mem_append_right _ List.mem_cons_self, hw⟩

/-- A row carries a key that the log has attached. -/
theorem everAttached_of_serial {M : Machine Db Ext Write Row Oracle Upload Loc}
    (happly : M.apply = apply) {d₀ : Db} (hd₀ : ∀ row, row ∉ d₀.patents)
    (hserial : M.Serial (PatentTx J reqs) d₀ log) {row : Patent}
    (hrow : row ∈ (M.replay d₀ log).patents) (hkey : row.documentKey = some key) :
    EverAttached log key := by
  refine hserial.invariant (P := fun d log => ∀ row ∈ d.patents, ∀ key,
    row.documentKey = some key → EverAttached log key)
    (fun row hrow => absurd hrow (hd₀ row)) (fun {d' log p ws} hP _ row hrow key hkey => ?_)
    row hrow key hkey
  have hrow : row ∈ (after d' ws).patents := by rwa [Machine.applyAll, happly] at hrow
  rw [everAttached_concat]
  rcases patent_back ws hrow with hrow | ⟨w, hw, hnew⟩
  · exact Or.inl (hP row hrow key hkey)
  · exact Or.inr ⟨w, hw, keyWritten_eq_some.mpr ⟨row, hnew, hkey⟩⟩

/-- The row that a transaction writes is there after it; its key was there before, or is the one
    that the request supplies. -/
theorem written_of_tx (htx : PatentTx J reqs p d log ws) {w : Write} {new : Patent} (hw : w ∈ ws)
    (hnew : w.patent? = some new) : new ∈ (after d ws).patents ∧
      ∀ key, new.documentKey = some key → (reqs p).documentKey = some key ∨ Carried d key := by
  have hlink : ∀ {v : Write}, v.patent? = some new → v.linkOf = none := by
    intro v hv
    cases v <;> first | rfl | nomatch hv
  have hput : ∀ {t : Table Patent Patent.id}, (after d ws).patents = t.put new →
      new ∈ (after d ws).patents := fun h => h ▸ Table.mem_put.mpr (Or.inl rfl)
  cases htx with
  | create hreq _ _ _ hls =>
    obtain rfl := eq_of_mem_links hls hw (hlink hnew)
    obtain rfl := Option.some.inj hnew
    exact ⟨hput (tables_of_insert hls).1, fun key hkey => Or.inl (hreq ▸ hkey)⟩
  | @update user id updates links ids now ls patent old hreq hlands _ _ hls =>
    obtain rfl := eq_of_mem_links hls hw (hlink hnew)
    obtain rfl := Option.some.inj hnew
    refine ⟨hput (tables_of_update hls).1, fun key hkey => ?_⟩
    rw [hreq]
    rcases Option.or_eq_some_iff.mp hkey with hsupplied | ⟨-, hold⟩
    · exact Or.inl hsupplied
    · exact Or.inr ⟨old, hlands.mem, hold⟩
  | @submit user id old now hreq hlands =>
    obtain rfl := List.mem_singleton.mp hw
    obtain rfl := Option.some.inj hnew
    exact ⟨hput rfl, fun key hkey => Or.inr ⟨old, hlands.mem, hkey⟩⟩
  | @review action admin id comments before old now record n now' o events hdec _ _ hevents =>
    rcases mem_decision hevents hw with rfl | rfl | ⟨e, rfl, -⟩
    · obtain rfl := Option.some.inj hnew
      refine ⟨?_, fun key hkey => Or.inr ⟨old, hdec.lands.mem, hkey⟩⟩
      refine patent_forth _ (d := apply d (.updatePatent old _))
        (Table.mem_put.mpr (Or.inl rfl)) fun v hv => ?_
      rcases List.mem_cons.mp hv with rfl | hv
      · nofun
      · obtain ⟨event, m, -, rfl, -⟩ := event_of_announces hevents hv
        nofun
    · nomatch hnew
    · nomatch hnew
  | delete =>
    obtain rfl := List.mem_singleton.mp hw
    nomatch hnew

/-- A key stays on a row, unless an edit replaces it there or a delete takes the row. -/
theorem displaces_of_tx (htx : PatentTx J reqs p d log ws) {row : Patent} (hrow : row ∈ d.patents)
    (hkey : row.documentKey = some key) : Carried (after d ws) key ∨
      (∃ user id updates new ls, reqs p = .updatePatent user id updates ∧
        ws = .updatePatent row new :: ls ∧ new.documentKey ≠ some key) ∨
      ∃ user id, reqs p = .deletePatent user id ∧ ws = [.deletePatent row] := by
  have hkept : (∀ w ∈ ws, w.touches ≠ some row.id) → Carried (after d ws) key :=
    fun h => ⟨row, patent_forth ws hrow h, hkey⟩
  have hsame : ∀ {old new : Patent}, Write.updatePatent old new ∈ ws → old ∈ d.patents →
      new.id = old.id → (new.documentKey = old.documentKey ∨ old ≠ row) →
      (∀ w ∈ ws, ∀ id, w.touches = some id → id = old.id) → Carried (after d ws) key := by
    intro old new hw hold hid hcase htouches
    by_cases hne : old = row
    · subst hne
      have hnew := hcase.resolve_right fun h => h rfl
      exact ⟨new, (written_of_tx htx hw rfl).1, hnew.trans hkey⟩
    · refine hkept fun w hw htouch => hne ?_
      exact Table.eq_of_key hold hrow (htouches w hw _ htouch).symm
  cases htx with
  | @create user input id now ls hreq hid _ _ hls =>
    refine Or.inl (hkept fun w hw htouch => ?_)
    have hlink : w.linkOf = none := by cases w <;> first | rfl | nomatch htouch
    obtain rfl := eq_of_mem_links hls hw hlink
    exact hid row hrow (Option.some.inj htouch).symm
  | @update user id updates links ids now ls patent old hreq hlands _ _ hls =>
    by_cases hold : old = row ∧ (edited updates patent.toPatent old now).documentKey ≠ some key
    · obtain ⟨rfl, hnew⟩ := hold
      exact Or.inr (Or.inl ⟨user, id, updates, _, ls, hreq, rfl, hnew⟩)
    · refine Or.inl (hsame List.mem_cons_self
        hlands.mem rfl ?_ fun w hw id htouch => ?_)
      · by_cases hne : old = row
        · have hnew := Classical.not_not.mp fun h => hold ⟨hne, h⟩
          exact Or.inl (hnew.trans (hne ▸ hkey.symm))
        · exact Or.inr hne
      · have hlink : w.linkOf = none := by cases w <;> first | rfl | nomatch htouch
        obtain rfl := eq_of_mem_links hls hw hlink
        exact (Option.some.inj htouch).symm
  | @submit user id old now hreq hlands =>
    refine Or.inl (hsame List.mem_cons_self hlands.mem rfl (Or.inl rfl) fun w hw id htouch => ?_)
    obtain rfl := List.mem_singleton.mp hw
    exact (Option.some.inj htouch).symm
  | @review action admin id comments before old now record n now' o events hdec _ _ hevents =>
    refine Or.inl (hsame List.mem_cons_self hdec.lands.mem rfl (Or.inl rfl)
      fun w hw id htouch => ?_)
    rcases mem_decision hevents hw with rfl | rfl | ⟨e, rfl, -⟩
    · exact (Option.some.inj htouch).symm
    · nomatch htouch
    · nomatch htouch
  | @delete user id old hreq hlands =>
    by_cases hold : old = row
    · exact Or.inr (Or.inr ⟨user, id, hreq, hold ▸ rfl⟩)
    · refine Or.inl (hkept fun w hw htouch => hold ?_)
      obtain rfl := List.mem_singleton.mp hw
      exact Table.eq_of_key hlands.mem hrow (Option.some.inj htouch)

end Logs

section Steps

variable {cfg : Config} {reqs : Nat → Request} {σ σ' : State Db Ext Write Loc} {p : Nat}
  {l l' : Loc} {r : Request} {b : Base Db Ext Write} {d : Db} {x x' : Ext} {o : Oracle}
  {res : Outcome} {ws : List Write} {key : String} {init : State Db Ext Write Loc}

/-- An edit that commits is about to discard the key that it has taken off its row. -/
theorem doomed_of_editing {user : Caller} {id : Nat} {updates : Updates}
    {patent record : PatentRecord} {row new : Patent} {ls : List Write}
    (hreq : reqs p = .updatePatent user id updates)
    (hat : Editing (Knows reqs) reqs p b ws patent) (hws : ws = .updatePatent row new :: ls)
    (hkey : row.documentKey = some key) (hnew : new.documentKey ≠ some key) :
    doomed (if replacingDocument updates patent.toPatent then
      .discard patent.documentKey (.patent record) else .done (.patent record)) = some key := by
  obtain ⟨user', id', updates', links, ids, old, now, ls', hreq', hlands, hknows, -, -, rfl⟩ := hat
  obtain ⟨rfl, rfl, rfl⟩ := Request.updatePatent.inj (hreq'.symm.trans hreq)
  obtain ⟨rfl, rfl⟩ := Write.updatePatent.inj (List.cons.inj hws).1
  have hdisplaced : displaced (reqs p) old = some key := by
    rw [hreq']
    cases hsupplied : updates'.documentKey with
    | none =>
      refine absurd ?_ hnew
      simp only [edited, scalar, hsupplied, Option.none_or]
      exact hkey
    | some k =>
      have hne : k ≠ key := by
        rintro rfl
        refine hnew ?_
        simp only [edited, scalar, hsupplied, Option.some_or]
      simp [displaced, hsupplied, hkey, hne]
  have hcopied : replacedKey updates' patent = some key := by
    rcases hknows with hnone | hsame
    · cases hnone.symm.trans hdisplaced
    · rw [hdisplaced, hreq'] at hsame
      exact hsame.symm
  unfold replacedKey at hcopied
  split at hcopied
  · rename_i hreplacing
    rw [if_pos hreplacing]
    exact hcopied
  · cases hcopied

/-- **A commit discards next what it has taken off a row.** -/
theorem doomed_of_commit (hcode : code cfg reqs p l = .commit l')
    (hat : At (Knows reqs) reqs p l b ws) (htx : PatentTx (Knows reqs) reqs p b.db b.log ws)
    (hdeletes : ∀ patent old, l = .delete (.commit patent) → Write.deletePatent old ∈ ws →
      ∀ key, old.documentKey = some key → patent.documentKey = some key)
    (h : Carried b.db key) : Carried (after b.db ws) key ∨ doomed l' = some key := by
  obtain ⟨row, hrow, hkey⟩ := h
  rcases displaces_of_tx htx hrow hkey with h | ⟨user, id, updates, new, ls, hreq, hws, hnew⟩ |
    ⟨user, id, hreq, hws⟩
  · exact Or.inl h
  · refine Or.inr ?_
    cases executes_of_code hcode nofun with
    | @update user' id' updates' u hreq' hi =>
      obtain ⟨rfl, rfl, rfl⟩ := Request.updatePatent.inj (hreq'.symm.trans hreq)
      cases u with
      | commit patent record =>
        obtain rfl := Instr.commit.inj hi
        exact doomed_of_editing hreq hat hws hkey hnew
      | _ => nomatch hi
    | create hreq' => nomatch hreq'.symm.trans hreq
    | submit hreq' => nomatch hreq'.symm.trans hreq
    | review hreq' =>
      rw [hreq] at hreq'
      nomatch hreq'
    | delete hreq' => nomatch hreq'.symm.trans hreq
    | start hi => nomatch hi
    | discard hi => nomatch hi
    | throwing hi => nomatch hi
  · refine Or.inr ?_
    cases executes_of_code hcode nofun with
    | @delete user' id' c hreq' hi =>
      cases c with
      | commit patent =>
        obtain rfl := Instr.commit.inj hi
        exact hdeletes patent row rfl (hws ▸ List.mem_cons_self) key hkey
      | _ => nomatch hi
    | create hreq' => nomatch hreq'.symm.trans hreq
    | update hreq' => nomatch hreq'.symm.trans hreq
    | submit hreq' => nomatch hreq'.symm.trans hreq
    | review hreq' =>
      rw [hreq] at hreq'
      nomatch hreq'
    | start hi => nomatch hi
    | discard hi => nomatch hi
    | throwing hi => nomatch hi

/-- A key is handed on no later than its row is written. -/
theorem handing_move (hmove : Move r d x o l res) (hkey : r.documentKey = some key)
    (h : Handing l → key ∈ x.handed) : Handing res.2.2 → key ∈ res.2.1.handed := by
  cases hmove with
  | createStart hreq =>
    subst hreq
    obtain rfl := Option.some.inj hkey
    exact fun _ => List.mem_cons_self
  | @updateStart user id updates patent hreq =>
    subst hreq
    have hkey : updates.documentKey = some key := hkey
    exact fun _ => List.mem_append_left _ (by simp [hkey])
  | discard => exact fun hw => hw.elim
  | throws => exact fun hw => hw.elim
  | _ => first | exact fun _ => h trivial | exact fun hw => hw.elim

/-- Only the guarded DELETE leads to the commit of a delete. -/
theorem delete_move (hmove : Move r d x o l res) {patent : PatentRecord}
    (h : res.2.2 = .delete (.commit patent)) : ∃ user id row, r = .deletePatent user id ∧
      l = .delete (.write patent) ∧ Lands d id [.draft] row ∧ res.1 = [.deletePatent row] := by
  have hinventors : ∀ {record links}, thenInventors record links ≠ .delete (.commit patent) := by
    intro record links
    cases links <;> nofun
  cases hmove with
  | @deleteWrite user id patent' row hreq hlands =>
    obtain rfl := DeleteLoc.commit.inj (Loc.delete.inj h)
    exact ⟨user, id, row, hreq, rfl, hlands, rfl⟩
  | @updateWrite user id updates record links ids =>
    cases ids with
    | none => exact absurd h hinventors
    | some ids => nomatch h
  | updateLinkCategories => exact absurd h hinventors
  | _ => nomatch h

/-- A discard removes the object. -/
theorem not_stored_of_discard {f : Oracle → Db → Ext → Outcome}
    (hcode : code cfg reqs p l = .auto f ∨ code cfg reqs p l = .stmt f)
    (hdeleted : o.deleted = true) (hnamed : ∀ obj ∈ x.objects, obj.key ≠ "")
    (hl : doomed l = some key) :
    ¬ Stored (f o d x).2.1 key := by
  cases l with
  | discard k reply =>
    obtain rfl : k = some key := hl
    rcases hcode with hcode | hcode
    · obtain rfl := Instr.auto.inj hcode
      rintro ⟨obj, hobj, rfl⟩
      have hobj : obj ∈ deleteObject x.objects obj.key o.deleted := hobj
      unfold deleteObject at hobj
      split at hobj
      · exact (Table.mem_erase.mp hobj).2 rfl
      · rename_i hkept
        exact hkept ⟨hnamed obj hobj, hdeleted⟩
    · nomatch hcode
  | _ => nomatch hl

/-- No key is empty. -/
theorem buildObjectKey_ne (userId : Nat) (uuid filename : String) :
    buildObjectKey userId uuid filename ≠ "" := by
  intro h
  have hchars := congrArg String.toList h
  simp [buildObjectKey, keyPrefix, String.toList_append] at hchars

/-- A request about to commit is not yet deleting an object. -/
theorem not_doomed_of_commit (hcode : code cfg reqs p l = .commit l') (key : String) :
    doomed l ≠ some key := by
  cases l with
  | discard k reply => nomatch hcode
  | _ => nofun

/-- A request about to commit a document has handed its key on. -/
theorem handing_of_commit (hcode : code cfg reqs p l = .commit l')
    (hkey : (reqs p).documentKey = some key) : Handing l := by
  cases executes_of_code hcode nofun with
  | create => trivial
  | update => trivial
  | submit hreq =>
    rw [hreq] at hkey
    nomatch hkey
  | review hreq =>
    generalize reqs p = r at hreq hkey
    cases hreq <;> nomatch hkey
  | delete hreq =>
    rw [hreq] at hkey
    nomatch hkey
  | start hi => nomatch hi
  | discard hi => nomatch hi
  | throwing hi => nomatch hi

/-- What a statement does to the store: it only removes objects. -/
theorem Accounted.store (h : Accounted reqs σ) (hmove : Move r d σ.base.world o l res) :
    (∀ e ∈ res.2.1.issued, e.2 ≠ "") ∧ (∀ obj ∈ res.2.1.objects, obj ∈ σ.base.world.objects) ∧
      ∀ key ∈ σ.base.world.handed, key ∈ res.2.1.handed := by
  rcases hmove.tamed with htamed | ⟨user, filename, contentType, -, hx⟩
  · exact ⟨fun e he => h.issued e (htamed.issued ▸ he), htamed.objects, htamed.handed⟩
  · rw [hx]
    refine ⟨fun e he => ?_, fun _ hobj => hobj, fun _ hkey => hkey⟩
    rcases List.mem_cons.mp he with rfl | he
    · exact buildObjectKey_ne _ _ _
    · exact h.issued e he

/-- The guarded DELETE takes the key off its row that the request has read. -/
theorem deletes_move
    (hmove : Move (reqs p) (after σ.base.db (own p σ.pend)) x o (σ.loc p) (ws, x', l'))
    {patent : PatentRecord} {old : Patent} (hl' : l' = .delete (.commit patent))
    (hat : At (Knows reqs) reqs p (σ.loc p) σ.base (own p σ.pend))
    (hok : KnowsKey reqs σ (.run p o)) (hw : Write.deletePatent old ∈ own p σ.pend ++ ws) :
    ∀ key, old.documentKey = some key → patent.documentKey = some key := by
  intro key hkey
  obtain ⟨user, id, row, hreq, hl, hlands, hws⟩ := delete_move hmove hl'
  rw [hl] at hat
  have hidle : own p σ.pend = [] := hat
  have hws : ws = [.deletePatent row] := hws
  rw [hidle, hws] at hw
  obtain rfl := Write.deletePatent.inj (List.mem_singleton.mp hw)
  rw [hidle] at hlands
  have hget : σ.base.db.patents.get? id = some old := hlands.get?
  have hdraft : old.status = .draft := by simpa using hlands.status
  have hdisplacing : displacing (reqs p) (σ.loc p) σ.base.db = some key := by
    rw [hl, hreq]
    simp [displacing, hget, Option.filter_some, hdraft, displaced, hkey]
  rcases hok with hnone | hsame
  · cases hnone.symm.trans hdisplacing
  · rw [hdisplacing, hl, hreq] at hsame
    exact hsame.symm

/-- **Statements keep the books.** -/
theorem Accounted.statement {l' : Loc} (h : Accounted reqs σ)
    (hmove : Move (reqs p) (after σ.base.db (own p σ.pend)) σ.base.world o (σ.loc p) (ws, x', l'))
    (hat : At (Knows reqs) reqs p (σ.loc p) σ.base (own p σ.pend))
    (hgone : ∀ key, doomed (σ.loc p) = some key → ¬ Stored x' key)
    (hok : KnowsKey reqs σ (.run p o)) :
    Accounted reqs
      { base := { σ.base with world := x' }
        pend := σ.pend ++ ws.map (p, ·)
        loc := goto σ.loc p l' } := by
  obtain ⟨hissued, hobjects, hhanded⟩ := h.store hmove
  have hstored : ∀ key, Stored x' key → Stored σ.base.world key :=
    fun key ⟨obj, hobj, hkey⟩ => ⟨obj, hobjects obj hobj, hkey⟩
  refine ⟨hissued, fun obj hobj => h.named obj (hobjects obj hobj), fun q key => ?_,
    fun key hkey => hhanded key (h.handed key hkey), fun key hkey hs => ?_,
    fun q patent old => ?_⟩
  · exact forall_goto (P := fun q l => Handing l → (reqs q).documentKey = some key →
      key ∈ x'.handed) (fun hl hkey => handing_move hmove hkey (fun hl => h.supplied p key hl hkey) hl)
      (fun q _ hl hkey => hhanded key (h.supplied q key hl hkey)) q
  · rcases h.accounted key hkey (hstored key hs) with hcarried | ⟨q, hq⟩
    · exact Or.inl hcarried
    · refine Or.inr ⟨q, ?_⟩
      -- whoever was going to discard it has just done so, if it is `p`
      have hne : q ≠ p := by
        rintro rfl
        exact hgone key hq hs
      dsimp only
      rwa [goto_ne _ _ hne]
  · refine forall_goto (P := fun q (l : Loc) => l = .delete (.commit patent) →
      (q, Write.deletePatent old) ∈ σ.pend ++ ws.map (p, ·) → ∀ key, old.documentKey = some key →
        patent.documentKey = some key) (fun hl' hw => ?_) (fun q hq hl' hw key hkey => ?_) q
    · refine deletes_move hmove hl' hat hok ?_
      rcases mem_append_writes.mp hw with hw | ⟨-, hw⟩
      · exact List.mem_append_left _ (mem_own.mpr hw)
      · exact List.mem_append_right _ hw
    · rcases mem_append_writes.mp hw with hw | ⟨rfl, -⟩
      · exact h.deletes q patent old hl' hw key hkey
      · exact absurd rfl hq

/-- A process that stops handing its document over. -/
theorem Accounted.supplied_goto (h : Accounted reqs σ) (hl : ¬ Handing l') :
    ∀ q key, Handing (goto σ.loc p l' q) → (reqs q).documentKey = some key →
      key ∈ σ.base.world.handed :=
  forall_goto (P := fun q l => ∀ key, Handing l → (reqs q).documentKey = some key →
    key ∈ σ.base.world.handed) (fun _ hhanding => absurd hhanding hl) fun q _ => h.supplied q

/-- A process that ends its transaction has no DELETE to commit. -/
theorem Accounted.deletes_goto (h : Accounted reqs σ)
    (hl : ∀ patent, l' ≠ .delete (.commit patent)) :
    ∀ q patent old, goto σ.loc p l' q = .delete (.commit patent) →
      (q, Write.deletePatent old) ∈ drop p σ.pend → ∀ key, old.documentKey = some key →
        patent.documentKey = some key :=
  forall_goto (P := fun q (l : Loc) => ∀ patent old, l = .delete (.commit patent) →
    (q, Write.deletePatent old) ∈ drop p σ.pend → ∀ key, old.documentKey = some key →
      patent.documentKey = some key) (fun patent _ hl' => absurd hl' (hl patent))
    fun q _ patent old hq hw => h.deletes q patent old hq (mem_drop.mp hw).1

/-- **Commits keep the books.** -/
theorem Accounted.commit (h : Accounted reqs σ)
    (hrows : ∀ row ∈ σ.base.db.patents, ∀ key, row.documentKey = some key →
      EverAttached σ.base.log key)
    (hcode : code cfg reqs p (σ.loc p) = .commit l')
    (hat : At (Knows reqs) reqs p (σ.loc p) σ.base (own p σ.pend))
    (htx : PatentTx (Knows reqs) reqs p σ.base.db σ.base.log (own p σ.pend)) :
    Accounted reqs
      { base := (patents cfg reqs).commitBase σ.base p (own p σ.pend)
        pend := drop p σ.pend
        loc := goto σ.loc p l' } := by
  have hending : ¬ Handing l' ∧ ∀ patent, l' ≠ .delete (.commit patent) := by
    rcases next_of_code_commit hcode with ⟨reply, rfl⟩ | ⟨key, reply, rfl⟩
    · exact ⟨id, fun patent hl => by cases hl⟩
    · exact ⟨id, fun patent hl => by cases hl⟩
  have hdeletes : ∀ patent old, σ.loc p = .delete (.commit patent) →
      Write.deletePatent old ∈ own p σ.pend → ∀ key, old.documentKey = some key →
        patent.documentKey = some key :=
    fun patent old hl hw => h.deletes p patent old hl (mem_own.mp hw)
  refine ⟨h.issued, h.named, h.supplied_goto hending.1, fun key hkey => ?_,
    fun key hkey hs => ?_, h.deletes_goto hending.2⟩
  · rcases everAttached_concat.mp hkey with hkey | ⟨w, hw, hwritten⟩
    · exact h.handed key hkey
    · obtain ⟨new, hnew, hnewkey⟩ := keyWritten_eq_some.mp hwritten
      rcases (written_of_tx htx hw hnew).2 key hnewkey with hsupplied | ⟨row, hrow, hrowkey⟩
      · refine h.supplied p key ?_ hsupplied
        exact handing_of_commit hcode hsupplied
      · exact h.handed key (hrows row hrow key hrowkey)
  · rcases everAttached_concat.mp hkey with hkey | ⟨w, hw, hwritten⟩
    -- a key that loses its row here is discarded next
    · rcases h.accounted key hkey hs with hcarried | ⟨q, hq⟩
      · rcases doomed_of_commit hcode hat htx hdeletes hcarried with hcarried | hdoomed
        · exact Or.inl hcarried
        · refine Or.inr ⟨p, ?_⟩
          dsimp only
          rwa [goto_self]
      · refine Or.inr ⟨q, ?_⟩
        have hne : q ≠ p := by
          rintro rfl
          exact not_doomed_of_commit hcode key hq
        dsimp only
        rwa [goto_ne _ _ hne]
    · obtain ⟨new, hnew, hnewkey⟩ := keyWritten_eq_some.mp hwritten
      -- a key that gets its row here
      exact Or.inl ⟨new, (written_of_tx htx hw hnew).1, hnewkey⟩

/-- A request that ends without a commit has nothing to discard. -/
theorem Accounted.stop (h : Accounted reqs σ) (reply : Reply) (hidle : doomed (σ.loc p) = none) :
    Accounted reqs { σ with pend := drop p σ.pend, loc := goto σ.loc p (.done reply) } := by
  refine ⟨h.issued, h.named, h.supplied_goto id, h.handed, fun key hkey hs => ?_,
    h.deletes_goto fun patent hl => by cases hl⟩
  rcases h.accounted key hkey hs with hcarried | ⟨q, hq⟩
  · exact Or.inl hcarried
  · refine Or.inr ⟨q, ?_⟩
    have hne : q ≠ p := by
      rintro rfl
      nomatch hidle.symm.trans hq
    dsimp only
    rwa [goto_ne _ _ hne]

/-- An upload brings back no key that a patent has carried. -/
theorem Accounted.upload (h : Accounted reqs σ) {u : Upload}
    (hu : uploadOnce u σ.base.world = some x') :
    Accounted reqs { σ with base := { σ.base with world := x' } } := by
  cases u with
  | put k size =>
    simp only [uploadOnce] at hu
    split at hu
    · rename_i hallowed
      obtain rfl := Option.some.inj hu
      refine ⟨h.issued, fun obj hobj => ?_, h.supplied, h.handed, fun key hkey hs => ?_, h.deletes⟩
      · rcases Table.mem_put.mp hobj with rfl | ⟨hobj, -⟩
        · obtain ⟨e, he, rfl⟩ := List.mem_map.mp hallowed.1
          exact h.issued e he
        · exact h.named obj hobj
      · obtain ⟨obj, hobj, rfl⟩ := hs
        rcases Table.mem_put.mp hobj with rfl | ⟨hobj, -⟩
        · exact absurd (h.handed _ hkey) hallowed.2.2
        · exact h.accounted _ hkey ⟨obj, hobj, rfl⟩
    · nomatch hu

end Steps

/-! ## Every run -/

section Runs

variable {cfg : Config} {reqs : Nat → Request} {users : Table User User.id}
  {inventors : Table Inventor Inventor.id} {categories : Table Category Category.id}
  {σ σ' : State Db Ext Write Loc} {a : Act Oracle Upload}

/-- An upload draws no id. -/
theorem leavesSequences_uploadOnce : LeavesSequences uploadOnce := by
  intro u x x' hu
  cases u with
  | put key size =>
    simp only [uploadOnce] at hu
    split at hu
    · obtain rfl := Option.some.inj hu
      exact ⟨rfl, rfl, rfl⟩
    · nomatch hu

/-- The condition on edits is one on the row they land on. -/
theorem localOk_of_knowsKey (hok : KnowsKey reqs σ a) :
    Machine.localOk (Landing (Knows reqs) reqs) σ a := by
  cases a with
  | run p o =>
    intro id statuses row hguard hlands
    have hget := hlands.get?
    have hstatus := hlands.status
    have hok : displacing (reqs p) (σ.loc p) σ.base.db = none ∨
        displacing (reqs p) (σ.loc p) σ.base.db = copied (reqs p) (σ.loc p) := hok
    show displaced (reqs p) row = none ∨ displaced (reqs p) row = copied (reqs p) (σ.loc p)
    generalize reqs p = r at hguard hok ⊢
    cases r with
    | updatePatent user id' updates =>
      cases hl : σ.loc p with
      | update u =>
        rw [hl] at hguard hok
        cases u with
        | write patent links ids =>
          obtain ⟨rfl, rfl⟩ := Prod.mk.inj (Option.some.inj hguard)
          simpa [displacing, hget, Option.filter_some, hstatus] using hok
        | _ => cases hguard
      | _ =>
        rw [hl] at hguard
        cases hguard
    | deletePatent user id' => cases hguard
    | _ => exact Or.inl rfl
  | _ => trivial

theorem accounted_init : Accounted reqs (init users inventors categories) where
  issued := fun _ he => (List.not_mem_nil he).elim
  named := fun obj hobj => absurd hobj (Table.not_mem_empty obj)
  supplied := fun _ _ hl => absurd hl id
  handed := fun _ ⟨_, he, _⟩ => (List.not_mem_nil he).elim
  accounted := fun _ ⟨_, he, _⟩ => (List.not_mem_nil he).elim
  deletes := fun _ _ _ hl => by nomatch hl

/-- **Step lemma.** -/
theorem Accounted.step
    (hrun : Run (patentsOver uploadOnce cfg reqs).step
      (fun σ a => DeletesSucceed σ a ∧ KnowsKey reqs σ a) (init users inventors categories) σ)
    (h : Accounted reqs σ) (hok : DeletesSucceed σ a ∧ KnowsKey reqs σ a)
    (hs : (patentsOver uploadOnce cfg reqs).step σ a = some σ') : Accounted reqs σ' := by
  have H := (outlineOver leavesSequences_uploadOnce).sound
    (Outline.holds_init rfl rfl (inv_init users inventors categories) fun _ => rfl)
    (hrun.mono fun _ _ hok => localOk_of_knowsKey hok.2)
  cases Machine.effect_of_step _ hs with
  | @stmt p o f hcode hfree =>
    exact h.statement (move_of_code (Or.inr hcode)) (H.assertions p)
      (fun key hl => not_stored_of_discard (Or.inr hcode) hok.1 h.named hl) hok.2
  | @read p o f hcode hnone =>
    have hstep := h.statement (move_of_code (Or.inl hcode)) (H.assertions p)
      (fun key hl => not_stored_of_discard (Or.inl hcode) hok.1 h.named hl) hok.2
    have hnone : (f o (after σ.base.db (own p σ.pend)) σ.base.world).1 = [] := hnone
    simp only [hnone, List.map_nil, List.append_nil] at hstep
    exact hstep
  | @auto p o f hcode hfree hsome =>
    -- a statement of its own writes nothing
    exact absurd (auto_quiet (J := Knows reqs) hcode o _ _).none hsome
  | @commit p o l hcode =>
    obtain ⟨-, htx, -⟩ := (outline (Knows reqs) cfg reqs).commit hcode
      (localOk_of_knowsKey hok.2) H.inv (H.assertions p)
    refine h.commit (fun row hrow key hkey => ?_) hcode (H.assertions p) htx
    rw [H.replay] at hrow
    exact everAttached_of_serial rfl (fun row => Table.not_mem_empty row) H.serial hrow hkey
  | @rollback p o l hcode =>
    obtain ⟨e, rfl⟩ := eq_of_rollback hcode
    refine h.stop _ ?_
    cases hl : σ.loc p with
    | discard k reply =>
      rw [hl] at hcode
      nomatch hcode
    | _ => rfl
  | fail => exact h.stop _ hok.1
  | @env u x henv => exact h.upload henv

/-- **No orphans** once all requests have ended, where every write knows the key it displaces. -/
theorem noOrphans_of_run
    (hrun : Run (patentsOver uploadOnce cfg reqs).step
      (fun σ a => DeletesSucceed σ a ∧ KnowsKey reqs σ a) (init users inventors categories) σ)
    (hquiescent : Quiescent σ) : NoOrphans σ := by
  have h : Accounted reqs σ :=
    hrun.invariant_reached (fun _ _ _ hbefore h hok hs => h.step hbefore hok hs) accounted_init
  intro key hkey hs
  rcases h.accounted key hkey hs with hcarried | ⟨p, hp⟩
  · exact hcarried
  · have hrest := hquiescent p
    cases hl : σ.loc p with
    | discard k reply =>
      rw [hl] at hrest
      exact hrest.elim
    | _ =>
      rw [hl] at hp
      nomatch hp

end Runs

/-! ## Two edits of one draft -/

section Evaluation

instance (σ : State Db Ext Write Loc) : ∀ a : Act Oracle Upload, Decidable (DeletesSucceed σ a)
  | .run _ o => inferInstanceAs (Decidable (o.deleted = true))
  | .fail p => inferInstanceAs (Decidable (doomed (σ.loc p) = none))
  | .env _ => isTrue trivial

instance (reqs : Nat → Request) (σ : State Db Ext Write Loc) :
    ∀ a : Act Oracle Upload, Decidable (KnowsKey reqs σ a)
  | .run p _ => inferInstanceAs (Decidable (displacing (reqs p) (σ.loc p) σ.base.db = none ∨
      displacing (reqs p) (σ.loc p) σ.base.db = copied (reqs p) (σ.loc p)))
  | .fail _ | .env _ => isTrue trivial

instance (log : List (Nat × List Write)) (key : String) : Decidable (EverAttached log key) :=
  inferInstanceAs (Decidable (∃ e ∈ log, ∃ w ∈ e.2, keyWritten w = some key))

instance (d : Db) (key : String) : Decidable (Carried d key) :=
  inferInstanceAs (Decidable (∃ row ∈ d.patents.rows, row.documentKey = some key))

instance : DecidablePred AtRest
  | .start | .done _ => isTrue trivial
  | .create _ | .update _ | .submit _ | .review _ | .delete _ | .discard _ _ | .throwing _ =>
    isFalse id

end Evaluation

/-- Edits 4 and 5 replace the document of Ada's draft. -/
def twoEdits : Nat → Request
  | 0 => .requestUpload ada "a.pdf" "application/pdf"
  | 1 => .createPatent ada firstInput
  | 2 => .requestUpload ada "b.pdf" "application/pdf"
  | 3 => .requestUpload ada "c.pdf" "application/pdf"
  | 4 => .updatePatent ada 1 ⟨none, none, none, some (keyOf "b.pdf"), none, none, none, none⟩
  | _ => .updatePatent ada 1 ⟨none, none, none, some (keyOf "c.pdf"), none, none, none, none⟩

/-- A draft, and two more files of its submitter in the bucket. -/
def threeUploads : List (Act Oracle Upload) :=
  drafted ++ steps 2 1 ++ [.env (.put (keyOf "b.pdf") 10)] ++ steps 3 1 ++
    [.env (.put (keyOf "c.pdf") 10)]

/-- One edit after the other. -/
def editAfterEdit : List (Act Oracle Upload) := threeUploads ++ steps 4 10 ++ steps 5 10

/-- Edit 4 reads the draft, and writes when edit 5 has replaced the document. -/
def editAcrossEdit : List (Act Oracle Upload) :=
  threeUploads ++ steps 4 6 ++ steps 5 10 ++ steps 4 4

/-- The requests below `n` are at rest, and a schedule moves no others. -/
theorem quiescent_of_exec {cfg : Config} {reqs : Nat → Request} {n : Nat}
    {as : List (Act Oracle Upload)} {σ σ' : State Db Ext Write Loc} (hstart : ∀ p, σ.loc p = .start)
    (hexec : exec (patentsOver uploadOnce cfg reqs).step σ as = some σ')
    (hmovers : ∀ a ∈ as, a.mover.all (· < n) = true) (hrest : ∀ p < n, AtRest (σ'.loc p)) :
    Quiescent σ' := by
  intro p
  by_cases hp : p < n
  · exact hrest p hp
  · have hnever : ∀ a ∈ as, a.mover ≠ some p := by
      intro a ha hm
      have hlt := hmovers a ha
      rw [hm] at hlt
      exact hp (by simpa using hlt)
    rw [Machine.loc_of_exec _ hnever hexec, hstart p]
    trivial

theorem editAfterEdit_runs :
    (execOk (patentsOver uploadOnce pdfOnly twoEdits).step
      (fun σ a => DeletesSucceed σ a ∧ KnowsKey twoEdits σ a) blank
      editAfterEdit).isSome = true := by
  decide

/-- Two edits, one after the other: no object is left behind. -/
theorem noOrphans_of_editAfterEdit :
    ∃ σ, execOk (patentsOver uploadOnce pdfOnly twoEdits).step
        (fun σ a => DeletesSucceed σ a ∧ KnowsKey twoEdits σ a) blank editAfterEdit = some σ ∧
      Quiescent σ ∧ NoOrphans σ := by
  have hσ := (Option.some_get editAfterEdit_runs).symm
  have hquiescent := @quiescent_of_exec _ _ 6 _ _ _ (fun _ => rfl) (exec_of_execOk hσ) (by decide)
    (by decide)
  exact ⟨_, hσ, hquiescent, noOrphans_of_run (Run.of_execOk hσ) hquiescent⟩

theorem editAcrossEdit_runs :
    (execOk (patentsOver uploadOnce pdfOnly twoEdits).step DeletesSucceed blank
      editAcrossEdit).isSome = true := by
  decide

theorem twoEdits_valid (p : Nat) (key : String) (h : (twoEdits p).documentKey = some key) :
    documentKeyField key = true := by
  have ha : documentKeyField (keyOf "a.pdf") = true := by decide
  have hb : documentKeyField (keyOf "b.pdf") = true := by decide
  have hc : documentKeyField (keyOf "c.pdf") = true := by decide
  match p with
  | 0 => nomatch h
  | 1 => exact Option.some.inj h ▸ ha
  | 2 => nomatch h
  | 3 => nomatch h
  | 4 => exact Option.some.inj h ▸ hb
  | p + 5 => exact Option.some.inj h ▸ hc

/-- Both edits discard the first document; the one that the later commit has displaced stays. -/
theorem not_noOrphans :
    ¬ ∀ (cfg : Config) (reqs : Nat → Request) (users : Table User User.id)
      (inventors : Table Inventor Inventor.id) (categories : Table Category Category.id)
      (σ : State Db Ext Write Loc),
      (∀ p key, (reqs p).documentKey = some key → documentKeyField key = true) →
      Run (patentsOver uploadOnce cfg reqs).step DeletesSucceed
        (init users inventors categories) σ →
      Quiescent σ → NoOrphans σ := by
  intro hall
  have hσ := (Option.some_get editAcrossEdit_runs).symm
  have hnone := hall pdfOnly twoEdits accounts Table.empty Table.empty _ twoEdits_valid
    (Run.of_execOk hσ) (@quiescent_of_exec _ _ 6 _ _ _ (fun _ => rfl) (exec_of_execOk hσ)
      (by decide) (by decide))
  have hcarried := hnone (keyOf "c.pdf") (by decide) ⟨⟨keyOf "c.pdf", 10⟩, by decide, rfl⟩
  exact absurd hcarried (by decide)

end SmartPatents.OrphanedDocuments
