/-
  Document keys in flight.

  Between its first read and its write a request holds up to two document keys: the one it supplies
  and the one, copied from the patent it has read, that it discards in the end.  This file says
  which (`supplying`, `discarding`), and once and for all what a statement does to them
  (`KeyStep`): every statement of every request has a `keyStep` lemma, put together in
  `keyStep_stmt` and `keyStep_auto`.

  `KeyStep` says of a statement which keys the rows carry that it writes, which keys the request
  holds afterwards and where they come from, and when an object goes.  `DocumentStore`,
  `OrphanedDocuments` and `DocumentAuthority` use this and never open `code`.

  A move that takes up no key is the common case, and has one lemma (`Onward.goOn`).  What is left
  are the statements that read the supplied key or the row, those that write a row, and `discard`.
-/
import SmartPatents.PatentHistory

namespace SmartPatents.DocumentStore

open ReadCommitted Runs Access Lifecycle Relations Storage PatentEvents PatentService

/-! ## Keys in flight -/

/-- The guarded write of a request can still find its row. -/
def canLand (r : Request) (d : Db) : Bool :=
  match r with
  | .updatePatent _ id _ => (d.patents.get? id).isSome
  | .deletePatent _ id => (d.patents.get? id).any fun row => row.status == .draft
  | _ => true

/-- The key that a request has checked, or need not check, and has not written yet. -/
def supplied : Request → Loc → Option String
  | .createPatent _ input, .create l =>
    match l with
    | .inventorLinks | .categoryIds _ | .publication _ _ | .insert _ _ => some input.documentKey
    | _ => none
  | .updatePatent _ _ updates, .update l =>
    match l with
    | .publication _ | .inventorLinks _ | .categoryIds _ _ | .write _ _ _ => updates.documentKey
    | _ => none
  | _, _ => none

/-- The record that an edit has read. -/
def copyOf : UpdateLoc → Option PatentRecord
  | .oversized _ | .refused => none
  | .attached patent | .head patent | .publication patent | .inventorLinks patent
  | .categoryIds patent _ | .write patent _ _ | .unlinkCategories patent _ _
  | .linkCategories patent _ _ | .unlinkInventors patent _ | .linkInventors patent _
  | .reread patent | .commit patent _ => some patent

/-- The key that an edit of `patent` discards in the end. -/
def replacedKey (updates : Updates) (patent : PatentRecord) : Option String :=
  if replacingDocument updates patent.toPatent then patent.documentKey else none

/-- The key that a request will discard if its transaction commits. -/
def copied : Request → Loc → Option String
  | .updatePatent _ _ updates, .update l => (copyOf l).bind (replacedKey updates)
  | .deletePatent _ _, .delete l =>
    match l with
    | .write patent | .commit patent => patent.documentKey
    | .refused => none
  | _, _ => none

/-- The key that a request is going to put on a row. -/
def supplying (r : Request) (l : Loc) (d : Db) : Option String :=
  if canLand r d then supplied r l else none

/-- The key that a request is going to discard. -/
def discarding (r : Request) (l : Loc) (d : Db) : Option String :=
  match l with
  | .discard key _ => key
  | _ => if canLand r d then copied r l else none

/-- A key that no row carries. -/
def unattached (key : Option String) (d : Db) : Option String :=
  key.filter fun k => (d.patentByDocumentKey k).isNone

/-- The key that the next statement of a request puts on a row, if no row carries it yet. -/
def puts (r : Request) (l : Loc) (d : Db) : Option String :=
  match r, l with
  | .createPatent _ input, .create (.insert _ _) => unattached (some input.documentKey) d
  | .updatePatent _ id updates, .update (.write _ _ _) =>
    if (d.patents.get? id).any fun row => row.status ∈ EDITABLE_STATUSES then
      unattached updates.documentKey d
    else none
  | _, _ => none

/-! ## What one statement does to the keys -/

/-- The bucket has an object under the key. -/
def Stored (x : Ext) (key : String) : Prop := ∃ o ∈ x.objects, o.key = key

/-- The request has read the patent it is about. -/
def Working : Loc → Prop
  | .update _ | .delete _ => True
  | _ => False

/-- The upload was found to be too large. -/
def Oversized : Loc → Prop
  | .create (.oversized _) | .update (.oversized _) => True
  | _ => False

/-- The request is deleting an object it has no more use for. -/
def Discards : Loc → Prop
  | .discard _ _ => True
  | _ => False

/-- A statement of request `r` at `l`: a row it writes carries the key of the row it replaces or the
    key it puts there, an object disappears only by a discard, and the keys in flight at the next
    location were in flight before, or are in the store, or were read from a row. -/
structure KeyStep (r : Request) (l : Loc) (d : Db) (x : Ext) (o : Oracle) (res : Outcome) :
    Prop where
  rows : ∀ w ∈ res.1, ∀ new, w.patent? = some new →
    (∃ old ∈ d.patents, old.id = new.id ∧ old.documentKey = new.documentKey) ∨
    ∃ key, new.documentKey = some key ∧ puts r l d = some key ∧ supplying r l d = some key ∧
      uniqueClash d new = false
  objects : res.2.1.objects = x.objects ∨
    ∃ key reply, l = .discard (some key) reply ∧ o.deleted = true ∧
      res.2.1.objects = x.objects.erase key ∧ res.2.2 = .done reply
  supplied : ∀ key, supplied r res.2.2 = some key →
    supplied r l = some key ∨ Stored x key ∨ ∃ row ∈ d.patents, row.documentKey = some key
  copied : ∀ key, copied r res.2.2 = some key → copied r l = some key ∨
    ∃ row ∈ d.patents, row.documentKey = some key ∧ r.subject = some row.id
  working : Working res.2.2 → Working l ∨ ∃ row ∈ d.patents, r.subject = some row.id
  within : ¬ Oversized res.2.2
  keeps : ¬ Discards res.2.2

/-- A move that takes up no key. -/
structure Onward (r : Request) (l l' : Loc) : Prop where
  supplied : ∀ key, supplied r l' = some key → supplied r l = some key
  copied : ∀ key, copied r l' = some key → copied r l = some key
  working : Working l' → Working l
  within : ¬ Oversized l'
  keeps : ¬ Discards l'

section Steps

variable {cfg : Config} {r : Request} {l l' : Loc} {d : Db} {x x' : Ext} {o : Oracle}
  {ws : List Write}

/-- What a statement writes carries an old key, or the one that the request puts there. -/
theorem KeyStep.written (h : KeyStep r l d x o (ws, x', l')) {w : Write} {new : Patent}
    {key : String} (hw : w ∈ ws) (hnew : w.patent? = some new) (hkey : new.documentKey = some key) :
    (∃ old ∈ d.patents, old.id = new.id ∧ old.documentKey = some key) ∨
    (puts r l d = some key ∧ supplying r l d = some key ∧ uniqueClash d new = false) := by
  rcases h.rows w hw new hnew with ⟨old, hold, hid, hsame⟩ | ⟨k, hk, hputs, hsup, hfree⟩
  · exact Or.inl ⟨old, hold, hid, hsame.trans hkey⟩
  · obtain rfl := Option.some.inj (hk.symm.trans hkey)
    exact Or.inr ⟨hputs, hsup, hfree⟩

/-- A statement that writes no patent and deletes no object moves keys only along with its request.
    -/
theorem Onward.step (h : Onward r l l') (hobjects : x'.objects = x.objects)
    (hws : ∀ w ∈ ws, w.patent? = none) : KeyStep r l d x o (ws, x', l') where
  rows := by
    intro w hw new hnew
    rw [hws w hw] at hnew
    nomatch hnew
  objects := Or.inl hobjects
  supplied := fun key hkey => Or.inl (h.supplied key hkey)
  copied := fun key hkey => Or.inl (h.copied key hkey)
  working := fun hw => Or.inl (h.working hw)
  within := h.within
  keeps := h.keeps

theorem Onward.goOn (h : Onward r l l') : KeyStep r l d x o (goOn x l') :=
  h.step rfl fun _ hw => (List.not_mem_nil hw).elim

/-- Locations that are about no key. -/
def Keyless : Loc → Prop
  | .start | .submit _ | .review _ | .throwing _ | .done _ => True
  | _ => False

/-- A location without keys supplies none. -/
theorem supplied_of_keyless (h : Keyless l) : supplied r l = none := by
  cases r <;> cases l <;> first | rfl | exact h.elim

theorem copied_of_keyless (h : Keyless l) : copied r l = none := by
  cases r <;> cases l <;> first | rfl | exact h.elim

/-- A request that is deleting an object supplies no key any more. -/
theorem supplied_of_discards (h : Discards l) : supplied r l = none := by
  cases r <;> cases l <;> first | rfl | exact h.elim

/-- To lose a key is always possible. -/
theorem onward_keyless (h : Keyless l') : Onward r l l' := by
  refine ⟨fun key hk => ?_, fun key hk => ?_, fun hw => ?_, fun ho => ?_, fun hd => ?_⟩
  · rw [supplied_of_keyless h] at hk
    nomatch hk
  · rw [copied_of_keyless h] at hk
    nomatch hk
  · cases l' <;> first | exact hw.elim | exact h.elim
  · cases l' <;> first | exact ho.elim | exact h.elim
  · cases l' <;> first | exact hd.elim | exact h.elim

theorem onward_throwing (e : Thrown) : Onward r l (.throwing e) := onward_keyless trivial

theorem onward_done (reply : Reply) : Onward r l (.done reply) := onward_keyless trivial

theorem onward_submit (l' : SubmitLoc) : Onward r l (.submit l') := onward_keyless trivial

theorem onward_review (l' : ReviewLoc) : Onward r l (.review l') := onward_keyless trivial

/-- A resolver that throws or goes on does nothing to keys. -/
theorem keyStep_orThrow {α : Type} {res : Except AppError α} {next : α → Loc}
    (h : ∀ a, Onward r l (next a)) : KeyStep r l d x o (orThrow x res next) := by
  unfold orThrow
  split
  · exact (onward_throwing _).goOn
  · exact (h _).goOn

/-- The check of a key does nothing to it. -/
theorem keyStep_verifyDocument {key : String} {userId : Nat} {allow : Option Nat} {d' : Db}
    (h : Onward r l l') : KeyStep r l d x o (verifyDocument key userId allow l' d' x) := by
  unfold verifyDocument
  split
  · exact (onward_throwing _).goOn
  · split
    · exact h.goOn
    · split
      · exact h.goOn
      · exact (onward_throwing _).goOn

theorem keyStep_publicationNumber {number : Option String} {exceptId : Option Nat} {d' : Db}
    (h : Onward r l l') :
    KeyStep r l d x o (assertPublicationNumberFree number exceptId l' d' x) := by
  unfold assertPublicationNumberFree
  split
  · exact h.goOn
  · split
    · exact h.goOn
    · split
      · exact h.goOn
      · exact (onward_throwing _).goOn

theorem keyStep_insertCategories {id : Nat} {ids : List Nat} {d' : Db} (h : Onward r l l') :
    KeyStep r l d x o (insertCategories id ids l' d' x) := by
  rcases insertCategories_cases id ids l' d' x with ⟨code, hr⟩ | hr
  · rw [hr]; exact (onward_throwing _).goOn
  · rw [hr]
    refine h.step rfl fun w hw => ?_
    obtain ⟨c, -, rfl⟩ := List.mem_map.mp hw
    rfl

theorem keyStep_insertInventors {id : Nat} {links : List InventorLink} {d' : Db}
    (h : Onward r l l') : KeyStep r l d x o (insertInventors id links l' d' x) := by
  rcases insertInventors_cases id links l' d' x with ⟨code, hr⟩ | hr
  · rw [hr]; exact (onward_throwing _).goOn
  · rw [hr]
    refine h.step rfl fun w hw => ?_
    obtain ⟨c, -, rfl⟩ := List.mem_map.mp hw
    rfl

theorem keyStep_reread {id : Nat} {next : PatentRecord → Loc} {d' : Db}
    (h : ∀ record, Onward r l (next record)) : KeyStep r l d x o (reread id next d' x) := by
  rcases reread_cases id next d' x with hr | ⟨row, -, -, hr⟩
  · rw [hr]; exact (onward_throwing _).goOn
  · rw [hr]; exact (h _).goOn

/-- A transition keeps the key. -/
theorem keyStep_applyTransition {id : Nat} {action : Action} {stamp : Time → Patent → Patent}
    {refused : Loc} (hstamp : ∀ now p, (stamp now p).id = p.id ∧
      (stamp now p).documentKey = p.documentKey) (h : Onward r l l') (href : Onward r l refused) :
    KeyStep r l d x o (applyTransition id action stamp l' refused o d x) := by
  rcases applyTransition_cases id action stamp l' refused o d x with hr | ⟨row, hlands, hr⟩
  · rw [hr]; exact href.goOn
  · rw [hr]
    have hon : KeyStep r l d x o ([], x, l') := h.step rfl fun _ hw => (List.not_mem_nil hw).elim
    refine { hon with rows := fun w hw new hnew => Or.inl ⟨row, hlands.mem, ?_⟩ }
    obtain rfl := List.mem_singleton.mp hw
    obtain rfl := Option.some.inj hnew
    exact ⟨(hstamp o.now row).1.symm, (hstamp o.now row).2.symm⟩

/-- `headObject` has seen the object. -/
theorem keyStep_verifyHead {key : String} {oversized : Nat → Loc}
    (hsized : ∀ obj ∈ x.objects, obj.size ≤ cfg.maxUploadBytes)
    (hs : ∀ k, supplied r l' = some k → k = key)
    (hc : ∀ k, copied r l' = some k → copied r l = some k) (hw : Working l' → Working l)
    (ho : ¬ Oversized l') (hd : ¬ Discards l') :
    KeyStep r l d x o (verifyHead cfg key l' oversized x) := by
  unfold verifyHead
  split
  · exact (onward_throwing _).goOn
  · rename_i size hsize
    obtain ⟨obj, hobj, rfl⟩ := Option.map_eq_some_iff.mp hsize
    obtain ⟨hmem, hkey⟩ := Table.get?_eq_some.mp hobj
    rw [if_neg (Nat.not_lt.mpr (hsized obj hmem))]
    refine ⟨fun _ hw => (List.not_mem_nil hw).elim, Or.inl rfl,
      fun k hk => Or.inr (Or.inl ⟨obj, hmem, ?_⟩), fun k hk => ?_, fun h => Or.inl (hw h), ho, hd⟩
    · rw [hkey, hs k hk]
    · exact Or.inl (hc k hk)

/-- A request enters its work with a row it has read. -/
theorem keyStep_enter {row : Patent} (hrow : row ∈ d.patents) (hsubject : r.subject = some row.id)
    (hs : ∀ key, supplied r l' = some key → row.documentKey = some key)
    (hc : ∀ key, copied r l' = some key → row.documentKey = some key) (ho : ¬ Oversized l')
    (hd : ¬ Discards l') : KeyStep r l d x o (goOn x l') where
  rows := fun _ hw => (List.not_mem_nil hw).elim
  objects := Or.inl rfl
  supplied := fun key hk => Or.inr (Or.inr ⟨row, hrow, hs key hk⟩)
  copied := fun key hk => Or.inr ⟨row, hrow, hc key hk, hsubject⟩
  working := fun _ => Or.inr ⟨row, hrow, hsubject⟩
  within := ho
  keeps := hd

theorem KeyStep.handed {ks : List String} {res : Outcome}
    (h : KeyStep r l d { x with handed := ks } o res) : KeyStep r l d x o res :=
  ⟨h.rows, h.objects, h.supplied, h.copied, h.working, h.within, h.keeps⟩

/-- An edit that need not check the key it supplies has read it. -/
theorem key_of_not_replacing {updates : Updates} {patent : Patent} {key : String}
    (h : replacingDocument updates patent = false) (hkey : updates.documentKey = some key)
    (hne : key ≠ "") : patent.documentKey = some key := by
  have htruthy : truthy (some key) = some key := by simp [truthy, hne]
  rw [replacingDocument, hkey, htruthy] at h
  have hsame : some key = patent.documentKey := by simpa using h
  exact hsame.symm

/-- The first statement of an edit picks up the key of the row it reads. -/
theorem keyStep_updatePatent {user : Caller} {id : Nat} {updates : Updates}
    (hkeys : ∀ key, updates.documentKey = some key → key ≠ "") :
    KeyStep (.updatePatent user id updates) l d x o (updatePatent user id updates d x) := by
  unfold updatePatent
  split
  · exact (onward_throwing _).goOn
  · rename_i patent hfind
    obtain ⟨row, hrow, rfl, heq⟩ := row_of_findOwnedPatent hfind
    have hkey : patent.documentKey = row.documentKey := congrArg Patent.documentKey heq
    have hcopied : ∀ key, replacedKey updates patent = some key → row.documentKey = some key := by
      intro key hk
      unfold replacedKey at hk
      split at hk
      · rwa [hkey] at hk
      · nomatch hk
    split
    · exact (onward_throwing _).goOn
    · split
      · exact keyStep_enter hrow rfl nofun hcopied id id
      · rename_i hsame
        refine keyStep_enter hrow rfl (fun key hk => ?_) hcopied id id
        rw [← hkey]
        exact key_of_not_replacing (by simpa using hsame) hk (hkeys key hk)

/-- A review has no key of its own. -/
theorem keyStep_review {admin : Caller} {id : Nat} {action : Action} :
    KeyStep r l d x o (review admin id action d x) := by
  unfold review
  split
  · exact (onward_throwing _).goOn
  · split
    · exact (onward_throwing _).goOn
    · split
      · exact (onward_throwing _).goOn
      · exact (onward_review _).goOn

/-- The first statement of any request. -/
theorem keyStep_start (hkeys : ∀ key, r.documentKey = some key → key ≠ "") :
    KeyStep r .start d x o (start cfg r o d x) := by
  unfold start
  cases r with
  | requestUpload user filename contentType =>
    dsimp only
    unfold requestUpload
    split
    · exact (onward_done _).step rfl fun _ hw => (List.not_mem_nil hw).elim
    · exact (onward_throwing _).goOn.handed
  | createPatent user input =>
    exact KeyStep.handed (keyStep_verifyDocument ⟨nofun, nofun, id, id, id⟩)
  | updatePatent user id updates => exact (keyStep_updatePatent hkeys).handed
  | submitForReview user id =>
    dsimp only
    unfold submitForReview
    split
    · exact (onward_throwing _).goOn.handed
    · split
      · exact (onward_throwing _).goOn.handed
      · split
        · exact (onward_throwing _).goOn.handed
        · exact (onward_submit _).goOn.handed
  | approvePatent admin id comments => exact keyStep_review.handed
  | declinePatent admin id comments => exact keyStep_review.handed
  | deletePatent user id =>
    dsimp only
    unfold deletePatent
    split
    · exact (onward_throwing _).goOn.handed
    · rename_i patent hfind
      -- the key of the record is what will be discarded
      obtain ⟨row, hrow, rfl, heq⟩ := row_of_findOwnedPatent hfind
      have hkey : patent.documentKey = row.documentKey := congrArg Patent.documentKey heq
      split
      · exact (onward_throwing _).goOn.handed
      · exact KeyStep.handed (keyStep_enter hrow rfl nofun (fun key hk => hkey ▸ hk) id id)

/-! ### The statements of each request -/

/-- The checks of a creation: behind the look into the bucket, the object is there. -/
theorem keyStep_create_auto {user : Caller} {input : CreateInput} {c : CreateLoc}
    {f : Oracle → Db → Ext → Outcome} (hcode : createCode cfg user input c = .auto f)
    (hsized : ∀ obj ∈ x.objects, obj.size ≤ cfg.maxUploadBytes) (hwithin : ¬ Oversized (.create c)) :
    KeyStep (.createPatent user input) (.create c) d x o (f o d x) := by
  cases c with
  | head =>
    obtain rfl := Instr.auto.inj hcode
    exact keyStep_verifyHead hsized (fun k hk => (Option.some.inj hk).symm) (fun _ h => h) id id id
  | oversized size => exact absurd trivial hwithin
  | inventorLinks =>
    obtain rfl := Instr.auto.inj hcode
    exact keyStep_orThrow fun _ => ⟨fun _ h => h, fun _ h => h, id, id, id⟩
  | categoryIds links =>
    obtain rfl := Instr.auto.inj hcode
    exact keyStep_orThrow fun _ => ⟨fun _ h => h, fun _ h => h, id, id, id⟩
  | publication links ids =>
    obtain rfl := Instr.auto.inj hcode
    exact keyStep_publicationNumber ⟨fun _ h => h, fun _ h => h, id, id, id⟩
  | _ => nomatch hcode

/-- The checks of an edit, likewise. -/
theorem keyStep_update_auto {user : Caller} {id : Nat} {updates : Updates} {u : UpdateLoc}
    {f : Oracle → Db → Ext → Outcome} (hcode : updateCode cfg user id updates u = .auto f)
    (hsized : ∀ obj ∈ x.objects, obj.size ≤ cfg.maxUploadBytes) (hwithin : ¬ Oversized (.update u)) :
    KeyStep (.updatePatent user id updates) (.update u) d x o (f o d x) := by
  cases u with
  | attached patent =>
    obtain rfl := Instr.auto.inj hcode
    exact keyStep_verifyDocument ⟨nofun, fun _ h => h, fun h => h, fun h => h, fun h => h⟩
  | head patent =>
    obtain rfl := Instr.auto.inj hcode
    refine keyStep_verifyHead hsized (fun k hk => ?_) (fun _ h => h) (fun h => h) (fun h => h)
      fun h => h
    have hkey : updates.documentKey = some k := hk
    rw [hkey, Option.getD_some]
  -- no upload is over the limit
  | oversized size => exact absurd trivial hwithin
  | publication patent =>
    obtain rfl := Instr.auto.inj hcode
    exact keyStep_publicationNumber ⟨fun _ h => h, fun _ h => h, fun h => h, fun h => h, fun h => h⟩
  | inventorLinks patent =>
    obtain rfl := Instr.auto.inj hcode
    dsimp only
    split
    · exact Onward.goOn ⟨fun _ h => h, fun _ h => h, fun h => h, fun h => h, fun h => h⟩
    · exact keyStep_orThrow fun _ =>
        ⟨fun _ h => h, fun _ h => h, fun h => h, fun h => h, fun h => h⟩
  | categoryIds patent links =>
    obtain rfl := Instr.auto.inj hcode
    dsimp only
    split
    · exact Onward.goOn ⟨fun _ h => h, fun _ h => h, fun h => h, fun h => h, fun h => h⟩
    · exact keyStep_orThrow fun _ =>
        ⟨fun _ h => h, fun _ h => h, fun h => h, fun h => h, fun h => h⟩
  | _ => nomatch hcode

/-- The deletion after the commit is the only statement that takes an object away. -/
theorem keyStep_discard {key : Option String} {reply : Reply} :
    KeyStep r (.discard key reply) d x o (discardObject key reply o x) := by
  unfold discardObject
  split
  · exact (onward_done _).goOn
  · rename_i key
    have hon : KeyStep r (.discard (some key) reply) d x o (goOn x (.done reply)) :=
      (onward_done _).goOn
    refine ⟨hon.rows, ?_, hon.supplied, hon.copied, hon.working, hon.within, hon.keeps⟩
    by_cases hdel : key ≠ "" ∧ o.deleted = true
    · exact Or.inr ⟨key, reply, rfl, hdel.2, if_pos hdel, rfl⟩
    · exact Or.inl (if_neg hdel)

/-- A row that is written without a clash carries a key that no other row carries. -/
theorem unattached_of_free {new : Patent} {key : String} (hfree : uniqueClash d new = false)
    (hkey : new.documentKey = some key)
    (hself : ∀ row ∈ d.patents, row.id = new.id → row.documentKey ≠ some key) :
    unattached (some key) d = some key := by
  have hnone : d.patentByDocumentKey key = none := by
    cases hfind : d.patentByDocumentKey key with
    | none => rfl
    | some row =>
      obtain ⟨hrow, hcarries⟩ := Table.find?_some hfind
      have hcarries : row.documentKey = some key := by simpa using hcarries
      by_cases hid : row.id = new.id
      · exact absurd hcarries (hself row hrow hid)
      · have hclash := (uniqueClash_eq_false.mp hfree row hrow hid).1 (by simp [hkey])
        exact absurd (hcarries.trans hkey.symm) hclash
  simp [unattached, hnone]

/-- The insert of a create puts the supplied key on a new row. -/
theorem keyStep_insertPatent {user : Caller} {input : CreateInput} {links : List InventorLink}
    {ids : List Nat} (hnew : ∀ row ∈ d.patents, row.id ≠ x.nextPatentId) :
    KeyStep (.createPatent user input) (.create (.insert links ids)) d x o
      (insertPatent user input links ids o d x) := by
  unfold insertPatent
  dsimp only
  split
  · exact (onward_throwing _).step rfl fun _ hw => (List.not_mem_nil hw).elim
  · rename_i hfree
    have hfree : uniqueClash d (draftOf user input x.nextPatentId o.now) = false := by
      simpa using hfree
    split
    · exact (onward_throwing _).step rfl fun _ hw => (List.not_mem_nil hw).elim
    · refine ⟨fun w hw new hwrite => Or.inr ⟨input.documentKey, ?_⟩, Or.inl rfl,
        fun _ hkey => ?_, fun _ hkey => ?_, fun hwork => ?_, fun h => h, fun h => h⟩
      · obtain rfl := List.mem_singleton.mp hw
        obtain rfl := Option.some.inj hwrite
        refine ⟨rfl, ?_, rfl, hfree⟩
        exact unattached_of_free hfree rfl fun row hrow hid => absurd hid (hnew row hrow)
      · cases hkey
      · cases hkey
      · cases hwork

/-- The guarded write of an edit puts the supplied key on the row, if it is not there. -/
theorem keyStep_updateWrite {user : Caller} {id : Nat} {updates : Updates} {patent : PatentRecord}
    {links : Option (List InventorLink)} {ids : Option (List Nat)} :
    KeyStep (.updatePatent user id updates) (.update (.write patent links ids)) d x o
      (updateWrite id updates patent links ids o d x) := by
  rcases updateWrite_cases id updates patent links ids o d x with
    hr | hr | ⟨row, hlands, hfree, hr⟩
  · rw [hr]
    exact Onward.goOn ⟨nofun, nofun, fun h => h, fun h => h, fun h => h⟩
  · rw [hr]
    exact (onward_throwing _).goOn
  · rw [hr]
    have honward : Onward (.updatePatent user id updates) (.update (.write patent links ids))
        (thenCategories patent links ids) := by
      cases ids with
      | some ids => exact ⟨nofun, fun _ h => h, fun h => h, fun h => h, fun h => h⟩
      | none =>
        cases links with
        | some links => exact ⟨nofun, fun _ h => h, fun h => h, fun h => h, fun h => h⟩
        | none => exact ⟨nofun, fun _ h => h, fun h => h, fun h => h, fun h => h⟩
    have hon : KeyStep (.updatePatent user id updates) (.update (.write patent links ids)) d x o
        ([], x, thenCategories patent links ids) :=
      honward.step rfl fun _ hw => (List.not_mem_nil hw).elim
    refine { hon with rows := fun w hw new hwrite => ?_ }
    obtain rfl := List.mem_singleton.mp hw
    obtain rfl := Option.some.inj hwrite
    have hget := hlands.get?
    -- the row keeps its key, or gets a supplied one that was free
    cases hkey : updates.documentKey with
    | none =>
      refine Or.inl ⟨row, hlands.mem, rfl, ?_⟩
      simp only [edited, scalar, hkey, Option.none_or]
    | some key =>
      have hnew : (edited updates patent.toPatent row o.now).documentKey = some key := by
        simp only [edited, scalar, hkey, Option.some_or]
      by_cases hsame : row.documentKey = some key
      · exact Or.inl ⟨row, hlands.mem, rfl, hsame.trans hnew.symm⟩
      · refine Or.inr ⟨key, hnew, ?_, ?_, hfree⟩
        · have hunattached : unattached updates.documentKey d = some key := by
            rw [hkey]
            refine unattached_of_free hfree hnew fun row' hrow' hid => ?_
            rwa [Table.eq_of_key hrow' hlands.mem hid]
          simp [puts, hget, hlands.status, hunattached]
        · simp only [supplying, canLand, supplied, hget, Option.isSome_some, if_true, hkey]

/-- The INSERT writes the key that was supplied, into a new row. -/
theorem keyStep_create_stmt {user : Caller} {input : CreateInput} {c : CreateLoc}
    {f : Oracle → Db → Ext → Outcome} {d' : Db} (hcode : createCode cfg user input c = .stmt f)
    (hview : ∀ links ids, c = .insert links ids → d' = d)
    (hnew : ∀ row ∈ d.patents, row.id ≠ x.nextPatentId) :
    KeyStep (.createPatent user input) (.create c) d x o (f o d' x) := by
  cases c with
  | insert links ids =>
    obtain rfl := Instr.stmt.inj hcode
    obtain rfl := hview links ids rfl
    exact keyStep_insertPatent hnew
  | linkCategories id links ids =>
    obtain rfl := Instr.stmt.inj hcode
    exact keyStep_insertCategories ⟨nofun, nofun, nofun, fun h => h, fun h => h⟩
  | linkInventors id links =>
    obtain rfl := Instr.stmt.inj hcode
    exact keyStep_insertInventors ⟨nofun, nofun, nofun, fun h => h, fun h => h⟩
  | reread id =>
    obtain rfl := Instr.stmt.inj hcode
    exact keyStep_reread fun _ => ⟨nofun, nofun, nofun, fun h => h, fun h => h⟩
  | _ => nomatch hcode

/-- The UPDATE writes the key supplied, or the one its row has. -/
theorem keyStep_update_stmt {user : Caller} {id : Nat} {updates : Updates} {u : UpdateLoc}
    {f : Oracle → Db → Ext → Outcome} {d' : Db} (hcode : updateCode cfg user id updates u = .stmt f)
    (hview : ∀ patent links ids, u = .write patent links ids → d' = d) :
    KeyStep (.updatePatent user id updates) (.update u) d x o (f o d' x) := by
  cases u with
  | write patent links ids =>
    obtain rfl := Instr.stmt.inj hcode
    obtain rfl := hview patent links ids rfl
    exact keyStep_updateWrite
  | refused =>
    obtain rfl := Instr.stmt.inj hcode
    exact (onward_throwing _).goOn
  | unlinkCategories patent links ids =>
    obtain rfl := Instr.stmt.inj hcode
    refine Onward.step ⟨nofun, fun _ h => h, fun h => h, fun h => h, fun h => h⟩ rfl fun w hw => ?_
    obtain ⟨l, -, rfl⟩ := List.mem_map.mp hw
    rfl
  | linkCategories patent links ids =>
    obtain rfl := Instr.stmt.inj hcode
    refine keyStep_insertCategories ?_
    cases links with
    | some links => exact ⟨nofun, fun _ h => h, fun h => h, fun h => h, fun h => h⟩
    | none => exact ⟨nofun, fun _ h => h, fun h => h, fun h => h, fun h => h⟩
  | unlinkInventors patent links =>
    obtain rfl := Instr.stmt.inj hcode
    refine Onward.step ⟨nofun, fun _ h => h, fun h => h, fun h => h, fun h => h⟩ rfl fun w hw => ?_
    obtain ⟨l, -, rfl⟩ := List.mem_map.mp hw
    rfl
  | linkInventors patent links =>
    obtain rfl := Instr.stmt.inj hcode
    exact keyStep_insertInventors ⟨nofun, fun _ h => h, fun h => h, fun h => h, fun h => h⟩
  | reread patent =>
    obtain rfl := Instr.stmt.inj hcode
    exact keyStep_reread fun _ => ⟨nofun, fun _ h => h, fun h => h, fun h => h, fun h => h⟩
  | _ => nomatch hcode

/-- A submission keeps the key of its row. -/
theorem keyStep_submit_stmt {id : Nat} {c : SubmitLoc} {f : Oracle → Db → Ext → Outcome} {d' : Db}
    (hcode : submitCode id c = .stmt f) (hview : c = .write → d' = d) :
    KeyStep r (.submit c) d x o (f o d' x) := by
  cases c with
  | write =>
    obtain rfl := Instr.stmt.inj hcode
    obtain rfl := hview rfl
    exact keyStep_applyTransition (fun _ _ => ⟨rfl, rfl⟩) (onward_submit _) (onward_submit _)
  | refused =>
    obtain rfl := Instr.stmt.inj hcode
    exact (onward_throwing _).goOn
  | reread =>
    obtain rfl := Instr.stmt.inj hcode
    exact keyStep_reread fun _ => onward_submit _
  | commit record => nomatch hcode

/-- A review row has no key. -/
theorem keyStep_createReview {admin : Caller} {id : Nat} {action : Action}
    {comments : Option String} {before : Option PatentStatus} {record : PatentRecord} {d' : Db} :
    KeyStep r l d x o (createReview admin id action comments before record o d' x) := by
  have hinsert : ∀ w ∈ [Write.insertReview (reviewRow admin id action comments x.nextReviewId
      o.now)], w.patent? = none := by
    intro w hw
    rw [List.mem_singleton.mp hw]
    rfl
  unfold createReview
  dsimp only
  split
  · exact (onward_throwing _).step rfl fun _ hw => (List.not_mem_nil hw).elim
  · cases before with
    | none => exact (onward_throwing _).step rfl hinsert
    | some before =>
      dsimp only
      split
      · exact (onward_review _).step rfl hinsert
      · exact (onward_review _).step rfl hinsert

/-- A review keeps the key of its row. -/
theorem keyStep_review_stmt {admin : Caller} {id : Nat} {action : Action}
    {comments : Option String} {c : ReviewLoc} {f : Oracle → Db → Ext → Outcome} {d' : Db}
    (hcode : reviewCode admin id action comments c = .stmt f)
    (hview : ∀ before, c = .write before → d' = d) :
    KeyStep r (.review c) d x o (f o d' x) := by
  cases c with
  | before =>
    obtain rfl := Instr.stmt.inj hcode
    exact (onward_review _).goOn
  | write before =>
    obtain rfl := Instr.stmt.inj hcode
    obtain rfl := hview before rfl
    exact keyStep_applyTransition (fun _ _ => ⟨rfl, rfl⟩) (onward_review _) (onward_review _)
  | refused =>
    obtain rfl := Instr.stmt.inj hcode
    exact (onward_throwing _).goOn
  | reread before =>
    obtain rfl := Instr.stmt.inj hcode
    exact keyStep_reread fun _ => onward_review _
  | create before record =>
    obtain rfl := Instr.stmt.inj hcode
    exact keyStep_createReview
  | enqueue event record =>
    obtain rfl := Instr.stmt.inj hcode
    refine (onward_review _).step rfl fun w hw => ?_
    rw [List.mem_singleton.mp hw]
    rfl
  | commit record => nomatch hcode

/-- A deletion writes no key. -/
theorem keyStep_delete_stmt {user : Caller} {id : Nat} {c : DeleteLoc}
    {f : Oracle → Db → Ext → Outcome} {d' : Db} (hcode : deleteCode id c = .stmt f) :
    KeyStep (.deletePatent user id) (.delete c) d x o (f o d' x) := by
  cases c with
  | write patent =>
    obtain rfl := Instr.stmt.inj hcode
    dsimp only
    rcases deleteWrite_cases id patent d' x with hr | ⟨row, -, hr⟩
    · rw [hr]
      exact Onward.goOn ⟨nofun, nofun, fun h => h, fun h => h, fun h => h⟩
    · rw [hr]
      refine Onward.step ⟨nofun, fun _ h => h, fun h => h, fun h => h, fun h => h⟩ rfl
        fun w hw => ?_
      rw [List.mem_singleton.mp hw]
      rfl
  | refused =>
    obtain rfl := Instr.stmt.inj hcode
    exact (onward_throwing _).goOn
  | commit patent => nomatch hcode

end Steps

section Code

variable {J : Nat → Loc → Patent → Prop} {cfg : Config} {reqs : Nat → Request} {p : Nat} {l : Loc}
  {f : Oracle → Db → Ext → Outcome} {o : Oracle}

/-- Every statement outside a transaction. -/
theorem keyStep_auto {d : Db} {x : Ext} (hcode : code cfg reqs p l = .auto f)
    (hkeys : ∀ key, (reqs p).documentKey = some key → key ≠ "")
    (hsized : ∀ obj ∈ x.objects, obj.size ≤ cfg.maxUploadBytes) (hwithin : ¬ Oversized l) :
    KeyStep (reqs p) l d x o (f o d x) := by
  cases executes_of_code hcode nofun with
  | start hi =>
    obtain rfl := Instr.auto.inj hi
    exact keyStep_start hkeys
  | create hreq hi =>
    rw [hreq]
    exact keyStep_create_auto hi hsized hwithin
  | update hreq hi =>
    rw [hreq]
    exact keyStep_update_auto hi hsized hwithin
  | @submit user id l hreq hi => cases l <;> nomatch hi
  | @review action admin id comments l hreq hi => cases l <;> nomatch hi
  | @delete user id l hreq hi => cases l <;> nomatch hi
  | discard hi =>
    obtain rfl := Instr.auto.inj hi
    exact keyStep_discard
  | throwing hi => nomatch hi

/-- Every statement of a transaction.  The guarded writes are the first of theirs, so they find the
    committed rows. -/
theorem keyStep_stmt {b : Base Db Ext Write} {ws : List Write} (hcode : code cfg reqs p l = .stmt f)
    (hinv : Inv b) (hat : At J reqs p l b ws) :
    KeyStep (reqs p) l b.db b.world o (f o (after b.db ws) b.world) := by
  cases executes_of_code hcode nofun with
  | create hreq hi =>
    rw [hreq]
    refine keyStep_create_stmt hi (fun links ids hl => ?_) fun row hrow =>
      Nat.ne_of_lt (hinv.id_lt hrow)
    -- the INSERT comes first in its transaction
    subst hl
    obtain rfl : ws = [] := hat
    rfl
  | update hreq hi =>
    rw [hreq]
    refine keyStep_update_stmt hi fun patent links ids hl => ?_
    subst hl
    obtain rfl : ws = [] := hat
    rfl
  | submit hreq hi =>
    refine keyStep_submit_stmt hi fun hl => ?_
    subst hl
    obtain rfl : ws = [] := hat
    rfl
  | review hreq hi =>
    refine keyStep_review_stmt hi fun before hl => ?_
    subst hl
    obtain rfl : ws = [] := hat
    rfl
  | delete hreq hi =>
    rw [hreq]
    exact keyStep_delete_stmt hi
  | start hi => nomatch hi
  | discard hi => nomatch hi
  | throwing hi => nomatch hi

end Code

end SmartPatents.DocumentStore
