/-
  Does every document key name an object in the store?

  The store and the database are changed in separate steps.  A request checks the key it supplies
  (`verifyDocument`) long before it writes it; an edit that supplies the key it has read does not
  check at all.  A replaced or deleted document is discarded after the commit, under the key that
  was read before the transaction.

  Two crossings break the link (`NoCrossing` excludes them): a key is put on a row while a request
  is going to discard it, or a key is discarded while a request is going to put it on a row.
  `noDangling_of_run` shows that without them no document is ever lost.  The invariant (`Kept`)
  says of every key in flight who may carry it.

  Clients upload in between, under a key that was issued and before it is supplied.  Nothing else
  puts an object into the bucket, and nothing but `discard` takes one out; a delete that fails
  leaves the object there, which does no row any harm.  What is left over in the bucket is the
  question of `OrphanedDocuments`.

  The proof has a lemma for each thing that can happen: `Kept.statement`, `Kept.commit`,
  `Kept.stop` for a request that ends early, and `Kept.upload`.  Every one of them rests on
  `KeyStep`, and the commit also on what the guarded write has found (`released_of_editing`,
  `released_of_deleting`).
-/
import SmartPatents.DocumentKeys

namespace SmartPatents.DocumentStore

open ReadCommitted Runs Access Lifecycle Relations Storage PatentEvents PatentService

/-- Every document key of a patent names an object in the store. -/
def NoDangling (d : Db) (x : Ext) : Prop :=
  ∀ row ∈ d.patents, ∀ key, row.documentKey = some key → (headObject x.objects key).isSome

/-- No key is put on a row while a request is going to discard it, and none is discarded while a
    request is going to put it on a row. -/
def NoCrossing (reqs : Nat → Request) (σ : State Db Ext Write Loc) : Act Oracle Upload → Prop
  | .run p o =>
    (∀ q key, puts (reqs p) (σ.loc p) σ.base.db = some key →
      discarding (reqs q) (σ.loc q) σ.base.db ≠ some key) ∧
    ∀ q key reply, σ.loc p = .discard (some key) reply → o.deleted = true →
      supplying (reqs q) (σ.loc q) σ.base.db ≠ some key
  | _ => True

/-! ## The invariant -/

/-- The rows that may carry a key which the request is going to discard. -/
def MayCarry (r : Request) (l : Loc) (id : Nat) : Prop :=
  match l with
  | .discard _ _ => False
  | _ => r.subject = some id

/-- What a run keeps: every document of a row is in the bucket within the size limit, and whoever is
    about to discard a key is the only one who may still carry it. -/
structure Kept (cfg : Config) (reqs : Nat → Request) (σ : State Db Ext Write Loc) : Prop where
  sized : ∀ obj ∈ σ.base.world.objects, obj.size ≤ cfg.maxUploadBytes
  within : ∀ p, ¬ Oversized (σ.loc p)
  rows : ∀ row ∈ σ.base.db.patents, ∀ key, row.documentKey = some key → Stored σ.base.world key
  pending : ∀ p w new key, (p, w) ∈ σ.pend → w.patent? = some new → new.documentKey = some key →
    Stored σ.base.world key ∧ ∀ row ∈ σ.base.db.patents, row.documentKey = some key → row.id = new.id
  used : ∀ p id, Working (σ.loc p) → (reqs p).subject = some id → ¬ Unused σ.base.log id
  supplied : ∀ p key, supplying (reqs p) (σ.loc p) σ.base.db = some key → Stored σ.base.world key
  discards : ∀ p key, discarding (reqs p) (σ.loc p) σ.base.db = some key →
    (∀ row ∈ σ.base.db.patents, row.documentKey = some key → MayCarry (reqs p) (σ.loc p) row.id) ∧
    ∀ q w new, q ≠ p → (q, w) ∈ σ.pend → w.patent? = some new → new.documentKey = some key →
      MayCarry (reqs p) (σ.loc p) new.id

section Keys

variable {r : Request} {l : Loc} {d : Db} {x : Ext} {o : Oracle} {res : Outcome} {key : String}
  {id : Nat}

/-- A request that can still land its write supplies the key it has. -/
theorem supplying_eq_some :
    supplying r l d = some key ↔ canLand r d = true ∧ supplied r l = some key := by
  unfold supplying
  split <;> simp_all

theorem discarding_eq_some (hl : ¬ Discards l) :
    discarding r l d = some key ↔ canLand r d = true ∧ copied r l = some key := by
  cases l with
  | discard k reply => exact absurd trivial hl
  | _ => unfold discarding; dsimp only; split <;> simp_all

/-- Before its deletion, what a request may carry is the row it is about. -/
theorem mayCarry_iff (hl : ¬ Discards l) : MayCarry r l id ↔ r.subject = some id := by
  cases l with
  | discard k reply => exact absurd trivial hl
  | _ => exact Iff.rfl

/-- A copied key is discarded only after the commit. -/
theorem not_discards_of_copied (h : copied r l = some key) : ¬ Discards l := by
  intro hl
  cases l with
  | discard k reply => cases r <;> nomatch h
  | _ => exact hl

/-- Who supplies a key is past the first statement. -/
theorem working_of_supplied (h : supplied r l = some key) (hsubject : r.subject = some id) :
    Working l := by
  cases r with
  | updatePatent user id updates =>
    cases l with
    | update u => trivial
    | _ => nomatch h
  | createPatent user input => nomatch hsubject
  | _ => nomatch h

theorem working_of_copied (h : copied r l = some key) : Working l := by
  cases r with
  | updatePatent user id updates =>
    cases l with
    | update u => trivial
    | _ => nomatch h
  | deletePatent user id =>
    cases l with
    | delete c => trivial
    | _ => nomatch h
  | _ => nomatch h

/-- An object is gone only after its discard. -/
theorem KeyStep.stored (h : KeyStep r l d x o res) (hs : Stored x key)
    (hdiscard : ∀ reply, l = .discard (some key) reply → o.deleted = true →
      res.2.2 = .done reply → False) : Stored res.2.1 key := by
  obtain ⟨obj, hobj, rfl⟩ := hs
  rcases h.objects with heq | ⟨k, reply, hl, hdel, heq, hdone⟩
  · exact ⟨obj, heq ▸ hobj, rfl⟩
  · refine ⟨obj, ?_, rfl⟩
    rw [heq, Table.mem_erase]
    refine ⟨hobj, fun hk => ?_⟩
    obtain rfl : obj.key = k := hk
    exact hdiscard reply hl hdel hdone

end Keys

section Step

variable {cfg : Config} {reqs : Nat → Request} {σ : State Db Ext Write Loc} {p : Nat} {o : Oracle}
  {ws : List Write} {x' : Ext} {l' : Loc} {init : State Db Ext Write Loc}

/-- Nobody carries the key that a request is about to discard. -/
theorem Kept.unattached (hk : Kept cfg reqs σ) {key : String} {reply : Reply}
    (hl : σ.loc p = .discard (some key) reply) :
    (∀ row ∈ σ.base.db.patents, row.documentKey ≠ some key) ∧
      ∀ q w new, q ≠ p → (q, w) ∈ σ.pend → w.patent? = some new → new.documentKey ≠ some key := by
  have hdiscards := hk.discards p key (by rw [hl]; rfl)
  rw [hl] at hdiscards
  exact ⟨fun row hrow hkey => hdiscards.1 row hrow hkey,
    fun q w new hq hw hnew hkey => hdiscards.2 q w new hq hw hnew hkey⟩

/-- No statement discards the object of a row. -/
theorem Kept.stored (hk : Kept cfg reqs σ)
    (hstep : KeyStep (reqs p) (σ.loc p) σ.base.db σ.base.world o (ws, x', l')) :
    ∀ row ∈ σ.base.db.patents, ∀ key, row.documentKey = some key → Stored x' key := by
  intro row hrow key hkey
  refine hstep.stored (hk.rows row hrow key hkey) fun reply hl _ _ => ?_
  exact (hk.unattached hl).1 row hrow hkey

/-- A statement keeps what is known of the uncommitted rows, its own among them. -/
theorem Kept.pending_statement (hk : Kept cfg reqs σ)
    (H : Outline.Holds (patents cfg reqs) Inv (At (fun _ _ _ => True) reqs)
      (PatentTx (fun _ _ _ => True) reqs) init σ)
    (hstep : KeyStep (reqs p) (σ.loc p) σ.base.db σ.base.world o (ws, x', l')) {q : Nat} {w : Write}
    {new : Patent} {key : String} (hmem : (q, w) ∈ σ.pend ++ ws.map (p, ·))
    (hwnew : w.patent? = some new) (hkey : new.documentKey = some key) :
    Stored x' key ∧ ∀ row ∈ σ.base.db.patents, row.documentKey = some key → row.id = new.id := by
  rcases mem_append_writes.mp hmem with hw | ⟨rfl, hw⟩
  · obtain ⟨hs, hunique⟩ := hk.pending q w new key hw hwnew hkey
    refine ⟨hstep.stored hs fun reply hl _ _ => ?_, hunique⟩
    by_cases hq : q = p
    · -- a request that is about to discard has nothing uncommitted
      subst hq
      have hidle := H.assertions q
      rw [hl] at hidle
      have hnil : own q σ.pend = [] := hidle
      have hown : w ∈ own q σ.pend := mem_own.mpr hw
      rw [hnil] at hown
      nomatch hown
    · exact (hk.unattached hl).2 q w new hq hw hwnew hkey
  · rcases hstep.written hw hwnew hkey with ⟨old, hold, hid, holdkey⟩ | ⟨-, hsup, hfree⟩
    · refine ⟨hk.stored hstep old hold key holdkey, fun row hrow hrowkey => ?_⟩
      rw [← hid]
      exact H.inv.documentKey old hold row hrow (by simp [holdkey]) (hrowkey.trans holdkey.symm)
    · refine ⟨hstep.stored (hk.supplied q key hsup) fun reply hl _ _ => ?_,
        fun row hrow hrowkey => ?_⟩
      · have hsupplied := (supplying_eq_some.mp hsup).2
        rw [supplied_of_discards (by rw [hl]; trivial)] at hsupplied
        nomatch hsupplied
      · by_contra hne
        exact (uniqueClash_eq_false.mp hfree row hrow hne).1 (by simp [hkey])
          (hrowkey.trans hkey.symm)

/-- The key that the mover is going to discard: it was in flight before, or comes from a row. -/
theorem Kept.discards_mover (hk : Kept cfg reqs σ)
    (H : Outline.Holds (patents cfg reqs) Inv (At (fun _ _ _ => True) reqs)
      (PatentTx (fun _ _ _ => True) reqs) init σ)
    (hstep : KeyStep (reqs p) (σ.loc p) σ.base.db σ.base.world o (ws, x', l')) {key : String}
    (hdis : discarding (reqs p) l' σ.base.db = some key) :
    (∀ row ∈ σ.base.db.patents, row.documentKey = some key → MayCarry (reqs p) l' row.id) ∧
    ∀ q w new, q ≠ p → (q, w) ∈ σ.pend → w.patent? = some new → new.documentKey = some key →
      MayCarry (reqs p) l' new.id := by
  have hnotDiscards : ¬ Discards l' := hstep.keeps
  obtain ⟨hcan, hcopied⟩ := (discarding_eq_some hnotDiscards).mp hdis
  simp only [mayCarry_iff hnotDiscards]
  rcases hstep.copied key hcopied with hbefore | ⟨row₀, hrow₀, hkey₀, hsubject⟩
  · have hnd := not_discards_of_copied hbefore
    have hdis := hk.discards p key ((discarding_eq_some hnd).mpr ⟨hcan, hbefore⟩)
    simpa only [mayCarry_iff hnd] using hdis
  · refine ⟨fun row hrow hkey => ?_, fun q w new _ hw hwnew hkey => ?_⟩
    · rw [H.inv.documentKey row₀ hrow₀ row hrow (by simp [hkey₀]) (hkey.trans hkey₀.symm)]
      exact hsubject
    · rw [← (hk.pending q w new key hw hwnew hkey).2 row₀ hrow₀ hkey₀]
      exact hsubject

/-- **Statements keep the invariant** if no key crosses. -/
theorem Kept.statement (hk : Kept cfg reqs σ)
    (H : Outline.Holds (patents cfg reqs) Inv (At (fun _ _ _ => True) reqs)
      (PatentTx (fun _ _ _ => True) reqs) init σ)
    (hstep : KeyStep (reqs p) (σ.loc p) σ.base.db σ.base.world o (ws, x', l'))
    (hok : NoCrossing reqs σ (.run p o)) :
    Kept cfg reqs
      { base := { σ.base with world := x' }
        pend := σ.pend ++ ws.map (p, ·)
        loc := goto σ.loc p l' } where
  sized := by
    intro obj hobj
    rcases hstep.objects with heq | ⟨key, reply, -, -, heq, -⟩
    · exact hk.sized obj (heq ▸ hobj)
    · have hobj' : obj ∈ σ.base.world.objects.erase key := heq ▸ hobj
      exact hk.sized obj (Table.mem_erase.mp hobj').1
  within := forall_goto (P := fun _ l => ¬ Oversized l) hstep.within fun q _ => hk.within q
  rows := hk.stored hstep
  pending := fun q w new key hmem hwnew hkey => hk.pending_statement H hstep hmem hwnew hkey
  used := by
    refine forall_goto (P := fun q l => ∀ id, Working l → (reqs q).subject = some id →
      ¬ Unused σ.base.log id) (fun id hworking hsubject => ?_) fun q _ => hk.used q
    rcases hstep.working hworking with hw | ⟨row, hrow, hrowid⟩
    · exact hk.used p id hw hsubject
    · obtain rfl := Option.some.inj (hrowid.symm.trans hsubject)
      exact H.inv.inserted row hrow
  supplied := by
    refine forall_goto (P := fun q l => ∀ key, supplying (reqs q) l σ.base.db = some key →
      Stored x' key) (fun key hsup => ?_) fun q _ key hsup => ?_
    · obtain ⟨hcan, hsup⟩ := supplying_eq_some.mp hsup
      have hs : Stored σ.base.world key := by
        rcases hstep.supplied key hsup with hbefore | hs | ⟨row, hrow, hkey⟩
        · exact hk.supplied p key (supplying_eq_some.mpr ⟨hcan, hbefore⟩)
        · exact hs
        · exact hk.rows row hrow key hkey
      refine hstep.stored hs fun reply _ _ hdone => ?_
      dsimp only at hdone
      rw [hdone, supplied_of_keyless (l := .done reply) trivial] at hsup
      nomatch hsup
    · refine hstep.stored (hk.supplied q key hsup) fun reply hl hdel _ => ?_
      exact hok.2 q key reply hl hdel hsup
  discards := by
    refine forall_goto (P := fun q l => ∀ key, discarding (reqs q) l σ.base.db = some key →
      (∀ row ∈ σ.base.db.patents, row.documentKey = some key → MayCarry (reqs q) l row.id) ∧
      ∀ q' w new, q' ≠ q → (q', w) ∈ σ.pend ++ ws.map (p, ·) → w.patent? = some new →
        new.documentKey = some key → MayCarry (reqs q) l new.id)
      (fun key hdis => ?_) fun q _ key hdis => ?_
    · obtain ⟨hrow, hpend⟩ := hk.discards_mover H hstep hdis
      refine ⟨hrow, fun q' w new hne hmem hwnew hkey => ?_⟩
      rcases mem_append_writes.mp hmem with hw | ⟨hq', -⟩
      · exact hpend q' w new hne hw hwnew hkey
      · exact absurd hq' hne
    · obtain ⟨hrow, hpend⟩ := hk.discards q key hdis
      refine ⟨hrow, fun q' w new hne hmem hwnew hkey => ?_⟩
      rcases mem_append_writes.mp hmem with hw | ⟨rfl, hw⟩
      · exact hpend q' w new hne hw hwnew hkey
      · rcases hstep.written hw hwnew hkey with ⟨old, hold, hid, holdkey⟩ | ⟨hputs, -, -⟩
        · exact hid ▸ hrow old hold holdkey
        · exact absurd hdis (hok.1 q key hputs)

/-! ## Commits -/

/-- A transaction brings no row back. -/
theorem canLand_back {r : Request} {q : Nat} {d : Db} {log : List (Nat × List Write)}
    (htx : PatentTx (fun _ _ _ => True) reqs q d log ws)
    (hused : ∀ id, r.subject = some id → ¬ Unused log id) (h : canLand r (after d ws) = true) :
    canLand r d = true := by
  -- the row after the transaction has been there before, as a draft if it is one now
  have hback : ∀ id, r.subject = some id → ∀ row, (after d ws).patents.get? id = some row →
      ∃ old, d.patents.get? id = some old ∧ (row.status = .draft → old.status = .draft) := by
    intro id hsubject row hrow
    cases htx.effect id with
    | other hreq hsame => exact ⟨row, hsame.symm.trans hrow, fun h => h⟩
    | create hreq hunused => exact absurd hunused (hused id hsubject)
    | update hreq hold hstatus hknown hnew =>
      obtain rfl := Option.some.inj (hnew.symm.trans hrow)
      exact ⟨_, hold, fun h => h⟩
    | submit hreq hold hstatus hnew =>
      obtain rfl := Option.some.inj (hnew.symm.trans hrow)
      exact ⟨_, hold, fun hdraft => absurd hdraft (to_ne_draft .submit)⟩
    | @review action _ _ _ _ _ _ _ _ _ _ hreq hold hstatus hknown hrecord hmem hnew =>
      obtain rfl := Option.some.inj (hnew.symm.trans hrow)
      exact ⟨_, hold, fun hdraft => absurd hdraft (to_ne_draft action)⟩
    | delete hreq hold hstatus hnone =>
      rw [hnone] at hrow
      nomatch hrow
  cases r with
  | updatePatent user id updates =>
    obtain ⟨row, hrow⟩ := Option.isSome_iff_exists.mp h
    obtain ⟨old, hold, -⟩ := hback id rfl row hrow
    exact Option.isSome_iff_exists.mpr ⟨old, hold⟩
  | deletePatent user id =>
    obtain ⟨row, hrow, hdraft⟩ := (Option.any_eq_true _ _).mp h
    obtain ⟨old, hold, hwas⟩ := hback id rfl row hrow
    refine (Option.any_eq_true _ _).mpr ⟨old, hold, ?_⟩
    simpa using hwas (by simpa using hdraft)
  | _ => rfl

/-- What a request leaves behind when it commits and goes on to discard `key`. -/
structure Released (r : Request) (l : Loc) (d : Db) (ws : List Write) (key : String) (id : Nat) :
    Prop where
  copied : copied r l = some key
  canLand : canLand r d = true
  subject : r.subject = some id
  locked : ∃ w ∈ ws, w.touches = some id
  freed : ∀ row ∈ (after d ws).patents, row.documentKey = some key →
    row ∈ d.patents ∧ row.id ≠ id

/-- An edit that commits another document releases the old one. -/
theorem released_of_editing {b : Base Db Ext Write} {user : Caller} {id : Nat} {updates : Updates}
    {patent record : PatentRecord} {key : String}
    (hreq : reqs p = .updatePatent user id updates)
    (hat : Editing (fun _ _ _ => True) reqs p b ws patent)
    (hreplacing : replacingDocument updates patent.toPatent = true)
    (hkey : patent.documentKey = some key) :
    Released (reqs p) (.update (.commit patent record)) b.db ws key id := by
  obtain ⟨user', id', updates', links, ids, old, now, ls, hreq', hlands, -, -, hls, rfl⟩ := hat
  obtain ⟨rfl, rfl, rfl⟩ := Request.updatePatent.inj (hreq'.symm.trans hreq)
  -- the key that the edit has written is another one
  obtain ⟨k, hk, hne⟩ : ∃ k, updates'.documentKey = some k ∧ k ≠ key := by
    unfold replacingDocument at hreplacing
    obtain ⟨k, hk, hne⟩ := (Option.any_eq_true _ _).mp hreplacing
    refine ⟨k, (Option.filter_eq_some_iff.mp hk).1, fun he => ?_⟩
    rw [hkey, he] at hne
    simp at hne
  refine ⟨?_, ?_, by rw [hreq']; rfl, ⟨_, List.mem_cons_self, congrArg some hlands.id⟩,
    fun row hrow hrowkey => ?_⟩
  · rw [hreq']
    exact (if_pos hreplacing).trans hkey
  · rw [hreq', canLand, hlands.get?]
    rfl
  · rw [(@tables_of_update b.db ls old (edited updates' patent.toPatent old now) id' hls).1,
      Table.mem_put] at hrow
    rcases hrow with rfl | ⟨hrow, hrowid⟩
    · have hnew : (edited updates' patent.toPatent old now).documentKey = some k := by
        simp only [edited, scalar, hk, Option.some_or]
      exact absurd (Option.some.inj (hnew.symm.trans hrowkey)) hne
    · exact ⟨hrow, fun hid => hrowid (hid.trans hlands.id.symm)⟩

/-- A deletion that commits releases the document of its row. -/
theorem released_of_deleting {b : Base Db Ext Write} {user : Caller} {id : Nat}
    {patent : PatentRecord} {key : String} (hreq : reqs p = .deletePatent user id)
    (hat : Deleting reqs p b ws) (hkey : patent.documentKey = some key) :
    Released (reqs p) (.delete (.commit patent)) b.db ws key id := by
  obtain ⟨user', id', old, hreq', hlands, rfl⟩ := hat
  obtain ⟨rfl, rfl⟩ := Request.deletePatent.inj (hreq'.symm.trans hreq)
  have hdraft : old.status = .draft := by simpa using hlands.status
  refine ⟨by rw [hreq']; exact hkey, ?_, by rw [hreq']; rfl,
    ⟨_, List.mem_cons_self, congrArg some hlands.id⟩, fun row hrow hrowkey => ?_⟩
  · rw [hreq', canLand, hlands.get?, Option.any_some, hdraft]
    rfl
  · have hrow : row ∈ b.db.patents.erase old.id := hrow
    obtain ⟨hmem, hrowid⟩ := Table.mem_erase.mp hrow
    exact ⟨hmem, fun hid => hrowid (hid.trans hlands.id.symm)⟩

/-- A commit ends the request, or releases the key that it discards next. -/
theorem next_of_commit {l : Loc} {b : Base Db Ext Write} (hcode : code cfg reqs p l = .commit l')
    (hat : At (fun _ _ _ => True) reqs p l b ws) :
    (∃ reply, l' = .done reply) ∨ ∃ key reply, l' = .discard key reply ∧
      ∀ k, key = some k → ∃ id, Released (reqs p) l b.db ws k id := by
  cases executes_of_code hcode nofun with
  | @create user input l hreq hi =>
    cases l with
    | commit record => exact Or.inl ⟨_, (Instr.commit.inj hi).symm⟩
    | _ => nomatch hi
  | @update user id updates l hreq hi =>
    cases l with
    | commit patent record =>
      obtain rfl := Instr.commit.inj hi
      by_cases hreplacing : replacingDocument updates patent.toPatent = true
      · rw [if_pos hreplacing]
        exact Or.inr ⟨_, _, rfl, fun k hk => ⟨id, released_of_editing hreq hat hreplacing hk⟩⟩
      · rw [if_neg hreplacing]
        exact Or.inl ⟨_, rfl⟩
    | _ => nomatch hi
  | @submit user id l hreq hi =>
    cases l with
    | commit record => exact Or.inl ⟨_, (Instr.commit.inj hi).symm⟩
    | _ => nomatch hi
  | @review action admin id comments l hreq hi =>
    cases l with
    | commit record => exact Or.inl ⟨_, (Instr.commit.inj hi).symm⟩
    | _ => nomatch hi
  | @delete user id l hreq hi =>
    cases l with
    | commit patent =>
      obtain rfl := Instr.commit.inj hi
      exact Or.inr ⟨_, _, rfl, fun k hk => ⟨id, released_of_deleting hreq hat hk⟩⟩
    | _ => nomatch hi
  | start hi => nomatch hi
  | discard hi => nomatch hi
  | throwing hi => nomatch hi

/-- A request that is about no key holds none. -/
theorem not_supplying {r : Request} {l : Loc} {d : Db} {key : String}
    (h : supplied r l = none) : supplying r l d ≠ some key := by
  intro hsup
  have hsupplied := (supplying_eq_some.mp hsup).2
  rw [h] at hsupplied
  nomatch hsupplied

theorem not_discarding {r : Request} {l : Loc} {d : Db} {key : String} (h : Keyless l) :
    discarding r l d ≠ some key := by
  intro hdis
  have hnd : ¬ Discards l := by
    intro hd
    cases l <;> first | exact h.elim | exact hd.elim
  have hcopied := ((discarding_eq_some hnd).mp hdis).2
  rw [copied_of_keyless h] at hcopied
  nomatch hcopied

/-- A request that ends without a commit. -/
theorem Kept.stop (hk : Kept cfg reqs σ) (reply : Reply) :
    Kept cfg reqs { σ with pend := drop p σ.pend, loc := goto σ.loc p (.done reply) } where
  sized := hk.sized
  within := forall_goto (P := fun _ l => ¬ Oversized l) id fun q _ => hk.within q
  rows := hk.rows
  pending := fun q w new key hw => hk.pending q w new key (mem_drop.mp hw).1
  used := forall_goto (P := fun q l => ∀ id, Working l → (reqs q).subject = some id →
    ¬ Unused σ.base.log id) (fun _ hw => hw.elim) fun q _ => hk.used q
  supplied := by
    refine forall_goto (P := fun q l => ∀ key, supplying (reqs q) l σ.base.db = some key →
      Stored σ.base.world key) (fun key hsup => ?_) fun q _ => hk.supplied q
    exact absurd hsup (not_supplying (supplied_of_keyless trivial))
  discards := by
    refine forall_goto (P := fun q l => ∀ key, discarding (reqs q) l σ.base.db = some key →
      (∀ row ∈ σ.base.db.patents, row.documentKey = some key → MayCarry (reqs q) l row.id) ∧
      ∀ q' w new, q' ≠ q → (q', w) ∈ drop p σ.pend → w.patent? = some new →
        new.documentKey = some key → MayCarry (reqs q) l new.id)
      (fun key hdis => ?_) fun q _ key hdis => ?_
    · exact absurd hdis (not_discarding trivial)
    · obtain ⟨hrow, hpend⟩ := hk.discards q key hdis
      exact ⟨hrow, fun q' w new hne hw => hpend q' w new hne (mem_drop.mp hw).1⟩

/-- The commit of another request brings no key back into flight. -/
theorem Kept.supplying_back (hk : Kept cfg reqs σ) {q : Nat} {key : String}
    (htx : PatentTx (fun _ _ _ => True) reqs p σ.base.db σ.base.log ws)
    (h : supplying (reqs q) (σ.loc q) (after σ.base.db ws) = some key) :
    supplying (reqs q) (σ.loc q) σ.base.db = some key := by
  obtain ⟨hcan, hsup⟩ := supplying_eq_some.mp h
  refine supplying_eq_some.mpr ⟨canLand_back htx (fun id hsubject => ?_) hcan, hsup⟩
  exact hk.used q id (working_of_supplied hsup hsubject) hsubject

/-- A commit of somebody else makes nobody discard a key. -/
theorem Kept.discarding_back (hk : Kept cfg reqs σ) {q : Nat} {key : String}
    (htx : PatentTx (fun _ _ _ => True) reqs p σ.base.db σ.base.log ws)
    (h : discarding (reqs q) (σ.loc q) (after σ.base.db ws) = some key) :
    discarding (reqs q) (σ.loc q) σ.base.db = some key := by
  by_cases hd : Discards (σ.loc q)
  · cases hl : σ.loc q with
    | discard k reply =>
      rw [hl] at h
      exact h
    | _ =>
      rw [hl] at hd
      exact hd.elim
  · obtain ⟨hcan, hcopied⟩ := (discarding_eq_some hd).mp h
    refine (discarding_eq_some hd).mpr ⟨canLand_back htx (fun id hsubject => ?_) hcan, hcopied⟩
    exact hk.used q id (working_of_copied hcopied) hsubject

/-- When a request commits and goes on to discard a key, nobody carries the key any more. -/
theorem Kept.free_of_released (hk : Kept cfg reqs σ)
    (hap : ∀ q q', q ≠ q' → (patents cfg reqs).Apart (own q σ.pend) (own q' σ.pend)) {key : String}
    {id : Nat} (hrel : Released (reqs p) (σ.loc p) σ.base.db (own p σ.pend) key id) :
    (∀ row ∈ (after σ.base.db (own p σ.pend)).patents, row.documentKey ≠ some key) ∧
    ∀ q w new, q ≠ p → (q, w) ∈ σ.pend → w.patent? = some new → new.documentKey ≠ some key := by
  have hnd := not_discards_of_copied hrel.copied
  have hbefore := hk.discards p key ((discarding_eq_some hnd).mpr ⟨hrel.canLand, hrel.copied⟩)
  simp only [mayCarry_iff hnd] at hbefore
  refine ⟨fun row hrow hkey => ?_, fun q w new hne hw hwnew hkey => ?_⟩
  · -- the only row that could carry the key is the one this commit has rid of it
    obtain ⟨hold, hid⟩ := hrel.freed row hrow hkey
    exact hid (Option.some.inj ((hbefore.1 row hold hkey).symm.trans hrel.subject))
  · -- and that row is locked
    have hid : id = new.id :=
      Option.some.inj (hrel.subject.symm.trans (hbefore.2 q w new hne hw hwnew hkey))
    obtain ⟨v, hv, hvtouch⟩ := hrel.locked
    have hwtouch : w.touches = some id := by
      rw [hid]
      cases w <;> first | exact congrArg (Option.map Patent.id) hwnew | nomatch hwnew
    exact touches_ne (hap p q hne.symm) hv (mem_own.mpr hw) hvtouch hwtouch

/-- **Commits keep the invariant.** -/
theorem Kept.commit (hk : Kept cfg reqs σ)
    (H : Outline.Holds (patents cfg reqs) Inv (At (fun _ _ _ => True) reqs)
      (PatentTx (fun _ _ _ => True) reqs) init σ)
    (hcode : code cfg reqs p (σ.loc p) = .commit l') :
    Kept cfg reqs
      { base := (patents cfg reqs).commitBase σ.base p (own p σ.pend)
        pend := drop p σ.pend
        loc := goto σ.loc p l' } := by
  obtain ⟨-, htx, -⟩ := (outline (fun _ _ _ => True) cfg reqs).commit hcode
    (fun _ _ _ _ _ => trivial) H.inv (H.assertions p)
  have hnext := next_of_commit hcode (H.assertions p)
  have horigin : ∀ row ∈ (after σ.base.db (own p σ.pend)).patents,
      row ∈ σ.base.db.patents ∨ ∃ w, (p, w) ∈ σ.pend ∧ w.patent? = some row := by
    intro row hrow
    rcases patent_back _ hrow with hrow | ⟨w, hw, hwrow⟩
    · exact Or.inl hrow
    · exact Or.inr ⟨w, mem_own.mp hw, hwrow⟩
  constructor
  case sized => exact hk.sized
  case within =>
    refine forall_goto (P := fun _ l => ¬ Oversized l) ?_ fun q _ => hk.within q
    rcases hnext with ⟨reply, rfl⟩ | ⟨key, reply, rfl, -⟩
    · exact id
    · exact id
  case rows =>
    intro row hrow key hkey
    rcases horigin row hrow with hrow | ⟨w, hw, hwrow⟩
    · exact hk.rows row hrow key hkey
    · exact (hk.pending p w row key hw hwrow hkey).1
  case pending =>
    intro q w new key hmem hwnew hkey
    obtain ⟨hw, hq⟩ := mem_drop.mp hmem
    obtain ⟨hs, hunique⟩ := hk.pending q w new key hw hwnew hkey
    refine ⟨hs, fun row hrow hrowkey => ?_⟩
    rcases horigin row hrow with hrow | ⟨w', hw', hwrow⟩
    · exact hunique row hrow hrowkey
    · -- two open transactions do not write the same key
      have hap := H.apart q p hq
      exact absurd (mem_locks_of_documentKey hwrow hrowkey)
        (hap.excludes (mem_own.mpr hw) (mem_own.mpr hw') (mem_locks_of_documentKey hwnew hkey)
          false)
  case used =>
    refine forall_goto (P := fun q l => ∀ id, Working l → (reqs q).subject = some id →
      ¬ Unused (σ.base.log ++ [(p, own p σ.pend)]) id) (fun id hworking _ => ?_)
      fun q _ id hworking hsubject => not_unused_concat (hk.used q id hworking hsubject)
    rcases hnext with ⟨reply, rfl⟩ | ⟨key, reply, rfl, -⟩
    · exact hworking.elim
    · exact hworking.elim
  case supplied =>
    refine forall_goto (P := fun q l => ∀ key,
      supplying (reqs q) l (after σ.base.db (own p σ.pend)) = some key →
      Stored σ.base.world key) (fun key hsup => ?_)
      fun q _ key hsup => hk.supplied q key (hk.supplying_back htx hsup)
    rcases hnext with ⟨reply, rfl⟩ | ⟨k, reply, rfl, -⟩
    · exact absurd hsup (not_supplying (supplied_of_keyless trivial))
    · exact absurd hsup (not_supplying (supplied_of_discards trivial))
  case discards =>
    refine forall_goto (P := fun q l => ∀ key,
      discarding (reqs q) l (after σ.base.db (own p σ.pend)) = some key →
      (∀ row ∈ (after σ.base.db (own p σ.pend)).patents, row.documentKey = some key →
        MayCarry (reqs q) l row.id) ∧
      ∀ q' w new, q' ≠ q → (q', w) ∈ drop p σ.pend → w.patent? = some new →
        new.documentKey = some key → MayCarry (reqs q) l new.id)
      (fun key hdis => ?_) fun q hq key hdis => ?_
    · rcases hnext with ⟨reply, rfl⟩ | ⟨k, reply, rfl, hrel⟩
      · exact absurd hdis (not_discarding trivial)
      · obtain rfl : k = some key := hdis
        obtain ⟨id, hrel⟩ := hrel key rfl
        obtain ⟨hrow, hpend⟩ := hk.free_of_released H.apart hrel
        exact ⟨hrow, fun q' w new hne hw => hpend q' w new hne (mem_drop.mp hw).1⟩
    · obtain ⟨hrows, hpend⟩ := hk.discards q key (hk.discarding_back htx hdis)
      refine ⟨fun row hrow hkey => ?_,
        fun q' w new hne hmem => hpend q' w new hne (mem_drop.mp hmem).1⟩
      rcases horigin row hrow with hrow | ⟨w, hw, hwrow⟩
      · exact hrows row hrow hkey
      · exact hpend p w row (Ne.symm hq) hw hwrow hkey

/-- An upload only adds an object. -/
theorem Kept.upload (hk : Kept cfg reqs σ) {u : Upload} (henv : upload cfg u σ.base.world = some x') :
    Kept cfg reqs { σ with base := { σ.base with world := x' } } := by
  cases u with
  | put key size =>
    simp only [PatentService.upload] at henv
    split at henv
    · rename_i hallowed
      obtain rfl := Option.some.inj henv
      have hstored : ∀ k, Stored σ.base.world k →
          Stored { σ.base.world with
            objects := σ.base.world.objects.put ⟨key, size⟩
            uploaded := key :: σ.base.world.uploaded } k := by
        rintro k ⟨obj, hobj, rfl⟩
        by_cases hkey : obj.key = key
        · exact ⟨⟨key, size⟩, Table.mem_put.mpr (Or.inl rfl), hkey.symm⟩
        · exact ⟨obj, Table.mem_put.mpr (Or.inr ⟨hobj, hkey⟩), rfl⟩
      refine ⟨fun obj hobj => ?_, hk.within, fun row hrow k hk' => hstored k (hk.rows row hrow k hk'),
        fun q w new k hw hwnew hkey => ?_, hk.used, fun q k hsup => hstored k (hk.supplied q k hsup),
        hk.discards⟩
      · rcases Table.mem_put.mp hobj with rfl | ⟨hobj, -⟩
        · exact hallowed.2.2.2
        · exact hk.sized obj hobj
      · obtain ⟨hs, hunique⟩ := hk.pending q w new k hw hwnew hkey
        exact ⟨hstored k hs, hunique⟩
    · cases henv

end Step

/-! ## Every run -/

section Runs

variable {cfg : Config} {reqs : Nat → Request} {users : Table User User.id}
  {inventors : Table Inventor Inventor.id} {categories : Table Category Category.id}
  {σ σ' : State Db Ext Write Loc} {a : Act Oracle Upload}

theorem kept_init : Kept cfg reqs (init users inventors categories) where
  sized := fun _ hobj => absurd hobj (Table.not_mem_empty _)
  within := fun _ => id
  rows := fun _ hrow => absurd hrow (Table.not_mem_empty _)
  pending := fun _ _ _ _ hw => (List.not_mem_nil hw).elim
  used := fun _ _ hw => hw.elim
  supplied := fun _ _ hsup => absurd hsup (not_supplying (supplied_of_keyless trivial))
  discards := fun _ _ hdis => absurd hdis (not_discarding trivial)

/-- **Step lemma.** -/
theorem Kept.step (hkeys : ∀ p key, (reqs p).documentKey = some key → documentKeyField key = true)
    (hrun : Run (patents cfg reqs).step always (init users inventors categories) σ)
    (hk : Kept cfg reqs σ) (hok : NoCrossing reqs σ a)
    (hs : (patents cfg reqs).step σ a = some σ') : Kept cfg reqs σ' := by
  have H := holds_of_run (landing_of_always hrun)
  cases Machine.effect_of_step _ hs with
  | @stmt p o f hcode hfree =>
    exact hk.statement H (keyStep_stmt hcode H.inv (H.assertions p)) hok
  | @read p o f hcode hnone =>
    have hstep := hk.statement H (keyStep_auto (d := σ.base.db) (o := o) hcode
      (fun key h => ne_empty_of_documentKeyField (hkeys p key h)) hk.sized (hk.within p)) hok
    have hidle : own p σ.pend = [] := idle_of_auto hcode (H.assertions p)
    have hview : (patents cfg reqs).view σ p = σ.base.db := by
      rw [Machine.view, hidle]
      rfl
    rw [hview] at hnone ⊢
    simpa only [hnone, List.map_nil, List.append_nil] using hstep
  | @auto p o f hcode hfree hsome =>
    exact absurd (auto_quiet (J := fun _ _ _ => True) hcode o _ _).none hsome
  | commit hcode => exact hk.commit H hcode
  | rollback hcode =>
    obtain ⟨e, rfl⟩ := eq_of_rollback hcode
    exact hk.stop _
  | fail => exact hk.stop _
  | @env u x henv => exact hk.upload henv

/-- **No dangling document** in a run in which no key crosses. -/
theorem noDangling_of_run
    (hkeys : ∀ p key, (reqs p).documentKey = some key → documentKeyField key = true)
    (hrun : Run (patents cfg reqs).step (NoCrossing reqs) (init users inventors categories) σ) :
    NoDangling σ.base.db σ.base.world := by
  have hkept : Kept cfg reqs σ :=
    hrun.invariant_reached (fun τ a τ' hbefore hk hok hs => hk.step hkeys hbefore.forget hok hs)
      kept_init
  intro row hrow key hkey
  exact headObject_isSome.mpr (hkept.rows row hrow key hkey)

end Runs

/-! ## Evaluating runs -/

instance (d : Db) (x : Ext) : Decidable (NoDangling d x) :=
  inferInstanceAs (Decidable (∀ row ∈ d.patents.rows, ∀ key ∈ row.documentKey,
    (headObject x.objects key).isSome = true))

/-- `NoCrossing` where only the requests below `n` have begun. -/
def NoCrossingBelow (n : Nat) (reqs : Nat → Request) (σ : State Db Ext Write Loc) :
    Act Oracle Upload → Prop
  | .run p o => p < n ∧ (∀ q < n, ∀ key ∈ puts (reqs p) (σ.loc p) σ.base.db,
      discarding (reqs q) (σ.loc q) σ.base.db ≠ some key) ∧
    match σ.loc p with
    | .discard (some key) _ => o.deleted = true →
        ∀ q < n, supplying (reqs q) (σ.loc q) σ.base.db ≠ some key
    | _ => True
  | .fail p => p < n
  | .env _ => True

instance (n : Nat) (reqs : Nat → Request) (σ : State Db Ext Write Loc) :
    ∀ a, Decidable (NoCrossingBelow n reqs σ a)
  | .run p o => by
      unfold NoCrossingBelow
      dsimp only
      split <;> infer_instance
  | .fail p => inferInstanceAs (Decidable (p < n))
  | .env _ => isTrue trivial

/-- Requests that have not started cross nobody. -/
theorem noCrossing_of_below {cfg : Config} {reqs : Nat → Request} {n : Nat}
    {σ σ' : State Db Ext Write Loc} (hstart : ∀ q, σ.loc q = .start)
    (hrun : Run (patents cfg reqs).step (NoCrossingBelow n reqs) σ σ') :
    Run (patents cfg reqs).step (NoCrossing reqs) σ σ' := by
  refine hrun.mono_of_invariant (I := fun τ => ∀ q, n ≤ q → τ.loc q = .start)
    (fun τ a τ' hτ hok hs q hq => ?_) (fun τ a hτ hok => ?_) fun q _ => hstart q
  · have hmover : a.mover ≠ some q := by
      intro hm
      cases a with
      | run p o => exact absurd hok.1 (by have := Option.some.inj hm; omega)
      | fail p => exact absurd (show p < n from hok) (by have := Option.some.inj hm; omega)
      | env u => nomatch hm
    rw [(Machine.frame_of_step _ hs hmover).1]
    exact hτ q hq
  · cases a with
    | run p o =>
      obtain ⟨-, hputs, hdiscard⟩ := hok
      refine ⟨fun q key hkey => ?_, fun q key reply hl hdel => ?_⟩
      · by_cases hq : q < n
        · exact hputs q hq key hkey
        · rw [hτ q (by omega)]
          exact not_discarding trivial
      · rw [hl] at hdiscard
        by_cases hq : q < n
        · exact hdiscard hdel q hq
        · rw [hτ q (by omega)]
          exact not_supplying (supplied_of_keyless trivial)
    | _ => trivial

/-! ## Two edits of one draft -/

/-- An edit that attaches another document. -/
def redocument (key : String) : Updates := ⟨none, none, none, some key, none, none, none, none⟩

/-- Edit 3 sends the document key it has read, edit 4 replaces the document. -/
def twoDocuments : Nat → Request
  | 0 => .requestUpload ada "a.pdf" "application/pdf"
  | 1 => .createPatent ada firstInput
  | 2 => .requestUpload ada "b.pdf" "application/pdf"
  | 3 => .updatePatent ada 1 (redocument (keyOf "a.pdf"))
  | _ => .updatePatent ada 1 (redocument (keyOf "b.pdf"))

theorem twoDocuments_valid (p : Nat) (key : String)
    (h : (twoDocuments p).documentKey = some key) : documentKeyField key = true := by
  have ha : documentKeyField (keyOf "a.pdf") = true := by decide
  have hb : documentKeyField (keyOf "b.pdf") = true := by decide
  match p with
  | 0 => nomatch h
  | 1 => exact Option.some.inj h ▸ ha
  | 2 => nomatch h
  | 3 => exact Option.some.inj h ▸ ha
  | p + 4 => exact Option.some.inj h ▸ hb

/-- The submitter uploads a second file. -/
def secondUpload : List (Act Oracle Upload) := steps 2 1 ++ [.env (.put (keyOf "b.pdf") 10)]

/-- One edit after the other. -/
def replacedAfter : List (Act Oracle Upload) :=
  drafted ++ secondUpload ++ steps 3 7 ++ steps 4 10

/-- Edit 3 reads the draft, and writes when edit 4 has discarded the document. -/
def replacedAcross : List (Act Oracle Upload) :=
  drafted ++ secondUpload ++ steps 3 4 ++ steps 4 10 ++ steps 3 3

theorem replacedAfter_runs :
    (execOk (patents pdfOnly twoDocuments).step (NoCrossingBelow 5 twoDocuments) blank
      replacedAfter).isSome = true := by
  decide

/-- An edit after another: each document that a row names is in the bucket. -/
theorem noDangling_of_replacedAfter :
    ∃ σ, execOk (patents pdfOnly twoDocuments).step (NoCrossingBelow 5 twoDocuments) blank
        replacedAfter = some σ ∧ NoDangling σ.base.db σ.base.world := by
  obtain ⟨σ, hσ⟩ := Option.isSome_iff_exists.mp replacedAfter_runs
  exact ⟨σ, hσ, noDangling_of_run twoDocuments_valid
    (noCrossing_of_below (fun _ => rfl) (Run.of_execOk hσ))⟩

theorem replacedAcross_runs :
    (exec (patents pdfOnly twoDocuments).step blank replacedAcross).isSome = true := by
  decide

/-- The draft ends up with the key of the discarded document. -/
theorem not_noDangling :
    ¬ ∀ (cfg : Config) (reqs : Nat → Request) (users : Table User User.id)
      (inventors : Table Inventor Inventor.id) (categories : Table Category Category.id)
      (σ : State Db Ext Write Loc),
      (∀ p key, (reqs p).documentKey = some key → documentKeyField key = true) →
      Run (patents cfg reqs).step always (init users inventors categories) σ →
      NoDangling σ.base.db σ.base.world := by
  intro hall
  have hkept := hall pdfOnly twoDocuments accounts Table.empty Table.empty _ twoDocuments_valid
    (Run.exec_get replacedAcross_runs)
  exact absurd hkept (by decide)

end SmartPatents.DocumentStore
