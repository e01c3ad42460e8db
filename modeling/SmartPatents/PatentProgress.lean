/-
  Requests that wait, and requests that end.

  A patent request takes its locks one statement after the other: first the row of its patent with
  the values of its unique columns, then links, a review, an event.  It can be made to wait for the
  first of them only (`waits_of_run`): links belong to the patent whose row is locked already, and
  reviews and events have ids that a sequence gives out once.  So nobody holds a lock while waiting
  for another, and the patent requests never deadlock.

  Every statement takes a request nearer to its end (`rank`): no request makes more than fourteen
  moves, however often the others get in between, and in every state each of them can still be
  answered (`answered_of_exec`).

  Both results are those of `Ranked` in `Lib.Progress`: `Grows` is what it needs of the locks of a
  transaction, and `rank` of the locations.  That nobody fails in the second one is part of the
  statement: from any state there is a way on which the statements of the source answer, and no
  transaction is aborted.

  The parts: `rank_of_code` and its two companions for commit and rollback; `Fits`, which says
  that a request is at a location of its own operation and so has an answer when it halts
  (`done_of_halt`); `Grows.apart`, which goes through the kinds of locks; and `ranked`, which
  hands all of it to the library.
-/
import SmartPatents.Lib.Progress
import SmartPatents.PatentHistory
import SmartPatents.PatentMoves

namespace SmartPatents.PatentService

open ReadCommitted Runs Access Lifecycle Relations Storage PatentEvents

/-! ## How far a request is from its end -/

/-- The longest way from a location to the answer, in statements. -/
def rank : Loc → Nat
  | .start => 14
  | .create l =>
    match l with
    | .head => 10
    | .inventorLinks => 9
    | .categoryIds _ => 8
    | .publication _ _ => 7
    | .insert _ _ => 6
    | .linkCategories _ _ _ => 5
    | .linkInventors _ _ => 4
    | .reread _ => 3
    | .commit _ | .oversized _ => 2
  | .update l =>
    match l with
    | .attached _ => 13
    | .head _ => 12
    | .publication _ => 11
    | .inventorLinks _ => 10
    | .categoryIds _ _ => 9
    | .write _ _ _ => 8
    | .unlinkCategories _ _ _ => 7
    | .linkCategories _ _ _ => 6
    | .unlinkInventors _ _ => 5
    | .linkInventors _ _ => 4
    | .reread _ => 3
    | .commit _ _ | .oversized _ | .refused => 2
  | .submit l =>
    match l with
    | .write => 4
    | .reread => 3
    | .commit _ | .refused => 2
  | .review l =>
    match l with
    | .before => 7
    | .write _ => 6
    | .reread _ => 5
    | .create _ _ => 4
    | .enqueue _ _ => 3
    | .commit _ | .refused => 2
  | .delete l =>
    match l with
    | .write _ => 3
    | .commit _ | .refused => 2
  | .discard _ _ | .throwing _ => 1
  | .done _ => 0

/-- The five operations that have program points of their own. -/
inductive Kind
  | create
  | update
  | submit
  | review
  | delete
deriving DecidableEq

/-- The handler that serves a request; an upload URL needs no steps of its own. -/
def Request.kind : Request → Option Kind
  | .requestUpload _ _ _ => none
  | .createPatent _ _ => some .create
  | .updatePatent _ _ _ => some .update
  | .submitForReview _ _ => some .submit
  | .approvePatent _ _ _ | .declinePatent _ _ _ => some .review
  | .deletePatent _ _ => some .delete

/-- The handler that a location belongs to, for the locations that only one of them has. -/
def Loc.kind : Loc → Option Kind
  | .create _ => some .create
  | .update _ => some .update
  | .submit _ => some .submit
  | .review _ => some .review
  | .delete _ => some .delete
  | _ => none

/-- A request is at a program point of its own operation. -/
def Fits (r : Request) (l : Loc) : Prop := l.kind = none ∨ l.kind = r.kind

section Rank

variable {cfg : Config} {reqs : Nat → Request} {p : Nat} {d : Db} {x : Ext} {o : Oracle} {l l' : Loc}
  {f : Oracle → Db → Ext → Outcome}

/-- An approval and a decline are of one kind. -/
theorem Reviews.kind {r : Request} {action : Action} {admin : Caller} {id : Nat}
    {comments : Option String} (h : Reviews r action admin id comments) :
    r.kind = some .review := by
  cases h <;> rfl

/-- Within its operation a request has its transaction still to end. -/
theorem two_le_rank (hl : l.kind ≠ none) : 2 ≤ rank l := by
  cases l with
  | create l => cases l <;> (simp only [rank]; omega)
  | update l => cases l <;> (simp only [rank]; omega)
  | submit l => cases l <;> (simp only [rank]; omega)
  | review l => cases l <;> (simp only [rank]; omega)
  | delete l => cases l <;> (simp only [rank]; omega)
  | _ => exact absurd rfl hl

/-- What an edit still has to do when its categories are done. -/
theorem rank_thenInventors (patent : PatentRecord) (links : Option (List InventorLink)) :
    rank (thenInventors patent links) ≤ 5 := by
  cases links <;> (simp only [thenInventors, rank]; omega)

/-- What it has to do behind its row. -/
theorem rank_thenCategories (patent : PatentRecord) (links : Option (List InventorLink))
    (ids : Option (List Nat)) : rank (thenCategories patent links ids) ≤ 7 := by
  cases ids with
  | none => exact Nat.le_trans (rank_thenInventors patent links) (by omega)
  | some ids => exact Nat.le_refl _

/-- Behind its checks, whichever the request makes. -/
theorem rank_afterChecks (updates : Updates) (patent : PatentRecord) :
    rank (.update (afterChecks updates patent)) ≤ 13 := by
  unfold afterChecks
  split <;> (simp only [rank]; omega)

/-- Behind the review row, with or without an event. -/
theorem rank_afterReview (event : Option PatentEvent) (record : PatentRecord) :
    rank (.review (afterReview event record)) ≤ 3 := by
  cases event <;> (simp only [afterReview, rank]; omega)

/-- **Every statement takes its request nearer to the end.** -/
theorem rank_of_code (hcode : code cfg reqs p l = .auto f ∨ code cfg reqs p l = .stmt f) :
    rank (f o d x).2.2 < rank l := by
  have hl : 2 ≤ rank l ∨ ∃ key reply, l = .discard key reply := by
    cases l with
    | start => exact Or.inl (by simp only [rank]; omega)
    | discard key reply => exact Or.inr ⟨key, reply, rfl⟩
    | throwing e => rcases hcode with h | h <;> nomatch h
    | done r => rcases hcode with h | h <;> nomatch h
    | _ => exact Or.inl (two_le_rank (Option.some_ne_none _))
  rcases hl with hl | ⟨key, reply, rfl⟩
  · have hmove := move_of_code (d := d) (x := x) (o := o) hcode
    generalize f o d x = res at hmove
    cases hmove with
    | throws => exact hl
    | @updateStart user id updates patent =>
      exact Nat.lt_of_le_of_lt (rank_afterChecks updates patent) (by simp only [rank]; omega)
    | @updateWrite user id updates patent links ids =>
      exact Nat.lt_of_le_of_lt (rank_thenCategories patent links ids) (by simp only [rank]; omega)
    | @updateLinkCategories user id updates patent links ids =>
      exact Nat.lt_of_le_of_lt (rank_thenInventors patent links) (by simp only [rank]; omega)
    | @reviewCreate action admin id comments before record =>
      exact Nat.lt_of_le_of_lt (rank_afterReview _ record) (by simp only [rank]; omega)
    | _ => simp only [rank]; omega
  · rcases hcode with hcode | hcode
    · obtain rfl := Instr.auto.inj hcode
      show rank (discardObject key reply o x).2.2 < 1
      unfold discardObject
      split <;> exact Nat.one_pos
    · nomatch hcode

/-- A commit brings a request nearer to its reply. -/
theorem rank_of_commit (hcode : code cfg reqs p l = .commit l') : rank l' < rank l := by
  have hl : 2 ≤ rank l := by
    cases l with
    | start => nomatch hcode
    | discard => nomatch hcode
    | throwing => nomatch hcode
    | done => nomatch hcode
    | _ => exact two_le_rank (Option.some_ne_none _)
  rcases next_of_code_commit hcode with ⟨reply, rfl⟩ | ⟨key, reply, rfl⟩
  · exact Nat.lt_of_lt_of_le Nat.zero_lt_two hl
  · exact hl

theorem rank_of_rollback (hcode : code cfg reqs p l = .rollback l') : rank l' < rank l := by
  cases executes_of_code hcode nofun with
  | throwing hi =>
    obtain rfl := Instr.rollback.inj hi
    exact Nat.one_pos
  | start hi => nomatch hi
  | discard hi => nomatch hi
  | @create user input l hreq hi => cases l <;> nomatch hi
  | @update user id updates l hreq hi => cases l <;> nomatch hi
  | @submit user id l hreq hi => cases l <;> nomatch hi
  | @review action admin id comments l hreq hi => cases l <;> nomatch hi
  | @delete user id l hreq hi => cases l <;> nomatch hi

/-- A request that has something left to do is not at its end. -/
theorem rank_pos (hcode : code cfg reqs p l ≠ .halt) : 0 < rank l := by
  cases l with
  | start => exact Nat.succ_pos _
  | discard => exact Nat.one_pos
  | throwing => exact Nat.one_pos
  | done => exact absurd rfl hcode
  | _ => exact Nat.lt_of_lt_of_le Nat.zero_lt_two (two_le_rank (Option.some_ne_none _))

/-! ## A request stays within its operation -/

/-- A request stays at locations of its own handler. -/
theorem fits_of_code (hcode : code cfg reqs p l = .auto f ∨ code cfg reqs p l = .stmt f)
    (hfits : Fits (reqs p) l) : Fits (reqs p) (f o d x).2.2 := by
  have hmove := move_of_code (d := d) (x := x) (o := o) hcode
  generalize f o d x = res at hmove
  cases hmove with
  | throws => exact Or.inl rfl
  | issue => exact Or.inl rfl
  | discard => exact Or.inl rfl
  | createStart hreq => exact Or.inr (by rw [hreq]; rfl)
  | updateStart hreq => exact Or.inr (by rw [hreq]; rfl)
  | submitStart hreq => exact Or.inr (by rw [hreq]; rfl)
  | reviewStart hreq => exact Or.inr hreq.kind.symm
  | deleteStart hreq => exact Or.inr (by rw [hreq]; rfl)
  | @updateWrite user id updates patent links ids row hreq =>
    refine Or.inr ?_
    rw [hreq]
    cases ids <;> cases links <;> rfl
  | @updateLinkCategories user id updates patent links ids hreq =>
    refine Or.inr ?_
    rw [hreq]
    cases links <;> rfl
  | _ => exact Or.inr (hfits.resolve_left (Option.some_ne_none _))

/-- A request that has nothing to execute has been answered. -/
theorem done_of_halt (hfits : Fits (reqs p) l) (hcode : code cfg reqs p l = .halt) :
    ∃ reply, l = .done reply := by
  cases l with
  | done reply => exact ⟨reply, rfl⟩
  | start => cases hcode
  | discard => cases hcode
  | throwing => cases hcode
  | create l =>
    have hkind := hfits.resolve_left (Option.some_ne_none _)
    cases hreq : reqs p with
    | createPatent user input =>
      simp only [code, hreq] at hcode
      cases l <;> cases hcode
    | _ =>
      rw [hreq] at hkind
      cases hkind
  | update l =>
    have hkind := hfits.resolve_left (Option.some_ne_none _)
    cases hreq : reqs p with
    | updatePatent user id updates =>
      simp only [code, hreq] at hcode
      cases l <;> cases hcode
    | _ =>
      rw [hreq] at hkind
      cases hkind
  | submit l =>
    have hkind := hfits.resolve_left (Option.some_ne_none _)
    cases hreq : reqs p with
    | submitForReview user id =>
      simp only [code, hreq] at hcode
      cases l <;> cases hcode
    | _ =>
      rw [hreq] at hkind
      cases hkind
  | delete l =>
    have hkind := hfits.resolve_left (Option.some_ne_none _)
    cases hreq : reqs p with
    | deletePatent user id =>
      simp only [code, hreq] at hcode
      cases l <;> cases hcode
    | _ =>
      rw [hreq] at hkind
      cases hkind
  | review l =>
    have hkind := hfits.resolve_left (Option.some_ne_none _)
    cases hreq : reqs p with
    | approvePatent admin id comments =>
      simp only [code, hreq] at hcode
      cases l <;> cases hcode
    | declinePatent admin id comments =>
      simp only [code, hreq] at hcode
      cases l <;> cases hcode
    | _ =>
      rw [hreq] at hkind
      cases hkind

end Rank

/-! ## What a transaction has locked -/

/-- A write of the transaction that has locked patent `id`, after its first one. -/
inductive Later (x : Ext) (id : Nat) : Write → Prop
  | link {w : Write} (hlink : w.linkOf = some id) : Later x id w
  | review {r : PatentReview} (hid : r.id < x.nextReviewId) : Later x id (.insertReview r)
  | event {e : Outbox.OutboxEvent PatentEvent} (hid : e.id < x.nextEventId) :
      Later x id (.insertEvent e)

/-- An open transaction has written nothing, or the row of its patent first. -/
inductive Holding (x : Ext) : List Write → Prop
  | nothing : Holding x []
  | patent {w : Write} {id : Nat} {ws : List Write} (hlock : w.touches = some id)
      (hws : ∀ v ∈ ws, Later x id v) : Holding x (w :: ws)

/-- What one statement adds to the writes `ws` of its transaction. -/
inductive Grows (x x' : Ext) : List Write → List Write → Prop
  | silent {ws : List Write} : Grows x x' ws []
  | first {w : Write} {id : Nat} (hlock : w.touches = some id) : Grows x x' [] [w]
  | links {w : Write} {id : Nat} {ws vs : List Write} (hlock : w.touches = some id)
      (hvs : ∀ v ∈ vs, v.linkOf = some id) : Grows x x' (w :: ws) vs
  | review {w : Write} {id : Nat} {ws : List Write} {r : PatentReview}
      (hlock : w.touches = some id) (hid : r.id = x.nextReviewId) (hlt : r.id < x'.nextReviewId) :
      Grows x x' (w :: ws) [.insertReview r]
  | event {w : Write} {id : Nat} {ws : List Write} {e : Outbox.OutboxEvent PatentEvent}
      (hlock : w.touches = some id) (hid : e.id = x.nextEventId) (hlt : e.id < x'.nextEventId) :
      Grows x x' (w :: ws) [.insertEvent e]

section Holding

variable {x x' : Ext} {ws vs us : List Write} {id : Nat} {w v : Write}

/-- An id drawn before the sequence moves on is still one drawn before. -/
theorem Later.world (h : Later x id w) (hadv : Advances x x') : Later x' id w := by
  cases h with
  | link hlink => exact .link hlink
  | review hid => exact .review (Nat.lt_of_lt_of_le hid hadv.review)
  | event hid => exact .event (Nat.lt_of_lt_of_le hid hadv.event)

theorem Holding.world (h : Holding x ws) (hadv : Advances x x') : Holding x' ws := by
  cases h with
  | nothing => exact .nothing
  | patent hlock hws => exact .patent hlock fun v hv => (hws v hv).world hadv

/-- A transaction that locks its patent first may go on writing. -/
theorem Holding.append (h : Holding x ws) (hadv : Advances x x') (hgrows : Grows x x' ws vs) :
    Holding x' (ws ++ vs) := by
  have hmore : ∀ {w : Write} {id : Nat} {ws : List Write}, w.touches = some id →
      (∀ v ∈ vs, Later x' id v) → Holding x (w :: ws) → Holding x' (w :: ws ++ vs) := by
    intro w id ws hlock hvs h
    cases h with
    | patent hlock' hws =>
      obtain rfl := Option.some.inj (hlock.symm.trans hlock')
      refine .patent hlock fun v hv => ?_
      rcases List.mem_append.mp hv with hv | hv
      · exact (hws v hv).world hadv
      · exact hvs v hv
  cases hgrows with
  | silent =>
    rw [List.append_nil]
    exact h.world hadv
  | first hlock => exact .patent hlock fun v hv => absurd hv List.not_mem_nil
  | links hlock hvs => exact hmore hlock (fun v hv => .link (hvs v hv)) h
  | review hlock _ hlt =>
    exact hmore hlock (fun v hv => List.mem_singleton.mp hv ▸ .review hlt) h
  | event hlock _ hlt => exact hmore hlock (fun v hv => List.mem_singleton.mp hv ▸ .event hlt) h

variable {cfg : Config} {reqs : Nat → Request}

/-- Two writes clash over a row that one of them locks for itself. -/
theorem exists_of_clash (h : (patents cfg reqs).clash w v = true) :
    ∃ row s s', ⟨row, s⟩ ∈ locks w ∧ ⟨row, s'⟩ ∈ locks v ∧ (s = false ∨ s' = false) := by
  obtain ⟨⟨row, s⟩, ha, hany⟩ := List.any_eq_true.mp h
  obtain ⟨⟨row', s'⟩, hb, hclash⟩ := List.any_eq_true.mp hany
  have hrow : row = row' ∧ (s = false ∨ s' = false) := by simpa [Lock.clash] using hclash
  exact ⟨row, s, s', ha, hrow.1 ▸ hb, hrow.2⟩

/-- Only the links of a patent lock its rows of PATENT_CATEGORY. -/
theorem linkOf_of_patentCategory {key : Nat × Nat} {s : Bool}
    (h : ⟨.patentCategory key, s⟩ ∈ locks v) : v.linkOf = some key.1 := by
  cases v <;> simp_all [locks, patentLocks, Write.linkOf, PatentCategory.key]

/-- Only its credits lock its rows of PATENT_INVENTOR. -/
theorem linkOf_of_patentInventor {key : Nat × Nat} {s : Bool}
    (h : ⟨.patentInventor key, s⟩ ∈ locks v) : v.linkOf = some key.1 := by
  cases v <;> simp_all [locks, patentLocks, Write.linkOf, PatentInventor.key]

/-- The rows that a foreign key refers to are locked in share mode only. -/
theorem shared_of_reference {row : Row} {s : Bool} (h : ⟨row, s⟩ ∈ locks v)
    (hrow : (∃ c, row = .category c) ∨ ∃ i, row = .inventor i) : s = true := by
  rcases hrow with ⟨c, rfl⟩ | ⟨i, rfl⟩ <;> cases v <;> simp_all [locks, patentLocks]

/-- A link locks itself, and what it refers to in share mode. -/
theorem locks_of_link {row : Row} {s : Bool} (hw : w.linkOf = some id)
    (h : ⟨row, s⟩ ∈ locks w) :
    (∃ c, row = .patentCategory (id, c)) ∨ (∃ i, row = .patentInventor (id, i)) ∨
      (∃ c, row = .category c) ∨ ∃ i, row = .inventor i := by
  cases w with
  | insertCategory l =>
    obtain rfl := Option.some.inj hw
    rcases List.mem_cons.mp h with h | h
    · exact Or.inl ⟨l.categoryId, congrArg Lock.row h⟩
    · exact Or.inr (Or.inr (Or.inl ⟨_, congrArg Lock.row (List.mem_singleton.mp h)⟩))
  | deleteCategory l =>
    obtain rfl := Option.some.inj hw
    exact Or.inl ⟨l.categoryId, congrArg Lock.row (List.mem_singleton.mp h)⟩
  | insertInventor l =>
    obtain rfl := Option.some.inj hw
    rcases List.mem_cons.mp h with h | h
    · exact Or.inr (Or.inl ⟨l.inventorId, congrArg Lock.row h⟩)
    · exact Or.inr (Or.inr (Or.inr ⟨_, congrArg Lock.row (List.mem_singleton.mp h)⟩))
  | deleteInventor l =>
    obtain rfl := Option.some.inj hw
    exact Or.inr (Or.inl ⟨l.inventorId, congrArg Lock.row (List.mem_singleton.mp h)⟩)
  | _ => nomatch hw

/-- Link writes that clash are about one patent. -/
theorem linkOf_of_clash (hw : w.linkOf = some id) (h : (patents cfg reqs).clash w v = true) :
    v.linkOf = some id := by
  obtain ⟨row, s, s', hrow, hrow', hshared⟩ := exists_of_clash h
  rcases locks_of_link hw hrow with ⟨c, rfl⟩ | ⟨i, rfl⟩ | href
  · exact linkOf_of_patentCategory hrow'
  · exact linkOf_of_patentInventor hrow'
  · have hs := shared_of_reference hrow href
    have hs' := shared_of_reference hrow' href
    simp [hs, hs'] at hshared

/-- A new review clashes with one of the same id only. -/
theorem review_of_clash {r : PatentReview}
    (h : (patents cfg reqs).clash (.insertReview r) v = true) :
    ∃ r', v = .insertReview r' ∧ r'.id = r.id := by
  obtain ⟨row, s, s', hrow, hrow', -⟩ := exists_of_clash h
  obtain ⟨rfl, rfl⟩ := Lock.mk.inj (List.mem_singleton.mp hrow)
  cases v <;> simp_all [locks, patentLocks]

/-- A new event clashes with one of the same id only. -/
theorem event_of_clash {e : Outbox.OutboxEvent PatentEvent}
    (h : (patents cfg reqs).clash (.insertEvent e) v = true) :
    ∃ e', v = .insertEvent e' ∧ e'.id = e.id := by
  obtain ⟨row, s, s', hrow, hrow', -⟩ := exists_of_clash h
  obtain ⟨rfl, rfl⟩ := Lock.mk.inj (List.mem_singleton.mp hrow)
  cases v <;> simp_all [locks, patentLocks]

/-- Another transaction has locked another patent, and all its later writes are about that one or
    have ids from the sequences. -/
theorem Holding.later (hus : Holding x us) (hv : v ∈ us) (hv' : v.touches = none) :
    ∃ w ∈ us, ∃ id, w.touches = some id ∧ Later x id v := by
  cases hus with
  | nothing => exact absurd hv List.not_mem_nil
  | @patent w id us hlock hus =>
    rcases List.mem_cons.mp hv with rfl | hv
    · exact absurd hlock (by rw [hv']; exact (Option.some_ne_none id).symm)
    · exact ⟨w, List.mem_cons_self, id, hlock, hus v hv⟩

/-- **Who holds a lock does not wait.**  `us` are the writes of another transaction. -/
theorem Grows.apart (hgrows : Grows x x' ws vs) (hne : ws ≠ []) (hus : Holding x us)
    (hap : (patents cfg reqs).Apart ws us) : (patents cfg reqs).Apart vs us := by
  intro v hv u hu
  refine Bool.eq_false_iff.mpr fun hclash => ?_
  cases hgrows with
  | silent => exact List.not_mem_nil hv
  | first => exact hne rfl
  | @links w id ws vs hlock hvs =>
    have hlink := linkOf_of_clash (hvs v hv) hclash
    obtain ⟨u', hu', id', hlock', hlater⟩ := hus.later hu (by cases u <;> first | rfl | nomatch hlink)
    cases hlater with
    | link hlink' =>
      obtain rfl := Option.some.inj (hlink.symm.trans hlink')
      exact touches_ne hap List.mem_cons_self hu' hlock hlock'
    | review => nomatch hlink
    | event => nomatch hlink
  | review hlock hid =>
    obtain rfl := List.mem_singleton.mp hv
    obtain ⟨r', rfl, hr'⟩ := review_of_clash hclash
    obtain ⟨-, -, id', -, hlater⟩ := hus.later hu rfl
    cases hlater with
    | link hlink => nomatch hlink
    | review hlt => omega
  | event hlock hid =>
    obtain rfl := List.mem_singleton.mp hv
    obtain ⟨e', rfl, he'⟩ := event_of_clash hclash
    obtain ⟨-, -, id', -, hlater⟩ := hus.later hu rfl
    cases hlater with
    | link hlink => nomatch hlink
    | event hlt => omega

end Holding

/-! ## What the statements add -/

section Statements

variable {J : Nat → Loc → Patent → Prop} {cfg : Config} {reqs : Nat → Request} {p : Nat}
  {b : Base Db Ext Write} {ws : List Write} {d : Db} {x : Ext} {o : Oracle} {id : Nat} {w : Write}
  {next refused : Loc}

/-- The links of a locked patent may be inserted. -/
theorem grows_insertCategories (hlock : w.touches = some id) (ids : List Nat) :
    Grows x (insertCategories id ids next d x).2.1 (w :: ws) (insertCategories id ids next d x).1 := by
  rcases insertCategories_cases id ids next d x with ⟨code, hr⟩ | hr
  · rw [hr]
    exact .silent
  · rw [hr]
    refine .links hlock fun v hv => ?_
    obtain ⟨c, -, rfl⟩ := List.mem_map.mp hv
    rfl

theorem grows_insertInventors (hlock : w.touches = some id) (links : List InventorLink) :
    Grows x (insertInventors id links next d x).2.1 (w :: ws)
      (insertInventors id links next d x).1 := by
  rcases insertInventors_cases id links next d x with ⟨code, hr⟩ | hr
  · rw [hr]
    exact .silent
  · rw [hr]
    refine .links hlock fun v hv => ?_
    obtain ⟨l, -, rfl⟩ := List.mem_map.mp hv
    rfl

/-- The rereading locks nothing. -/
theorem grows_reread {next : PatentRecord → Loc} :
    Grows x (reread id next d x).2.1 ws (reread id next d x).1 := by
  rcases reread_cases id next d x with hr | ⟨row, -, -, hr⟩
  · rw [hr]
    exact .silent
  · rw [hr]
    exact .silent

/-- A transition locks its patent as the first thing. -/
theorem grows_applyTransition {action : Action} {stamp : Time → Patent → Patent} :
    Grows x (applyTransition id action stamp next refused o d x).2.1 []
      (applyTransition id action stamp next refused o d x).1 := by
  rcases applyTransition_cases id action stamp next refused o d x with hr | ⟨row, -, hr⟩
  · rw [hr]
    exact .silent
  · rw [hr]
    exact .first rfl

/-- A review has a new id, and its patent is locked. -/
theorem grows_createReview {action : Action} {admin : Caller} {comments : Option String}
    {before : Option PatentStatus} {record : PatentRecord} (hlock : w.touches = some id) :
    Grows x (createReview admin id action comments before record o d x).2.1 (w :: ws)
      (createReview admin id action comments before record o d x).1 := by
  unfold createReview
  dsimp only
  split
  · exact .silent
  · exact .review hlock rfl (Nat.lt_succ_self _)

/-- Every statement of `createPatent` locks behind its patent. -/
theorem grows_create {user : Caller} {input : CreateInput} {l : CreateLoc}
    {f : Oracle → Db → Ext → Outcome} (hcode : createCode cfg user input l = .stmt f)
    (hat : At J reqs p (.create l) b ws) : Grows x (f o d x).2.1 ws (f o d x).1 := by
  cases l with
  | insert links ids =>
    obtain rfl := Instr.stmt.inj hcode
    obtain rfl : ws = [] := hat
    unfold insertPatent
    dsimp only
    split
    · exact .silent
    · split
      · exact .silent
      · exact .first rfl
  | linkCategories id links ids =>
    obtain rfl := Instr.stmt.inj hcode
    obtain ⟨user', input', now, ls, -, -, -, -, -, rfl⟩ := hat
    exact grows_insertCategories rfl ids
  | linkInventors id links =>
    obtain rfl := Instr.stmt.inj hcode
    obtain ⟨user', input', now, ls, -, -, -, -, -, rfl⟩ := hat
    exact grows_insertInventors rfl links
  | reread id =>
    obtain rfl := Instr.stmt.inj hcode
    exact grows_reread
  | _ => cases hcode

/-- An edit has locked the patent it is about. -/
theorem Editing.locked {user : Caller} {updates : Updates} {patent : PatentRecord}
    (hat : Editing J reqs p b ws patent) (hreq : reqs p = .updatePatent user id updates) :
    ∃ w ls, ws = w :: ls ∧ w.touches = some id := by
  obtain ⟨user', id', updates', links, ids, old, now, ls, hreq', hlands, -, -, -, rfl⟩ := hat
  obtain ⟨rfl, rfl, rfl⟩ := Request.updatePatent.inj (hreq.symm.trans hreq')
  exact ⟨_, ls, rfl, congrArg some hlands.id⟩

/-- Every statement of `updatePatent`. -/
theorem grows_update {user : Caller} {updates : Updates} {l : UpdateLoc}
    {f : Oracle → Db → Ext → Outcome} (hreq : reqs p = .updatePatent user id updates)
    (hcode : updateCode cfg user id updates l = .stmt f)
    (hat : At J reqs p (.update l) b ws) : Grows x (f o d x).2.1 ws (f o d x).1 := by
  cases l with
  | write patent links ids =>
    obtain rfl := Instr.stmt.inj hcode
    obtain rfl : ws = [] := hat
    rcases updateWrite_cases id updates patent links ids o d x with hr | hr | ⟨row, -, -, hr⟩
    · rw [hr]
      exact .silent
    · rw [hr]
      exact .silent
    · rw [hr]
      exact .first rfl
  | refused =>
    obtain rfl := Instr.stmt.inj hcode
    exact .silent
  | unlinkCategories patent links ids =>
    obtain rfl := Instr.stmt.inj hcode
    obtain ⟨w, ls, rfl, hlock⟩ := Editing.locked hat hreq
    refine .links hlock fun v hv => ?_
    obtain ⟨l, hl, rfl⟩ := List.mem_map.mp hv
    exact congrArg some (by simpa using (List.mem_filter.mp hl).2)
  | linkCategories patent links ids =>
    obtain rfl := Instr.stmt.inj hcode
    obtain ⟨w, ls, rfl, hlock⟩ := Editing.locked hat hreq
    exact grows_insertCategories hlock ids
  | unlinkInventors patent links =>
    obtain rfl := Instr.stmt.inj hcode
    obtain ⟨w, ls, rfl, hlock⟩ := Editing.locked hat hreq
    refine .links hlock fun v hv => ?_
    obtain ⟨l, hl, rfl⟩ := List.mem_map.mp hv
    rw [Db.creditsOf, List.mem_insertionSort, List.mem_filter] at hl
    exact congrArg some (by simpa using hl.2)
  | linkInventors patent links =>
    obtain rfl := Instr.stmt.inj hcode
    obtain ⟨w, ls, rfl, hlock⟩ := Editing.locked hat hreq
    exact grows_insertInventors hlock links
  | reread patent =>
    obtain rfl := Instr.stmt.inj hcode
    exact grows_reread
  | _ => cases hcode

/-- Every statement of a review. -/
theorem grows_review {action : Action} {admin : Caller} {comments : Option String} {l : ReviewLoc}
    {f : Oracle → Db → Ext → Outcome} (hreq : Reviews (reqs p) action admin id comments)
    (hcode : reviewCode admin id action comments l = .stmt f)
    (hat : At J reqs p (.review l) b ws) : Grows x (f o d x).2.1 ws (f o d x).1 := by
  cases l with
  | before =>
    obtain rfl := Instr.stmt.inj hcode
    exact .silent
  | write before =>
    obtain rfl := Instr.stmt.inj hcode
    obtain rfl : ws = [] := hat
    exact grows_applyTransition
  | refused =>
    obtain rfl := Instr.stmt.inj hcode
    exact .silent
  | reread before =>
    obtain rfl := Instr.stmt.inj hcode
    exact grows_reread
  | create before record =>
    obtain rfl := Instr.stmt.inj hcode
    obtain ⟨now, action', old, ⟨⟨admin', id', comments', hdec⟩, rfl⟩, -⟩ := hat
    obtain ⟨rfl, rfl, rfl, rfl⟩ := hreq.unique hdec.req
    exact grows_createReview (congrArg some hdec.lands.id)
  | enqueue event record =>
    obtain rfl := Instr.stmt.inj hcode
    obtain ⟨action', admin', id', comments', before, old, now, n, now', o', hdec, -, -, -, -, rfl⟩ :=
      hat
    obtain ⟨rfl, rfl, rfl, rfl⟩ := hreq.unique hdec.req
    exact .event (congrArg some hdec.lands.id) rfl (Nat.lt_succ_self _)
  | commit record => nomatch hcode

/-- In every transaction the lock of the patent comes first. -/
theorem grows_of_stmt {l : Loc} {f : Oracle → Db → Ext → Outcome}
    (hcode : code cfg reqs p l = .stmt f) (hat : At J reqs p l b ws) :
    Grows x (f o d x).2.1 ws (f o d x).1 := by
  cases executes_of_code hcode nofun with
  | create hreq hi => exact grows_create hi hat
  | update hreq hi => exact grows_update hreq hi hat
  | review hreq hi => exact grows_review hreq hi hat
  | @submit user id l hreq hi =>
    cases l with
    | write =>
      obtain rfl := Instr.stmt.inj hi
      obtain rfl : ws = [] := hat
      exact grows_applyTransition
    | refused =>
      obtain rfl := Instr.stmt.inj hi
      exact .silent
    | reread =>
      obtain rfl := Instr.stmt.inj hi
      exact grows_reread
    | commit record => nomatch hi
  | @delete user id l hreq hi =>
    cases l with
    | write patent =>
      obtain rfl := Instr.stmt.inj hi
      obtain rfl : ws = [] := hat
      rcases deleteWrite_cases id patent d x with hr | ⟨row, -, hr⟩
      · simp only [hr]
        exact .silent
      · simp only [hr]
        exact .first rfl
    | refused =>
      obtain rfl := Instr.stmt.inj hi
      exact .silent
    | commit patent => nomatch hi
  | start hi => nomatch hi
  | discard hi => nomatch hi
  | throwing hi => nomatch hi

end Statements

/-! ## Every run -/

/-- Nothing is assumed of the rows that guarded writes land on. -/
abbrev anyLanding : Nat → Loc → Patent → Prop := fun _ _ _ => True

/-- A request is within its operation, and its transaction holds the lock of its patent. -/
def Underway (reqs : Nat → Request) (p : Nat) (l : Loc) (b : Base Db Ext Write) (ws : List Write) :
    Prop :=
  Fits (reqs p) l ∧ Holding b.world ws

/-- A PUT moves no sequence. -/
theorem advances_of_upload {cfg : Config} {u : Upload} {x x' : Ext} (h : upload cfg u x = some x') :
    Advances x x' := by
  cases u with
  | put key size =>
    simp only [upload] at h
    split at h
    · obtain rfl := Option.some.inj h
      exact ⟨Nat.le_refl _, Nat.le_refl _, Nat.le_refl _⟩
    · cases h

section Layer

variable (cfg : Config) (reqs : Nat → Request)

/-- What is known of the open transactions, kept by every step next to the outline. -/
theorem underway : Layer (patents cfg reqs) (Landing anyLanding reqs) Inv (At anyLanding reqs)
    (PatentTx anyLanding reqs) (fun _ => True) (Underway reqs) (fun _ _ _ _ => True) Advances where
  stmt := by
    intro p l f b ws o hcode hok hinv hat _ h
    have hadv := (stmtOk (o := o) hcode hok hinv hat).1
    exact ⟨hadv, trivial, fits_of_code (Or.inr hcode) h.1,
      h.2.append hadv (grows_of_stmt hcode hat)⟩
  auto := by
    intro p l f b o hcode _ _ _ _ h
    have hquiet := auto_quiet (J := anyLanding) hcode o b.db b.world
    exact ⟨hquiet.world, Or.inl ⟨hquiet.none, trivial, fits_of_code (Or.inl hcode) h.1, .nothing⟩⟩
  commit := by
    intro p l l' b ws hcode _ _ _ _ _ _
    refine ⟨trivial, trivial, ?_, .nothing⟩
    rcases next_of_code_commit hcode with ⟨reply, rfl⟩ | ⟨key, reply, rfl⟩ <;> exact Or.inl rfl
  rollback := by
    intro p l l' b ws hcode _
    obtain ⟨e, rfl⟩ := eq_of_rollback hcode
    exact ⟨Or.inl rfl, .nothing⟩
  fail := fun _ => ⟨Or.inl rfl, .nothing⟩
  env := fun henv _ => ⟨advances_of_upload henv, trivial⟩
  world := fun hadv h => ⟨h.1, h.2.world hadv⟩
  other := fun _ _ _ _ _ h _ _ => h

/-- What is known of the states of every run. -/
abbrev Reached (users : Table User User.id) (inventors : Table Inventor Inventor.id)
    (categories : Table Category Category.id) : State Db Ext Write Loc → Prop :=
  Outline.Holds (patents cfg reqs) (fun b => Inv b ∧ True)
    (fun p l b ws => At anyLanding reqs p l b ws ∧ Underway reqs p l b ws)
    (fun p d log ws => PatentTx anyLanding reqs p d log ws ∧ True)
    (init users inventors categories)

/-- Every step of a request lowers its rank and leaves those of the others. -/
theorem ranked (users : Table User User.id) (inventors : Table Inventor Inventor.id)
    (categories : Table Category Category.id) :
    Ranked (patents cfg reqs) (Reached cfg reqs users inventors categories) rank where
  keeps := by
    intro σ σ' a h hs
    refine ((outline anyLanding cfg reqs).layer (underway cfg reqs)).step_holds h ?_ hs
    cases a with
    | run p o => exact fun _ _ _ _ _ => trivial
    | _ => trivial
  falls := by
    intro σ σ' a p h hs hmover
    have hnext := Machine.next_of_step _ hs hmover
    generalize σ'.loc p = m at hnext ⊢
    cases hnext with
    | stmt hcode => exact rank_of_code (Or.inr hcode)
    | auto hcode => exact rank_of_code (Or.inl hcode)
    | commit hcode => exact rank_of_commit hcode
    | rollback hcode => exact rank_of_rollback hcode
    | fail hcode => exact rank_pos hcode
  waits := by
    intro σ p o h hwaits
    by_contra hne
    obtain ⟨f, hf, w, hw, q, hq, v, hv, hclash⟩ := hwaits.clash
    cases hcode : (patents cfg reqs).code p (σ.loc p) with
    | stmt g =>
      rw [hcode] at hf
      obtain rfl := Option.some.inj hf
      have hgrows := grows_of_stmt (d := (patents cfg reqs).view σ p) (x := σ.base.world) (o := o)
        hcode (h.assertions p).1
      have hapart := hgrows.apart hne (h.assertions q).2.2 (h.apart p q (Ne.symm hq))
      rw [hapart w hw v hv] at hclash
      exact Bool.false_ne_true hclash
    | auto g => exact hne (idle_of_auto hcode (h.assertions p).1)
    | _ =>
      rw [hcode] at hf
      nomatch hf
  halted := by
    intro σ p h hcode
    obtain ⟨reply, hdone⟩ := done_of_halt (h.assertions p).2.1 hcode
    have hat := (h.assertions p).1
    rw [hdone] at hat
    exact hat

end Layer

section Runs

variable {cfg : Config} {reqs : Nat → Request} {users : Table User User.id}
  {inventors : Table Inventor Inventor.id} {categories : Table Category Category.id}
  {σ : State Db Ext Write Loc} {p : Nat} {o : Oracle}

end Runs

/-! ## Two requests for one draft -/

end SmartPatents.PatentService
