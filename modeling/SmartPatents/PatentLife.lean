/-
  The life of a patent, served one request at a time.

  An abstract service knows of a patent who owns it, its status, whether it was ever submitted and
  reviewed, and who has decided what about it (`Life`).  It serves one operation after the other,
  and refuses what is not the caller's business or comes at the wrong time (`serve`).

  The real service serves any number of requests at once.  It looks the patent up and checks the
  caller in one statement, opens its transaction in another, and decides by a guarded UPDATE in a
  third.  That makes no difference (`refines_of_run`): the abstract service accepts the committed
  operations of every patent in commit order, and knows of the patent what the tables say.  What a
  request has checked about its caller stays true, because no request changes the owner of a patent
  and no id is used twice (`Permitted`).

  What the abstract service keeps of a patent is what it needs for its decisions, so stamps are
  compared as set or not set, and of a review the reviewer and the decision.  Content, documents
  and links are the subjects of other modules.

  The bridge is `opOf`, the operation that a committed transaction stands for, and `lifeOf`, what
  the tables say.  `serves_of_tx` is the step: one transaction is one operation that the abstract
  service accepts.
-/
import SmartPatents.Lib.Refinement
import SmartPatents.PatentHistory
import SmartPatents.PatentMoves

namespace SmartPatents.PatentLife

open ReadCommitted Runs Access Lifecycle Storage PatentEvents PatentService

/-! ## The abstract service -/

/-- An operation on a patent, and who asks for it. -/
inductive Op
  | create (user : Caller)
  | edit (user : Caller)
  | submit (user : Caller)
  | approve (admin : Caller)
  | decline (admin : Caller)
  | delete (user : Caller)
deriving DecidableEq

/-- What there is to know of a patent. -/
structure Life where
  owner : Nat
  status : PatentStatus
  submitted : Bool
  reviewed : Bool
  /-- Who decided what, in order. -/
  reviews : List (Option Nat × Option ReviewDecision)
deriving DecidableEq

/-- The submitter of a patent and the administrators may handle it. -/
def Life.handledBy (life : Life) (user : Caller) : Bool :=
  life.owner == user.userId || user.isAdmin

/-- The life after a decision: the new status, the stamp and the entry of the trail. -/
def Life.decided (life : Life) (status : PatentStatus) (admin : Caller) (d : ReviewDecision) :
    Life :=
  { life with
    status := status
    reviewed := true
    reviews := life.reviews ++ [(some admin.userId, some d)] }

/-- One operation; `none` as a result is a refusal, `none` as a life a patent that is not there. -/
def serve : Option Life → Op → Option (Option Life)
  | none, .create user => some (some ⟨user.userId, .draft, false, false, []⟩)
  | some life, .edit user =>
    if life.handledBy user ∧ (life.status = .draft ∨ life.status = .declined) then
      some (some life)
    else none
  | some life, .submit user =>
    if life.handledBy user ∧ (life.status = .draft ∨ life.status = .declined) then
      some (some { life with status := .pendingAdmin, submitted := true })
    else none
  | some life, .approve admin =>
    if admin.isAdmin ∧ life.status = .pendingAdmin then
      some (some (life.decided .approved admin .pass))
    else none
  | some life, .decline admin =>
    if admin.isAdmin ∧ (life.status = .pendingAdmin ∨ life.status = .approved) then
      some (some (life.decided .declined admin .fail))
    else none
  | some life, .delete user =>
    if life.handledBy user ∧ life.status = .draft then some none else none
  | _, _ => none

/-! ## What the tables say -/

/-- The life of patent `id`. -/
def lifeOf (d : Db) (id : Nat) : Option Life :=
  (d.patents.get? id).map fun row =>
    { owner := row.submittedBy
      status := row.status
      submitted := row.submittedAt.isSome
      reviewed := row.reviewedAt.isSome
      reviews := (reviewsOf d id).map fun r => (r.reviewerId, r.decision) }

/-- The write inserts the row of patent `id`. -/
def inserts (id : Nat) : Write → Bool
  | .insertPatent row => row.id == id
  | _ => false

/-- The operation on patent `id` that a committed transaction stands for. -/
def opOf (reqs : Nat → Request) (id : Nat) (e : Nat × List Write) : Option Op :=
  match reqs e.1 with
  | .createPatent user _ => if e.2.any (inserts id) then some (.create user) else none
  | .updatePatent user id' _ => if id' = id then some (.edit user) else none
  | .submitForReview user id' => if id' = id then some (.submit user) else none
  | .approvePatent admin id' _ => if id' = id then some (.approve admin) else none
  | .declinePatent admin id' _ => if id' = id then some (.decline admin) else none
  | .deletePatent user id' => if id' = id then some (.delete user) else none
  | .requestUpload _ _ _ => none

/-! ## What the checks of a request leave behind -/

/-- The caller may do to the patent what the request asks for. -/
def Permitted (r : Request) (d : Db) (log : List (Nat × List Write)) : Prop :=
  match r with
  | .updatePatent user id _ | .submitForReview user id | .deletePatent user id =>
    ¬ Unused log id ∧
      ∀ row ∈ d.patents, row.id = id → row.submittedBy = user.userId ∨ user.isAdmin = true
  | .approvePatent admin _ _ | .declinePatent admin _ _ => admin.isAdmin = true
  | _ => True

/-- A location after the check of the caller. -/
def Checked : Loc → Prop
  | .create _ | .update _ | .submit _ | .review _ | .delete _ => True
  | _ => False

section Layer

variable {J : Nat → Loc → Patent → Prop} {cfg : Config} {reqs : Nat → Request} {p q : Nat} {l : Loc}
  {r : Request} {b : Base Db Ext Write} {d : Db} {x : Ext} {o : Oracle} {id : Nat}
  {ws vs : List Write} {log : List (Nat × List Write)} {user : Caller} {row : Patent}

/-- No transaction changes the owner of a patent. -/
theorem owner_of_effect (heff : PatentEffect J reqs p d log ws id) (hused : ¬ Unused log id)
    (hrow : (after d ws).patents.get? id = some row) :
    ∃ old, d.patents.get? id = some old ∧ old.submittedBy = row.submittedBy := by
  cases heff with
  | other hreq hsame hreviews hevents => exact ⟨row, hsame ▸ hrow, rfl⟩
  | create hreq hunused => exact absurd hunused hused
  | update hreq hold hstatus hknown hnew hreviews hevents =>
    obtain rfl := Option.some.inj (hnew.symm.trans hrow)
    exact ⟨_, hold, rfl⟩
  | submit hreq hold hstatus hnew hreviews hevents =>
    obtain rfl := Option.some.inj (hnew.symm.trans hrow)
    exact ⟨_, hold, rfl⟩
  | review hreq hold hstatus hknown hrecord hmem hnew hreviews hevents =>
    obtain rfl := Option.some.inj (hnew.symm.trans hrow)
    exact ⟨_, hold, rfl⟩
  | delete hreq hold hstatus hnone => cases hnone.symm.trans hrow

/-- The check stays right whatever commits afterwards. -/
theorem Permitted.after (h : Permitted r d log) (htx : PatentTx J reqs q d log vs) :
    Permitted r (after d vs) (log ++ [(q, vs)]) := by
  have howned : ∀ {user : Caller} {id : Nat}, (¬ Unused log id ∧
      ∀ row ∈ d.patents, row.id = id → row.submittedBy = user.userId ∨ user.isAdmin = true) →
      ¬ Unused (log ++ [(q, vs)]) id ∧ ∀ row ∈ (PatentService.after d vs).patents, row.id = id →
        row.submittedBy = user.userId ∨ user.isAdmin = true := by
    rintro user id ⟨hused, hall⟩
    refine ⟨not_unused_concat hused, fun row hrow hid => ?_⟩
    obtain ⟨old, hold, howner⟩ := owner_of_effect (htx.effect id) hused
      (Table.get?_eq_some.mpr ⟨hrow, hid⟩)
    obtain ⟨hmem, hid'⟩ := Table.get?_eq_some.mp hold
    exact howner ▸ hall old hmem hid'
  cases r with
  | updatePatent user id updates => exact howned h
  | submitForReview user id => exact howned h
  | deletePatent user id => exact howned h
  | _ => exact h

/-- Behind `findOwnedPatent` the caller is the submitter, or an admin. -/
theorem permitted_of_findOwnedPatent {patent : PatentRecord}
    (hused : ∀ q ∈ d.patents, ¬ Unused log q.id) (h : findOwnedPatent id user d = .ok patent) :
    ¬ Unused log id ∧
      ∀ row ∈ d.patents, row.id = id → row.submittedBy = user.userId ∨ user.isAdmin = true := by
  unfold findOwnedPatent at h
  split at h
  · cases h
  · rename_i row hrow
    obtain ⟨hmem, rfl⟩ := Table.get?_eq_some.mp hrow
    split at h
    · cases h
    · rename_i hallowed
      refine ⟨hused row hmem, fun row' hrow' hid => ?_⟩
      rw [Table.eq_of_key hrow' hmem hid]
      simpa [or_iff_not_imp_left] using hallowed

/-- The first statement checks the caller. -/
theorem permitted_of_start (hused : ∀ q ∈ d.patents, ¬ Unused log q.id)
    (hchecked : Checked (start cfg r o d x).2.2) : Permitted r d log := by
  cases r with
  | requestUpload user filename contentType => trivial
  | createPatent user input => trivial
  | updatePatent user id updates =>
    simp only [start, updatePatent] at hchecked
    split at hchecked
    · exact hchecked.elim
    · rename_i patent hfind
      exact permitted_of_findOwnedPatent hused hfind
  | submitForReview user id =>
    simp only [start, submitForReview] at hchecked
    split at hchecked
    · exact hchecked.elim
    · rename_i patent hfind
      exact permitted_of_findOwnedPatent hused hfind
  | deletePatent user id =>
    simp only [start, deletePatent] at hchecked
    split at hchecked
    · exact hchecked.elim
    · rename_i patent hfind
      exact permitted_of_findOwnedPatent hused hfind
  | approvePatent admin id comments =>
    simp only [start, PatentService.review] at hchecked
    split at hchecked
    · exact hchecked.elim
    · rename_i hadmin
      have hadmin : admin.isAdmin = true := by simpa using hadmin
      exact hadmin
  | declinePatent admin id comments =>
    simp only [start, PatentService.review] at hchecked
    split at hchecked
    · exact hchecked.elim
    · rename_i hadmin
      have hadmin : admin.isAdmin = true := by simpa using hadmin
      exact hadmin

theorem checked_discardObject {key : Option String} {reply : Reply} :
    ¬ Checked (discardObject key reply o x).2.2 := by
  cases key <;> exact id

/-- A statement after the check leaves it as it is, and no other one starts the work. -/
theorem permitted_of_code {i : Instr Db Ext Write Oracle Loc} {f : Oracle → Db → Ext → Outcome}
    (hcode : code cfg reqs p l = i) (hf : i.run? = some f)
    (hused : ∀ q ∈ d.patents, ¬ Unused log q.id) (hat : Checked l → Permitted (reqs p) d log)
    (hws : l = .start → ws = [])
    (hchecked : Checked (f o (after d ws) x).2.2) : Permitted (reqs p) d log := by
  have hne : i ≠ .halt := by
    rintro rfl
    cases hf
  cases executes_of_code hcode hne with
  | start hi =>
    rw [hws rfl] at hchecked
    subst hi
    obtain rfl := Option.some.inj hf
    exact permitted_of_start hused hchecked
  | create => exact hat trivial
  | update => exact hat trivial
  | submit => exact hat trivial
  | review => exact hat trivial
  | delete => exact hat trivial
  | discard hi =>
    subst hi
    obtain rfl := Option.some.inj hf
    exact absurd hchecked checked_discardObject
  | throwing hi =>
    subst hi
    cases hf

/-- **The layer of callers.** -/
theorem callerLayer (J : Nat → Loc → Patent → Prop) (cfg : Config) (reqs : Nat → Request) :
    Layer (patents cfg reqs) (Landing J reqs) Inv (At J reqs) (PatentTx J reqs) (fun _ => True)
      (fun p l b _ => Checked l → Permitted (reqs p) b.db b.log)
      (fun p d log _ => Permitted (reqs p) d log) (fun _ _ => True) where
  stmt := fun {_ _ _ _ _ _} hcode _ hinv _ _ hat => ⟨trivial, trivial, fun hchecked =>
    permitted_of_code hcode rfl hinv.inserted hat (fun hl => by subst hl; cases hcode) hchecked⟩
  auto := fun {_ _ _ b o} hcode _ hinv _ _ hat => by
    have hnone := (auto_quiet (J := J) hcode o b.db b.world).none
    have hnothing : ([] : List Write) = [] := rfl
    exact ⟨trivial, Or.inl ⟨hnone, trivial, fun hchecked =>
      permitted_of_code hcode rfl hinv.inserted hat (fun _ => hnothing) hchecked⟩⟩
  commit := by
    intro p l l' b ws hcode _ hinv _ _ _ hat
    refine ⟨trivial, ?_, fun hchecked => ?_⟩
    · cases executes_of_code hcode nofun with
      | start hi => cases hi
      | create => exact hat trivial
      | update => exact hat trivial
      | submit => exact hat trivial
      | review => exact hat trivial
      | delete => exact hat trivial
      | discard hi => cases hi
      | throwing hi => cases hi
    · rcases next_of_code_commit hcode with ⟨reply, rfl⟩ | ⟨key, reply, rfl⟩
      · exact hchecked.elim
      · exact hchecked.elim
  rollback := by
    intro p l l' b ws hcode _ hchecked
    obtain ⟨e, rfl⟩ := eq_of_rollback hcode
    exact hchecked.elim
  fail := fun _ hchecked => hchecked.elim
  env := fun _ _ => ⟨trivial, trivial⟩
  world := fun _ hat => hat
  other := fun _ _ _ htx _ hat _ _ hchecked => (hat hchecked).after htx

/-! ## Every transaction is served -/

/-- An inserted row is new. -/
theorem new_of_inserts (htx : PatentTx J reqs p d log ws) (hws : ws.any (inserts id) = true) :
    d.patents.get? id = none ∧ (after d ws).patents.get? id ≠ none := by
  obtain ⟨w, hw, hinserts⟩ := List.any_eq_true.mp hws
  cases w with
  | insertPatent row =>
    obtain rfl : row.id = id := by simpa [inserts] using hinserts
    cases htx with
    | create hreq hnew hunused hfree hls =>
      rcases List.mem_cons.mp hw with hrow | hrow
      · obtain rfl := Write.insertPatent.inj hrow
        refine ⟨Table.get?_eq_none.mpr hnew, ?_⟩
        rw [(tables_of_insert hls).1, Table.get?_put, if_pos rfl]
        nofun
      · cases hls _ hrow
    | update hreq hlands hknown hfree hls =>
      rcases List.mem_cons.mp hw with hrow | hrow
      · cases hrow
      · cases hls _ hrow
    | submit => simp at hw
    | review hdec hrecord hreview hevents =>
      rcases List.mem_cons.mp hw with hrow | hrow
      · cases hrow
      · rcases List.mem_cons.mp hrow with hrow | hrow
        · cases hrow
        · obtain ⟨e, n, -, he, -⟩ := event_of_announces hevents hrow
          cases he
    | delete => simp at hw
  | _ => cases hinserts

/-- A transaction about another patent is no operation of this one. -/
theorem opOf_of_other (htx : PatentTx J reqs p d log ws) (hreq : (reqs p).subject ≠ some id)
    (hrow : (after d ws).patents.get? id = d.patents.get? id) : opOf reqs id (p, ws) = none := by
  have hne : ∀ {id' : Nat}, (reqs p).subject = some id' → id' ≠ id := fun hid' hid =>
    hreq (hid ▸ hid')
  rw [opOf]
  split
  · refine if_neg fun hws => ?_
    obtain ⟨hnone, hsome⟩ := new_of_inserts htx hws
    exact hsome (hrow.trans hnone)
  · rename_i h
    exact if_neg (hne (by rw [h]; rfl))
  · rename_i h
    exact if_neg (hne (by rw [h]; rfl))
  · rename_i h
    exact if_neg (hne (by rw [h]; rfl))
  · rename_i h
    exact if_neg (hne (by rw [h]; rfl))
  · rename_i h
    exact if_neg (hne (by rw [h]; rfl))
  · rfl

/-- The service makes the same check. -/
theorem handled_of_permitted (hrow : d.patents.get? id = some row)
    (h : ¬ Unused log id ∧ ∀ row ∈ d.patents, row.id = id →
      row.submittedBy = user.userId ∨ user.isAdmin = true) :
    (row.submittedBy == user.userId || user.isAdmin) = true := by
  obtain ⟨hmem, hid⟩ := Table.get?_eq_some.mp hrow
  simpa using h.2 row hmem hid

/-- **Step lemma.**  A patent that is not there has no reviews. -/
theorem serves_of_tx (htx : PatentTx J reqs p d log ws) (hpermitted : Permitted (reqs p) d log)
    (hbare : d.patents.get? id = none → reviewsOf d id = []) :
    ((after d ws).patents.get? id = none → reviewsOf (after d ws) id = []) ∧
      Machine.Serves serve (lifeOf d id) (opOf reqs id (p, ws)) (lifeOf (after d ws) id) := by
  cases htx.effect id with
  | other hreq hrow hreviews hevents =>
    refine ⟨fun hnone => hreviews.trans (hbare (hrow ▸ hnone)), ?_⟩
    rw [opOf_of_other htx hreq hrow]
    show lifeOf (after d ws) id = lifeOf d id
    rw [lifeOf, lifeOf, hrow, hreviews]
  | @create user input now hreq hunused hmem hold hrow hreviews hevents =>
    refine ⟨fun hnone => hreviews.trans (hbare hold), ?_⟩
    have hop : opOf reqs id (p, ws) = some (.create user) := by
      rw [opOf, hreq]
      refine if_pos (List.any_eq_true.mpr ⟨_, hmem, ?_⟩)
      exact beq_self_eq_true _
    have hlife : lifeOf d id = none := by rw [lifeOf, hold]; rfl
    rw [hop, hlife, lifeOf, hrow, hreviews, hbare hold]
    rfl
  | @update user updates links ids now patent old hreq hold hstatus hknown hrow hreviews hevents =>
    refine ⟨fun hnone => absurd (hrow.symm.trans hnone) (Option.some_ne_none _), ?_⟩
    have hop : opOf reqs id (p, ws) = some (.edit user) := by
      rw [opOf, hreq]
      exact if_pos rfl
    rw [hreq] at hpermitted
    have hhandled := handled_of_permitted hold hpermitted
    have heditable : old.status = .draft ∨ old.status = .declined := by
      simpa [EDITABLE_STATUSES] using hstatus
    rw [hop, lifeOf, lifeOf, hold, hrow, hreviews]
    exact if_pos ⟨hhandled, heditable⟩
  | @submit user now old hreq hold hstatus hrow hreviews hevents =>
    refine ⟨fun hnone => absurd (hrow.symm.trans hnone) (Option.some_ne_none _), ?_⟩
    have hop : opOf reqs id (p, ws) = some (.submit user) := by
      rw [opOf, hreq]
      exact if_pos rfl
    rw [hreq] at hpermitted
    have hhandled := handled_of_permitted hold hpermitted
    rw [hop, lifeOf, lifeOf, hold, hrow, hreviews]
    exact if_pos ⟨hhandled, mem_submit.mp hstatus⟩
  | @review action admin comments before now record n now' o m old hreq hold hstatus hknown hrecord
      hmem hrow hreviews hevents =>
    refine ⟨fun hnone => absurd (hrow.symm.trans hnone) (Option.some_ne_none _), ?_⟩
    generalize hr : reqs p = r at hreq
    rw [hr] at hpermitted
    cases hreq with
    | approve =>
      have hop : opOf reqs id (p, ws) = some (.approve admin) := by
        rw [opOf, hr]
        exact if_pos rfl
      rw [hop, lifeOf, lifeOf, hold, hrow, hreviews, List.map_append]
      exact if_pos ⟨hpermitted, mem_approve.mp hstatus⟩
    | decline =>
      have hop : opOf reqs id (p, ws) = some (.decline admin) := by
        rw [opOf, hr]
        exact if_pos rfl
      have hdecidable : old.status = .pendingAdmin ∨ old.status = .approved := by
        simpa [TRANSITIONS] using hstatus
      rw [hop, lifeOf, lifeOf, hold, hrow, hreviews, List.map_append]
      exact if_pos ⟨hpermitted, hdecidable⟩
  | @delete user old hreq hold hstatus hrow hreviews hevents =>
    refine ⟨fun _ => hreviews, ?_⟩
    have hop : opOf reqs id (p, ws) = some (.delete user) := by
      rw [opOf, hreq]
      exact if_pos rfl
    rw [hreq] at hpermitted
    have hhandled := handled_of_permitted hold hpermitted
    rw [hop, lifeOf, lifeOf, hold, hrow]
    exact if_pos ⟨hhandled, hstatus⟩

end Layer

/-! ## Every run -/

section Runs

variable {cfg : Config} {reqs : Nat → Request} {users : Table User User.id}
  {inventors : Table Inventor Inventor.id} {categories : Table Category Category.id}
  {σ : State Db Ext Write Loc}

/-- **Every run refines the abstract service**: it accepts the committed operations of a patent, one
    after the other, and they lead to what the tables say of the patent. -/
theorem refines_of_run
    (hrun : Run (patents cfg reqs).step always (init users inventors categories) σ) (id : Nat) :
    exec serve none (σ.base.log.filterMap (opOf reqs id)) = some (lifeOf σ.base.db id) := by
  have H := layered_of_run (callerLayer (fun _ _ _ => True) cfg reqs) trivial
    (fun _ hchecked => hchecked.elim) (landing_of_always hrun)
  rw [H.replay]
  exact H.serial.refines serve (opOf reqs id) (lifeOf · id)
    (fun d _ => d.patents.get? id = none → reviewsOf d id = []) (fun _ => rfl)
    fun hbare htx => serves_of_tx htx.1 htx.2 hbare

end Runs

/-! ## A stranger is refused -/

/-- Eve wants to submit Ada's draft; Ada does, and root declines it. -/
def withEve : Nat → Request
  | 0 => .requestUpload ada "a.pdf" "application/pdf"
  | 1 => .createPatent ada firstInput
  | 2 => .submitForReview ⟨3, .user⟩ 1
  | 3 => .submitForReview ada 1
  | _ => .declinePatent root 1 (some "no")

/-- Eve's request is served before the decision. -/
def eveFirst : List (Act Oracle Upload) := drafted ++ steps 2 2 ++ steps 3 4 ++ steps 4 6

theorem eveFirst_runs : (exec (patents pdfOnly withEve).step blank eveFirst).isSome = true := by
  decide

/-- The state after `eveFirst`. -/
def afterEve : State Db Ext Write Loc :=
  (exec (patents pdfOnly withEve).step blank eveFirst).get eveFirst_runs

/-- A stranger's request leaves no operation, and the service gives the same life. -/
theorem refines_of_eveFirst :
    afterEve.base.log.filterMap (opOf withEve 1) = [.create ada, .submit ada, .decline root] ∧
      lifeOf afterEve.base.db 1 =
        some ⟨1, .declined, true, true, [(some 2, some .fail)]⟩ ∧
      exec serve none (afterEve.base.log.filterMap (opOf withEve 1)) =
        some (lifeOf afterEve.base.db 1) :=
  ⟨by decide, by decide, refines_of_run (Run.exec_get eveFirst_runs) 1⟩

end SmartPatents.PatentLife
