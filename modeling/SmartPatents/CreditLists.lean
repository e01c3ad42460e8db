/-
  Credit lists stay whole.

  The credits of a patent are what the last create or edit that set them has written, in orders
  1, 2, …, N (`Whole`).  Submissions, decisions and deletions of other patents leave them alone, and
  so does everything that happens to inventors, with one exception: deleteInventor counts the
  credits in one statement and deletes in another.  A patent that is credited and committed in
  between loses that credit to the cascade, and keeps a gap in its orders (`not_whole`).  In every
  run in which the DELETE finds no credit the lists stay whole (`whole_of_run`).

  `lastSet` reads the log from its end: the credits of the last transaction that set any.  `Whole`
  compares the table with it, row for row, and adds that the orders are 1, 2, …, N.

  That the DELETE finds no credit (`Uncredited`) is asked at the DELETE itself, and it is what the
  count before it was meant to ensure.

  The step (`Whole.tx`) goes by the transactions of the catalogue.  Those of the other services
  keep the credits, as the DELETE of an inventor finds none by the condition; those of patents
  write the row, and then the credits are as `relinked` says, or leave row and credits alone.
-/
import SmartPatents.CatalogueOutline

namespace SmartPatents.CreditLists

open ReadCommitted Runs Access Relations Catalogue
open PatentService (credits setsCredits PatentTx LinkTx)

/-! ## Credits and the log -/

/-- A write of the row of patent `id`. -/
def writesRow (id : Nat) : Write → Bool
  | .patent w => w.touches == some id
  | _ => false

/-- The credits that a committed transaction sets on patent `id`, if it sets them: those of the body
    of its createPatent or updatePatent. -/
def setBy (reqs : Nat → Request) (id : Nat) (e : Nat × List Write) : Option (List PatentInventor) :=
  match reqs e.1 with
  | .patent r => if e.2.any (writesRow id) then setsCredits r id else none
  | .reference _ => none

/-- The credits that were set last. -/
def lastSet (reqs : Nat → Request) (id : Nat) (log : List (Nat × List Write)) :
    Option (List PatentInventor) :=
  (log.filterMap (setBy reqs id)).getLast?

/-- 1, 2, …, n. -/
def oneTo (n : Nat) : List Int := (List.range n).map fun i : Nat => (i : Int) + 1

/-- Every patent has exactly the credits that were set last, in a contiguous order. -/
def Whole (reqs : Nat → Request) (d : Db) (log : List (Nat × List Write)) : Prop :=
  ∀ row ∈ d.patents, lastSet reqs row.id log = some (credits.ofPatent d row.id) ∧
    ((credits.ofPatent d row.id).map PatentInventor.inventorOrder).Perm
      (oneTo (credits.ofPatent d row.id).length)

/-- The last request that set the credits, after one more commit. -/
theorem lastSet_concat (reqs : Nat → Request) (id : Nat) (log : List (Nat × List Write))
    (e : Nat × List Write) :
    lastSet reqs id (log ++ [e]) = (setBy reqs id e).or (lastSet reqs id log) := by
  rw [lastSet, List.filterMap_append]
  cases hset : setBy reqs id e with
  | none => simp [hset, lastSet]
  | some rows => simp [hset]

/-- What the check of `resolveInventorLinks` means. -/
theorem perm_of_contiguous {orders : List Int} (h : contiguous orders = true) :
    orders.Perm (oneTo orders.length) := by
  have hsorted : orders.insertionSort (· ≤ ·) = oneTo orders.length := by
    refine List.ext_getElem ?_ fun i hi hi' => ?_
    · rw [List.length_insertionSort, oneTo, List.length_map, List.length_range]
    · have hall := List.all_eq_true.mp h
      have hat := hall _ (List.getElem_mem (l := (orders.insertionSort (· ≤ ·)).mapIdx
        fun index value => value == (index : Int) + 1) (by simpa using hi))
      simpa [oneTo] using hat
  exact hsorted ▸ (List.perm_insertionSort _ orders).symm

/-! ## One transaction -/

section Step

variable {reqs : Nat → Request} {p : Nat} {d : Db}

/-- The credits of a patent that a transaction has written. -/
theorem relinked {J : Nat → PatentService.Loc → Patent → Prop} {reqs : Nat → PatentService.Request}
    {log : List (Nat × List PatentService.Write)} {ws : List PatentService.Write} {row : Patent}
    (htx : PatentTx J reqs p d log ws) (hlinks : LinkTx (reqs p) d ws)
    (hrow : row ∈ (PatentService.after d ws).patents) (htouch : ∃ w ∈ ws, w.touches = some row.id) :
    (∃ rows, setsCredits (reqs p) row.id = some rows ∧
      credits.ofPatent (PatentService.after d ws) row.id = rows ∧
      contiguous (rows.map PatentInventor.inventorOrder) = true) ∨
    (setsCredits (reqs p) row.id = none ∧
      credits.ofPatent (PatentService.after d ws) row.id = credits.ofPatent d row.id ∧
      ∃ old ∈ d.patents, old.id = row.id) := by
  rcases htx.touched htouch with ⟨user, input, hreq⟩ | ⟨hsubject, hold⟩
  · have hlinked := (htx.linked_create hreq hlinks htouch).1
    have hsets : ∃ rows, setsCredits (reqs p) row.id = some rows := by
      rw [hreq]
      exact ⟨_, rfl⟩
    obtain ⟨rows, hsets⟩ := hsets
    have hafter := hlinked.after.2
    rw [hsets] at hafter
    exact Or.inl ⟨rows, hsets, hafter, hlinked.ordered rows hsets⟩
  · cases htx.links hlinks row.id with
    | other hne => exact absurd hsubject hne
    | writes _ _ hcredits hordered =>
      cases hsets : setsCredits (reqs p) row.id with
      | none =>
        rw [hsets] at hcredits
        exact Or.inr ⟨rfl, hcredits, hold⟩
      | some rows =>
        rw [hsets] at hcredits
        exact Or.inl ⟨rows, rfl, hcredits, hordered rows hsets⟩
    | delete hreq =>
      cases htx with
      | delete hreq' hlands =>
        obtain ⟨w, hw, hid⟩ := htouch
        rw [List.mem_singleton.mp hw] at hid
        exact absurd (Option.some.inj hid).symm (Table.mem_erase.mp hrow).2
      | create hreq' => nomatch hreq.symm.trans hreq'
      | update hreq' => nomatch hreq.symm.trans hreq'
      | submit hreq' => nomatch hreq.symm.trans hreq'
      | review hdec =>
        have hreviews := hdec.req
        rw [hreq] at hreviews
        nomatch hreviews

/-- A raised transaction writes the patents that it wrote below. -/
theorem any_writesRow {ws : List PatentService.Write} {id : Nat} :
    (ws.map Write.patent).any (writesRow id) = true ↔ ∃ w ∈ ws, w.touches = some id := by
  simp [writesRow, List.any_map]

/-- **Step lemma.**  Every transaction keeps the lists whole. -/
theorem Whole.tx {log : List (Nat × List Write)} {ws : List Write} (h : Whole reqs d log)
    (htx : CatalogueTx reqs p d log ws) : Whole reqs (Catalogue.after d ws) (log ++ [(p, ws)]) := by
  intro row hrow
  rw [lastSet_concat]
  cases htx with
  | reference hreq htx =>
    have hset : ∀ ws, setBy reqs row.id (p, ws) = none := fun ws => by simp only [setBy, hreq]
    obtain ⟨-, hpatents, -, hcredits, -⟩ := htx.keeps
    have hsame : credits.ofPatent (Catalogue.after d ws) row.id = credits.ofPatent d row.id :=
      congrArg (fun t => t.rows.filter fun l => (PatentInventor.key l).1 == row.id) hcredits
    rw [hset, Option.none_or, hsame]
    exact h row (hpatents ▸ hrow)
  | @patent r ws hreq htx hlinks hrefers =>
    have hafter : Catalogue.after d (ws.map .patent) = PatentService.after d ws := List.foldl_map
    rw [hafter] at hrow ⊢
    rw [← patentRequests_eq hreq] at hlinks
    by_cases htouch : ∃ w ∈ ws, w.touches = some row.id
    · have hset : setBy reqs row.id (p, ws.map .patent) = setsCredits r row.id := by
        simp only [setBy, hreq, any_writesRow.mpr htouch, if_true]
      have hrelinked := relinked htx hlinks hrow htouch
      rw [patentRequests_eq hreq] at hrelinked
      rcases hrelinked with ⟨rows, hsets, hrows, hordered⟩ | ⟨hsets, hsame, old, hold, hid⟩
      · rw [hset, hsets, hrows, Option.some_or]
        refine ⟨rfl, ?_⟩
        have hperm := perm_of_contiguous hordered
        rwa [List.length_map] at hperm
      · rw [hset, hsets, hsame, Option.none_or]
        exact hid ▸ h old hold
    · have hset : setBy reqs row.id (p, ws.map .patent) = none := by
        simp only [setBy, hreq]
        exact if_neg fun hany => htouch (any_writesRow.mp hany)
      have hsame : credits.ofPatent (PatentService.after d ws) row.id =
          credits.ofPatent d row.id :=
        htx.rewrites.ofPatent fun w hw hid => htouch ⟨w, hw, hid⟩
      rw [hset, hsame, Option.none_or]
      rcases PatentService.patent_back ws hrow with hold | ⟨w, hw, hnew⟩
      · exact h row hold
      · have htouches : w.touches = some row.id := by
          cases w <;> first | exact congrArg (Option.map Patent.id) hnew | nomatch hnew
        exact absurd ⟨w, hw, htouches⟩ htouch

end Step

/-! ## Every run -/

/-- **In every run in which the DELETE of an inventor finds no credit**, the credits of every patent
    are those that were set last, in a contiguous order. -/
theorem whole_of_run {cfg : Storage.Config} {sameName : String → String → Bool}
    {reqs : Nat → Request} {users : Table User User.id} {σ : State Db Ext Write Loc}
    (hrun : Run (catalogue cfg sameName reqs).step (Machine.localOk (Uncredited reqs))
      (init reqs users) σ) : Whole reqs σ.base.db σ.base.log := by
  obtain ⟨hserial, hreplay⟩ := catalogue_serial hrun
  rw [hreplay]
  exact hserial.invariant (fun row hrow => absurd hrow (Table.not_mem_empty row))
    fun hwhole htx => hwhole.tx htx

/-! ## A patent between the count and the DELETE -/

/-- Two inventors, credited together. -/
def duet : PatentService.CreateInput :=
  { PatentService.firstInput with inventors := some [⟨"1", none⟩, ⟨"2", none⟩] }

/-- Inventor 1 is deleted while a patent that credits it is created. -/
def overtaken : Nat → Request
  | 0 => .patent (.requestUpload PatentService.ada "a.pdf" "application/pdf")
  | 1 => .reference (.createInventor PatentService.root ⟨"Grace", "grace@example.com", none, false⟩)
  | 2 => .reference (.createInventor PatentService.root ⟨"Alan", "alan@example.com", none, false⟩)
  | 3 => .reference (.deleteInventor PatentService.root 1)
  | _ => .patent (.createPatent PatentService.ada duet)

/-- The document and the inventors. -/
def prepared : List (Act PatentService.Oracle PatentService.Upload) :=
  PatentService.steps 0 1 ++ [.env (.put (PatentService.keyOf "a.pdf") 10)] ++
    PatentService.steps 1 2 ++ PatentService.steps 2 2

/-- The delete counts after the patent is committed, and is refused. -/
def countedLate : List (Act PatentService.Oracle PatentService.Upload) :=
  prepared ++ PatentService.steps 4 10 ++ PatentService.steps 3 2

/-- The delete counts before, and erases after. -/
def countedEarly : List (Act PatentService.Oracle PatentService.Upload) :=
  prepared ++ PatentService.steps 3 2 ++ PatentService.steps 4 10 ++ PatentService.steps 3 1

theorem countedLate_runs :
    (execOk (catalogue PatentService.pdfOnly (· == ·) overtaken).step
      (Machine.localOk (Uncredited overtaken)) (init overtaken PatentService.accounts)
      countedLate).isSome = true := by
  decide

/-- The deletion counts after the creation has committed, and is refused. -/
theorem whole_of_countedLate :
    ∃ σ, execOk (catalogue PatentService.pdfOnly (· == ·) overtaken).step
        (Machine.localOk (Uncredited overtaken)) (init overtaken PatentService.accounts)
        countedLate = some σ ∧ Whole overtaken σ.base.db σ.base.log := by
  have hσ := (Option.some_get countedLate_runs).symm
  exact ⟨_, hσ, whole_of_run (Run.of_execOk hσ)⟩

theorem countedEarly_runs :
    (exec (catalogue PatentService.pdfOnly (· == ·) overtaken).step
      (init overtaken PatentService.accounts) countedEarly).isSome = true := by
  decide

/-- The DELETE takes the first of the two credits along. -/
def gapped : State Db Ext Write Loc :=
  (exec (catalogue PatentService.pdfOnly (· == ·) overtaken).step
    (init overtaken PatentService.accounts) countedEarly).get countedEarly_runs

/-- It counts before, and takes a credit along. -/
theorem not_whole :
    ¬ ∀ (cfg : Storage.Config) (sameName : String → String → Bool) (reqs : Nat → Request)
      (users : Table User User.id) (σ : State Db Ext Write Loc),
      Run (catalogue cfg sameName reqs).step always (init reqs users) σ →
      Whole reqs σ.base.db σ.base.log := by
  intro hall
  have hwhole := hall PatentService.pdfOnly (· == ·) overtaken PatentService.accounts gapped
    (Run.exec_get countedEarly_runs)
  have hlost : ∃ row ∈ gapped.base.db.patents.rows, lastSet overtaken row.id gapped.base.log ≠
      some (credits.ofPatent gapped.base.db row.id) := by
    decide
  obtain ⟨row, hrow, hne⟩ := hlost
  exact hne (hwhole row hrow).1

end SmartPatents.CreditLists
