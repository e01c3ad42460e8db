/-
  Is every idempotency key released in the end?

  The reservation is a committed row, and only the wrapped `res.json` of the request that made it
  resolves it: by recording a 2xx or by deleting the row.  If that request dies before, or if its
  settle write fails (the failure is logged, and the response goes out), the row stays `IN_FLIGHT`
  for good and every retry is answered 409 "still in progress" (`not_unstuck`).

  Those are the only ways: as long as no request dies holding its reservation and no settle write
  fails (`Settles`), every row that is not settled belongs to a request that is still running
  (`Accounted`), so none is left when all requests have ended (`unstuck_of_run`).

  `Accounted` needs that only requests with a key hold a reservation (`KeyedOwners`), which is a
  second invariant of its own.  The retry that gets to run is a consequence: in an idle state
  without a row in flight, the INSERT of a request whose key has no recorded response is won
  (`Unstuck`).
-/
import SmartPatents.IdempotencySafety

namespace SmartPatents.Idempotency

open Runs

variable {B J : Type} {app : App B J} {reqs : Nat → Request B} {σ σ' : State B J} {a : Act J}

/-! ## The property and its condition -/

/-- No request is being processed: each has not begun, has been answered, or is dead. -/
def Idle (σ : State B J) : Prop :=
  ∀ p, σ.loc p = .start ∨ (∃ replay status body, σ.loc p = .answered replay status body) ∨
    σ.loc p = .hung

/-- No row is `IN_FLIGHT`, and a request whose key has no recorded response gets to run. -/
structure Unstuck (app : App B J) (reqs : Nat → Request B) (σ : State B J) : Prop where
  settled : ∀ row ∈ σ.keys, row.responseStatus ≠ IN_FLIGHT
  retryable : ∀ p id outcome, σ.loc p = .start → (reqs p).keyId = some id → id.key.length ≤ 255 →
    (∀ row ∈ σ.keys, row.id = id → ok2xx row.responseStatus = false) →
    ∃ τ, step app reqs σ (.run p outcome) = some τ ∧ τ.loc p = .running true

/-- No request dies while it holds its reservation, and no settle write fails. -/
def Settles (σ : State B J) : Act J → Prop
  | .run .. => True
  | .dbError p => (σ.loc p).settling = false
  | .crash p => (σ.loc p).owns = false

instance (σ : State B J) : ∀ a, Decidable (Settles σ a)
  | .run .. => .isTrue trivial
  | .dbError p => inferInstanceAs (Decidable ((σ.loc p).settling = false))
  | .crash p => inferInstanceAs (Decidable ((σ.loc p).owns = false))

/-! ## The invariant -/

/-- Every row is a recorded 2xx, or the reservation of a request that is still at work. -/
def Accounted (reqs : Nat → Request B) (σ : State B J) : Prop :=
  ∀ row ∈ σ.keys, ok2xx row.responseStatus = true ∨
    ∃ p, (reqs p).keyId = some row.id ∧ (σ.loc p).owns = true

/-- A request that holds no reservation, or keeps it, moves without touching the rows. -/
theorem Accounted.walk (h : Accounted reqs σ) {p : Nat} {l : Loc J}
    {patents : List (Nat × Patent B)} (howns : (σ.loc p).owns = true → l.owns = true) :
    Accounted reqs { keys := σ.keys, patents := patents, loc := goto σ.loc p l } := by
  intro row hrow
  rcases h row hrow with hok | ⟨q, hkey, hown⟩
  · exact Or.inl hok
  · refine Or.inr ⟨q, hkey, ?_⟩
    by_cases hq : q = p
    · subst hq
      dsimp only
      rw [goto_self]
      exact howns hown
    · dsimp only
      rw [goto_ne _ _ hq]
      exact hown

/-- A row that is inserted has the request that inserted it. -/
theorem Accounted.reserve (h : Accounted reqs σ) {p : Nat} {id : KeyId}
    (hkey : (reqs p).keyId = some id) (hloc : σ.loc p = .start) :
    Accounted reqs { σ with
      keys := σ.keys.put (reservation app (reqs p) id)
      loc := goto σ.loc p (.running true) } := by
  have hwalk : Accounted reqs
      { keys := σ.keys, patents := σ.patents, loc := goto σ.loc p (.running true) } :=
    h.walk fun hown => by rw [hloc] at hown; nomatch hown
  intro row hrow
  rcases Table.mem_put.mp hrow with rfl | ⟨hrow, -⟩
  · refine Or.inr ⟨p, hkey, ?_⟩
    dsimp only
    rw [goto_self]
    rfl
  · exact hwalk row hrow

/-- What a settled key leaves behind: the row is a recorded 2xx, or it was there and is another's. -/
theorem of_mem_settle {r : Request B} {status : Nat} {body : J} {row : IdempotencyKey J}
    {id : KeyId} (hkey : r.keyId = some id) (hrow : row ∈ settle r status body σ) :
    ok2xx row.responseStatus = true ∨ (row ∈ σ.keys ∧ row.id ≠ id) := by
  simp only [settle, hkey] at hrow
  split at hrow
  · rename_i hok
    split at hrow
    · rename_i hnone
      exact Or.inr ⟨hrow, Table.get?_eq_none.mp hnone row hrow⟩
    · rename_i old hold
      rcases Table.mem_put.mp hrow with rfl | ⟨hrow, hne⟩
      · exact Or.inl hok
      · exact Or.inr ⟨hrow, fun hid => hne (hid.trans (Table.get?_eq_some.mp hold).2.symm)⟩
  · exact Or.inr (Table.mem_erase.mp hrow)

/-- A row that is settled or deleted needs none. -/
theorem Accounted.settle (h : Accounted reqs σ) {p status : Nat} {body : J}
    (hkey : (reqs p).keyId.isSome) :
    Accounted reqs { σ with
      keys := settle (reqs p) status body σ
      loc := goto σ.loc p (.answered false status body) } := by
  obtain ⟨id, hkey⟩ := Option.isSome_iff_exists.mp hkey
  intro row hrow
  rcases of_mem_settle hkey hrow with hok | ⟨hrow, hne⟩
  · exact Or.inl hok
  · rcases h row hrow with hok | ⟨q, hq, hown⟩
    · exact Or.inl hok
    · -- the reservation of another key is held by another request
      refine Or.inr ⟨q, hq, ?_⟩
      have hqp : q ≠ p := by
        rintro rfl
        exact hne (Option.some.inj (hq.symm.trans hkey))
      dsimp only
      rw [goto_ne _ _ hqp]
      exact hown

/-- Only a request with a key holds a reservation. -/
def KeyedOwners (reqs : Nat → Request B) (σ : State B J) : Prop :=
  ∀ p, (σ.loc p).owns = true → (reqs p).keyId.isSome

/-- A request that owns a row has a key. -/
theorem KeyedOwners.walk (h : KeyedOwners reqs σ) {p : Nat} {l : Loc J}
    {keys : Table (IdempotencyKey J) IdempotencyKey.id} {patents : List (Nat × Patent B)}
    (howns : l.owns = true → (reqs p).keyId.isSome) :
    KeyedOwners reqs { keys := keys, patents := patents, loc := goto σ.loc p l } :=
  forall_goto (P := fun p (l : Loc J) => l.owns = true → (reqs p).keyId.isSome) howns
    fun q _ => h q

/-- **Step lemma** of the same. -/
theorem keyedOwners_step (h : KeyedOwners reqs σ) (hs : step app reqs σ a = some σ') :
    KeyedOwners reqs σ' := by
  cases effect_of_step hs with
  | @reserve p outcome id hloc hkey => exact h.walk fun _ => by rw [hkey]; rfl
  | @failed p reserved status body hloc =>
    refine h.walk fun hown => h p ?_
    cases reserved with
    | true => rw [hloc]; rfl
    | false => nomatch hown
  | @committed p reserved patentId patent hloc =>
    refine h.walk fun hown => h p ?_
    cases reserved with
    | true => rw [hloc]; rfl
    | false => nomatch hown
  | _ => exact h.walk nofun

/-- **Step lemma.** -/
theorem Accounted.step (h : Accounted reqs σ) (howners : KeyedOwners reqs σ) (hok : Settles σ a)
    (hs : step app reqs σ a = some σ') : Accounted reqs σ' := by
  cases effect_of_step hs with
  | unkeyed hloc => exact h.walk fun hown => by rw [hloc] at hown; nomatch hown
  | reserve hloc hkey => exact h.reserve hkey hloc
  | lose hloc => exact h.walk fun hown => by rw [hloc] at hown; nomatch hown
  | refused hkey hnot hloc =>
    rcases hloc with hloc | hloc
    · exact h.walk fun hown => by rw [hloc] at hown; nomatch hown
    · exact h.walk fun hown => by rw [hloc] at hown; nomatch hown
  | gone hloc => exact h.walk fun hown => by rw [hloc] at hown; nomatch hown
  | replay hloc => exact h.walk fun hown => by rw [hloc] at hown; nomatch hown
  | @failed p reserved status body hloc =>
    refine h.walk fun hown => ?_
    rw [hloc] at hown
    cases reserved with
    | true => rfl
    | false => nomatch hown
  | @committed p reserved patentId patent hloc =>
    refine h.walk fun hown => ?_
    rw [hloc] at hown
    cases reserved with
    | true => rfl
    | false => nomatch hown
  | @settled p outcome status body hloc => exact h.settle (howners p (by rw [hloc]; rfl))
  | sent hloc => exact h.walk fun hown => by rw [hloc] at hown; nomatch hown
  | unread hloc => exact h.walk fun hown => by rw [hloc] at hown; nomatch hown
  | unsettled hloc =>
    -- excluded: the settle write does not fail
    simp only [Settles, hloc] at hok
    nomatch hok
  | crash =>
    -- excluded: it held a reservation
    exact h.walk fun hown => absurd hown (by simpa [Settles] using hok)

/-- When nobody is at work, every row is a recorded response. -/
theorem Accounted.unstuck (h : Accounted reqs σ) (hidle : Idle σ) : Unstuck app reqs σ := by
  have hrecorded : ∀ row ∈ σ.keys, ok2xx row.responseStatus = true := by
    intro row hrow
    rcases h row hrow with hok | ⟨p, -, hown⟩
    · exact hok
    · rcases hidle p with hl | ⟨replay, status, body, hl⟩ | hl <;> rw [hl] at hown <;> nomatch hown
  constructor
  case settled =>
    intro row hrow hflight
    have hok := hrecorded row hrow
    rw [hflight] at hok
    nomatch hok
  case retryable =>
    intro p id outcome hloc hkey hlength hnone
    have hfree : σ.keys.get? id = none := by
      refine Table.get?_eq_none.mpr fun row hrow hid => ?_
      have hok := hrecorded row hrow
      rw [hnone row hrow hid] at hok
      nomatch hok
    have hreserve : Idempotency.reserve app (reqs p) σ =
        (σ.keys.put (reservation app (reqs p) id), .running true) := by
      simp only [Idempotency.reserve, hkey, hfree, if_neg (Nat.not_lt.mpr hlength)]
    refine ⟨{ σ with
      keys := σ.keys.put (reservation app (reqs p) id)
      loc := goto σ.loc p (.running true) }, ?_, goto_self _ _ _⟩
    simp only [Idempotency.step, hloc, hreserve]

/-- **No key is stuck** in a run in which every reservation comes to its settle write. -/
theorem unstuck_of_run (hrun : Run (step app reqs) Settles init σ) (hidle : Idle σ) :
    Unstuck app reqs σ := by
  have h : Accounted reqs σ ∧ KeyedOwners reqs σ := by
    refine hrun.invariant (I := fun τ => Accounted reqs τ ∧ KeyedOwners reqs τ)
      (fun τ a τ' hτ hok hs => ?_) ⟨fun row hrow => ?_, fun p hown => ?_⟩
    · exact ⟨hτ.1.step hτ.2 hok hs, keyedOwners_step hτ.2 hs⟩
    · exact absurd hrow (Table.not_mem_empty row)
    · nomatch hown
  exact h.1.unstuck hidle

/-! ## A request that fails, and one that dies -/

/-- Request 0 reserves the key, its handler fails, and it releases the key. -/
def failsAndReleases : List (Act String) := [go 0, .run 0 (.fails 400 "bad"), go 0]

theorem failsAndReleases_runs :
    (execOk (step plainApp sameKey) Settles init failsAndReleases).isSome = true := by
  decide

/-- Nobody is under way any more. -/
theorem idle_of_failsAndReleases :
    Idle ((execOk (step plainApp sameKey) Settles init failsAndReleases).get
      failsAndReleases_runs) := by
  intro p
  match p with
  | 0 => exact Or.inr (Or.inl ⟨false, 400, "bad", rfl⟩)
  | p + 1 => exact Or.inl rfl

/-- A request that has failed leaves its key free. -/
theorem unstuck_of_failsAndReleases :
    Unstuck plainApp sameKey ((execOk (step plainApp sameKey) Settles init failsAndReleases).get
      failsAndReleases_runs) :=
  unstuck_of_run (Run.of_execOk (Option.some_get failsAndReleases_runs).symm)
    idle_of_failsAndReleases

/-- Request 0 reserves the key and dies. -/
def dies : List (Act String) := [go 0, .crash 0]

theorem dies_runs : (exec (step plainApp sameKey) init dies).isSome = true := by
  decide

/-- Nobody is at work, and the row is `IN_FLIGHT`. -/
theorem not_unstuck :
    ¬ ∀ σ, Run (step plainApp sameKey) always init σ → Idle σ → Unstuck plainApp sameKey σ := by
  intro hall
  have hidle : Idle ((exec (step plainApp sameKey) init dies).get dies_runs) := by
    intro p
    match p with
    | 0 => exact Or.inr (Or.inr rfl)
    | p + 1 => exact Or.inl rfl
  have hunstuck := hall _ (Run.exec_get dies_runs) hidle
  exact hunstuck.settled (reservation plainApp (sameKey 0) ⟨1, endpoint, "retry"⟩) (by decide) rfl

end SmartPatents.Idempotency
