/-
  One key, one creation.

  All requests that carry one key share a row.  While the row is there, exactly one request may run
  the handler, and what it answers is recorded before anybody can see it.  `Phase` says where a key
  stands; every step of a request with the key moves it along

      free → running → failing → free
                     → created → settled

  and no other request touches it.  The weak point is a request that has lost the insert: if the row
  is released before it reads, the middleware lets it run the handler WITHOUT a reservation, beside
  whoever reserves the key next (`not_keySafe`: two patents under one key).  Along every run in which
  the row is still there whenever such a request reads it (`RowStays`), the key is safe
  (`keySafe_of_run`).

  The condition is about the one read that may find nothing.  It can fail only where the request
  that had won the insert has failed and released its key in between, so three requests are needed
  to create two patents.

  `Phase` is an inductive predicate with one constructor for each place a key can be in, and each
  carries what is known there: who owns the row, what the row says, and which patents have been
  created.  The step lemma is one short lemma for each arrow of the picture (`KeyInv.reserve`,
  `KeyInv.fail`, `KeyInv.commit`, `KeyInv.finish`) and the frame for everybody else.
-/
import SmartPatents.Idempotency

namespace SmartPatents.Idempotency

open Runs

variable {B J : Type} {app : App B J} {reqs : Nat → Request B} {k : KeyId} {σ σ' : State B J}
  {a : Act J}

/-! ## The property and its conditions -/

/-- The creations committed by requests that carry the key. -/
def creations (reqs : Nat → Request B) (k : KeyId) (σ : State B J) : List (Nat × Patent B) :=
  σ.patents.filter fun c => (reqs c.1).keyId = some k

/-- At most one handler run under the key commits a patent, and every 2xx response under it is that
    creation's. -/
structure KeySafe (app : App B J) (reqs : Nat → Request B) (k : KeyId) (σ : State B J) : Prop where
  one : (creations reqs k σ).length ≤ 1
  answers : ∀ p, (reqs p).keyId = some k → ∀ replay status body,
    σ.loc p = .answered replay status body → ok2xx status = true →
    ∃ c ∈ creations reqs k σ, status = 201 ∧ body = app.created c.2

/-- The next statement is the settle write. -/
def Loc.settling : Loc J → Bool
  | .replying true _ _ => true
  | _ => false

/-- No crash, and no settle write fails. -/
def Reliable (σ : State B J) : Act J → Prop
  | .run .. => True
  | .dbError p => (σ.loc p).settling = false
  | .crash _ => False

/-- Whenever a request that lost the insert reads the row, the row is there. -/
def RowStays (reqs : Nat → Request B) (σ : State B J) : Act J → Prop
  | .run p _ => σ.loc p = .lost → ((reqs p).keyId.bind σ.keys.get?).isSome
  | _ => True

instance (σ : State B J) : ∀ a, Decidable (Reliable σ a)
  | .run .. => .isTrue trivial
  | .dbError p => inferInstanceAs (Decidable ((σ.loc p).settling = false))
  | .crash _ => .isFalse id

instance [DecidableEq J] (σ : State B J) : ∀ a, Decidable (RowStays reqs σ a)
  | .run p _ => inferInstanceAs
      (Decidable (σ.loc p = .lost → ((reqs p).keyId.bind σ.keys.get?).isSome))
  | .dbError _ | .crash _ => .isTrue trivial

/-! ## The phases of a key -/

/-- The request holds the reservation of its key. -/
def Loc.owns : Loc J → Bool
  | .running true | .replying true _ _ => true
  | _ => false

/-- Nobody, or nobody but `o`, holds the reservation of `k`. -/
def OnlyOwner (reqs : Nat → Request B) (k : KeyId) (σ : State B J) (o : Option Nat) : Prop :=
  ∀ p, (reqs p).keyId = some k → (σ.loc p).owns = true → o = some p

/-- Where a key is: free, held by one request that runs, fails or has created, or settled with its
    reply. -/
inductive Phase (app : App B J) (reqs : Nat → Request B) (k : KeyId) (σ : State B J) : Prop
  | free (hrow : σ.keys.get? k = none) (howner : OnlyOwner reqs k σ none)
      (hnone : creations reqs k σ = [])
  | running {p row} (hkey : (reqs p).keyId = some k) (hrow : σ.keys.get? k = some row)
      (hflight : row.responseStatus = IN_FLIGHT) (howner : OnlyOwner reqs k σ (some p))
      (hloc : σ.loc p = .running true) (hnone : creations reqs k σ = [])
  | failing {p row status body} (hkey : (reqs p).keyId = some k) (hrow : σ.keys.get? k = some row)
      (hflight : row.responseStatus = IN_FLIGHT) (howner : OnlyOwner reqs k σ (some p))
      (hloc : σ.loc p = .replying true status body) (hnot : ok2xx status = false)
      (hnone : creations reqs k σ = [])
  | created {p row c} (hkey : (reqs p).keyId = some k) (hrow : σ.keys.get? k = some row)
      (hflight : row.responseStatus = IN_FLIGHT) (howner : OnlyOwner reqs k σ (some p))
      (hloc : σ.loc p = .replying true 201 (app.created c.2)) (hone : creations reqs k σ = [c])
  | settled {row c} (hrow : σ.keys.get? k = some row) (howner : OnlyOwner reqs k σ none)
      (hstatus : row.responseStatus = 201) (hbody : row.responseBody = app.created c.2)
      (hone : creations reqs k σ = [c])

/-- No request with the key runs the handler without holding the reservation. -/
def Loc.unreserved : Loc J → Bool
  | .running false | .replying false _ _ => true
  | _ => false

/-- The phase of a key, and that every success answered under it is of the one patent it created. -/
structure KeyInv (app : App B J) (reqs : Nat → Request B) (k : KeyId) (σ : State B J) : Prop where
  phase : Phase app reqs k σ
  reserved : ∀ p, (reqs p).keyId = some k → (σ.loc p).unreserved = false
  answers : ∀ p, (reqs p).keyId = some k → ∀ replay status body,
    σ.loc p = .answered replay status body → ok2xx status = true →
    ∃ c ∈ creations reqs k σ, status = 201 ∧ body = app.created c.2

/-- The invariant says more than the property. -/
theorem KeyInv.safe (h : KeyInv app reqs k σ) : KeySafe app reqs k σ where
  one := by
    cases h.phase with
    | free _ _ hnone => rw [hnone]; exact Nat.zero_le _
    | running _ _ _ _ _ hnone => rw [hnone]; exact Nat.zero_le _
    | failing _ _ _ _ _ _ hnone => rw [hnone]; exact Nat.zero_le _
    | created _ _ _ _ _ hone => rw [hone]; exact Nat.le_refl _
    | settled _ _ _ _ hone => rw [hone]; exact Nat.le_refl _
  answers := h.answers

theorem keyInv_init : KeyInv app reqs k (init : State B J) where
  phase := .free (Table.get?_eq_none.mpr fun r hr => absurd hr (Table.not_mem_empty r))
    (fun _ _ ho => nomatch ho) rfl
  reserved := fun _ _ => rfl
  answers := fun _ _ _ _ _ hl => nomatch hl

/-! ## Steps -/

/-- Request `p` moves and the phase moves on; nobody else is concerned. -/
theorem KeyInv.advance (h : KeyInv app reqs k σ) {p : Nat} {l : Loc J}
    {keys : Table (IdempotencyKey J) IdempotencyKey.id} {patents : List (Nat × Patent B)}
    (hphase : Phase app reqs k { keys := keys, patents := patents, loc := goto σ.loc p l })
    (hgrow : ∀ c ∈ creations reqs k σ, c ∈ creations reqs k { σ with patents := patents })
    (hto : (reqs p).keyId = some k → l.unreserved = false ∧ ∀ replay status body,
      l = .answered replay status body → ok2xx status = true →
        ∃ c ∈ creations reqs k { σ with patents := patents },
          status = 201 ∧ body = app.created c.2) :
    KeyInv app reqs k { keys := keys, patents := patents, loc := goto σ.loc p l } where
  phase := hphase
  reserved := forall_goto (P := fun q (l : Loc J) => (reqs q).keyId = some k →
    l.unreserved = false) (fun hp => (hto hp).1) fun q _ => h.reserved q
  answers := by
    refine forall_goto (P := fun q (l : Loc J) => (reqs q).keyId = some k →
      ∀ replay status body, l = .answered replay status body → ok2xx status = true →
        ∃ c ∈ creations reqs k { σ with patents := patents },
          status = 201 ∧ body = app.created c.2)
      (fun hp => (hto hp).2) fun q _ hq replay status body hl hok => ?_
    obtain ⟨c, hc, hrest⟩ := h.answers q hq replay status body hl hok
    exact ⟨c, hgrow c hc, hrest⟩

/-- Request `p` moves without reserving, answering 2xx, or touching the row of `k`, and commits
    nothing under the key. -/
theorem KeyInv.walk (h : KeyInv app reqs k σ) {p : Nat} {l : Loc J}
    {keys : Table (IdempotencyKey J) IdempotencyKey.id} {patents : List (Nat × Patent B)}
    (hrow : keys.get? k = σ.keys.get? k)
    (hcreations : creations reqs k { σ with keys := keys, patents := patents } = creations reqs k σ)
    (hfrom : (reqs p).keyId = some k → (σ.loc p).owns = false)
    (hto : (reqs p).keyId = some k → l.owns = false ∧ l.unreserved = false ∧
      ∀ replay status body, l = .answered replay status body → ok2xx status = true →
        ∃ c ∈ creations reqs k σ, status = 201 ∧ body = app.created c.2) :
    KeyInv app reqs k { keys := keys, patents := patents, loc := goto σ.loc p l } := by
  have hcr : creations reqs k { keys := keys, patents := patents, loc := goto σ.loc p l }
      = creations reqs k σ := hcreations
  -- who owns the key stays where it is
  have hstay : ∀ q l', (reqs q).keyId = some k → σ.loc q = l' → l'.owns = true →
      goto σ.loc p l q = l' := by
    intro q l' hq hl ho
    have hqp : q ≠ p := by
      rintro rfl
      rw [← hl, hfrom hq] at ho
      nomatch ho
    rw [goto_ne _ _ hqp, hl]
  have howner : ∀ o, OnlyOwner reqs k σ o → OnlyOwner reqs k
      { keys := keys, patents := patents, loc := goto σ.loc p l } o := by
    intro o ho
    refine forall_goto (P := fun q (l : Loc J) => (reqs q).keyId = some k → l.owns = true →
      o = some q) (fun hp hown => ?_) fun q _ => ho q
    rw [(hto hp).1] at hown
    nomatch hown
  have hphase : Phase app reqs k
      { keys := keys, patents := patents, loc := goto σ.loc p l } := by
    cases h.phase with
    | free hr ho hn => exact .free (hrow.trans hr) (howner _ ho) (hcr.trans hn)
    | running hk hr hf ho hl hn =>
      exact .running hk (hrow.trans hr) hf (howner _ ho) (hstay _ _ hk hl rfl) (hcr.trans hn)
    | failing hk hr hf ho hl hs hn =>
      exact .failing hk (hrow.trans hr) hf (howner _ ho) (hstay _ _ hk hl rfl) hs (hcr.trans hn)
    | created hk hr hf ho hl hn =>
      exact .created hk (hrow.trans hr) hf (howner _ ho) (hstay _ _ hk hl rfl) (hcr.trans hn)
    | settled hr ho hs hb hn => exact .settled (hrow.trans hr) (howner _ ho) hs hb (hcr.trans hn)
  have hsame : ∀ c, c ∈ creations reqs k σ → c ∈ creations reqs k { σ with patents := patents } :=
    fun c hc => (congrArg (c ∈ ·) hcreations).mpr hc
  refine h.advance hphase hsame fun hp => ⟨(hto hp).2.1, fun replay status body hl hok => ?_⟩
  obtain ⟨c, hc, hanswer⟩ := (hto hp).2.2 replay status body hl hok
  exact ⟨c, hsame c hc, hanswer⟩

/-- A request without the key, whatever it does, leaves the key alone. -/
theorem KeyInv.stranger (h : KeyInv app reqs k σ) {p : Nat} {l : Loc J}
    {keys : Table (IdempotencyKey J) IdempotencyKey.id} {patents : List (Nat × Patent B)}
    (hp : (reqs p).keyId ≠ some k) (hrow : keys.get? k = σ.keys.get? k)
    (hcreations : creations reqs k { σ with keys := keys, patents := patents } =
      creations reqs k σ) :
    KeyInv app reqs k { keys := keys, patents := patents, loc := goto σ.loc p l } :=
  h.walk hrow hcreations (fun hk => absurd hk hp) fun hk => absurd hk hp

/-- Settling touches the row of the request's own key. -/
theorem get?_settle_of_ne {r : Request B} {status : Nat} {body : J} (hr : r.keyId ≠ some k) :
    (settle r status body σ).get? k = σ.keys.get? k := by
  unfold settle
  split
  · rfl
  · rename_i id hid
    have hne : k ≠ id := fun he => hr (he ▸ hid)
    split
    · split
      · rfl
      · rename_i row hrow
        rw [Table.get?_put, if_neg]
        rw [show ({ row with responseStatus := status, responseBody := body } :
          IdempotencyKey J).id = id from (Table.get?_eq_some.mp hrow).2]
        exact hne
    · rw [Table.get?_erase, if_neg hne]

/-- A key has one owner at most. -/
theorem owner_eq {p q : Nat} (ho : OnlyOwner reqs k σ (some p)) (hq : (reqs q).keyId = some k)
    (hown : (σ.loc q).owns = true) : p = q :=
  Option.some.inj (ho q hq hown)

/-- Nobody but the mover owns the key, then nobody but the mover owns it afterwards. -/
theorem onlyOwner_goto {p : Nat} {l : Loc J} {keys : Table (IdempotencyKey J) IdempotencyKey.id}
    {patents : List (Nat × Patent B)} (ho : ∀ q, q ≠ p → (reqs q).keyId = some k →
      (σ.loc q).owns = false) :
    OnlyOwner reqs k { keys := keys, patents := patents, loc := goto σ.loc p l } (some p) := by
  refine forall_goto (P := fun q (l : Loc J) => (reqs q).keyId = some k → l.owns = true →
    some p = some q) (fun _ _ => rfl) fun q hqp hq hown => ?_
  rw [ho q hqp hq] at hown
  nomatch hown

/-- And nobody at all, when the mover lets go. -/
theorem noOwner_goto {p : Nat} {l : Loc J} {keys : Table (IdempotencyKey J) IdempotencyKey.id}
    {patents : List (Nat × Patent B)} (ho : ∀ q, q ≠ p → (reqs q).keyId = some k →
      (σ.loc q).owns = false) (hl : l.owns = false) :
    OnlyOwner reqs k { keys := keys, patents := patents, loc := goto σ.loc p l } none := by
  refine forall_goto (P := fun q (l : Loc J) => (reqs q).keyId = some k → l.owns = true →
    none = some q) (fun _ hown => ?_) fun q hqp hq hown => ?_
  · rw [hl] at hown
    nomatch hown
  · rw [ho q hqp hq] at hown
    nomatch hown

/-- Without an owner nobody owns it. -/
theorem others_of_none (ho : OnlyOwner reqs k σ none) {p : Nat} :
    ∀ q, q ≠ p → (reqs q).keyId = some k → (σ.loc q).owns = false := by
  intro q _ hq
  cases hown : (σ.loc q).owns with
  | false => rfl
  | true => nomatch ho q hq hown

/-- With one, nobody else does. -/
theorem others_of_some {p : Nat} (ho : OnlyOwner reqs k σ (some p)) :
    ∀ q, q ≠ p → (reqs q).keyId = some k → (σ.loc q).owns = false := by
  intro q hqp hq
  cases hown : (σ.loc q).owns with
  | false => rfl
  | true => exact absurd (owner_eq ho hq hown).symm hqp

/-- The mover wins the insert. -/
theorem KeyInv.reserve (h : KeyInv app reqs k σ) {p : Nat} (hkey : (reqs p).keyId = some k)
    (hfree : σ.keys.get? k = none) :
    KeyInv app reqs k { σ with
      keys := σ.keys.put (reservation app (reqs p) k), loc := goto σ.loc p (.running true) } := by
  have hnow : (σ.keys.put (reservation app (reqs p) k)).get? k =
      some (reservation app (reqs p) k) := by
    rw [Table.get?_put]
    exact if_pos rfl
  refine h.advance ?_ (fun c hc => hc) fun _ => ⟨rfl, fun _ _ _ hl => nomatch hl⟩
  cases h.phase with
  | free _ ho hn =>
    exact .running hkey hnow rfl (onlyOwner_goto (others_of_none ho)) (goto_self _ _ _) hn
  | running _ hr => rw [hfree] at hr; nomatch hr
  | failing _ hr => rw [hfree] at hr; nomatch hr
  | created _ hr => rw [hfree] at hr; nomatch hr
  | settled hr => rw [hfree] at hr; nomatch hr

/-- The owner is in the middle of its handler: so is the phase. -/
theorem KeyInv.phase_running (h : KeyInv app reqs k σ) {p : Nat} (hkey : (reqs p).keyId = some k)
    (hloc : σ.loc p = .running true) : ∃ row, σ.keys.get? k = some row ∧
      row.responseStatus = IN_FLIGHT ∧ OnlyOwner reqs k σ (some p) ∧ creations reqs k σ = [] := by
  have hown : (σ.loc p).owns = true := by rw [hloc]; rfl
  cases h.phase with
  | free _ ho => nomatch ho p hkey hown
  | running _ hr hf ho _ hn =>
    obtain rfl := owner_eq ho hkey hown
    exact ⟨_, hr, hf, ho, hn⟩
  | failing _ _ _ ho hl =>
    obtain rfl := owner_eq ho hkey hown
    rw [hloc] at hl
    nomatch hl
  | created _ _ _ ho hl =>
    obtain rfl := owner_eq ho hkey hown
    rw [hloc] at hl
    nomatch hl
  | settled _ ho => nomatch ho p hkey hown

/-- A request with the key that runs the handler holds the reservation. -/
theorem KeyInv.reserved_of_running (h : KeyInv app reqs k σ) {p : Nat} {reserved : Bool}
    (hkey : (reqs p).keyId = some k) (hloc : σ.loc p = .running reserved) : reserved = true := by
  cases reserved with
  | true => rfl
  | false =>
    have hno := h.reserved p hkey
    rw [hloc] at hno
    nomatch hno

/-- A handler that fails leaves its row to be released. -/
theorem KeyInv.fail (h : KeyInv app reqs k σ) {p status : Nat} {body : J}
    (hkey : (reqs p).keyId = some k) (hloc : σ.loc p = .running true)
    (hnot : ok2xx status = false) :
    KeyInv app reqs k { σ with loc := goto σ.loc p (.replying true status body) } := by
  obtain ⟨row, hr, hf, ho, hn⟩ := h.phase_running hkey hloc
  refine h.advance ?_ (fun c hc => hc) fun _ => ⟨rfl, fun _ _ _ hl => nomatch hl⟩
  exact .failing hkey hr hf (onlyOwner_goto (others_of_some ho)) (goto_self _ _ _) hnot hn

/-- One more creation under the key. -/
theorem creations_append {p : Nat} {patent : Patent B} (hkey : (reqs p).keyId = some k) :
    creations reqs k { σ with patents := σ.patents ++ [(p, patent)] }
      = creations reqs k σ ++ [(p, patent)] := by
  simp [creations, List.filter_append, hkey]

/-- A handler that commits is the first under its key. -/
theorem KeyInv.commit (h : KeyInv app reqs k σ) {p : Nat} {patent : Patent B}
    (hkey : (reqs p).keyId = some k) (hloc : σ.loc p = .running true) :
    KeyInv app reqs k { σ with
      patents := σ.patents ++ [(p, patent)]
      loc := goto σ.loc p (.replying true 201 (app.created patent)) } := by
  obtain ⟨row, hr, hf, ho, hn⟩ := h.phase_running hkey hloc
  have hone : creations reqs k { σ with patents := σ.patents ++ [(p, patent)] } = [(p, patent)] := by
    rw [creations_append hkey, hn]
    rfl
  refine h.advance ?_ (fun c hc => ?_) fun _ => ⟨rfl, fun _ _ _ hl => nomatch hl⟩
  · exact .created hkey hr hf (onlyOwner_goto (others_of_some ho)) (goto_self _ _ _) hone
  · rw [hn] at hc
    nomatch hc

/-- To settle ends the ownership. -/
theorem KeyInv.finish (h : KeyInv app reqs k σ) {p status : Nat} {body : J}
    (hkey : (reqs p).keyId = some k) (hloc : σ.loc p = .replying true status body) :
    KeyInv app reqs k { σ with
      keys := settle (reqs p) status body σ
      loc := goto σ.loc p (.answered false status body) } := by
  have hown : (σ.loc p).owns = true := by rw [hloc]; rfl
  cases h.phase with
  | free _ ho => cases ho p hkey hown
  | running _ _ _ ho hl =>
    obtain rfl := owner_eq ho hkey hown
    rw [hloc] at hl
    cases hl
  | failing _ hr hf ho hl hs hn =>
    -- the key is released
    obtain rfl := owner_eq ho hkey hown
    obtain ⟨-, rfl, rfl⟩ := Loc.replying.inj (hloc.symm.trans hl)
    refine h.advance (.free ?_ (noOwner_goto (others_of_some ho) rfl) hn) (fun c hc => hc)
      fun _ => ⟨rfl, fun _ _ _ ha hok => ?_⟩
    · simp only [settle, hkey, hs]
      rw [if_neg (by simp), Table.get?_erase, if_pos rfl]
    · obtain ⟨-, rfl, -⟩ := Loc.answered.inj ha
      rw [hs] at hok
      cases hok
  | @created q row c _ hr hf ho hl hn =>
    -- the response is recorded
    obtain rfl := owner_eq ho hkey hown
    obtain ⟨-, rfl, rfl⟩ := Loc.replying.inj (hloc.symm.trans hl)
    have hid := (Table.get?_eq_some.mp hr).2
    have hrow : (settle (reqs q) 201 (app.created c.2) σ).get? k
        = some { row with responseStatus := 201, responseBody := app.created c.2 } := by
      simp only [settle, hkey, hr]
      rw [if_pos (show ok2xx 201 = true from rfl), Table.get?_put, if_pos hid.symm]
    refine h.advance (.settled hrow (noOwner_goto (others_of_some ho) rfl) rfl rfl hn)
      (fun c hc => hc) fun _ => ⟨rfl, fun _ _ _ ha _ => ?_⟩
    obtain ⟨-, rfl, rfl⟩ := Loc.answered.inj ha
    have hone : creations reqs k { σ with patents := σ.patents } = [c] := hn
    exact ⟨c, hone ▸ List.mem_singleton_self c, rfl, rfl⟩
  | settled _ ho => cases ho p hkey hown

/-- A recorded response is that of the creation. -/
theorem KeyInv.replay (h : KeyInv app reqs k σ) {p : Nat} {row : IdempotencyKey J}
    (hloc : σ.loc p = .lost) (hrow : σ.keys.get? k = some row)
    (hdone : row.responseStatus ≠ IN_FLIGHT) :
    KeyInv app reqs k { σ with
      loc := goto σ.loc p (.answered true row.responseStatus row.responseBody) } := by
  refine h.walk rfl rfl (fun _ => by rw [hloc]; rfl) fun _ => ⟨rfl, rfl, fun _ _ _ ha _ => ?_⟩
  obtain ⟨-, rfl, rfl⟩ := Loc.answered.inj ha
  cases h.phase with
  | free hr => rw [hrow] at hr; nomatch hr
  | running _ hr hf => exact absurd (Option.some.inj (hrow.symm.trans hr) ▸ hf) hdone
  | failing _ hr hf => exact absurd (Option.some.inj (hrow.symm.trans hr) ▸ hf) hdone
  | created _ hr hf => exact absurd (Option.some.inj (hrow.symm.trans hr) ▸ hf) hdone
  | @settled row' c hr _ hs hb hn =>
    obtain rfl := Option.some.inj (hrow.symm.trans hr)
    exact ⟨c, by rw [hn]; exact List.mem_singleton_self c, hs, hb⟩

/-- A request without the key commits nothing under it. -/
theorem creations_stranger {p : Nat} {patent : Patent B} (hp : (reqs p).keyId ≠ some k) :
    creations reqs k { σ with patents := σ.patents ++ [(p, patent)] } = creations reqs k σ := by
  simp [creations, List.filter_append, hp]

/-- **Step lemma.** -/
theorem keyInv_step (h : KeyInv app reqs k σ) (hrel : Reliable σ a) (hok : RowStays reqs σ a)
    (hs : step app reqs σ a = some σ') : KeyInv app reqs k σ' := by
  cases effect_of_step hs with
  | unkeyed hloc hkey => exact h.stranger (by rw [hkey]; exact fun hc => nomatch hc) rfl rfl
  | @reserve p outcome id hloc hkey hfree =>
    by_cases hid : id = k
    · subst hid
      exact h.reserve hkey hfree
    · refine h.stranger (by rw [hkey]; exact fun hc => hid (Option.some.inj hc)) ?_ rfl
      rw [Table.get?_put, if_neg]
      exact fun he => hid he.symm
  | lose hloc hkey hrow =>
    exact h.walk rfl rfl (fun _ => by rw [hloc]; rfl)
      fun _ => ⟨rfl, rfl, fun _ _ _ ha => nomatch ha⟩
  | refused hkey hnot hloc =>
    refine h.walk rfl rfl (fun _ => by rcases hloc with hl | hl <;> rw [hl] <;> rfl)
      fun _ => ⟨rfl, rfl, fun _ _ _ ha hok => ?_⟩
    obtain ⟨-, rfl, -⟩ := Loc.answered.inj ha
    rw [hnot] at hok
    nomatch hok
  | gone hloc hrow =>
    -- excluded: the row is there
    have hsome := hok hloc
    rw [hrow] at hsome
    nomatch hsome
  | @replay p outcome id row hloc hkey hrow hhash hdone =>
    by_cases hid : id = k
    · subst hid
      exact h.replay hloc hrow hdone
    · exact h.stranger (by rw [hkey]; exact fun hc => hid (Option.some.inj hc)) rfl rfl
  | @failed p reserved status body hloc hnot =>
    by_cases hp : (reqs p).keyId = some k
    · obtain rfl := h.reserved_of_running hp hloc
      exact h.fail hp hloc hnot
    · exact h.stranger hp rfl rfl
  | @committed p reserved patentId patent hloc hnew hpatent =>
    by_cases hp : (reqs p).keyId = some k
    · obtain rfl := h.reserved_of_running hp hloc
      exact h.commit hp hloc
    · exact h.stranger hp rfl (creations_stranger hp)
  | @settled p outcome status body hloc =>
    by_cases hp : (reqs p).keyId = some k
    · exact h.finish hp hloc
    · exact h.stranger hp (get?_settle_of_ne hp) rfl
  | @sent p outcome status body hloc =>
    by_cases hp : (reqs p).keyId = some k
    · have hno := h.reserved p hp
      rw [hloc] at hno
      nomatch hno
    · exact h.stranger hp rfl rfl
  | unread hloc =>
    exact h.walk rfl rfl (fun _ => by rw [hloc]; rfl)
      fun _ => ⟨rfl, rfl, fun _ _ _ ha => nomatch ha⟩
  | unsettled hloc =>
    simp only [Reliable, hloc] at hrel
    nomatch hrel
  | crash => exact hrel.elim

/-- **Key safety.**  Along every run in which a request that lost the insert finds the row when it
    reads it, every key is safe. -/
theorem keySafe_of_run
    (hrun : Run (step app reqs) (fun σ a => Reliable σ a ∧ RowStays reqs σ a) init σ) :
    KeySafe app reqs k σ :=
  (hrun.invariant (fun _ _ _ h hok hs => keyInv_step h hok.1 hok.2 hs) keyInv_init).safe

/-! ## Three requests with one key -/

/-- Bodies are their document key. -/
def plainApp : App String String where
  hashBody := fun body => body
  documentKey := fun body => body
  created := fun patent => patent.input
  failure := fun e => e.message
  empty := ""

/-- Three bodies under one key, and retries of the first. -/
def sameKey : Nat → Request String
  | 1 => ⟨1, some "retry", "second"⟩
  | 2 => ⟨1, some "retry", "third"⟩
  | _ => ⟨1, some "retry", "first"⟩

/-- A statement that is not a handler run. -/
def go (p : Nat) : Act String := .run p (.fails 500 "")

/-- Request 0 creates its patent, request 1 is refused for its body, request 3 gets the recorded
    response. -/
def firstWins : List (Act String) :=
  [go 0, go 1, .run 0 (.commits 1), go 1, go 0, go 3, go 3]

theorem firstWins_runs :
    (execOk (step plainApp sameKey) (fun σ a => Reliable σ a ∧ RowStays sameKey σ a) init
      firstWins).isSome = true := by
  decide

/-- Two requests with one key: the second gets the reply of the first. -/
theorem keySafe_of_firstWins :
    KeySafe plainApp sameKey ⟨1, endpoint, "retry"⟩
      ((execOk (step plainApp sameKey) (fun σ a => Reliable σ a ∧ RowStays sameKey σ a) init
        firstWins).get firstWins_runs) :=
  keySafe_of_run (Run.of_execOk (Option.some_get firstWins_runs).symm)

/-- Request 1 loses the insert, request 0 fails and releases the key, request 1 finds no row, and
    request 2 reserves the key before request 1 commits. -/
def releasedBetween : List (Act String) :=
  [go 0, go 1, .run 0 (.fails 400 "bad"), go 0, go 1, go 2, .run 1 (.commits 1), .run 2 (.commits 2)]

theorem releasedBetween_runs :
    (execOk (step plainApp sameKey) Reliable init releasedBetween).isSome = true := by
  decide

/-- Two patents under one key. -/
theorem not_keySafe :
    ¬ ∀ σ, Run (step plainApp sameKey) Reliable init σ →
      KeySafe plainApp sameKey ⟨1, endpoint, "retry"⟩ σ := by
  intro hall
  have hsafe := hall _ (Run.of_execOk (Option.some_get releasedBetween_runs).symm)
  exact absurd hsafe.one (by decide)

end SmartPatents.Idempotency
