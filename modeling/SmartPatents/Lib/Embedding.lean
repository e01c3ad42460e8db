/-
  A machine inside a larger one.

  An `Embedding` of `M` in `M'` places the processes of `M` among others (the guests), which work on
  the same database and may write to the same tables.  If every statement of a guest is its own
  transaction (`Guests`), an outline of `M` gives an outline of `M'` (`Outline.embed`): what is left
  to show is that no transaction of a guest breaks an assertion of `M`.

  The proof of `embed` translates everything twice: a write, a location or a log entry of the
  larger machine is one of `M` (`lowers`, `lowerLog`, `base`) or a guest's, and an instruction of
  the larger machine at a location of `M` is the lifted instruction (`stmt_inv` and its kind).
  Locks are those of the larger machine, and writes that are apart there are apart in `M`.

  An embedding translates worlds, writes and locations, and asks that code and locks agree at the
  locations of `M` (`Embedding`).  What a guest has to show is in `Guests`: each of its statements
  is a transaction that keeps the invariant and breaks no assertion.
-/
import SmartPatents.Lib.Serial

namespace ReadCommitted

open Runs

variable {D X W X' W' K O E E' L L' : Type}

/-- An instruction on part of the state, with its writes and locations renamed. -/
def Instr.lift (world : X' → X) (setWorld : X' → X → X') (write : W → W') (loc : L → L') :
    Instr D X W O L → Instr D X' W' O L'
  | .stmt f => .stmt fun o d x =>
      let r := f o d (world x)
      (r.1.map write, setWorld x r.2.1, loc r.2.2)
  | .auto f => .auto fun o d x =>
      let r := f o d (world x)
      (r.1.map write, setWorld x r.2.1, loc r.2.2)
  | .commit l => .commit (loc l)
  | .rollback l => .rollback (loc l)
  | .halt => .halt

/-- `M` inside `M'`: `write` and `loc` rename its writes and locations, `world` is its part of the
    state outside the database. -/
structure Embedding (M : Machine D X W K O E L) (M' : Machine D X' W' K O E' L') where
  world : X' → X
  setWorld : X' → X → X'
  write : W → W'
  lower : W' → Option W
  loc : L → L'
  world_set : ∀ x' x, world (setWorld x' x) = x
  lower_write : ∀ w, lower (write w) = some w
  locks : ∀ w, M'.locks (write w) = M.locks w
  apply : ∀ d w, M'.apply d (write w) = M.apply d w
  code : ∀ p l, M'.code p (loc l) = (M.code p l).lift world setWorld write loc

namespace Embedding

variable {M : Machine D X W K O E L} {M' : Machine D X' W' K O E' L'} (T : Embedding M M')

/-- The writes of `M` in a list. -/
def lowers (ws : List W') : List W := ws.filterMap T.lower

/-- The log as `M` sees it. -/
def lowerLog (log : List (Nat × List W')) : List (Nat × List W) :=
  log.map fun e => (e.1, T.lowers e.2)

/-- The shared state as `M` sees it. -/
def base (b : Base D X' W') : Base D X W where
  db := b.db
  world := T.world b.world
  log := T.lowerLog b.log

/-- To lower what has been raised gives it back. -/
@[simp] theorem lowers_map (ws : List W) : T.lowers (ws.map T.write) = ws := by
  induction ws with
  | nil => rfl
  | cons w ws ih =>
    rw [List.map_cons, lowers, List.filterMap_cons_some (T.lower_write w)]
    exact congrArg (w :: ·) ih

/-- Raised writes have the effect of the writes, by induction on them. -/
theorem applyAll_map : ∀ (ws : List W) (d : D), M'.applyAll d (ws.map T.write) = M.applyAll d ws
  | [], _ => rfl
  | w :: ws, d => by
      rw [List.map_cons, Machine.applyAll_cons, Machine.applyAll_cons, T.apply, applyAll_map ws]

/-- The lowered log grows by the lowered writes. -/
theorem lowerLog_concat (log : List (Nat × List W')) (p : Nat) (ws : List W') :
    T.lowerLog (log ++ [(p, ws)]) = T.lowerLog log ++ [(p, T.lowers ws)] := by
  simp [lowerLog]

/-- A commit of raised writes is a commit below. -/
theorem base_commit (b : Base D X' W') (p : Nat) (ws : List W) :
    T.base (M'.commitBase b p (ws.map T.write)) = M.commitBase (T.base b) p ws := by
  simp only [base, Machine.commitBase, T.applyAll_map, lowerLog_concat, lowers_map]

/-- A change of the embedded world is one below. -/
theorem base_setWorld (b : Base D X' W') (x : X) :
    T.base { b with world := T.setWorld b.world x } = { T.base b with world := x } := by
  simp only [base, T.world_set]

/-- Writes that are apart above are apart below. -/
theorem apart_lower [DecidableEq K] {ws vs : List W}
    (h : M'.Apart (ws.map T.write) (vs.map T.write)) : M.Apart ws vs := by
  intro w hw v hv
  have hfree := h _ (List.mem_map_of_mem hw) _ (List.mem_map_of_mem hv)
  rwa [Machine.clash, T.locks, T.locks] at hfree

/-! ### Instructions -/

variable {T} {p : Nat} {l : L} {l' : L'} {f' : O → D → X' → List W' × X' × L'}

/-- The outcome of a statement of `M`, as one of `M'`. -/
def outcome (T : Embedding M M') (x' : X') (r : List W × X × L) : List W' × X' × L' :=
  (r.1.map T.write, T.setWorld x' r.2.1, T.loc r.2.2)

/-- A statement at a raised location is a raised statement. -/
theorem stmt_inv (h : M'.code p (T.loc l) = .stmt f') : ∃ f, M.code p l = .stmt f ∧
    ∀ o d x', f' o d x' = T.outcome x' (f o d (T.world x')) := by
  rw [T.code] at h
  cases hcode : M.code p l with
  | stmt f =>
    rw [hcode] at h
    obtain rfl := Instr.stmt.inj h
    exact ⟨f, rfl, fun _ _ _ => rfl⟩
  | _ =>
    rw [hcode] at h
    nomatch h

theorem auto_inv (h : M'.code p (T.loc l) = .auto f') : ∃ f, M.code p l = .auto f ∧
    ∀ o d x', f' o d x' = T.outcome x' (f o d (T.world x')) := by
  rw [T.code] at h
  cases hcode : M.code p l with
  | auto f =>
    rw [hcode] at h
    obtain rfl := Instr.auto.inj h
    exact ⟨f, rfl, fun _ _ _ => rfl⟩
  | _ =>
    rw [hcode] at h
    nomatch h

theorem commit_inv (h : M'.code p (T.loc l) = .commit l') :
    ∃ l₁, M.code p l = .commit l₁ ∧ l' = T.loc l₁ := by
  rw [T.code] at h
  cases hcode : M.code p l with
  | commit l₁ =>
    rw [hcode] at h
    exact ⟨l₁, rfl, (Instr.commit.inj h).symm⟩
  | _ =>
    rw [hcode] at h
    nomatch h

theorem rollback_inv (h : M'.code p (T.loc l) = .rollback l') :
    ∃ l₁, M.code p l = .rollback l₁ ∧ l' = T.loc l₁ := by
  rw [T.code] at h
  cases hcode : M.code p l with
  | rollback l₁ =>
    rw [hcode] at h
    exact ⟨l₁, rfl, (Instr.rollback.inj h).symm⟩
  | _ =>
    rw [hcode] at h
    nomatch h

end Embedding

/-! ## Guests -/

section Guests

variable [DecidableEq K] {M : Machine D X W K O E L} {M' : Machine D X' W' K O E' L'}

/-- The assertion of a process of `M'`: that of its process of `M`, or that it is a guest without
    uncommitted writes. -/
def Embedding.Asserts (T : Embedding M M') (At : Nat → L → Base D X W → List W → Prop)
    (Guest : L' → Prop) (p : Nat) (l' : L') (b : Base D X' W') (ws : List W') : Prop :=
  (∃ l vs, l' = T.loc l ∧ ws = vs.map T.write ∧ At p l (T.base b) vs) ∨ (Guest l' ∧ ws = [])

/-- The transactions of `M'`. -/
def Embedding.Commits (T : Embedding M M') (Tx : Nat → D → List (Nat × List W) → List W → Prop)
    (Tx₂ : Nat → D → List (Nat × List W') → List W' → Prop) (p : Nat) (d : D)
    (log : List (Nat × List W')) (ws : List W') : Prop :=
  (∃ vs, ws = vs.map T.write ∧ Tx p d (T.lowerLog log) vs) ∨ Tx₂ p d log ws

/-- The obligations of the guests.  `Guest` are their locations, `Tx₂` their transactions, and
    `Inv₂` is what they need to know of the shared state. -/
structure Guests (T : Embedding M M') (lok : Nat → L' → D → Prop) (Inv : Base D X W → Prop)
    (At : Nat → L → Base D X W → List W → Prop)
    (Tx : Nat → D → List (Nat × List W) → List W → Prop) (Ext : X → X → Prop) (Guest : L' → Prop)
    (Inv₂ : Base D X' W' → Prop) (Tx₂ : Nat → D → List (Nat × List W') → List W' → Prop) :
    Prop where
  code : ∀ {p l'}, Guest l' → (∃ f, M'.code p l' = .auto f) ∨ M'.code p l' = .halt
  failed : Guest M'.failed
  refl : ∀ x, Ext x x
  statement : ∀ {p l' f b o}, Guest l' → M'.code p l' = .auto f → lok p l' b.db → Inv₂ b →
    Guest (f o b.db b.world).2.2 ∧ T.world (f o b.db b.world).2.1 = T.world b.world ∧
      (((f o b.db b.world).1 = [] ∧ Inv₂ { b with world := (f o b.db b.world).2.1 }) ∨
        ((f o b.db b.world).1 ≠ [] ∧ Tx₂ p b.db b.log (f o b.db b.world).1 ∧
          Inv₂ (M'.commitBase { b with world := (f o b.db b.world).2.1 } p (f o b.db b.world).1)))
  /-- What a guest commits keeps the invariant and the assertions of `M`. -/
  inv : ∀ {p b vs}, Inv (T.base b) → Tx₂ p b.db b.log vs → Inv (T.base (M'.commitBase b p vs))
  other : ∀ {p q l b ws vs}, At p l (T.base b) ws → Tx₂ q b.db b.log vs →
    M'.Apart (ws.map T.write) vs → At p l (T.base (M'.commitBase b q vs)) ws
  /-- What `M` does keeps what the guests know. -/
  world : ∀ {b x}, Inv₂ b → Inv₂ { b with world := T.setWorld b.world x }
  commit : ∀ {p b vs}, Inv₂ b → Tx p b.db (T.lowerLog b.log) vs →
    Inv₂ (M'.commitBase b p (vs.map T.write))
  env : ∀ {e loc b x'}, M'.env e loc b.world = some x' → Inv (T.base b) → Inv₂ b →
    Ext (T.world b.world) (T.world x') ∧ Inv { T.base b with world := T.world x' } ∧
      Inv₂ { b with world := x' }

variable {T : Embedding M M'} {lok : Nat → L → D → Prop} {lok' : Nat → L' → D → Prop}
  {Inv : Base D X W → Prop} {At : Nat → L → Base D X W → List W → Prop}
  {Tx : Nat → D → List (Nat × List W) → List W → Prop} {Ext : X → X → Prop} {Guest : L' → Prop}
  {Inv₂ : Base D X' W' → Prop} {Tx₂ : Nat → D → List (Nat × List W') → List W' → Prop}

/-- A process that executes code of `M` is at a location of `M`. -/
theorem Guests.host (G : Guests T lok' Inv At Tx Ext Guest Inv₂ Tx₂) {p : Nat} {l' : L'}
    {b : Base D X' W'} {ws : List W'} (hat : T.Asserts At Guest p l' b ws)
    (hcode : ∀ f, M'.code p l' ≠ .auto f) (hhalt : M'.code p l' ≠ .halt) :
    ∃ l vs, l' = T.loc l ∧ ws = vs.map T.write ∧ At p l (T.base b) vs := by
  rcases hat with hat | ⟨hguest, -⟩
  · exact hat
  · rcases G.code (p := p) hguest with ⟨f, hf⟩ | hnone
    · exact absurd hf (hcode f)
    · exact absurd hnone hhalt

/-- The obligation of `M` for a transaction, on the larger state. -/
theorem Outline.embed_commit (G : Guests T lok' Inv At Tx Ext Guest Inv₂ Tx₂) {p : Nat}
    {b : Base D X' W'} {vs : List W} {l : L} (hinv₂ : Inv₂ b)
    (h : Inv (M.commitBase (T.base b) p vs) ∧ Tx p b.db (T.lowerLog b.log) vs ∧
      At p l (M.commitBase (T.base b) p vs) []) :
    (Inv (T.base (M'.commitBase b p (vs.map T.write))) ∧
      Inv₂ (M'.commitBase b p (vs.map T.write))) ∧
    T.Commits Tx Tx₂ p b.db b.log (vs.map T.write) ∧
    T.Asserts At Guest p (T.loc l) (M'.commitBase b p (vs.map T.write)) [] := by
  obtain ⟨hinv, htx, hat⟩ := h
  rw [← T.base_commit] at hinv hat
  exact ⟨⟨hinv, G.commit hinv₂ htx⟩, Or.inl ⟨vs, rfl, htx⟩, Or.inl ⟨l, [], rfl, rfl, hat⟩⟩

/-- A statement of `M` inside its transaction. -/
theorem Outline.embed_stmt (H : Outline M lok Inv At Tx Ext)
    (G : Guests T lok' Inv At Tx Ext Guest Inv₂ Tx₂)
    (hlok : ∀ p l d, lok' p (T.loc l) d → lok p l d) {p : Nat} {l' : L'} {o : O}
    {f' : O → D → X' → List W' × X' × L'} {b : Base D X' W'} {ws : List W'}
    (hcode : M'.code p l' = .stmt f') (hok : lok' p l' b.db) (hinv : Inv (T.base b))
    (hinv₂ : Inv₂ b) (hat : T.Asserts At Guest p l' b ws) :
    StmtOk (fun b => Inv (T.base b) ∧ Inv₂ b) (T.Asserts At Guest)
      (fun x x' => Ext (T.world x) (T.world x')) p b ws
      (f' o (M'.applyAll b.db ws) b.world) := by
  obtain ⟨l, vs, rfl, rfl, hbase⟩ := G.host hat (fun f hf => by cases hcode.symm.trans hf)
    (fun hhalt => by cases hcode.symm.trans hhalt)
  obtain ⟨f, hf, hf'⟩ := Embedding.stmt_inv hcode
  obtain ⟨hext, hinv', hat'⟩ := H.stmt (b := T.base b) (o := o) hf (hlok p l b.db hok) hinv hbase
  rw [hf', T.applyAll_map]
  refine ⟨?_, ⟨?_, G.world hinv₂⟩, Or.inl ⟨_, vs ++ _, rfl, List.map_append.symm, ?_⟩⟩
  · change Ext (T.world b.world) (T.world (T.setWorld b.world _))
    rw [T.world_set]
    exact hext
  · rw [Embedding.outcome, T.base_setWorld]
    exact hinv'
  · rw [Embedding.outcome, T.base_setWorld]
    exact hat'

/-- A statement of `M` that is its own transaction. -/
theorem Outline.embed_auto (H : Outline M lok Inv At Tx Ext)
    (G : Guests T lok' Inv At Tx Ext Guest Inv₂ Tx₂)
    (hlok : ∀ p l d, lok' p (T.loc l) d → lok p l d) {p : Nat} {l : L} {o : O}
    {f' : O → D → X' → List W' × X' × L'} {b : Base D X' W'}
    (hcode : M'.code p (T.loc l) = .auto f') (hok : lok' p (T.loc l) b.db)
    (hinv : Inv (T.base b)) (hinv₂ : Inv₂ b) (hat : At p l (T.base b) []) :
    AutoOk M' (fun b => Inv (T.base b) ∧ Inv₂ b) (T.Asserts At Guest) (T.Commits Tx Tx₂)
      (fun x x' => Ext (T.world x) (T.world x')) p b (f' o b.db b.world) := by
  obtain ⟨f, hf, hf'⟩ := Embedding.auto_inv hcode
  obtain ⟨hext, hauto⟩ := H.auto (b := T.base b) (o := o) hf (hlok p l b.db hok) hinv hat
  rw [hf']
  have hworld := G.world (x := (f o b.db (T.world b.world)).2.1) hinv₂
  refine ⟨?_, ?_⟩
  · change Ext (T.world b.world) (T.world (T.setWorld b.world _))
    rw [T.world_set]
    exact hext
  · rcases hauto with ⟨hnone, hinv', hat'⟩ | ⟨hsome, hcommit⟩
    · have hnone : (f o b.db (T.world b.world)).1 = [] := hnone
      refine Or.inl ⟨?_, ⟨?_, hworld⟩, Or.inl ⟨_, [], rfl, rfl, ?_⟩⟩
      · rw [Embedding.outcome, hnone]
        rfl
      · rw [Embedding.outcome, T.base_setWorld]
        exact hinv'
      · rw [Embedding.outcome, T.base_setWorld]
        exact hat'
    · refine Or.inr ⟨fun hnil => hsome (List.map_eq_nil_iff.mp hnil), ?_⟩
      refine Outline.embed_commit (T := T) G
        (b := { b with world := T.setWorld b.world (f o b.db (T.world b.world)).2.1 }) hworld ?_
      rw [T.base_setWorld]
      exact hcommit

/-- A statement of a guest. -/
theorem Guests.auto (G : Guests T lok' Inv At Tx Ext Guest Inv₂ Tx₂) {p : Nat} {l' : L'} {o : O}
    {f' : O → D → X' → List W' × X' × L'} {b : Base D X' W'} (hguest : Guest l')
    (hcode : M'.code p l' = .auto f') (hok : lok' p l' b.db) (hinv : Inv (T.base b))
    (hinv₂ : Inv₂ b) :
    AutoOk M' (fun b => Inv (T.base b) ∧ Inv₂ b) (T.Asserts At Guest) (T.Commits Tx Tx₂)
      (fun x x' => Ext (T.world x) (T.world x')) p b (f' o b.db b.world) := by
  obtain ⟨hguest', hworld, hauto⟩ := G.statement (b := b) (o := o) hguest hcode hok hinv₂
  -- what `M` sees of the state has not changed
  have hbase : T.base { b with world := (f' o b.db b.world).2.1 } = T.base b := by
    simp only [Embedding.base, hworld]
  have hext : Ext (T.world b.world) (T.world (f' o b.db b.world).2.1) := by
    rw [hworld]
    exact G.refl _
  refine ⟨hext, ?_⟩
  rw [← hbase] at hinv
  rcases hauto with ⟨hnone, hinv₂'⟩ | ⟨hsome, htx, hinv₂'⟩
  · exact Or.inl ⟨hnone, ⟨hinv, hinv₂'⟩, Or.inr ⟨hguest', rfl⟩⟩
  · refine Or.inr ⟨hsome, ⟨?_, hinv₂'⟩, Or.inr htx, Or.inr ⟨hguest', rfl⟩⟩
    exact G.inv (b := { b with world := (f' o b.db b.world).2.1 }) hinv htx

/-- **An outline of `M` with the obligations of the guests is an outline of `M'`.** -/
theorem Outline.embed (H : Outline M lok Inv At Tx Ext)
    (G : Guests T lok' Inv At Tx Ext Guest Inv₂ Tx₂)
    (hlok : ∀ p l d, lok' p (T.loc l) d → lok p l d) :
    Outline M' lok' (fun b => Inv (T.base b) ∧ Inv₂ b) (T.Asserts At Guest) (T.Commits Tx Tx₂)
      (fun x x' => Ext (T.world x) (T.world x')) where
  stmt := fun hcode hok hinv hat => H.embed_stmt G hlok hcode hok hinv.1 hinv.2 hat
  idle := by
    intro p l' f' b ws hcode hat
    rcases hat with ⟨l, vs, rfl, rfl, hat⟩ | ⟨-, hidle⟩
    · obtain ⟨f, hf, -⟩ := Embedding.auto_inv hcode
      rw [H.idle hf hat]
      rfl
    · exact hidle
  auto := by
    intro p l' f' b o hcode hok ⟨hinv, hinv₂⟩ hat
    rcases hat with ⟨l, vs, rfl, hvs, hat⟩ | ⟨hguest, -⟩
    · obtain rfl : vs = [] := List.map_eq_nil_iff.mp hvs.symm
      exact H.embed_auto G hlok hcode hok hinv hinv₂ hat
    · exact G.auto hguest hcode hok hinv hinv₂
  commit := by
    intro p l' l₁' b ws hcode hok ⟨hinv, hinv₂⟩ hat
    obtain ⟨l, vs, rfl, rfl, hbase⟩ := G.host hat (fun f hf => by cases hcode.symm.trans hf)
      (fun hhalt => by cases hcode.symm.trans hhalt)
    obtain ⟨l₁, hl₁, rfl⟩ := Embedding.commit_inv hcode
    exact Outline.embed_commit G hinv₂ (H.commit (b := T.base b) hl₁ (hlok p l b.db hok) hinv hbase)
  rollback := by
    intro p l' l₁' b ws hcode hat
    obtain ⟨l, vs, rfl, rfl, hbase⟩ := G.host hat (fun f hf => by cases hcode.symm.trans hf)
      (fun hhalt => by cases hcode.symm.trans hhalt)
    obtain ⟨l₁, hl₁, rfl⟩ := Embedding.rollback_inv hcode
    exact Or.inl ⟨l₁, [], rfl, rfl, H.rollback hl₁ hbase⟩
  fail := fun _ => Or.inr ⟨G.failed, rfl⟩
  env := by
    intro e loc b x' henv ⟨hinv, hinv₂⟩
    obtain ⟨hext, hinv', hinv₂'⟩ := G.env henv hinv hinv₂
    exact ⟨hext, hinv', hinv₂'⟩
  world := by
    intro p l' b x' ws hext hat
    rcases hat with ⟨l, vs, rfl, rfl, hat⟩ | hguest
    · exact Or.inl ⟨l, vs, rfl, rfl, H.world hext hat⟩
    · exact Or.inr hguest
  other := by
    intro p q l' b ws us hpq ⟨hinv, _⟩ hat htx hap
    rcases hat with ⟨l, vs, rfl, rfl, hat⟩ | hguest
    · refine Or.inl ⟨l, vs, rfl, rfl, ?_⟩
      -- another process of `M`, or a guest, has committed
      rcases htx with ⟨us, rfl, htx⟩ | htx
      · rw [T.base_commit]
        exact H.other hpq hinv hat htx (T.apart_lower hap)
      · exact G.other hat htx hap
    · exact Or.inr hguest

end Guests

end ReadCommitted
