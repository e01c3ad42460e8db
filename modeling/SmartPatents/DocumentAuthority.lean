/-
  Who may attach which document.

  A key is issued to a user, and carries that user's id in front (`keyPrefix`).  Before a request
  attaches a key it supplies, `verifyDocument` compares this part with the caller and looks the
  object up; an edit that supplies the key it has read skips both.  The caller need not be the
  submitter: administrators edit the patents of others.

  The prefixes of different users are incomparable (`owner_unique`), an object exists only under an
  issued key, and the submitter of a patent never changes.  So every attached key was issued to the
  submitter of its patent, or to an administrator (`authorised_of_run`).

  Nothing is asked of the clients: a URL may be used at any time, any number of times and for an
  object of any size (`uploadFreely`).  The one hypothesis is that a supplied key has passed the
  pattern of its field.

  An administrator may attach a key of his own to the patent of somebody else, and the submitter
  one of his own.  There is no third case: `KeyAuthority` says that the key was issued to one of
  the two, and to nobody else.
-/
import SmartPatents.DocumentKeys
import SmartPatents.PatentMoves

namespace SmartPatents.DocumentAuthority

open ReadCommitted Runs Access Lifecycle Relations Storage PatentEvents PatentService

/-! ## The prefix of a key -/

/-- Digits up to a slash can be read back. -/
theorem digits_unique {m n : Nat} {s t : List Char}
    (h : Nat.toDigits 10 m ++ '/' :: s = Nat.toDigits 10 n ++ '/' :: t) : m = n := by
  have hread : ∀ (k : Nat) (rest : List Char),
      (Nat.toDigits 10 k ++ '/' :: rest).takeWhile Char.isDigit = Nat.toDigits 10 k := by
    intro k rest
    rw [List.takeWhile_append_of_pos fun c hc =>
      Nat.isDigit_of_mem_toDigits (by decide) (by decide) hc]
    simp
  have hdigits : Nat.toDigits 10 m = Nat.toDigits 10 n := by rw [← hread m s, h, hread]
  rw [← @Nat.ofDigitChars_ten_toDigits m, hdigits, Nat.ofDigitChars_ten_toDigits]

/-- The prefix of a user, character by character. -/
theorem toList_keyPrefix (userId : Nat) :
    (keyPrefix userId).toList = "patents/".toList ++ (Nat.toDigits 10 userId ++ ['/']) := by
  simp [keyPrefix, String.toList_append]

/-- **A key belongs to at most one user.** -/
theorem owner_unique {key : String} {u v : Nat} (hu : keyBelongsToUser key u = true)
    (hv : keyBelongsToUser key v = true) : u = v := by
  obtain ⟨s, hs⟩ := List.isPrefixOf_iff_prefix.mp hu
  obtain ⟨t, ht⟩ := List.isPrefixOf_iff_prefix.mp hv
  rw [toList_keyPrefix] at hs ht
  have h := hs.trans ht.symm
  simp only [List.append_assoc, List.append_cancel_left_eq, List.singleton_append] at h
  exact digits_unique h

/-- A key belongs to the user it was issued to. -/
theorem belongs_buildObjectKey (userId : Nat) (uuid filename : String) :
    keyBelongsToUser (buildObjectKey userId uuid filename) userId = true := by
  refine List.isPrefixOf_iff_prefix.mpr ?_
  simp only [buildObjectKey, String.toList_append, List.append_assoc]
  exact List.prefix_append _ _

/-! ## Who a key was issued to -/

/-- The user of a request. -/
def callerOf : Request → Caller
  | .requestUpload user _ _ | .createPatent user _ | .updatePatent user _ _
  | .submitForReview user _ | .deletePatent user _ => user
  | .approvePatent admin _ _ | .declinePatent admin _ _ => admin

/-- A user who makes requests as an administrator. -/
def AdminUser (reqs : Nat → Request) (userId : Nat) : Prop :=
  ∃ p, (callerOf (reqs p)).userId = userId ∧ (callerOf (reqs p)).isAdmin = true

/-- The key was issued to the owner of a patent, or to an administrator. -/
def Authorised (reqs : Nat → Request) (x : Ext) (owner : Nat) (key : String) : Prop :=
  ∃ userId, (userId, key) ∈ x.issued ∧ (userId = owner ∨ AdminUser reqs userId)

/-- What holds of the keys outside any transaction. -/
structure Traced (reqs : Nat → Request) (b : Base Db Ext Write) : Prop where
  issued : ∀ userId key, (userId, key) ∈ b.world.issued → keyBelongsToUser key userId = true
  objects : ∀ obj ∈ b.world.objects, ∃ userId, (userId, obj.key) ∈ b.world.issued
  rows : ∀ row ∈ b.db.patents, ∀ key, row.documentKey = some key →
    Authorised reqs b.world row.submittedBy key

/-- The uncommitted rows carry keys of their owners. -/
def Vouched (reqs : Nat → Request) (x : Ext) (ws : List Write) : Prop :=
  ∀ w ∈ ws, ∀ new key, w.patent? = some new → new.documentKey = some key →
    Authorised reqs x new.submittedBy key

/-- The caller may edit the patent, whose owner is the one of the record it has read. -/
structure Entrusted (user : Caller) (id : Nat) (patent : PatentRecord) (b : Base Db Ext Write) :
    Prop where
  used : ¬ Unused b.log id
  owner : ∀ row ∈ b.db.patents, row.id = id → row.submittedBy = patent.submittedBy
  allowed : patent.submittedBy = user.userId ∨ user.isAdmin = true

/-- The key that an edit supplies may be put on the patent. -/
def Attachable (reqs : Nat → Request) (updates : Updates) (patent : PatentRecord) (x : Ext) :
    Prop :=
  ∀ key, updates.documentKey = some key → Authorised reqs x patent.submittedBy key

/-- What a request knows of the key it supplies. -/
def KeyAt (reqs : Nat → Request) (r : Request) (l : Loc) (b : Base Db Ext Write) : Prop :=
  match r, l with
  | .createPatent user input, .create l =>
    match l with
    | .head => keyBelongsToUser input.documentKey user.userId = true
    | .inventorLinks | .categoryIds _ | .publication _ _ | .insert _ _ =>
      Authorised reqs b.world user.userId input.documentKey
    | _ => True
  | .updatePatent user id updates, .update l =>
    match l with
    | .attached patent => Entrusted user id patent b
    | .head patent => Entrusted user id patent b ∧
        keyBelongsToUser (updates.documentKey.getD "") user.userId = true
    | .publication patent | .inventorLinks patent | .categoryIds patent _ | .write patent _ _ =>
      Entrusted user id patent b ∧ Attachable reqs updates patent b.world
    | _ => True
  | _, _ => True

section Layer

variable {J : Nat → Loc → Patent → Prop} {cfg : Config} {reqs : Nat → Request} {p q : Nat} {l : Loc}
  {r : Request} {b : Base Db Ext Write} {d : Db} {x x' : Ext} {o : Oracle} {res : Outcome}
  {ws vs : List Write} {owner : Nat} {key : String} {user : Caller} {id : Nat}
  {patent : PatentRecord} {updates : Updates}

/-- Keys are issued and never taken back. -/
theorem Authorised.mono (h : Authorised reqs x owner key) (hx : ∀ e ∈ x.issued, e ∈ x'.issued) :
    Authorised reqs x' owner key := by
  obtain ⟨userId, hissued, hwho⟩ := h
  exact ⟨userId, hx _ hissued, hwho⟩

/-- What may be attached may be attached later. -/
theorem Attachable.mono (h : Attachable reqs updates patent x)
    (hx : ∀ e ∈ x.issued, e ∈ x'.issued) : Attachable reqs updates patent x' :=
  fun key hkey => (h key hkey).mono hx

/-- Writes that are vouched for, one after another. -/
theorem Vouched.append (h : Vouched reqs x ws) (h' : Vouched reqs x vs) :
    Vouched reqs x (ws ++ vs) := by
  intro w hw
  rcases List.mem_append.mp hw with hw | hw
  · exact h w hw
  · exact h' w hw

/-- They stay so as more keys are issued. -/
theorem Vouched.mono (h : Vouched reqs x ws) (hx : ∀ e ∈ x.issued, e ∈ x'.issued) :
    Vouched reqs x' ws :=
  fun w hw new key hnew hkey => (h w hw new key hnew hkey).mono hx

/-- Writes that are about no patent need nobody to vouch for them. -/
theorem vouched_of_none (h : ∀ w ∈ ws, w.patent? = none) : Vouched reqs x ws := by
  intro w hw new key hnew
  nomatch (h w hw).symm.trans hnew

theorem vouched_nil : Vouched reqs x [] := vouched_of_none fun _ hw => (List.not_mem_nil hw).elim

/-- Links carry no keys. -/
theorem vouched_map {α : Type} {f : α → Write} (xs : List α) (h : ∀ a, (f a).patent? = none) :
    Vouched reqs x (xs.map f) := by
  refine vouched_of_none fun w hw => ?_
  obtain ⟨a, -, rfl⟩ := List.mem_map.mp hw
  exact h a

theorem vouched_other {w : Write} (h : w.patent? = none) : Vouched reqs x [w] := by
  refine vouched_of_none fun v hv => ?_
  obtain rfl := List.mem_singleton.mp hv
  exact h

/-- A single write of a row. -/
theorem vouched_one {w : Write} {new : Patent} (hw : w.patent? = some new)
    (h : ∀ key, new.documentKey = some key → Authorised reqs x new.submittedBy key) :
    Vouched reqs x [w] := by
  intro v hv new' key hnew hkey
  obtain rfl := List.mem_singleton.mp hv
  obtain rfl := Option.some.inj (hw.symm.trans hnew)
  exact h key hkey

/-- An object under a key of the caller was uploaded to a URL of the caller. -/
theorem Traced.issued_of_head (h : Traced reqs b) {size : Nat}
    (hhead : headObject b.world.objects key = some size)
    (hbelongs : keyBelongsToUser key user.userId = true) : (user.userId, key) ∈ b.world.issued := by
  obtain ⟨obj, hobj, rfl⟩ := headObject_isSome.mp (Option.isSome_of_eq_some hhead)
  obtain ⟨userId, hissued⟩ := h.objects obj hobj
  rwa [owner_unique hbelongs (h.issued userId _ hissued)]

/-- Who edits a patent with a key of his own may attach it there. -/
theorem authorised_of_issued (h : Entrusted user id patent b)
    (hissued : (user.userId, key) ∈ x.issued) (hreq : reqs p = .updatePatent user id updates) :
    Authorised reqs x patent.submittedBy key := by
  refine ⟨user.userId, hissued, ?_⟩
  rcases h.allowed with howner | hadmin
  · exact Or.inl howner.symm
  · refine Or.inr ⟨p, ?_⟩
    rw [hreq]
    exact ⟨rfl, hadmin⟩

/-- Behind `findOwnedPatent`, the row is the caller's own, or the caller is an admin. -/
theorem entrusted_of_findOwnedPatent (hinv : Inv b)
    (h : findOwnedPatent id user b.db = .ok patent) : Entrusted user id patent b := by
  obtain ⟨row, hrow, rfl, heq⟩ := row_of_findOwnedPatent h
  refine ⟨hinv.inserted row hrow, fun row' hrow' hid => ?_, ?_⟩
  · rw [Table.eq_of_key hrow' hrow hid, heq]
  · unfold findOwnedPatent at h
    rw [Table.get?_eq_some.mpr ⟨hrow, rfl⟩] at h
    dsimp only at h
    split at h
    · nomatch h
    · rename_i hallowed
      rw [heq]
      simpa [or_iff_not_imp_left] using hallowed

/-- An edit has checked the key it supplies once it reaches `publication`, or has read it. -/
theorem keyAt_afterChecks (hinv : Inv b) (htraced : Traced reqs b)
    (hfind : findOwnedPatent id user b.db = .ok patent)
    (hfields : ∀ key, updates.documentKey = some key → key ≠ "") :
    KeyAt reqs (.updatePatent user id updates) (.update (afterChecks updates patent)) b := by
  have hentrusted := entrusted_of_findOwnedPatent hinv hfind
  unfold afterChecks
  split
  · exact hentrusted
  · rename_i hsame
    refine ⟨hentrusted, fun key hkey => ?_⟩
    obtain ⟨row, hrow, -, rfl⟩ := row_of_findOwnedPatent hfind
    exact htraced.rows patent.toPatent hrow key
      (DocumentStore.key_of_not_replacing (by simpa using hsame) hkey (hfields key hkey))

/-- The guarded write of an edit puts an authorised key on the row. -/
theorem vouched_updateWrite {old : Patent} {now : Time} (htraced : Traced reqs b)
    (hlands : Lands b.db id EDITABLE_STATUSES old) (hentrusted : Entrusted user id patent b)
    (hattachable : Attachable reqs updates patent b.world) :
    Vouched reqs b.world [.updatePatent old (edited updates patent.toPatent old now)] := by
  refine vouched_one rfl fun key hkey => ?_
  cases hsupplied : updates.documentKey with
  | none =>
    have hold : old.documentKey = some key := by
      simpa only [edited, scalar, hsupplied, Option.none_or] using hkey
    exact htraced.rows old hlands.mem key hold
  | some supplied =>
    obtain rfl : supplied = key := by
      simpa only [edited, scalar, hsupplied, Option.some_or, Option.some.injEq] using hkey
    have howner : old.submittedBy = patent.submittedBy := hentrusted.owner old hlands.mem hlands.id
    have hauthorised := hattachable supplied hsupplied
    rwa [← howner] at hauthorised

/-- A transition keeps the document and the submitter of its row. -/
theorem vouched_transition {action : Action} {stamp : Time → Patent → Patent} {old : Patent}
    {now : Time} (htraced : Traced reqs b) (hold : old ∈ b.db.patents)
    (hstamp : (stamp now old).documentKey = old.documentKey ∧
      (stamp now old).submittedBy = old.submittedBy) :
    Vouched reqs b.world [.updatePatent old (transitioned action stamp now old)] := by
  refine vouched_one rfl fun key hkey => ?_
  have howner : (transitioned action stamp now old).submittedBy = old.submittedBy := hstamp.2
  rw [howner]
  exact htraced.rows old hold key (hstamp.1.symm.trans hkey)

/-- Behind its row an edit has nothing more to say about keys. -/
theorem keyAt_thenInventors {links : Option (List InventorLink)} :
    KeyAt reqs (.updatePatent user id updates) (thenInventors patent links) b := by
  cases links <;> trivial

theorem keyAt_thenCategories {links : Option (List InventorLink)} {ids : Option (List Nat)} :
    KeyAt reqs (.updatePatent user id updates) (thenCategories patent links ids) b := by
  cases ids with
  | none => exact keyAt_thenInventors
  | some ids => trivial

theorem keyAt_done {reply : Reply} : KeyAt reqs r (.done reply) b := by cases r <;> trivial

/-- **Step lemma.** -/
theorem keyAt_move (hmove : Move (reqs p) (after b.db ws) b.world o l res) (hinv : Inv b)
    (hat : At J reqs p l b ws) (htraced : Traced reqs b) (hkey : KeyAt reqs (reqs p) l b)
    (hfields : ∀ key, (reqs p).documentKey = some key → key ≠ "") :
    KeyAt reqs (reqs p) res.2.2 { b with world := res.2.1 } ∧ Vouched reqs res.2.1 res.1 := by
  generalize hr : reqs p = r at hmove hkey hfields ⊢
  cases hmove with
  | @throws _ _ ws' e hx hws =>
    refine ⟨by cases r <;> trivial, ?_⟩
    rcases hws with rfl | ⟨row, rfl⟩
    · exact vouched_nil
    · exact vouched_other rfl
  | issue hreq =>
    subst hreq
    exact ⟨trivial, vouched_nil⟩
  | createStart hreq hbelongs =>
    subst hreq
    exact ⟨hbelongs, vouched_nil⟩
  | updateStart hreq hfind =>
    subst hreq
    obtain rfl : ws = [] := hat
    exact ⟨keyAt_afterChecks (b := { b with world := _ }) (hinv.world ⟨Nat.le_refl _, Nat.le_refl _,
      Nat.le_refl _⟩) ⟨htraced.issued, htraced.objects, htraced.rows⟩ hfind hfields, vouched_nil⟩
  | createHead hreq hhead =>
    subst hreq
    -- an object under the key of a caller
    exact ⟨⟨_, htraced.issued_of_head hhead hkey, Or.inl rfl⟩, vouched_nil⟩
  | createInventorLinks hreq =>
    subst hreq
    exact ⟨hkey, vouched_nil⟩
  | createCategoryIds hreq =>
    subst hreq
    exact ⟨hkey, vouched_nil⟩
  | createPublication hreq =>
    subst hreq
    exact ⟨hkey, vouched_nil⟩
  | createInsert hreq =>
    subst hreq
    refine ⟨trivial, vouched_one rfl fun key hk => ?_⟩
    obtain rfl := Option.some.inj hk
    exact hkey
  | createLinkCategories hreq =>
    subst hreq
    exact ⟨trivial, vouched_map _ fun _ => rfl⟩
  | createLinkInventors hreq =>
    subst hreq
    exact ⟨trivial, vouched_map _ fun _ => rfl⟩
  | updateAttached hreq hbelongs =>
    subst hreq
    exact ⟨⟨hkey, hbelongs⟩, vouched_nil⟩
  | @updateHead user id updates patent size hreq hhead =>
    subst hreq
    obtain ⟨hentrusted, hbelongs⟩ := hkey
    refine ⟨⟨hentrusted, fun key hk => ?_⟩, vouched_nil⟩
    rw [hk, Option.getD_some] at hhead hbelongs
    exact authorised_of_issued hentrusted (htraced.issued_of_head hhead hbelongs) hr
  | updatePublication hreq =>
    subst hreq
    exact ⟨hkey, vouched_nil⟩
  | updateInventorLinks hreq =>
    subst hreq
    exact ⟨hkey, vouched_nil⟩
  | updateCategoryIds hreq =>
    subst hreq
    exact ⟨hkey, vouched_nil⟩
  | updateWrite hreq hlands =>
    subst hreq
    obtain rfl : ws = [] := hat
    -- the owner of the row is the one of the record
    exact ⟨keyAt_thenCategories, vouched_updateWrite htraced hlands hkey.1 hkey.2⟩
  | updateUnlinkCategories hreq =>
    subst hreq
    exact ⟨trivial, vouched_map _ fun _ => rfl⟩
  | updateLinkCategories hreq =>
    subst hreq
    exact ⟨keyAt_thenInventors, vouched_map _ fun _ => rfl⟩
  | updateUnlinkInventors hreq =>
    subst hreq
    exact ⟨trivial, vouched_map _ fun _ => rfl⟩
  | updateLinkInventors hreq =>
    subst hreq
    exact ⟨trivial, vouched_map _ fun _ => rfl⟩
  | submitWrite hreq hlands =>
    subst hreq
    obtain rfl : ws = [] := hat
    -- a transition keeps key and owner
    exact ⟨trivial, vouched_transition htraced hlands.mem ⟨rfl, rfl⟩⟩
  | reviewWrite hreq hlands =>
    obtain rfl : ws = [] := hat
    exact ⟨by cases r <;> trivial, vouched_transition htraced hlands.mem ⟨rfl, rfl⟩⟩
  | reviewCreate hreq =>
    exact ⟨by cases r <;> trivial, vouched_other rfl⟩
  | reviewEnqueue hreq =>
    exact ⟨by cases r <;> trivial, vouched_other rfl⟩
  | deleteWrite hreq hlands =>
    subst hreq
    exact ⟨trivial, vouched_other rfl⟩
  | _ => exact ⟨by cases r <;> trivial, vouched_nil⟩

/-- A statement only issues keys to its caller. -/
theorem Traced.move (h : Traced reqs b) (hmove : Move r d b.world o l res) :
    (∀ e ∈ b.world.issued, e ∈ res.2.1.issued) ∧ Traced reqs { b with world := res.2.1 } := by
  rcases hmove.tamed with htamed | ⟨user, filename, contentType, -, hx⟩
  · have hgrows : ∀ e ∈ b.world.issued, e ∈ res.2.1.issued := fun e he => htamed.issued.symm ▸ he
    refine ⟨hgrows, fun userId key hk => ?_, fun obj hobj => ?_, fun row hrow key hkey => ?_⟩
    · have hk : (userId, key) ∈ res.2.1.issued := hk
      rw [htamed.issued] at hk
      exact h.issued userId key hk
    · obtain ⟨userId, hissued⟩ := h.objects obj (htamed.objects obj hobj)
      exact ⟨userId, hgrows _ hissued⟩
    · exact (h.rows row hrow key hkey).mono hgrows
  · have hgrows : ∀ e ∈ b.world.issued, e ∈ res.2.1.issued := by
      intro e he
      rw [hx]
      exact List.mem_cons_of_mem _ he
    refine ⟨hgrows, fun userId key hk => ?_, fun obj hobj => ?_, fun row hrow key hkey => ?_⟩
    · have hk : (userId, key) ∈ res.2.1.issued := hk
      rw [hx] at hk
      rcases List.mem_cons.mp hk with heq | hk
      · obtain ⟨rfl, rfl⟩ := Prod.mk.inj heq
        exact belongs_buildObjectKey _ _ _
      · exact h.issued userId key hk
    · have hobj : obj ∈ res.2.1.objects := hobj
      rw [hx] at hobj
      obtain ⟨userId, hissued⟩ := h.objects obj hobj
      exact ⟨userId, hgrows _ hissued⟩
    · exact (h.rows row hrow key hkey).mono hgrows

/-- A PUT issues no key. -/
theorem Traced.upload (h : Traced reqs b) {u : Upload} (hu : uploadFreely u b.world = some x') :
    x'.issued = b.world.issued ∧ Traced reqs { b with world := x' } := by
  cases u with
  | put key size =>
    simp only [uploadFreely] at hu
    split at hu
    · rename_i hissued
      obtain rfl := Option.some.inj hu
      refine ⟨rfl, h.issued, fun obj hobj => ?_, h.rows⟩
      rcases Table.mem_put.mp hobj with rfl | ⟨hobj, -⟩
      · obtain ⟨⟨userId, key'⟩, hmem, rfl⟩ := List.mem_map.mp hissued
        exact ⟨userId, hmem⟩
      · exact h.objects obj hobj
    · cases hu

theorem Entrusted.world (h : Entrusted user id patent b) :
    Entrusted user id patent { b with world := x' } :=
  ⟨h.used, h.owner, h.allowed⟩

/-- The submitter of a patent never changes. -/
theorem Entrusted.other (cfg : Config) (h : Entrusted user id patent b)
    (htx : PatentTx J reqs q b.db b.log vs) :
    Entrusted user id patent ((patents cfg reqs).commitBase b q vs) := by
  refine ⟨not_unused_concat h.used, fun row hrow hid => ?_, h.allowed⟩
  have hget : (after b.db vs).patents.get? id = some row := Table.get?_eq_some.mpr ⟨hrow, hid⟩
  have howner : ∀ {old : Patent}, b.db.patents.get? id = some old →
      old.submittedBy = patent.submittedBy := by
    intro old hold
    exact h.owner old (Table.get?_eq_some.mp hold).1 (Table.get?_eq_some.mp hold).2
  cases htx.effect id with
  | other hreq hsame => exact howner (hsame.symm.trans hget)
  | create hreq hunused => exact absurd hunused h.used
  | update hreq hold hstatus hknown hnew =>
    obtain rfl := Option.some.inj (hnew.symm.trans hget)
    have hsame := howner hold
    exact hsame
  | submit hreq hold hstatus hnew =>
    obtain rfl := Option.some.inj (hnew.symm.trans hget)
    have hsame := howner hold
    exact hsame
  | review hreq hold hstatus hknown hrecord hmem hnew =>
    obtain rfl := Option.some.inj (hnew.symm.trans hget)
    have hsame := howner hold
    exact hsame
  | delete hreq hold hstatus hnone => nomatch hnone.symm.trans hget

/-- What a request knows of its key depends on the keys issued and on the submitter of its
    patent. -/
theorem KeyAt.congr {b' : Base Db Ext Write} (h : KeyAt reqs r l b)
    (hissued : ∀ e ∈ b.world.issued, e ∈ b'.world.issued)
    (hentrusted : ∀ user id patent, Entrusted user id patent b → Entrusted user id patent b') :
    KeyAt reqs r l b' := by
  cases r with
  | createPatent user input =>
    cases l with
    | create c =>
      cases c with
      | head => exact h
      | inventorLinks => exact h.mono hissued
      | categoryIds links => exact h.mono hissued
      | publication links ids => exact h.mono hissued
      | insert links ids => exact h.mono hissued
      | _ => trivial
    | _ => trivial
  | updatePatent user id updates =>
    cases l with
    | update c =>
      cases c with
      | attached patent => exact hentrusted _ _ _ h
      | head patent => exact ⟨hentrusted _ _ _ h.1, h.2⟩
      | publication patent => exact ⟨hentrusted _ _ _ h.1, h.2.mono hissued⟩
      | inventorLinks patent => exact ⟨hentrusted _ _ _ h.1, h.2.mono hissued⟩
      | categoryIds patent links => exact ⟨hentrusted _ _ _ h.1, h.2.mono hissued⟩
      | write patent links ids => exact ⟨hentrusted _ _ _ h.1, h.2.mono hissued⟩
      | _ => trivial
    | _ => trivial
  | _ => trivial

/-- A commit that is vouched for keeps every row traced. -/
theorem Traced.commit (cfg : Config) (h : Traced reqs b) (hvouched : Vouched reqs b.world ws) :
    Traced reqs ((patents cfg reqs).commitBase b p ws) := by
  refine ⟨h.issued, h.objects, fun row hrow key hkey => ?_⟩
  rcases patent_back ws hrow with hrow | ⟨w, hw, hnew⟩
  · exact h.rows row hrow key hkey
  · exact hvouched w hw row key hnew hkey

/-- **The layer of keys.** -/
theorem authorityLayer (J : Nat → Loc → Patent → Prop) (cfg : Config)
    (hfields : ∀ p key, (reqs p).documentKey = some key → key ≠ "") :
    Layer (patentsOver uploadFreely cfg reqs) (Landing J reqs) Inv (At J reqs) (PatentTx J reqs)
      (Traced reqs) (fun p l b ws => KeyAt reqs (reqs p) l b ∧ Vouched reqs b.world ws)
      (fun _ _ _ _ => True) (fun x x' => ∀ e ∈ x.issued, e ∈ x'.issued) where
  stmt := by
    intro p l f b ws o hcode _ hinv hat htraced ⟨hkey, hvouched⟩
    have hmove : Move (reqs p) (after b.db ws) b.world o l (f o (after b.db ws) b.world) :=
      move_of_code (Or.inr hcode)
    obtain ⟨hgrows, htraced'⟩ := htraced.move hmove
    obtain ⟨hkey', hnew⟩ := keyAt_move hmove hinv hat htraced hkey (hfields p)
    exact ⟨hgrows, htraced', hkey', (hvouched.mono hgrows).append hnew⟩
  auto := by
    intro p l f b o hcode _ hinv hat htraced ⟨hkey, hvouched⟩
    have hmove : Move (reqs p) (after b.db []) b.world o l (f o b.db b.world) :=
      move_of_code (Or.inl hcode)
    obtain ⟨hgrows, htraced'⟩ := htraced.move hmove
    obtain ⟨hkey', -⟩ := keyAt_move hmove hinv hat htraced hkey (hfields p)
    have hnone := (auto_quiet (J := J) hcode o b.db b.world).none
    exact ⟨hgrows, Or.inl ⟨hnone, htraced', hkey', hvouched.mono hgrows⟩⟩
  commit := by
    intro p l l' b ws hcode _ _ _ _ htraced ⟨_, hvouched⟩
    refine ⟨htraced.commit cfg hvouched, trivial, ?_, vouched_nil⟩
    rcases next_of_code_commit hcode with ⟨reply, rfl⟩ | ⟨key, reply, rfl⟩
    · exact keyAt_done
    · cases reqs p <;> trivial
  rollback := by
    intro p l l' b ws hcode _
    obtain ⟨e, rfl⟩ := eq_of_rollback hcode
    exact ⟨keyAt_done, vouched_nil⟩
  fail := fun _ => ⟨keyAt_done, vouched_nil⟩
  env := by
    intro u loc b x' henv htraced
    obtain ⟨hissued, htraced'⟩ := htraced.upload henv
    exact ⟨fun e he => hissued ▸ he, htraced'⟩
  world := fun hgrows ⟨hkey, hvouched⟩ =>
    ⟨hkey.congr hgrows fun _ _ _ h => h.world, hvouched.mono hgrows⟩
  other := fun _ _ _ htx _ ⟨hkey, hvouched⟩ _ _ =>
    ⟨hkey.congr (fun _ h => h) fun _ _ _ h => h.other cfg htx, hvouched⟩

end Layer

/-! ## Every run -/

section Runs

variable {cfg : Config} {reqs : Nat → Request} {users : Table User User.id}
  {inventors : Table Inventor Inventor.id} {categories : Table Category Category.id}
  {σ : State Db Ext Write Loc}

/-- The key of a patent was issued to the submitter or to an administrator, and to nobody else. -/
structure KeyAuthority (reqs : Nat → Request) (x : Ext) (row : Patent) (key : String) : Prop where
  issued : Authorised reqs x row.submittedBy key
  only : ∀ userId, (userId, key) ∈ x.issued → userId = row.submittedBy ∨ AdminUser reqs userId

/-- **Document key authority**, whatever clients upload and in whatever order requests move. -/
theorem authorised_of_run
    (hkeys : ∀ p key, (reqs p).documentKey = some key → documentKeyField key = true)
    (hrun : Run (patentsOver uploadFreely cfg reqs).step always (init users inventors categories)
      σ) :
    ∀ row ∈ σ.base.db.patents, ∀ key, row.documentKey = some key →
      KeyAuthority reqs σ.base.world row key := by
  have hholds := layeredOver_of_run leavesSequences_uploadFreely
    (authorityLayer _ cfg fun p key h => ne_empty_of_documentKeyField (hkeys p key h))
    ⟨fun _ _ h => (List.not_mem_nil h).elim, fun obj h => absurd h (Table.not_mem_empty obj),
      fun row h => absurd h (Table.not_mem_empty row)⟩
    (fun p => ⟨by cases reqs p <;> trivial, vouched_nil⟩) (landingOver_of_always hrun)
  obtain ⟨-, htraced⟩ := hholds.inv
  intro row hrow key hkey
  have hauthorised := htraced.rows row hrow key hkey
  refine ⟨hauthorised, fun userId hissued => ?_⟩
  obtain ⟨owner, hissued', howner⟩ := hauthorised
  rwa [owner_unique (htraced.issued userId key hissued) (htraced.issued owner key hissued')]

end Runs

/-! ## An administrator replaces a document -/

/-- The key that the administrator gets. -/
def rootKey : String := buildObjectKey 2 uuid "b.pdf"

/-- Root replaces the document of Ada's draft by one of his own. -/
def adminEdit : Nat → Request
  | 0 => .requestUpload ada "a.pdf" "application/pdf"
  | 1 => .createPatent ada firstInput
  | 2 => .requestUpload root "b.pdf" "application/pdf"
  | _ => .updatePatent root 1 ⟨none, none, none, some rootKey, none, none, none, none⟩

/-- He uploads twice. -/
def adminEdited : List (Act Oracle Upload) :=
  drafted ++ steps 2 1 ++ [.env (.put rootKey 10), .env (.put rootKey 20)] ++ steps 3 10

theorem adminEdit_valid (p : Nat) (key : String) (h : (adminEdit p).documentKey = some key) :
    documentKeyField key = true := by
  have ha : documentKeyField (keyOf "a.pdf") = true := by decide
  have hb : documentKeyField rootKey = true := by decide
  match p with
  | 0 => nomatch h
  | 1 => exact Option.some.inj h ▸ ha
  | 2 => nomatch h
  | p + 3 => exact Option.some.inj h ▸ hb

theorem adminEdited_runs :
    ((exec (patentsOver uploadFreely pdfOnly adminEdit).step blank adminEdited).bind fun σ =>
      (σ.base.db.patents.get? 1).bind Patent.documentKey) = some rootKey := by
  decide

/-- An admin attaches a file of her own to somebody else's draft. -/
theorem authorised_of_adminEdit : ∃ σ row,
    exec (patentsOver uploadFreely pdfOnly adminEdit).step blank adminEdited = some σ ∧
    row ∈ σ.base.db.patents ∧ row.documentKey = some rootKey ∧
    KeyAuthority adminEdit σ.base.world row rootKey := by
  obtain ⟨σ, hσ, hrow⟩ := Option.bind_eq_some_iff.mp adminEdited_runs
  obtain ⟨row, hrow, hkey⟩ := Option.bind_eq_some_iff.mp hrow
  have hmem := (Table.get?_eq_some.mp hrow).1
  exact ⟨σ, row, hσ, hmem, hkey,
    authorised_of_run adminEdit_valid (Run.of_exec hσ) row hmem rootKey hkey⟩

end SmartPatents.DocumentAuthority
