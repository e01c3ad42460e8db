/-
  The links of a patent, transaction by transaction.

  A create or an edit resolves the lists of its request before its transaction and writes them in
  up to four statements that carry no guard.  `LinkAt` says at each point what has been written so
  far; because the row lock of the patent covers the whole transaction, no other transaction can
  add a link under it.  `linked` is the outline of the patent machine with this layer: every
  committed create or edit sets the links of its patent to exactly the lists of its request, and
  leaves alone what the request does not supply (`PatentTx.links`).

  The layer is a `Layer` of `Lib.Serial`: assertions about links on top of those of
  `PatentOutline`, which are not proved again.  `LinkEffect` is the result for one patent and any
  transaction, and `since` turns it into an induction over what has committed after some state.

  The steps, in order:

  * `linkAt_move` — one statement leads from the assertion of a location to that of the next;
  * `linkAt_mono` — a transaction of somebody else breaks none of them, since it adds no link to a
    patent that is locked (`PatentTx.noNewLinks`);
  * `Linked.after` — at the commit, the links are those of the request;
  * `linkLayer`, `linked_of_run` — every run.
-/
import SmartPatents.LinkTables
import SmartPatents.PatentHistory
import SmartPatents.PatentMoves

namespace SmartPatents.PatentService

open ReadCommitted Runs Access Lifecycle Relations Storage PatentEvents

/-! ## What a request sets -/

/-- The credits that a list of entries stands for. -/
def requestedLinks (inventors : List InventorEntry) : List InventorLink :=
  inventors.mapIdx fun index entry => ⟨bigInt entry.inventorId, entry.order.getD (index + 1)⟩

/-- The category links that a request sets on patent `id`, if it sets them. -/
def setsCategories (r : Request) (id : Nat) : Option (List PatentCategory) :=
  match r with
  | .createPatent _ input => some (categoryRows id ((input.categoryIds.getD []).map bigInt))
  | .updatePatent _ _ updates => updates.categoryIds.map fun ids => categoryRows id (ids.map bigInt)
  | _ => none

/-- The credits that a request sets on patent `id`, if it sets them. -/
def setsCredits (r : Request) (id : Nat) : Option (List PatentInventor) :=
  match r with
  | .createPatent _ input => some (creditRows id (requestedLinks (input.inventors.getD [])))
  | .updatePatent _ _ updates => updates.inventors.map fun es => creditRows id (requestedLinks es)
  | _ => none

/-- The links of a request carry the orders it resolves to. -/
theorem map_inventorOrder_requestedLinks (inventors : List InventorEntry) :
    (requestedLinks inventors).map InventorLink.inventorOrder = ordersOf inventors := by
  refine List.ext_getElem (by simp [requestedLinks, ordersOf]) fun i _ _ => ?_
  simp [requestedLinks, ordersOf]

/-- What `resolveInventorLinks` lets through. -/
structure Resolved (inventors : List InventorEntry) (links : List InventorLink) : Prop where
  requested : links = requestedLinks inventors
  ordered : contiguous (links.map InventorLink.inventorOrder) = true

/-- What `resolveInventorLinks` accepts is in order: distinct inventors, contiguous orders. -/
theorem resolved_of_ok {inventors : List InventorEntry} {d : Db} {links : List InventorLink}
    (h : resolveInventorLinks inventors d = .ok links) : Resolved inventors links := by
  unfold resolveInventorLinks at h
  split at h
  · rename_i hnil
    obtain rfl := Except.ok.inj h
    obtain rfl := List.isEmpty_iff.mp hnil
    exact ⟨rfl, rfl⟩
  · dsimp only at h
    split at h
    · nomatch h
    · split at h
      · nomatch h
      · split at h
        · nomatch h
        · split at h
          · nomatch h
          · rename_i horders
            obtain rfl := Except.ok.inj h
            refine ⟨rfl, ?_⟩
            have hsame := map_inventorOrder_requestedLinks inventors
            rw [requestedLinks] at hsame
            rw [hsame]
            simpa using horders

/-- What `resolveCategoryIds` accepts is the ids of the request. -/
theorem eq_of_resolveCategoryIds {categoryIds : List String} {d : Db} {ids : List Nat}
    (h : resolveCategoryIds categoryIds d = .ok ids) : ids = categoryIds.map bigInt := by
  unfold resolveCategoryIds at h
  split at h
  · rename_i hnil
    obtain rfl := Except.ok.inj h
    obtain rfl := List.isEmpty_iff.mp hnil
    rfl
  · dsimp only at h
    split at h
    · nomatch h
    · split at h
      · nomatch h
      · exact (Except.ok.inj h).symm

/-! ## What has been written -/

/-- The transaction has written the row of patent `id`, then category links as `P` says, then
    credits as `Q` says. -/
def Written (id : Nat) (P Q : List Write → Prop) (ws : List Write) : Prop :=
  ∃ w vs us, ws = w :: (vs ++ us) ∧ w.touches = some id ∧ w.relinks = none ∧ P vs ∧ Q us

/-- The transaction has set the links of patent `id` to those of its request. -/
structure Linked (r : Request) (d : Db) (id : Nat) (ws : List Write) : Prop where
  written : Written id (categoryLinks.Replaces d id (setsCategories r id))
    (credits.Replaces d id (setsCredits r id)) ws
  ordered : ∀ rows, setsCredits r id = some rows →
    contiguous (rows.map PatentInventor.inventorOrder) = true

/-- The links that a create has resolved. -/
def CreateLinks (r : Request) (input : CreateInput) (d : Db) (ws : List Write) : CreateLoc → Prop
  | .categoryIds links => Resolved (input.inventors.getD []) links
  | .publication links ids | .insert links ids =>
      Resolved (input.inventors.getD []) links ∧ ids = (input.categoryIds.getD []).map bigInt
  | .linkCategories id links ids =>
      Resolved (input.inventors.getD []) links ∧ ids = (input.categoryIds.getD []).map bigInt ∧
        Written id (categoryLinks.Clears d id) (fun us => us = [] ∧ credits.Clears d id []) ws
  | .linkInventors id links =>
      Resolved (input.inventors.getD []) links ∧
        Written id (categoryLinks.Replaces d id (setsCategories r id)) (credits.Clears d id) ws
  | .reread id => Linked r d id ws
  | .commit _ => ∃ id, Linked r d id ws
  | _ => True

/-- The links that an edit has resolved. -/
def Resolves (updates : Updates) (links : Option (List InventorLink)) : Prop :=
  match updates.inventors with
  | none => links = none
  | some inventors => ∃ ls, links = some ls ∧ Resolved inventors ls

/-- What an edit has written of the links at each of its locations. -/
def EditLinks (r : Request) (id : Nat) (updates : Updates) (d : Db) (ws : List Write) :
    UpdateLoc → Prop
  | .categoryIds _ links => Resolves updates links
  | .write _ links ids =>
      Resolves updates links ∧ ids = updates.categoryIds.map fun cs => cs.map bigInt
  | .unlinkCategories _ links ids =>
      Resolves updates links ∧ some ids = updates.categoryIds.map (fun cs => cs.map bigInt) ∧
        Written id (· = []) (· = []) ws
  | .linkCategories _ links ids =>
      Resolves updates links ∧ some ids = updates.categoryIds.map (fun cs => cs.map bigInt) ∧
        Written id (categoryLinks.Clears d id) (· = []) ws
  | .unlinkInventors _ links =>
      Resolves updates (some links) ∧
        Written id (categoryLinks.Replaces d id (setsCategories r id)) (· = []) ws
  | .linkInventors _ links =>
      Resolves updates (some links) ∧
        Written id (categoryLinks.Replaces d id (setsCategories r id)) (credits.Clears d id) ws
  | .reread _ | .commit _ _ => Linked r d id ws
  | _ => True

/-- The layer's assertion. -/
def LinkAt (r : Request) (l : Loc) (d : Db) (ws : List Write) : Prop :=
  match r, l with
  | .createPatent _ input, .create c => CreateLinks r input d ws c
  | .updatePatent _ id updates, .update u => EditLinks r id updates d ws u
  | _, _ => True

section Written

variable {id : Nat} {P Q P' Q' : List Write → Prop} {ws vs : List Write}

/-- What has been written of the links, under weaker readings. -/
theorem Written.mono (h : Written id P Q ws) (hP : ∀ vs, P vs → P' vs) (hQ : ∀ us, Q us → Q' us) :
    Written id P' Q' ws := by
  obtain ⟨w, vs, us, hws, htouch, hrelinks, hvs, hus⟩ := h
  exact ⟨w, vs, us, hws, htouch, hrelinks, hP vs hvs, hQ us hus⟩

/-- Category links are written before any credit. -/
theorem Written.categories (h : Written id P Q ws) (hP : ∀ us, P us → P' (us ++ vs))
    (hQ : ∀ us, Q us → us = [] ∧ Q' []) : Written id P' Q' (ws ++ vs) := by
  obtain ⟨w, us, cs, rfl, htouch, hrelinks, hus, hcs⟩ := h
  obtain ⟨rfl, hnil⟩ := hQ cs hcs
  exact ⟨w, us ++ vs, [], by simp, htouch, hrelinks, hP us hus, hnil⟩

/-- More writes of credits extend what has been written of them. -/
theorem Written.credits (h : Written id P Q ws) (hQ : ∀ us, Q us → Q' (us ++ vs)) :
    Written id P Q' (ws ++ vs) := by
  obtain ⟨w, us, cs, rfl, htouch, hrelinks, hus, hcs⟩ := h
  exact ⟨w, us, cs ++ vs, by simp, htouch, hrelinks, hus, hQ cs hcs⟩

end Written

/-! ## One statement -/

section Step

variable {r : Request} {d : Db} {x : Ext} {o : Oracle} {l : Loc} {res : Outcome} {ws : List Write}
  {id : Nat}

/-- A request that throws leaves no links behind. -/
theorem linkAt_throwing (e : Thrown) : LinkAt r (.throwing e) d ws := by cases r <;> trivial

theorem linkAt_done (reply : Reply) : LinkAt r (.done reply) d ws := by cases r <;> trivial

theorem linkAt_submit (s : SubmitLoc) : LinkAt r (.submit s) d ws := by cases r <;> trivial

theorem linkAt_review (s : ReviewLoc) : LinkAt r (.review s) d ws := by cases r <;> trivial

theorem linkAt_delete (s : DeleteLoc) : LinkAt r (.delete s) d ws := by cases r <;> trivial

/-- Distinct ids make distinct rows. -/
theorem nodup_categoryRows {ids : List Nat} (h : ids.Nodup) :
    ((categoryRows id ids).map PatentCategory.key).Nodup := by
  rw [categoryRows, List.map_map]
  exact h.map fun a b hab => (Prod.mk.inj hab).2

theorem nodup_creditRows {links : List InventorLink}
    (h : (links.map InventorLink.inventorId).Nodup) :
    ((creditRows id links).map PatentInventor.key).Nodup := by
  rw [creditRows, List.map_map]
  have hkeys : links.map (PatentInventor.key ∘ fun l => ⟨id, l.inventorId, l.inventorOrder⟩) =
      (links.map InventorLink.inventorId).map fun i => (id, i) := by
    rw [List.map_map]
    rfl
  rw [hkeys]
  exact h.map fun a b hab => (Prod.mk.inj hab).2

/-- The rows made for a patent belong to it. -/
theorem owner_categoryRows {ids : List Nat} :
    ∀ l ∈ categoryRows id ids, (PatentCategory.key l).1 = id := by
  intro l hl
  obtain ⟨c, -, rfl⟩ := List.mem_map.mp hl
  rfl

theorem owner_creditRows {links : List InventorLink} :
    ∀ l ∈ creditRows id links, (PatentInventor.key l).1 = id := by
  intro l hl
  obtain ⟨c, -, rfl⟩ := List.mem_map.mp hl
  rfl

/-- Resolved links make credits of contiguous orders. -/
theorem ordered_creditRows {inventors : List InventorEntry} {links : List InventorLink}
    (h : Resolved inventors links) :
    contiguous ((creditRows id links).map PatentInventor.inventorOrder) = true := by
  rw [creditRows, List.map_map]
  exact h.ordered

/-- What a statement sees of the credits while only category links have been written. -/
theorem table_credits_after {rows : Option (List PatentCategory)} {P : List Write → Prop}
    (hP : ∀ us, P us → us = [])
    (h : Written id (categoryLinks.Replaces d id rows) P ws) :
    credits.table (after d ws) = credits.table d := by
  obtain ⟨w, vs, us, rfl, -, hrelinks, hvs, hus⟩ := h
  obtain rfl := hP us hus
  refine LinkTable.table_after_foreign fun v hv => ?_
  rcases List.mem_cons.mp hv with rfl | hv
  · exact LinkTable.foreign_of_relinks hrelinks
  · rw [List.append_nil] at hv
    exact hvs.foreign foreign_credits v hv

/-- The last two steps of a create and of an edit. -/
theorem linked_of_credits {r : Request} {links : List InventorLink} {inventors : List InventorEntry}
    (hsets : setsCredits r id = some (creditRows id (requestedLinks inventors)))
    (hres : Resolved inventors links) (hnodup : (links.map InventorLink.inventorId).Nodup)
    (h : Written id (categoryLinks.Replaces d id (setsCategories r id)) (credits.Clears d id) ws) :
    Linked r d id (ws ++ (creditRows id links).map .insertInventor) := by
  have hlinks := hres.requested
  refine ⟨h.credits fun us hus => ?_, fun rows hrows => ?_⟩
  · rw [hsets, ← hlinks]
    exact hus.insert (nodup_creditRows hnodup) owner_creditRows
  · obtain rfl := Option.some.inj (hsets.symm.trans hrows)
    rw [← hlinks]
    exact ordered_creditRows hres

/-- Where an edit goes after its category links. -/
theorem linkAt_thenInventors {user : Caller} {updates : Updates} {patent : PatentRecord}
    {links : Option (List InventorLink)} (hres : Resolves updates links)
    (h : Written id (categoryLinks.Replaces d id (setsCategories (.updatePatent user id updates) id))
      (· = []) ws) :
    LinkAt (.updatePatent user id updates) (thenInventors patent links) d ws := by
  cases links with
  | some links => exact ⟨hres, h⟩
  | none =>
    have hnone : updates.inventors = none := by
      cases hinv : updates.inventors with
      | none => rfl
      | some inventors =>
        simp only [Resolves, hinv] at hres
        obtain ⟨ls, hls, -⟩ := hres
        nomatch hls
    have hsets : setsCredits (.updatePatent user id updates) id = none := by
      simp only [setsCredits, hnone, Option.map_none]
    refine ⟨h.mono (fun _ hvs => hvs) fun us hus => ?_, fun rows hrows => ?_⟩
    · rw [hsets]
      exact hus
    · rw [hsets] at hrows
      nomatch hrows

/-- What the checks establish about credits, without the database they read. -/
theorem resolves_of_resolvesInventors {updates : Updates} {links : Option (List InventorLink)}
    (h : ResolvesInventors updates d links) : Resolves updates links := by
  unfold ResolvesInventors at h
  unfold Resolves
  cases hinv : updates.inventors with
  | none =>
    rw [hinv] at h
    exact h
  | some inventors =>
    rw [hinv] at h
    obtain ⟨ls, hok, rfl⟩ := h
    exact ⟨ls, rfl, resolved_of_ok hok⟩

/-- What they establish about categories. -/
theorem eq_of_resolvesCategories {updates : Updates} {ids : Option (List Nat)}
    (h : ResolvesCategories updates d ids) :
    ids = updates.categoryIds.map fun cs => cs.map bigInt := by
  unfold ResolvesCategories at h
  cases hcs : updates.categoryIds with
  | none =>
    rw [hcs] at h
    exact h
  | some categoryIds =>
    rw [hcs] at h
    obtain ⟨cs, hok, rfl⟩ := h
    rw [Option.map_some, eq_of_resolveCategoryIds hok]

/-- Behind the checks nothing has been written yet. -/
theorem linkAt_afterChecks {user : Caller} {updates : Updates} {patent : PatentRecord} :
    LinkAt (.updatePatent user id updates) (.update (afterChecks updates patent)) d ws := by
  unfold afterChecks
  split <;> trivial

/-- Where an edit goes after its write. -/
theorem linkAt_thenCategories {user : Caller} {updates : Updates} {patent : PatentRecord}
    {links : Option (List InventorLink)} {ids : Option (List Nat)} (hres : Resolves updates links)
    (hids : ids = updates.categoryIds.map fun cs => cs.map bigInt)
    (h : Written id (· = []) (· = []) ws) :
    LinkAt (.updatePatent user id updates) (thenCategories patent links ids) d ws := by
  cases ids with
  | some ids => exact ⟨hres, hids, h⟩
  | none =>
    have hnone : updates.categoryIds = none := by
      cases hcs : updates.categoryIds with
      | none => rfl
      | some cs =>
        rw [hcs] at hids
        nomatch hids
    refine linkAt_thenInventors hres (h.mono (fun vs hvs => ?_) fun _ hus => hus)
    simp only [setsCategories, hnone, Option.map_none]
    exact hvs

/-- **Step lemma.**  Every move of a request leads to the assertion of its next location. -/
theorem linkAt_move (hmove : Move r (after d ws) x o l res) (hat : LinkAt r l d ws)
    (hinsert : ∀ links ids, l = .create (.insert links ids) → ws = [] ∧ categoryLinks.Owned d ∧
      credits.Owned d ∧ ∀ row ∈ d.patents, row.id ≠ x.nextPatentId)
    (hwrite : ∀ patent links ids, l = .update (.write patent links ids) → ws = []) :
    LinkAt r res.2.2 d (ws ++ res.1) := by
  cases hmove with
  | throws => exact linkAt_throwing _
  | issue => exact linkAt_done _
  | createStart hreq => subst hreq; trivial
  | updateStart hreq => subst hreq; exact linkAt_afterChecks
  | submitStart => exact linkAt_submit _
  | reviewStart => exact linkAt_review _
  | deleteStart => exact linkAt_delete _
  | createHead hreq => subst hreq; trivial
  | createOversized => cases r <;> trivial
  | createInventorLinks hreq hlinks =>
    subst hreq
    exact resolved_of_ok hlinks
  | createCategoryIds hreq hids =>
    subst hreq
    exact ⟨hat, eq_of_resolveCategoryIds hids⟩
  | createPublication hreq => subst hreq; exact hat
  | createInsert hreq hfree =>
    subst hreq
    obtain ⟨rfl, hcategories, hcredits, hnew⟩ := hinsert _ _ rfl
    -- the id is new, so there is nothing to clear
    exact ⟨hat.1, hat.2, _, [], [], rfl, rfl, rfl, LinkTable.clears_of_new hcategories hnew, rfl,
      LinkTable.clears_of_new hcredits hnew⟩
  | createLinkCategories hreq hfit =>
    subst hreq
    obtain ⟨hres, rfl, h⟩ := hat
    refine ⟨hres, h.categories (fun us hus => ?_) fun us hus => hus⟩
    exact hus.insert (nodup_categoryRows hfit.nodup) owner_categoryRows
  | createLinkInventors hreq hfit =>
    subst hreq
    obtain ⟨hres, h⟩ := hat
    exact linked_of_credits rfl hres hfit.nodup h
  | createReread hreq =>
    subst hreq
    exact ⟨_, by rwa [List.append_nil]⟩
  | updateAttached hreq => subst hreq; trivial
  | updateHead hreq => subst hreq; trivial
  | updateOversized => cases r <;> trivial
  | updatePublication hreq => subst hreq; trivial
  | @updateInventorLinks user id updates patent links hreq hlinks =>
    subst hreq
    exact resolves_of_resolvesInventors hlinks
  | @updateCategoryIds user id updates patent links ids hreq hids =>
    subst hreq
    exact ⟨hat, eq_of_resolvesCategories hids⟩
  | updateWrite hreq hlands hfree =>
    subst hreq
    obtain rfl := hwrite _ _ _ rfl
    exact linkAt_thenCategories hat.1 hat.2
      ⟨_, [], [], rfl, congrArg some hlands.id, rfl, rfl, rfl⟩
  | updateRefused => cases r <;> trivial
  | @updateUnlinkCategories user id updates patent links ids hreq =>
    subst hreq
    obtain ⟨hres, hids, h⟩ := hat
    refine ⟨hres, hids, ?_⟩
    obtain ⟨w, vs, us, rfl, htouch, hrelinks, rfl, rfl⟩ := h
    -- the DELETE sees the links as they were before the transaction
    have hsame : (after d [w]).categoryLinksOf id = categoryLinks.ofPatent d id :=
      LinkTable.ofPatent_apply (T := categoryLinks) (by rw [hrelinks]; nofun)
    refine ⟨w, ((after d [w]).categoryLinksOf id).map .deleteCategory, [], by simp, htouch, hrelinks,
      ?_, rfl⟩
    exact LinkTable.clears_of_mem fun l => by rw [← hsame]
  | @updateLinkCategories user id updates patent links ids hreq hfit =>
    subst hreq
    obtain ⟨hres, hids, h⟩ := hat
    have hsets : setsCategories (.updatePatent user id updates) id = some (categoryRows id ids) := by
      have hrows := congrArg (Option.map (categoryRows id)) hids
      rw [Option.map_some, Option.map_map] at hrows
      exact hrows.symm
    refine linkAt_thenInventors hres (h.categories (fun us hus => ?_) fun us hus => ⟨hus, rfl⟩)
    rw [hsets]
    exact hus.insert (nodup_categoryRows hfit.nodup) owner_categoryRows
  | @updateUnlinkInventors user id updates patent links hreq =>
    subst hreq
    obtain ⟨hres, h⟩ := hat
    refine ⟨hres, ?_⟩
    have htable := table_credits_after (d := d) (fun _ hus => hus) h
    refine h.credits fun us hus => ?_
    -- the writes so far are the row and the category links
    obtain rfl : us = [] := hus
    refine LinkTable.clears_of_mem fun l => ?_
    rw [mem_creditsOf, LinkTable.mem_ofPatent, LinkTable.mem_ofPatent, htable]
  | @updateLinkInventors user id updates patent links hreq hfit =>
    subst hreq
    obtain ⟨hres, h⟩ := hat
    have hsome : ∃ inventors, updates.inventors = some inventors ∧ Resolved inventors links := by
      unfold Resolves at hres
      split at hres
      · nomatch hres
      · rename_i inventors hsome
        obtain ⟨ls, hls, hres⟩ := hres
        exact ⟨inventors, hsome, Option.some.inj hls ▸ hres⟩
    obtain ⟨inventors, hinv, hres⟩ := hsome
    refine linked_of_credits ?_ hres hfit.nodup h
    simp only [setsCredits, hinv, Option.map_some]
  | updateReread hreq =>
    subst hreq
    have hlinked : Linked _ d _ ws := hat
    exact (List.append_nil ws).symm ▸ hlinked
  | submitWrite => exact linkAt_submit _
  | submitRefused => exact linkAt_submit _
  | submitReread => exact linkAt_submit _
  | reviewBefore => exact linkAt_review _
  | reviewWrite => exact linkAt_review _
  | reviewRefused => exact linkAt_review _
  | reviewReread => exact linkAt_review _
  | reviewCreate => exact linkAt_review _
  | reviewEnqueue => exact linkAt_review _
  | deleteWrite => exact linkAt_delete _
  | deleteRefused => exact linkAt_delete _
  | discard => exact linkAt_done _

/-! ## Other transactions -/

variable {d' : Db} {P Q : List Write → Prop}

/-- Whoever writes links has written the patent before. -/
theorem Written.touches (h : Written id P Q ws) : ∃ w ∈ ws, w.touches = some id := by
  obtain ⟨w, vs, us, rfl, htouch, -⟩ := h
  exact ⟨w, List.mem_cons_self, htouch⟩

/-- `d` has no link of patent `id` that `d₀` does not have. -/
structure NoNewLinks (d₀ d : Db) (id : Nat) : Prop where
  categories : categoryLinks.NoNewLinks d₀ d id
  credits : credits.NoNewLinks d₀ d id

/-- A transaction ready to commit stays so when links of its patent disappear meanwhile. -/
theorem Linked.mono (h : Linked r d id ws) (hno : NoNewLinks d d' id) : Linked r d' id ws :=
  ⟨h.written.mono (fun _ hvs => hvs.mono hno.categories) fun _ hus => hus.mono hno.credits,
    h.ordered⟩

/-- The assertion survives where the patent that the transaction has locked gets no new links. -/
theorem linkAt_mono (hat : LinkAt r l d ws)
    (hno : ∀ id, (∃ w ∈ ws, w.touches = some id) → NoNewLinks d d' id) : LinkAt r l d' ws := by
  -- a patent that is being written gets no new links from others
  cases r with
  | createPatent user input =>
    cases l with
    | create c =>
      cases c with
      | linkCategories id links ids =>
        obtain ⟨hres, hids, h⟩ := hat
        have hno := hno id h.touches
        exact ⟨hres, hids, h.mono (fun _ hvs => hvs.mono hno.categories)
          fun _ hus => ⟨hus.1, hus.2.mono hno.credits⟩⟩
      | linkInventors id links =>
        obtain ⟨hres, h⟩ := hat
        have hno := hno id h.touches
        exact ⟨hres, h.mono (fun _ hvs => hvs.mono hno.categories)
          fun _ hus => hus.mono hno.credits⟩
      | reread id =>
        have h : Linked _ d id ws := hat
        exact h.mono (hno id h.written.touches)
      | commit record =>
        obtain ⟨id, h⟩ := hat
        exact ⟨id, h.mono (hno id h.written.touches)⟩
      | _ => exact hat
    | _ => trivial
  | updatePatent user id updates =>
    cases l with
    | update u =>
      cases u with
      | linkCategories patent links ids =>
        obtain ⟨hres, hids, h⟩ := hat
        have hno := hno id h.touches
        exact ⟨hres, hids, h.mono (fun _ hvs => hvs.mono hno.categories) fun _ hus => hus⟩
      | unlinkInventors patent links =>
        obtain ⟨hres, h⟩ := hat
        have hno := hno id h.touches
        exact ⟨hres, h.mono (fun _ hvs => hvs.mono hno.categories) fun _ hus => hus⟩
      | linkInventors patent links =>
        obtain ⟨hres, h⟩ := hat
        have hno := hno id h.touches
        exact ⟨hres, h.mono (fun _ hvs => hvs.mono hno.categories)
          fun _ hus => hus.mono hno.credits⟩
      | reread patent =>
        have h : Linked _ d id ws := hat
        exact h.mono (hno id h.written.touches)
      | commit patent record =>
        have h : Linked _ d id ws := hat
        exact h.mono (hno id h.written.touches)
      | _ => exact hat
    | _ => trivial
  | _ => trivial

end Step

section Tx

variable {J : Nat → Loc → Patent → Prop} {cfg : Config} {reqs : Nat → Request} {p q : Nat} {d : Db}
  {ws vs : List Write} {log : List (Nat × List Write)} {id : Nat}

theorem relinks_of_linkOf {w : Write} (h : w.linkOf = some id) : w.relinks = some id := by
  cases w <;> first | exact h | nomatch h

theorem touches_of_linkOf {w : Write} (h : w.linkOf = some id) : w.touches = none := by
  cases w <;> first | rfl | nomatch h

/-- A transaction changes links of one patent only, whose row it writes or deletes. -/
inductive Rewrites (d : Db) (ws : List Write) : Prop
  | put {new : Patent} (htouch : ∃ w ∈ ws, w.touches = some new.id)
      (hlinks : ∀ w ∈ ws, w.relinks = none ∨ w.relinks = some new.id)
      (hrow : (after d ws).patents = d.patents.put new) : Rewrites d ws
  | delete {old : Patent} (hws : ws = [.deletePatent old]) : Rewrites d ws

/-- A committed transaction touches the links of the one patent it writes. -/
theorem PatentTx.rewrites (htx : PatentTx J reqs p d log ws) : Rewrites d ws := by
  cases htx with
  | @create user input id now ls hreq hid hunused hfree hls =>
    -- links are no rows of PATENT
    refine @Rewrites.put d _ (draftOf user input id now) ⟨_, List.mem_cons_self, rfl⟩
      (fun w hw => ?_) (tables_of_insert hls).1
    rcases List.mem_cons.mp hw with rfl | hw
    · exact Or.inl rfl
    · exact Or.inr (relinks_of_linkOf (hls w hw))
  | @update user id updates links ids now ls patent old hreq hlands hknown hfree hls =>
    refine @Rewrites.put d _ (edited updates patent.toPatent old now) ⟨_, List.mem_cons_self, rfl⟩
      (fun w hw => ?_) (tables_of_update hls).1
    rcases List.mem_cons.mp hw with rfl | hw
    · exact Or.inl rfl
    · exact Or.inr (relinks_of_linkOf (hlands.id ▸ hls w hw))
  | @submit user id old now hreq hlands =>
    refine @Rewrites.put d _ (transitioned .submit stampSubmitted now old)
      ⟨_, List.mem_cons_self, rfl⟩ (fun w hw => Or.inl ?_) rfl
    obtain rfl := List.mem_singleton.mp hw
    rfl
  | @review action admin id comments before old now record n now' o events hdec hrecord hreview
      hevents =>
    obtain ⟨hpatents, -, -⟩ := eventsOf_announces hevents
      (after d [.updatePatent old (transitioned action stampReviewed now old),
        .insertReview (reviewRow admin id action comments n now')]) rfl rfl id
    refine @Rewrites.put d _ (transitioned action stampReviewed now old)
      ⟨_, List.mem_cons_self, rfl⟩ (fun w hw => Or.inl ?_) hpatents
    rcases mem_decision hevents hw with rfl | rfl | ⟨e, rfl, -⟩
    · rfl
    · rfl
    · rfl
  | @delete user id old hreq hlands => exact .delete rfl

/-- A transaction that leaves the row of a patent alone leaves its links alone. -/
theorem Rewrites.ofPatent {R : Type} {key : R → Nat × Nat} {T : LinkTable key} (h : Rewrites d ws)
    (hkeeps : ∀ w ∈ ws, w.touches ≠ some id) : T.ofPatent (after d ws) id = T.ofPatent d id := by
  refine LinkTable.ofPatent_after fun w hw hlink => ?_
  cases h with
  | put htouched hlinks =>
    obtain ⟨v, hv, hvtouch⟩ := htouched
    rcases hlinks w hw with hnone | hsome
    · rw [hnone] at hlink
      nomatch hlink
    · exact hkeeps v hv (hvtouch.trans (hsome.symm.trans hlink))
  | delete hws =>
    subst hws
    obtain rfl := List.mem_singleton.mp hw
    exact hkeeps _ hw hlink

/-- Transactions with disjoint locks change the links of different patents. -/
theorem PatentTx.keepsLinks {R : Type} {key : R → Nat × Nat} {T : LinkTable key}
    (htx : PatentTx J reqs q d log vs) (hap : (patents cfg reqs).Apart ws vs)
    (htouch : ∃ w ∈ ws, w.touches = some id) : T.ofPatent (after d vs) id = T.ofPatent d id := by
  obtain ⟨w, hw, hwtouch⟩ := htouch
  exact htx.rewrites.ofPatent fun v hv => touches_ne hap hw hv hwtouch

/-- Nobody adds links to a patent whose row somebody else has locked. -/
theorem PatentTx.noNewLinks (htx : PatentTx J reqs q d log vs)
    (hap : (patents cfg reqs).Apart ws vs) (htouch : ∃ w ∈ ws, w.touches = some id) :
    NoNewLinks d (after d vs) id :=
  ⟨LinkTable.noNewLinks_of_ofPatent (htx.keepsLinks hap htouch),
    LinkTable.noNewLinks_of_ofPatent (htx.keepsLinks hap htouch)⟩

/-- Links keep belonging to patents. -/
theorem PatentTx.owned {R : Type} {key : R → Nat × Nat} {T : LinkTable key}
    (htx : PatentTx J reqs p d log ws) (h : T.Owned d) : T.Owned (after d ws) := by
  intro l hl
  cases htx.rewrites with
  | @put new htouched hlinks hrow =>
    by_cases hid : new.id = (key l).1
    · exact ⟨new, hrow ▸ Table.mem_put.mpr (Or.inl rfl), hid⟩
    · have hsame : T.ofPatent (after d ws) (key l).1 = T.ofPatent d (key l).1 := by
        refine LinkTable.ofPatent_after fun w hw hlink => ?_
        rcases hlinks w hw with hnone | hsome
        · nomatch hnone.symm.trans hlink
        · exact hid (Option.some.inj (hsome.symm.trans hlink))
      have hl : l ∈ T.ofPatent d (key l).1 := hsame ▸ T.mem_ofPatent.mpr ⟨hl, rfl⟩
      obtain ⟨row, hmem, hrowid⟩ := h l (T.mem_ofPatent.mp hl).1
      exact ⟨row, hrow ▸ Table.mem_put.mpr (Or.inr ⟨hmem, fun he => hid (he.symm.trans hrowid)⟩),
        hrowid⟩
  | @delete old hws =>
    subst hws
    have hl : l ∈ T.table (apply d (.deletePatent old)) := hl
    rw [T.apply_cascade, Table.mem_deleteWhere] at hl
    obtain ⟨row, hmem, hrowid⟩ := h l hl.1
    refine ⟨row, Table.mem_erase.mpr ⟨hmem, fun he => ?_⟩, hrowid⟩
    have hne : (key l).1 ≠ old.id := by simpa using hl.2
    exact hne (hrowid.symm.trans he)

/-! ## The links after a transaction -/

/-- **After a create or an edit the links are those of its request**, or the old ones where the
    request supplies none. -/
theorem Linked.after {r : Request} (h : Linked r d id ws) :
    categoryLinks.ofPatent (after d ws) id =
      (setsCategories r id).getD (categoryLinks.ofPatent d id) ∧
    credits.ofPatent (after d ws) id = (setsCredits r id).getD (credits.ofPatent d id) := by
  obtain ⟨⟨w, vs, us, rfl, -, hrelinks, hvs, hus⟩, -⟩ := h
  have hafter : after d (w :: (vs ++ us)) = after (after (apply d w) vs) us := List.foldl_append
  have hfirst : ∀ {R : Type} {key : R → Nat × Nat} (T : LinkTable key),
      T.table (apply d w) = T.table d := by
    intro R key T
    have hforeign : T.Foreign w := LinkTable.foreign_of_relinks hrelinks
    exact T.apply_other d w hforeign.insert hforeign.delete hforeign.cascade
  have hcategories := hvs.ofPatent (hfirst categoryLinks)
  have hcredits : credits.table (PatentService.after (apply d w) vs) = credits.table d :=
    (LinkTable.table_after_foreign (hvs.foreign foreign_credits)).trans (hfirst credits)
  have hkept : categoryLinks.table (PatentService.after (PatentService.after (apply d w) vs) us) =
      categoryLinks.table (PatentService.after (apply d w) vs) :=
    LinkTable.table_after_foreign (hus.foreign foreign_categoryLinks)
  rw [hafter]
  refine ⟨?_, hus.ofPatent hcredits⟩
  rw [LinkTable.ofPatent, hkept]
  exact hcategories

/-- What is known of the links that a transaction of request `r` writes. -/
def LinkTx (r : Request) (d : Db) (ws : List Write) : Prop :=
  match r with
  | .createPatent _ _ => ∃ id, Linked r d id ws
  | .updatePatent _ id _ => Linked r d id ws
  | _ => True

/-- What a transaction of request `r` does to the links of patent `id`. -/
inductive LinkEffect (r : Request) (d : Db) (ws : List Write) (id : Nat) : Prop
  | other (hreq : r.subject ≠ some id)
      (hcategories : categoryLinks.ofPatent (after d ws) id = categoryLinks.ofPatent d id)
      (hcredits : credits.ofPatent (after d ws) id = credits.ofPatent d id)
  | writes (hreq : r.subject = some id ∨
        ∃ user input, r = .createPatent user input ∧ d.patents.get? id = none)
      (hcategories : categoryLinks.ofPatent (after d ws) id =
        (setsCategories r id).getD (categoryLinks.ofPatent d id))
      (hcredits : credits.ofPatent (after d ws) id =
        (setsCredits r id).getD (credits.ofPatent d id))
      (hordered : ∀ rows, setsCredits r id = some rows →
        contiguous (rows.map PatentInventor.inventorOrder) = true)
  | delete {user} (hreq : r = .deletePatent user id)
      (hcategories : categoryLinks.ofPatent (after d ws) id = [])
      (hcredits : credits.ofPatent (after d ws) id = [])

/-- A transition writes no link. -/
theorem linkEffect_transition {r : Request} (hreq : r.subject = some id)
    (hcategories : setsCategories r id = none) (hcredits : setsCredits r id = none)
    (hnone : ∀ w ∈ ws, w.relinks = none) : LinkEffect r d ws id := by
  have hother : ∀ w ∈ ws, w.relinks ≠ some id := fun w hw => by rw [hnone w hw]; nofun
  refine .writes (Or.inl hreq) ?_ ?_ ?_
  · rw [hcategories]
    exact LinkTable.ofPatent_after hother
  · rw [hcredits]
    exact LinkTable.ofPatent_after hother
  · rw [hcredits]
    nofun

/-- A review sets no links. -/
theorem setsCredits_of_reviews {r : Request} {action : Action} {admin : Caller} {id : Nat}
    {comments : Option String} (h : Reviews r action admin id comments) (id' : Nat) :
    setsCategories r id' = none ∧ setsCredits r id' = none := by
  cases h <;> exact ⟨rfl, rfl⟩

/-- A transaction about a patent writes its row. -/
theorem PatentTx.touches_of_subject (htx : PatentTx J reqs p d log ws)
    (h : (reqs p).subject = some id) : ∃ w ∈ ws, w.touches = some id := by
  cases htx with
  | create hreq =>
    rw [hreq] at h
    nomatch h
  | update hreq hlands =>
    rw [hreq] at h
    exact ⟨_, List.mem_cons_self, (congrArg some hlands.id).trans h⟩
  | submit hreq hlands =>
    rw [hreq] at h
    exact ⟨_, List.mem_cons_self, (congrArg some hlands.id).trans h⟩
  | review hdec =>
    exact ⟨_, List.mem_cons_self, (congrArg some hdec.lands.id).trans (hdec.req.subject ▸ h)⟩
  | delete hreq hlands =>
    rw [hreq] at h
    exact ⟨_, List.mem_cons_self, (congrArg some hlands.id).trans h⟩

/-- A transaction writes the row of a new patent, or of the one that its request names. -/
theorem PatentTx.touched (htx : PatentTx J reqs p d log ws)
    (htouch : ∃ w ∈ ws, w.touches = some id) :
    (∃ user input, reqs p = .createPatent user input) ∨
      ((reqs p).subject = some id ∧ ∃ old ∈ d.patents, old.id = id) := by
  obtain ⟨w, hw, htouch⟩ := htouch
  cases htx with
  | create hreq => exact Or.inl ⟨_, _, hreq⟩
  | @update user id' updates links ids now ls patent old hreq hlands hknown hfree hls =>
    -- only the UPDATE touches a patent
    obtain rfl : old.id = id := by
      rcases List.mem_cons.mp hw with rfl | hw
      · exact Option.some.inj htouch
      · nomatch (touches_of_linkOf (hls w hw)).symm.trans htouch
    exact Or.inr ⟨by rw [hreq, hlands.id]; rfl, old, hlands.mem, rfl⟩
  | @submit user id' old now hreq hlands =>
    obtain rfl := List.mem_singleton.mp hw
    obtain rfl : old.id = id := Option.some.inj htouch
    exact Or.inr ⟨by rw [hreq, hlands.id]; rfl, old, hlands.mem, rfl⟩
  | @review action admin id' comments before old now record n now' o events hdec hrecord hreview
      hevents =>
    obtain rfl : old.id = id := by
      rcases mem_decision hevents hw with rfl | rfl | ⟨e, rfl, -⟩
      · exact Option.some.inj htouch
      · nomatch htouch
      · nomatch htouch
    exact Or.inr ⟨by rw [hdec.req.subject, hdec.lands.id], old, hdec.lands.mem, rfl⟩
  | @delete user id' old hreq hlands =>
    obtain rfl := List.mem_singleton.mp hw
    obtain rfl : old.id = id := Option.some.inj htouch
    exact Or.inr ⟨by rw [hreq, hlands.id]; rfl, old, hlands.mem, rfl⟩

/-- The row that a create or an edit has written is that of the patent it has linked. -/
theorem PatentTx.linked_create {user : Caller} {input : CreateInput}
    (htx : PatentTx J reqs p d log ws) (hreq : reqs p = .createPatent user input)
    (hlinks : LinkTx (reqs p) d ws) (htouch : ∃ w ∈ ws, w.touches = some id) :
    Linked (reqs p) d id ws ∧ d.patents.get? id = none := by
  obtain ⟨w, hw, htouch⟩ := htouch
  cases htx with
  | @create user' input' id' now ls hreq' hid hunused hfree hls =>
    rw [hreq] at hlinks ⊢
    obtain ⟨id₀, hlinked⟩ := hlinks
    obtain rfl : id' = id := by
      rcases List.mem_cons.mp hw with rfl | hw
      · exact Option.some.inj htouch
      · nomatch (touches_of_linkOf (hls w hw)).symm.trans htouch
    obtain rfl : id₀ = id' := by
      obtain ⟨⟨v, vs, us, hws, hvtouch, -⟩, -⟩ := hlinked
      obtain ⟨rfl, -⟩ := List.cons.inj hws
      exact (Option.some.inj hvtouch).symm
    exact ⟨hlinked, Table.get?_eq_none.mpr hid⟩
  | update hreq' => nomatch hreq.symm.trans hreq'
  | submit hreq' => nomatch hreq.symm.trans hreq'
  | review hdec =>
    have hreviews := hdec.req
    rw [hreq] at hreviews
    nomatch hreviews
  | delete hreq' => nomatch hreq.symm.trans hreq'

/-- **Every transaction has one of the three effects on the links of every patent.** -/
theorem PatentTx.links (htx : PatentTx J reqs p d log ws) (hlinks : LinkTx (reqs p) d ws)
    (id : Nat) : LinkEffect (reqs p) d ws id := by
  by_cases hkeeps : ∀ w ∈ ws, w.touches ≠ some id
  -- not touched: the request is about another patent
  · refine .other (fun hsubject => ?_) (htx.rewrites.ofPatent hkeeps) (htx.rewrites.ofPatent hkeeps)
    obtain ⟨w, hw, htouch⟩ := htx.touches_of_subject hsubject
    exact hkeeps w hw htouch
  · simp only [not_forall, not_not] at hkeeps
    obtain ⟨w, hw, htouch⟩ := hkeeps
    have hcreate : ∀ {user input}, reqs p = .createPatent user input →
        Linked (reqs p) d id ws ∧ d.patents.get? id = none :=
      fun hreq => htx.linked_create hreq hlinks ⟨w, hw, htouch⟩
    cases htx with
    | @create user input id' now ls hreq hid hunused hfree hls =>
      obtain ⟨hlinked, hnone⟩ := hcreate hreq
      obtain ⟨hcategories, hcredits⟩ := hlinked.after
      exact .writes (Or.inr ⟨user, input, hreq, hnone⟩) hcategories hcredits hlinked.ordered
    | @update user id' updates links ids now ls patent old hreq hlands hknown hfree hls =>
      rw [hreq] at hlinks ⊢
      have hlinked : Linked _ d id' _ := hlinks
      obtain rfl : id' = id := by
        rcases List.mem_cons.mp hw with rfl | hw
        · exact hlands.id.symm.trans (Option.some.inj htouch)
        · nomatch (touches_of_linkOf (hls w hw)).symm.trans htouch
      obtain ⟨hcategories, hcredits⟩ := hlinked.after
      exact .writes (Or.inl rfl) hcategories hcredits hlinked.ordered
    | @submit user id' old now hreq hlands =>
      obtain rfl := List.mem_singleton.mp hw
      obtain rfl : id' = id := hlands.id.symm.trans (Option.some.inj htouch)
      rw [hreq]
      refine linkEffect_transition rfl rfl rfl fun v hv => ?_
      obtain rfl := List.mem_singleton.mp hv
      rfl
    | @review action admin id' comments before old now record n now' o events hdec hrecord hreview
        hevents =>
      obtain rfl : id' = id := by
        rcases mem_decision hevents hw with rfl | rfl | ⟨e, rfl, -⟩
        · exact hdec.lands.id.symm.trans (Option.some.inj htouch)
        · nomatch htouch
        · nomatch htouch
      obtain ⟨hcategories, hcredits⟩ := setsCredits_of_reviews hdec.req id'
      refine linkEffect_transition hdec.req.subject hcategories hcredits fun v hv => ?_
      rcases mem_decision hevents hv with rfl | rfl | ⟨e, rfl, -⟩
      · rfl
      · rfl
      · rfl
    | @delete user id' old hreq hlands =>
      obtain rfl := List.mem_singleton.mp hw
      obtain rfl : id' = id := hlands.id.symm.trans (Option.some.inj htouch)
      -- the links go with the patent
      have hnone : ∀ {R : Type} {key : R → Nat × Nat} (T : LinkTable key),
          T.ofPatent (after d [.deletePatent old]) id' = [] := by
        intro R key T
        refine List.eq_nil_iff_forall_not_mem.mpr fun l hl => ?_
        obtain ⟨hl, hid⟩ := T.mem_ofPatent.mp hl
        have hl : l ∈ T.table (apply d (.deletePatent old)) := hl
        rw [T.apply_cascade, Table.mem_deleteWhere] at hl
        have hne : (key l).1 ≠ old.id := by simpa using hl.2
        exact hne (hid.trans hlands.id.symm)
      exact .delete hreq (hnone categoryLinks) (hnone credits)

/-- The links of a patent that a transaction is not about. -/
theorem LinkEffect.other_kept {r : Request} {row : Patent} (h : LinkEffect r d ws id)
    (hreq : r.subject ≠ some id) (hold : d.patents.get? id = some row) :
    (after d ws).categoryLinksOf id = d.categoryLinksOf id ∧
      (after d ws).creditsOf id = d.creditsOf id := by
  cases h with
  | other _ hcategories hcredits => exact ⟨hcategories, creditsOf_congr hcredits⟩
  | writes hreq' =>
    rcases hreq' with hsubject | ⟨_, _, -, hnone⟩
    · exact absurd hsubject hreq
    · nomatch hnone.symm.trans hold
  | delete hreq' =>
    rw [hreq'] at hreq
    exact absurd rfl hreq

/-- A decision keeps the links. -/
theorem LinkEffect.review_kept {r : Request} {action : Action} {admin : Caller}
    {comments : Option String} (h : LinkEffect r d ws id)
    (hreq : Reviews r action admin id comments) :
    (after d ws).categoryLinksOf id = d.categoryLinksOf id ∧
      (after d ws).creditsOf id = d.creditsOf id := by
  cases h with
  | other _ hcategories hcredits => exact ⟨hcategories, creditsOf_congr hcredits⟩
  | writes _ hcategories hcredits =>
    obtain ⟨hcats, hcreds⟩ := setsCredits_of_reviews hreq id
    rw [hcats] at hcategories
    rw [hcreds] at hcredits
    exact ⟨hcategories, creditsOf_congr hcredits⟩
  | delete hreq' =>
    rw [hreq'] at hreq
    nomatch hreq

end Tx

/-! ## The layer -/

section Layer

variable {J : Nat → Loc → Patent → Prop} {cfg : Config} {reqs : Nat → Request} {p q : Nat} {l : Loc}
  {b : Base Db Ext Write} {ws vs : List Write}

/-- Links belong to patents. -/
structure LinkInv (b : Base Db Ext Write) : Prop where
  categories : categoryLinks.Owned b.db
  credits : credits.Owned b.db

/-- **Step lemma.** Every statement keeps what is known of the links. -/
theorem linkAt_of_code {f : Oracle → Db → Ext → Outcome} {o : Oracle}
    (hcode : code cfg reqs p l = .auto f ∨ code cfg reqs p l = .stmt f) (hinv : Inv b)
    (hat : At J reqs p l b ws) (hinv₂ : LinkInv b) (hat₂ : LinkAt (reqs p) l b.db ws) :
    LinkAt (reqs p) (f o (after b.db ws) b.world).2.2 b.db
      (ws ++ (f o (after b.db ws) b.world).1) := by
  refine linkAt_move (move_of_code hcode) hat₂ (fun links ids hl => ?_) fun patent links ids hl => ?_
  · subst hl
    exact ⟨hat, hinv₂.categories, hinv₂.credits, fun row hrow => Nat.ne_of_lt (hinv.id_lt hrow)⟩
  · subst hl
    exact hat

/-- At a commit the transaction is complete. -/
theorem linkTx_of_commit {l' : Loc} (hcode : code cfg reqs p l = .commit l')
    (hat : LinkAt (reqs p) l b.db ws) : LinkTx (reqs p) b.db ws := by
  cases executes_of_code hcode nofun with
  | @create user input c hreq hi =>
    rw [hreq] at hat ⊢
    cases c with
    | commit record => exact hat
    | _ => nomatch hi
  | @update user id updates u hreq hi =>
    rw [hreq] at hat ⊢
    cases u with
    | commit patent record => exact hat
    | _ => nomatch hi
  | submit hreq =>
    rw [hreq]
    trivial
  | review hreq =>
    generalize reqs p = r at hreq ⊢
    cases hreq <;> trivial
  | delete hreq =>
    rw [hreq]
    trivial
  | start hi => nomatch hi
  | discard hi => nomatch hi
  | throwing hi => nomatch hi

/-- After a commit nothing is pending. -/
theorem linkAt_of_commit {l' : Loc} {d : Db} (hcode : code cfg reqs p l = .commit l') :
    LinkAt (reqs p) l' d [] := by
  rcases next_of_code_commit hcode with ⟨reply, rfl⟩ | ⟨key, reply, rfl⟩
  · exact linkAt_done reply
  · cases reqs p <;> trivial

/-- **The layer of links.** -/
theorem linkLayer (J : Nat → Loc → Patent → Prop) (cfg : Config) (reqs : Nat → Request) :
    Layer (patents cfg reqs) (Landing J reqs) Inv (At J reqs) (PatentTx J reqs) LinkInv
      (fun p l b ws => LinkAt (reqs p) l b.db ws) (fun p d _ ws => LinkTx (reqs p) d ws)
      (fun _ _ => True) where
  stmt := fun hcode _ hinv hat hinv₂ hat₂ =>
    ⟨trivial, ⟨hinv₂.categories, hinv₂.credits⟩,
      linkAt_of_code (Or.inr hcode) hinv hat hinv₂ hat₂⟩
  auto := by
    intro p l f b o hcode _ hinv hat hinv₂ hat₂
    have hnone := (auto_quiet (J := J) hcode o b.db b.world).none
    have hnext := linkAt_of_code (o := o) (Or.inl hcode) hinv hat hinv₂ hat₂
    refine ⟨trivial, Or.inl ⟨hnone, ⟨hinv₂.categories, hinv₂.credits⟩, ?_⟩⟩
    rw [List.nil_append] at hnext
    have hwrites : (f o (after b.db []) b.world).1 = [] := hnone
    rwa [hwrites] at hnext
  commit := fun hcode _ _ _ htx hinv₂ hat₂ =>
    ⟨⟨htx.owned hinv₂.categories, htx.owned hinv₂.credits⟩, linkTx_of_commit hcode hat₂,
      linkAt_of_commit hcode⟩
  rollback := by
    intro p l l' b ws hcode _
    obtain ⟨e, rfl⟩ := eq_of_rollback hcode
    exact linkAt_done _
  fail := fun _ => linkAt_done _
  env := fun _ hinv₂ => ⟨trivial, hinv₂.categories, hinv₂.credits⟩
  world := fun _ hat => hat
  other := fun _ _ _ htx _ hat₂ _ hap => linkAt_mono hat₂ fun _ htouch => htx.noNewLinks hap htouch

variable {users : Table User User.id} {inventors : Table Inventor Inventor.id}
  {categories : Table Category Category.id} {σ : State Db Ext Write Loc}

/-- **Every run**: the log is a serial execution of transactions whose links are known. -/
theorem linked_of_run
    (hrun : Run (patents cfg reqs).step (Machine.localOk (Landing J reqs))
      (init users inventors categories) σ) :
    (patents cfg reqs).Serial
      (fun p d log ws => PatentTx J reqs p d log ws ∧ LinkTx (reqs p) d ws)
      (init users inventors categories).base.db σ.base.log := by
  refine (layered_of_run (linkLayer J cfg reqs) ⟨?_, ?_⟩ (fun p => ?_) hrun).serial
  · exact fun l hl => absurd hl (Table.not_mem_empty l)
  · exact fun l hl => absurd hl (Table.not_mem_empty l)
  · cases reqs p <;> trivial

/-- **The rule for what follows a state**: `P d more` is about the transactions `more` that commit
    after `σ`. -/
theorem since {σ' : State Db Ext Write Loc} {more : List (Nat × List Write)}
    {Tx : Nat → Db → List (Nat × List Write) → List Write → Prop}
    (P : Db → List (Nat × List Write) → Prop)
    (hserial : (patents cfg reqs).Serial Tx (init users inventors categories).base.db σ'.base.log)
    (hrun : Run (patents cfg reqs).step (Machine.localOk (Landing J reqs))
      (init users inventors categories) σ)
    (hlater : Run (patents cfg reqs).step (Machine.localOk (Landing J reqs)) σ σ')
    (hlog : σ'.base.log = σ.base.log ++ more)
    (htx : ∀ {d more p ws}, P d more → Tx p d (σ.base.log ++ more) ws →
      P (after d ws) (more ++ [(p, ws)]))
    (hσ : P σ.base.db []) : P σ'.base.db more := by
  rw [(holds_of_run (hrun.trans hlater)).replay, hlog]
  rw [hlog] at hserial
  rw [(holds_of_run hrun).replay] at hσ
  exact hserial.since htx hσ

end Layer

end SmartPatents.PatentService
