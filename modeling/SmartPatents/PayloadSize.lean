/-
  How many bytes the event of an approval takes, and which events the relay refuses.

  The validators count characters, the body parser counts the bytes of a request, and the relay counts
  the bytes of the event as JSON: the texts of the patent, escaped once more, with the names of its
  categories and inventors.  A specification has at most 200 000 counted characters, but a character
  takes up to six bytes, so an accepted patent can have an event over `MAX_PAYLOAD_BYTES`; the relay
  is written for that case and refuses it.

    bytes of the texts           at most 716 600    over 921 600
    event                        published          refused

  Everything but the five texts takes at most 205 000 bytes (`size_le`).  Texts that take at most three
  bytes for every counted character, as those of plain characters do (`threeBytes_of_plain`), stay
  below the bound in every run (`oversized_of_run`).

  The sizes are those of `Lib.JsonText`, which counts the bytes of a text exactly as it is
  escaped.  `size_le` and `textBytes_le_size` bound a payload from both sides by its five texts;
  the columns bound the rest (`FitsColumns`).  In a run (`counted_of_run`) the texts of every
  patent and of every event are within the bounds of the validators, so what `JSON.stringify`
  makes of an event is known up to 205 000 bytes.

  `not_publishable` is a body of less than a megabyte, the limit of the parser, whose event is
  over the limit of the relay.
-/
import SmartPatents.Lib.JsonText
import SmartPatents.Lib.Dates
import SmartPatents.PatentBodies
import SmartPatents.PatentHistory
import SmartPatents.OutboxRelay

namespace SmartPatents.PayloadSize

open Json ReadCommitted Runs Outbox PatentEvents PatentService PatentBodies
open OutboxRelay (MAX_PAYLOAD_BYTES)

/-! ## The text of a payload -/

/-- One inventor of a payload, as `JSON.stringify` writes it. -/
def inventorText (i : EventInventor) : List Char :=
  objectOf
    [("id", quoted i.id),
     ("full_name", quoted i.fullName),
     ("organization", quotedOrNull i.organization),
     ("order", (toString i.order).toList)]

/-- `JSON.stringify({ ...event.payload, sequence: String(event.id) })`. -/
def payloadText : PatentEvent → Nat → List Char
  | .upserted u, sequence =>
    objectOf
      [("event_type", quoted UPSERTED),
       ("event_id", quoted u.eventId),
       ("patent_id", quoted u.patentId),
       ("version", (toString u.version).toList),
       ("title", quoted u.title),
       ("abstract", quoted u.abstract),
       ("specification", quoted u.specification),
       ("publication_number", quotedOrNull u.publicationNumber),
       ("jurisdiction", quotedOrNull u.jurisdiction),
       ("categories", arrayOf (u.categories.map quoted)),
       ("inventors", arrayOf (u.inventors.map inventorText)),
       ("document_key", quotedOrNull u.documentKey),
       ("submitted_by", quoted u.submittedBy),
       ("occurred_at", quoted (Dates.toISOString u.occurredAt)),
       ("sequence", quoted (toString sequence))]
  | .withdrawn w, sequence =>
    objectOf
      [("event_type", quoted WITHDRAWN),
       ("event_id", quoted w.eventId),
       ("patent_id", quoted w.patentId),
       ("version", (toString w.version).toList),
       ("reason", quoted w.reason),
       ("occurred_at", quoted (Dates.toISOString w.occurredAt)),
       ("sequence", quoted (toString sequence))]

/-- `Buffer.byteLength(value, 'utf8')`, the length the relay compares. -/
def byteLength (event : PatentEvent) (sequence : Nat) : Nat := size (payloadText event sequence)

/-! ## What an event is made of -/

/-- The texts of an upsert. -/
def announcedTexts (u : Upserted) : Texts where
  title := u.title
  abstract := u.abstract
  specification := u.specification
  publicationNumber := u.publicationNumber
  jurisdiction := u.jurisdiction

/-- The same texts of a row. -/
def rowTexts (p : Patent) : Texts where
  title := p.title
  abstract := p.abstract
  specification := p.specification
  publicationNumber := p.publicationNumber
  jurisdiction := p.jurisdiction

/-- The texts that are there. -/
def present (t : Texts) : List String :=
  [t.title, t.abstract, t.specification] ++ t.publicationNumber.toList ++ t.jurisdiction.toList

/-- The bytes of the texts as JSON. -/
def textBytes (t : Texts) : Nat :=
  size (quoted t.title) + size (quoted t.abstract) + size (quoted t.specification) +
    size (quotedOrNull t.publicationNumber) + size (quotedOrNull t.jurisdiction)

/-- The lists are no longer than the validators allow, and every value fits its column: a name
    `VarChar(255)`, an id `BigInt`, a number `Int`.  The store takes keys of up to 1024 bytes. -/
structure FitsColumns (u : Upserted) : Prop where
  categories : u.categories.length ≤ 20
  inventors : u.inventors.length ≤ 50
  categoryNames : ∀ name ∈ u.categories, name.length ≤ 255
  fullNames : ∀ i ∈ u.inventors, i.fullName.length ≤ 255
  organizations : ∀ i ∈ u.inventors, ∀ o, i.organization = some o → o.length ≤ 255
  inventorIds : ∀ i ∈ u.inventors, i.id.length ≤ 19
  orders : ∀ i ∈ u.inventors, -2147483648 ≤ i.order ∧ i.order ≤ 2147483647
  eventId : u.eventId.length = 36
  patentId : u.patentId.length ≤ 19
  version : u.version ≤ 2147483647
  documentKey : ∀ key, u.documentKey = some key → key.length ≤ 1024
  submittedBy : u.submittedBy.length ≤ 19
  occurredAt : u.occurredAt ≤ Dates.MAX_TIME

/-! ## Bytes -/

section Bytes

variable {u : Upserted} {sequence : Nat}

/-- The bytes of the five texts, spelled out. -/
theorem textBytes_announcedTexts (u : Upserted) : textBytes (announcedTexts u) =
    size (quoted u.title) + size (quoted u.abstract) + size (quoted u.specification) +
      size (quotedOrNull u.publicationNumber) + size (quotedOrNull u.jurisdiction) := rfl

/-- The digits of a number below `10 ^ k`. -/
theorem size_digits_le {n k : Nat} (hk : 0 < k) (h : n < 10 ^ k) :
    size (toString n).toList ≤ 4 * k := by
  have hlength : n.repr.length ≤ k := (Nat.length_repr_le_iff hk).mpr h
  have hsize := size_le_length n.repr.toList
  rw [String.length_toList] at hsize
  rw [Nat.toString_eq_repr]
  omega

/-- The text of an `Int` column. -/
theorem size_order_le {n : Int} (h : -2147483648 ≤ n ∧ n ≤ 2147483647) :
    size (toString n).toList ≤ 44 := by
  rw [Int.toString_eq_repr, Int.repr_eq_if]
  split
  · have hdigits := size_digits_le (n := n.toNat) (Nat.succ_pos 9) (by omega)
    exact hdigits.trans (by decide)
  · have hdigits := size_digits_le (n := (-n).toNat) (Nat.succ_pos 9) (by omega)
    have hsign : size "-".toList = 1 := by decide
    rw [String.toList_append, size_append, hsign]
    exact Nat.add_le_add (by decide : 1 ≤ 4) hdigits

/-- A text of bounded length has bounded size. -/
theorem size_quoted_le_of {s : String} {n : Nat} (h : s.length ≤ n) :
    size (quoted s) ≤ 6 * n + 2 :=
  (size_quoted_le s).trans (Nat.add_le_add_right (Nat.mul_le_mul_left 6 h) 2)

/-- An inventor takes 3269 bytes at most, by the columns it comes from. -/
theorem size_inventorText_le (h : FitsColumns u) {i : EventInventor} (hi : i ∈ u.inventors) :
    size (inventorText i) ≤ 3269 := by
  have hkeys : size (quoted "id") = 4 ∧ size (quoted "full_name") = 11 ∧
      size (quoted "organization") = 14 ∧ size (quoted "order") = 7 := by decide
  have hid := size_quoted_le_of (h.inventorIds i hi)
  have hname := size_quoted_le_of (h.fullNames i hi)
  have horganization : size (quotedOrNull i.organization) ≤ 6 * 255 + 2 :=
    size_quotedOrNull_le (by decide) fun o ho => size_quoted_le_of (h.organizations i hi o ho)
  have horder := size_order_le (h.orders i hi)
  rw [inventorText, size_objectOf (List.cons_ne_nil _ _)]
  simp only [fieldBytes_cons, fieldBytes_nil, hkeys]
  omega

/-- The categories of a payload: twenty names at most. -/
theorem size_categories_le (h : FitsColumns u) :
    size (arrayOf (u.categories.map quoted)) ≤ 20 * 1533 + 2 := by
  have hnames : ∀ t ∈ u.categories.map quoted, size t ≤ 6 * 255 + 2 := by
    intro t ht
    obtain ⟨name, hname, rfl⟩ := List.mem_map.mp ht
    exact size_quoted_le_of (h.categoryNames name hname)
  refine (size_arrayOf_le hnames).trans ?_
  rw [List.length_map]
  exact Nat.add_le_add_right (Nat.mul_le_mul_right 1533 h.categories) 2

/-- Its inventors: fifty at most. -/
theorem size_inventors_le (h : FitsColumns u) :
    size (arrayOf (u.inventors.map inventorText)) ≤ 50 * 3270 + 2 := by
  have hinventors : ∀ t ∈ u.inventors.map inventorText, size t ≤ 3269 := by
    intro t ht
    obtain ⟨i, hi, rfl⟩ := List.mem_map.mp ht
    exact size_inventorText_le h hi
  refine (size_arrayOf_le hinventors).trans ?_
  rw [List.length_map]
  exact Nat.add_le_add_right (Nat.mul_le_mul_right 3270 h.inventors) 2

/-- All that is not one of the five texts fits into 205000 bytes. -/
theorem size_le (h : FitsColumns u) (hsequence : sequence ≤ 9223372036854775807) :
    byteLength (.upserted u) sequence ≤ textBytes (announcedTexts u) + 205000 := by
  have hkeys : size (quoted "event_type") = 12 ∧ size (quoted "event_id") = 10 ∧
      size (quoted "patent_id") = 11 ∧ size (quoted "version") = 9 ∧ size (quoted "title") = 7 ∧
      size (quoted "abstract") = 10 ∧ size (quoted "specification") = 15 ∧
      size (quoted "publication_number") = 20 ∧ size (quoted "jurisdiction") = 14 ∧
      size (quoted "categories") = 12 ∧ size (quoted "inventors") = 11 ∧
      size (quoted "document_key") = 14 ∧ size (quoted "submitted_by") = 14 ∧
      size (quoted "occurred_at") = 13 ∧ size (quoted "sequence") = 10 := by decide
  have htype : size (quoted UPSERTED) = 23 := by decide
  have heventId := size_quoted_le_of h.eventId.le
  have hpatentId := size_quoted_le_of h.patentId
  have hversion := size_digits_le (n := u.version) (Nat.succ_pos 9)
    (Nat.lt_of_le_of_lt h.version (by decide))
  have hcategories := size_categories_le h
  have hinventors := size_inventors_le h
  have hkey : size (quotedOrNull u.documentKey) ≤ 6 * 1024 + 2 :=
    size_quotedOrNull_le (by decide) fun key hsome => size_quoted_le_of (h.documentKey key hsome)
  have hsubmittedBy := size_quoted_le_of h.submittedBy
  have htime := size_quoted_le_of (Dates.length_toISOString_le h.occurredAt)
  have hid : size (quoted (toString sequence)) ≤ 6 * 19 + 2 := by
    refine size_quoted_le_of ?_
    rw [Nat.toString_eq_repr]
    exact (Nat.length_repr_le_iff (Nat.succ_pos 18)).mpr (Nat.lt_of_le_of_lt hsequence (by decide))
  rw [textBytes_announcedTexts, byteLength, payloadText, size_objectOf (List.cons_ne_nil _ _)]
  simp only [fieldBytes_cons, fieldBytes_nil, hkeys, htype]
  omega

/-- The five texts are part of the payload. -/
theorem textBytes_le_size (u : Upserted) (sequence : Nat) :
    textBytes (announcedTexts u) ≤ byteLength (.upserted u) sequence := by
  rw [textBytes_announcedTexts, byteLength, payloadText, size_objectOf (List.cons_ne_nil _ _)]
  simp only [fieldBytes_cons]
  omega

/-- Every counted character takes at most three bytes. -/
def ThreeBytes (lib : Library) (t : Texts) : Prop :=
  ∀ s ∈ present t, size (escaped s) ≤ 3 * lib.length s

/-- Texts without control characters take three bytes a character. -/
theorem threeBytes_of_plain {lib : Library} {t : Texts}
    (hplain : ∀ s ∈ present t, ∀ c ∈ s.toList, Plain c)
    (hcount : ∀ s ∈ present t, s.length ≤ lib.length s) : ThreeBytes lib t := by
  intro s hs
  have hescaped := size_escaped_le_of fun c hc => (hplain s hs c hc).size_escape_le
  have hlength := hcount s hs
  omega

/-- Five such texts within their bounds take 631726 bytes at most. -/
theorem textBytes_le {lib : Library} {t : Texts} (hcounted : Counted lib t)
    (hbytes : ThreeBytes lib t) : textBytes t ≤ 631726 := by
  have hquoted : ∀ {s : String} {n : Nat}, s ∈ present t → lib.length s ≤ n →
      size (quoted s) ≤ 3 * n + 2 := by
    intro s n hs hlength
    have hescaped := hbytes s hs
    rw [size_quoted]
    omega
  have htitle := hquoted (by simp [present]) hcounted.title
  have habstract := hquoted (by simp [present]) hcounted.abstract
  have hspecification := hquoted (by simp [present]) hcounted.specification
  have hnumber : size (quotedOrNull t.publicationNumber) ≤ 3 * 64 + 2 :=
    size_quotedOrNull_le (by decide) fun s hs =>
      hquoted (by simp [present, hs]) (hcounted.publicationNumber s hs)
  have hjurisdiction : size (quotedOrNull t.jurisdiction) ≤ 3 * 8 + 2 :=
    size_quotedOrNull_le (by decide) fun s hs =>
      hquoted (by simp [present, hs]) (hcounted.jurisdiction s hs)
  rw [textBytes]
  omega

end Bytes

/-! ## Every run -/

/-- The texts of a patent, and of its events, are no longer than the validators allow. -/
structure CountedInv (lib : Library) (d : Db) (id : Nat) : Prop where
  row : ∀ row, d.patents.get? id = some row → Counted lib (rowTexts row)
  events : ∀ e ∈ eventsOf d id, ∀ u, e.payload = .upserted u → Counted lib (announcedTexts u)

section Run

variable {lib : Library} {bodies : Nat → Json} {cfg : Storage.Config} {reqs : Nat → Request} {p : Nat}
  {d : Db} {log : List (Nat × List Write)} {ws : List Write} {id : Nat}
  {J : Nat → Loc → Patent → Prop}

/-- A transaction that enqueues nothing. -/
theorem CountedInv.quiet (h : CountedInv lib d id)
    (hrow : ∀ row, (after d ws).patents.get? id = some row → Counted lib (rowTexts row))
    (hevents : eventsOf (after d ws) id = eventsOf d id) : CountedInv lib (after d ws) id :=
  ⟨hrow, hevents ▸ h.events⟩

/-- **Step lemma.** -/
theorem CountedInv.effect (hvalid : Validated lib bodies reqs) (h : CountedInv lib d id)
    (heff : PatentEffect J reqs p d log ws id) : CountedInv lib (after d ws) id := by
  have hbody := hvalid p
  cases heff with
  | other hreq hrow hreviews hevents => exact h.quiet (hrow ▸ h.row) hevents
  | create hreq hunused hmem hold hrow hreviews hevents =>
    rw [hreq] at hbody
    refine h.quiet (fun row hget => ?_) hevents
    obtain rfl := Option.some.inj (hrow.symm.trans hget)
    exact counted_created hbody
  | update hreq hold hstatus hknown hrow hreviews hevents =>
    rw [hreq] at hbody
    refine h.quiet (fun row hget => ?_) hevents
    obtain rfl := Option.some.inj (hrow.symm.trans hget)
    exact (h.row _ hold).edited hbody
  | submit hreq hold hstatus hrow hreviews hevents =>
    have hold := h.row _ hold
    refine h.quiet (fun row hget => ?_) hevents
    obtain rfl := Option.some.inj (hrow.symm.trans hget)
    exact hold
  | delete hreq hold hstatus hrow hreviews hevents =>
    refine h.quiet (fun row hget => ?_) hevents
    rw [hrow] at hget
    nomatch hget
  -- the event of an approval copies the texts of the row
  | @review action admin comments before now record n now' o m old hreq hold hstatus hknown hrecord
      hmem hrow hreviews hevents =>
    have hold := h.row old hold
    refine ⟨fun row hget => ?_, fun e he u hu => ?_⟩
    · obtain rfl := Option.some.inj (hrow.symm.trans hget)
      exact hold
    · rw [hevents] at he
      rcases List.mem_append.mp he with he | he
      · exact h.events e he u hu
      · obtain ⟨event, hbuild, rfl⟩ := Option.map_eq_some_iff.mp (Option.mem_toList.mp he)
        obtain rfl : event = .upserted u := hu
        obtain rfl := PatentEvent.upserted.inj (upserted_of_buildEvent hbuild)
        have hcopied : Counted lib (rowTexts record.toPatent) := by
          rw [hrecord]
          exact hold
        exact hcopied

variable {users : Table User User.id} {inventors : Table Inventor Inventor.id}
  {categories : Table Category Category.id} {σ : State Db Ext Write Loc}

theorem countedInv_init (id : Nat) :
    CountedInv lib (init users inventors categories).base.db id where
  row := fun _ hget => nomatch hget
  events := fun _ he => nomatch he

/-- **Run lemma.** -/
theorem counted_of_run (hvalid : Validated lib bodies reqs)
    (hrun : Run (patents cfg reqs).step always (init users inventors categories) σ) (id : Nat) :
    CountedInv lib σ.base.db id :=
  history id (fun d _ => CountedInv lib d id) (countedInv_init id)
    (fun h heff => h.effect hvalid heff) (landing_of_always hrun)

/-- **Which events the relay refuses.** -/
theorem oversized_of_run (hvalid : Validated lib bodies reqs)
    (hrun : Run (patents cfg reqs).step always (init users inventors categories) σ)
    {e : OutboxEvent PatentEvent} (he : e ∈ σ.base.db.outbox) {u : Upserted}
    (hu : e.payload = .upserted u) (hcolumns : FitsColumns u) (hid : e.id ≤ 9223372036854775807)
    {relay : OutboxRelay.Config PatentEvent} (hrelay : relay.byteLength = byteLength) :
    (textBytes (announcedTexts u) ≤ 716600 → OutboxRelay.oversized relay e = false) ∧
      (MAX_PAYLOAD_BYTES < textBytes (announcedTexts u) → OutboxRelay.oversized relay e = true) ∧
      (ThreeBytes lib (announcedTexts u) → OutboxRelay.oversized relay e = false) := by
  have hmax : MAX_PAYLOAD_BYTES = 921600 := by decide
  have hupper := size_le hcolumns hid
  have hlower := textBytes_le_size u e.id
  have hfits : textBytes (announcedTexts u) ≤ 716600 → OutboxRelay.oversized relay e = false := by
    intro hbytes
    rw [OutboxRelay.oversized, hrelay, hu, decide_eq_false_iff_not]
    omega
  refine ⟨hfits, fun hbytes => ?_, fun hthree => hfits ?_⟩
  · rw [OutboxRelay.oversized, hrelay, hu, decide_eq_true_eq]
    exact Nat.lt_of_lt_of_le hbytes hlower
  · have hcounted := (counted_of_run hvalid hrun e.aggregateId).events e
      (mem_eventsOf_of_run (landing_of_always hrun) he) u hu
    exact (textBytes_le hcounted hthree).trans (by decide)

end Run

/-! ## Two specifications -/

/-- `length` counts characters without the variation selectors. -/
def validatorLibrary : Library where
  trim s := String.ofList (Numeral.trim s.toList)
  toUpperCase := String.toUpper
  length s := (s.toList.filter fun c => c.toNat != 0xFE0E && c.toNat != 0xFE0F).length

/-- `jsonBodyLimit`, 1mb. -/
def JSON_BODY_LIMIT : Nat := 1024 * 1024

/-- U+0001, `n` times. -/
def controls (n : Nat) : String := String.ofList (List.replicate n (Char.ofNat 1))

/-- A body of POST /patents with this specification, and short texts otherwise. -/
def draftBody (specification : String) : Json :=
  .object
    [("title", .string "Kettle"),
     ("abstract", .string "It boils water for the tea."),
     ("specification", .string specification),
     ("documentKey", .string (keyOf "a.pdf"))]

/-- What the validation makes of `draftBody`. -/
def draftInput (specification : String) : CreateInput :=
  ⟨"Kettle", "It boils water for the tea.", specification, keyOf "a.pdf", none, none, none, none⟩

/-- Ada uploads, creates and submits; Root approves. -/
def approval (specification : String) : Nat → Request
  | 0 => .requestUpload ada "a.pdf" "application/pdf"
  | 1 => .createPatent ada (draftInput specification)
  | 2 => .submitForReview ada 1
  | _ => .approvePatent root 1 none

/-- The draft is created, submitted and approved. -/
def approved : List (Act Oracle Upload) := submitted ++ steps 3 7

/-- The event of the approval. -/
def announcement (specification : String) : Upserted where
  eventId := uuid
  patentId := toString 1
  version := 1
  title := "Kettle"
  abstract := "It boils water for the tea."
  specification := specification
  publicationNumber := none
  jurisdiction := none
  categories := []
  inventors := []
  documentKey := some (keyOf "a.pdf")
  submittedBy := toString 1
  occurredAt := 5

theorem fitsColumns_announcement (specification : String) :
    FitsColumns (announcement specification) where
  categories := Nat.zero_le 20
  inventors := Nat.zero_le 50
  categoryNames := nofun
  fullNames := nofun
  organizations := nofun
  inventorIds := nofun
  orders := nofun
  eventId := (by decide : uuid.length = 36)
  patentId := (by decide : (toString 1).length ≤ 19)
  version := (by decide : 1 ≤ 2147483647)
  documentKey := by
    intro key hkey
    obtain rfl := Option.some.inj hkey
    decide
  submittedBy := (by decide : (toString 1).length ≤ 19)
  occurredAt := (by decide : 5 ≤ Dates.MAX_TIME)

/-- The body is accepted as it is. -/
theorem createPatentValidation_draftBody {specification : String}
    (h : specificationField validatorLibrary (.string specification) = some specification) :
    createPatentValidation validatorLibrary (draftBody specification) =
      some (draftInput specification) := by
  have htitle : titleField validatorLibrary (.string "Kettle") = some "Kettle" := by decide
  have habstract : abstractField validatorLibrary (.string "It boils water for the tea.") =
      some "It boils water for the tea." := by decide
  have hkey : keyField (.string (keyOf "a.pdf")) = some (keyOf "a.pdf") := by decide
  have hget : (draftBody specification).get "title" = some (.string "Kettle") ∧
      (draftBody specification).get "abstract" = some (.string "It boils water for the tea.") ∧
      (draftBody specification).get "specification" = some (.string specification) ∧
      (draftBody specification).get "documentKey" = some (.string (keyOf "a.pdf")) ∧
      (draftBody specification).get "publicationNumber" = none ∧
      (draftBody specification).get "jurisdiction" = none ∧
      (draftBody specification).get "categoryIds" = none ∧
      (draftBody specification).get "inventors" = none := by
    simp [draftBody, Json.get]
  simp [createPatentValidation, required, PatentBodies.optional, nullable, hget, htitle, habstract, hkey, h,
    draftInput]

theorem validated_approval {specification : String}
    (h : specificationField validatorLibrary (.string specification) = some specification) :
    Validated validatorLibrary (fun _ => draftBody specification) (approval specification) := by
  intro p
  match p with
  | 0 => trivial
  | 1 => exact createPatentValidation_draftBody h
  | 2 => trivial
  | _ + 3 => trivial

/-- A specification of control characters is accepted. -/
theorem specificationField_controls {n : Nat} (hmin : 20 ≤ n) (hmax : n ≤ 200000) :
    specificationField validatorLibrary (.string (controls n)) = some (controls n) := by
  have hspace : Numeral.isSpace (Char.ofNat 1) = false := by decide
  have htrim : validatorLibrary.trim (controls n) = controls n := by
    refine congrArg String.ofList ?_
    rw [controls, String.toList_ofList]
    exact trim_of_noSpace fun c hc => (List.eq_of_mem_replicate hc) ▸ hspace
  have hlength : validatorLibrary.length (controls n) = n := by
    simp [validatorLibrary, controls]
  simp [specificationField, longTextField, textField, isLength, htrim, hlength, hmin, hmax]

/-- The specification is part of the texts. -/
theorem size_le_announcement (specification : String) :
    size (escaped specification) ≤ textBytes (announcedTexts (announcement specification)) := by
  have hquoted := size_quoted (announcement specification).specification
  have hspecification : (announcement specification).specification = specification := rfl
  rw [textBytes_announcedTexts, hquoted, hspecification]
  omega

/-- The rest of the body takes 147 bytes. -/
theorem size_draftBody (specification : String) :
    size (stringify (draftBody specification)) = size (escaped specification) + 147 := by
  have hkeys : size (quoted "title") = 7 ∧ size (quoted "abstract") = 10 ∧
      size (quoted "specification") = 15 ∧ size (quoted "documentKey") = 13 := by decide
  have htitle : size (quoted "Kettle") = 8 := by decide
  have habstract : size (quoted "It boils water for the tea.") = 29 := by decide
  have hkey : size (quoted (keyOf "a.pdf")) = 54 := by decide
  rw [draftBody, stringify, size_objectOf (by simp [stringifyFields])]
  simp only [stringifyFields, stringify, fieldBytes_cons, fieldBytes_nil, hkeys, htitle, habstract,
    hkey, size_quoted]
  omega

/-- A short specification. -/
def steam : String := "Water goes in, and steam comes out."

theorem steam_runs :
    (exec (patents pdfOnly (approval steam)).step blank approved).isSome = true := by
  decide

/-- The state once the patent with it is approved. -/
def steamApproved : State Db Ext Write Loc :=
  (exec (patents pdfOnly (approval steam)).step blank approved).get steam_runs

/-- The approval announces the patent. -/
theorem steam_announced : ∃ e, steamApproved.base.db.outbox.rows = [e] ∧
    e.payload = .upserted (announcement steam) ∧ e.id = 1 :=
  ⟨_, rfl, rfl, rfl⟩

/-- A relay with the real size of a payload. -/
def relay : OutboxRelay.Config PatentEvent := ⟨10, 5, "patent-events", byteLength⟩

/-- A plain specification is far from the limit. -/
theorem oversized_of_run_steam : ∃ e ∈ steamApproved.base.db.outbox,
    ThreeBytes validatorLibrary (announcedTexts (announcement steam)) ∧
      (textBytes (announcedTexts (announcement steam)) ≤ 716600 →
        OutboxRelay.oversized relay e = false) ∧
      (MAX_PAYLOAD_BYTES < textBytes (announcedTexts (announcement steam)) →
        OutboxRelay.oversized relay e = true) ∧
      (ThreeBytes validatorLibrary (announcedTexts (announcement steam)) →
        OutboxRelay.oversized relay e = false) := by
  obtain ⟨e, hrows, hpayload, hid⟩ := steam_announced
  have hmem : e ∈ steamApproved.base.db.outbox := by
    rw [Table.mem_def, hrows]
    exact List.mem_singleton_self e
  have hplain : ∀ s ∈ present (announcedTexts (announcement steam)), ∀ c ∈ s.toList, Plain c := by
    have hall : ((present (announcedTexts (announcement steam))).all fun s =>
        s.toList.all fun c => decide (Plain c)) = true := by decide
    simpa only [List.all_eq_true, decide_eq_true_eq] using hall
  have hthree : ThreeBytes validatorLibrary (announcedTexts (announcement steam)) :=
    threeBytes_of_plain hplain (by decide)
  have hvalid : Validated validatorLibrary (fun _ => draftBody steam) (approval steam) :=
    validated_approval (by decide)
  have hrun : Run (patents pdfOnly (approval steam)).step always blank steamApproved :=
    Run.of_exec (Option.some_get steam_runs).symm
  exact ⟨e, hmem, hthree, oversized_of_run hvalid hrun hmem hpayload (fitsColumns_announcement steam)
    (hid.le.trans (by decide)) rfl⟩

theorem controls_runs :
    (exec (patents pdfOnly (approval (controls 160000))).step blank approved).isSome = true := by
  decide

/-- The state once a patent of 160000 control characters is approved: six bytes each in JSON. -/
def controlsApproved : State Db Ext Write Loc :=
  (exec (patents pdfOnly (approval (controls 160000))).step blank approved).get controls_runs

/-- The approval announces this patent too. -/
theorem controls_announced : ∃ e, controlsApproved.base.db.outbox.rows = [e] ∧
    e.payload = .upserted (announcement (controls 160000)) ∧ e.id = 1 :=
  ⟨_, rfl, rfl, rfl⟩

/-- A request of 960 kB makes an event of more than 900 KiB. -/
theorem not_publishable :
    ¬ ∀ (lib : Library) (bodies : Nat → Json) (cfg : Storage.Config) (reqs : Nat → Request)
        (users : Table User User.id) (inventors : Table Inventor Inventor.id)
        (categories : Table Category Category.id) (σ : State Db Ext Write Loc),
      Validated lib bodies reqs → (∀ p, size (stringify (bodies p)) ≤ JSON_BODY_LIMIT) →
      Run (patents cfg reqs).step always (init users inventors categories) σ →
      ∀ e ∈ σ.base.db.outbox, ∀ u, e.payload = .upserted u → FitsColumns u →
        e.id ≤ 9223372036854775807 → byteLength e.payload e.id ≤ MAX_PAYLOAD_BYTES := by
  intro hall
  obtain ⟨e, hrows, hpayload, hid⟩ := controls_announced
  have hmem : e ∈ controlsApproved.base.db.outbox := by
    rw [Table.mem_def, hrows]
    exact List.mem_singleton_self e
  have hbytes : size (escaped (controls 160000)) = 960000 := by
    have hescape : size (escape (Char.ofNat 1)) = 6 := by decide
    rw [controls, size_escaped_replicate, hescape]
  have hlimit : size (stringify (draftBody (controls 160000))) ≤ JSON_BODY_LIMIT := by
    rw [size_draftBody, hbytes]
    decide
  have hrun : Run (patents pdfOnly (approval (controls 160000))).step always blank
      controlsApproved := Run.of_exec (Option.some_get controls_runs).symm
  have hfits := hall validatorLibrary _ pdfOnly _ accounts Table.empty Table.empty _
    (validated_approval (specificationField_controls (by decide) (by decide))) (fun _ => hlimit) hrun
    e hmem _ hpayload (fitsColumns_announcement _) (hid.le.trans (by decide))
  have hlower := textBytes_le_size (announcement (controls 160000)) e.id
  rw [← hpayload] at hlower
  have htexts := size_le_announcement (controls 160000)
  rw [hbytes] at htexts
  exact absurd (htexts.trans (hlower.trans hfits)) (by decide)

end SmartPatents.PayloadSize
