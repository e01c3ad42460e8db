/-
  The checks of `relations.js`, said as what they mean.

  `findDuplicates` walks the list with two sets, `findMissingIds` compares texts of ids, and the order
  of the inventors is sorted and compared with 1, 2, …, N position by position.  Taken together they
  accept a list of inventors if and only if it names distinct, existing inventors and its orders, if
  it gives any, are a permutation of 1..N (`resolveInventorLinks_iff`).

  The way there has one lemma for each check: `ranked_iff` for the two about the order,
  `explicit_iff` for the rule that all entries give an order or none does, `exist_iff` for the
  ids.  Ids are texts without leading zeros (`Canonical`) that denote numbers in the range of
  BIGINT, which the validation of the route sees to; what other spellings do is the subject of
  `IdSpellings`.

  `findDuplicates` and `findMissingIds` are loops, and each has a lemma that says what its result
  being empty means.  So the proof of the main result never looks at a loop: it compares
  `Checked`, the four checks as the function makes them, with `Ranking`.
-/
import SmartPatents.CreditLists

namespace SmartPatents.Relations

open PatentService CreditLists

/-! ## Digits -/

/-- `BigInt` reads what `String` writes. -/
@[simp] theorem bigInt_toString (n : Nat) : bigInt (toString n) = n := by
  have hdigits : bigInt (toString n) = Nat.ofDigitChars 10 (toString n).toList 0 := by
    simp only [bigInt, Nat.ofDigitChars_eq_foldl, Nat.mul_comm]
  rw [hdigits, Nat.toString_eq_ofList_toDigits, String.toList_ofList, Nat.ofDigitChars_ten_toDigits]

/-- Numbers with the same text are the same. -/
theorem toString_inj {m n : Nat} : toString m = toString n ↔ m = n := by
  refine ⟨fun h => ?_, fun h => h ▸ rfl⟩
  rw [← bigInt_toString m, h, bigInt_toString]

/-! ## Duplicates -/

/-- The loop notes a value that it has seen, by induction on the values. -/
theorem foldl_noteDuplicate {values : List String} : ∀ {seen duplicates : List String},
    (values.foldl noteDuplicate (seen, duplicates)).2 = [] ↔
      duplicates = [] ∧ values.Nodup ∧ ∀ v ∈ values, v ∉ seen := by
  induction values with
  | nil => simp
  | cons value rest ih =>
    intro seen duplicates
    rw [List.foldl_cons]
    by_cases hseen : value ∈ seen
    -- a duplicate is noted, and stays
    · have hnote : (noteDuplicate (seen, duplicates) value).2 ≠ [] := by
        simp only [noteDuplicate, hseen, if_true]
        split
        · rename_i hmem
          exact List.ne_nil_of_mem hmem
        · simp
      refine iff_of_false (fun h => ?_) fun h => h.2.2 value List.mem_cons_self hseen
      exact hnote (ih.mp h).1
    · simp only [noteDuplicate, hseen, if_false]
      rw [ih]
      simp only [List.nodup_cons, List.mem_cons, not_or, forall_eq_or_imp]
      constructor
      · rintro ⟨hnil, hnodup, hnew⟩
        exact ⟨hnil, ⟨fun hmem => (hnew value hmem).1 rfl, hnodup⟩, hseen, fun v hv => (hnew v hv).2⟩
      · rintro ⟨hnil, ⟨hmem, hnodup⟩, -, hnew⟩
        exact ⟨hnil, hnodup, fun v hv => ⟨fun heq => hmem (heq ▸ hv), hnew v hv⟩⟩

/-- `findDuplicates` finds nothing in a list without duplicates, and only there. -/
theorem findDuplicates_eq_nil {values : List String} :
    findDuplicates values = [] ↔ values.Nodup := by
  rw [findDuplicates, foldl_noteDuplicate]
  simp

/-! ## Missing ids -/

/-- `findMissingIds` finds nothing if every id is that of a row, and only then. -/
theorem findMissingIds_eq_nil {R : Type} {rows : List R} {id : R → Nat} {ids : List Nat} :
    findMissingIds rows id ids = [] ↔ ∀ i ∈ ids, ∃ r ∈ rows, id r = i := by
  have hknown : ∀ i ∈ ids, toString i ∈ ((rows.filter fun r => ids.contains (id r)).map
      fun r => toString (id r)) ↔ ∃ r ∈ rows, id r = i := by
    intro i hi
    simp only [List.mem_map, List.mem_filter, List.contains_iff_mem, toString_inj]
    constructor
    · rintro ⟨r, ⟨hr, -⟩, hid⟩
      exact ⟨r, hr, hid⟩
    · rintro ⟨r, hr, rfl⟩
      exact ⟨r, ⟨hr, hi⟩, rfl⟩
  rw [findMissingIds, List.filter_eq_nil_iff]
  simp only [List.mem_map, forall_exists_index, and_imp, forall_apply_eq_imp_iff₂, Bool.not_eq_true,
    Bool.not_eq_false', List.contains_iff_mem]
  simpa only [List.mem_map] using forall₂_congr hknown

/-! ## The order -/

/-- The orders counted up are in order. -/
theorem pairwise_oneTo (n : Nat) : (oneTo n).Pairwise (· ≤ ·) := by
  rw [oneTo, List.pairwise_map]
  exact List.pairwise_lt_range.imp fun h => by omega

/-- Sorting and comparing with 1..N decides whether the orders are a permutation of 1..N. -/
theorem contiguous_iff {orders : List Int} :
    contiguous orders = true ↔ orders.Perm (oneTo orders.length) := by
  refine ⟨perm_of_contiguous, fun hperm => ?_⟩
  have hsorted : orders.insertionSort (· ≤ ·) = oneTo orders.length :=
    ((List.perm_insertionSort _ orders).trans hperm).eq_of_pairwise
      (fun a b _ _ hab hba => Int.le_antisymm hab hba)
      (List.pairwise_insertionSort _ orders) (pairwise_oneTo _)
  rw [contiguous, hsorted, List.all_eq_true]
  intro b hb
  obtain ⟨i, hi, rfl⟩ := List.mem_iff_getElem.mp hb
  simp [oneTo]

/-! ## `resolveInventorLinks` -/

/-- An id as `String` writes it: no leading zeros. -/
def Canonical (text : String) : Prop := ∃ n : Nat, text = toString n

/-- The list names distinct inventors that exist, and its orders, if it has any, rank them. -/
structure Ranking (inventors : List InventorEntry) (d : Db) : Prop where
  distinct : (inventors.map InventorEntry.inventorId).Nodup
  exist : ∀ e ∈ inventors, ∃ row ∈ d.inventors, toString row.id = e.inventorId
  ranked : (∀ e ∈ inventors, e.order = none) ∨ ∃ orders : List Int,
    inventors.map InventorEntry.order = orders.map some ∧ orders.Perm (oneTo inventors.length)

/-- Every order is given, or none is: what the count of explicit orders decides. -/
theorem explicit_iff {inventors : List InventorEntry} :
    let explicit := (inventors.filter fun entry => entry.order.isSome).length
    (explicit = 0 ↔ ∀ e ∈ inventors, e.order = none) ∧
      (explicit = inventors.length ↔ ∀ e ∈ inventors, e.order.isSome) := by
  constructor
  · simp [List.length_eq_zero_iff, List.filter_eq_nil_iff]
  · rw [← List.countP_eq_length_filter, List.countP_eq_length]

/-- Orders that are all absent count 1, 2, …, N. -/
theorem ordersOf_of_absent {inventors : List InventorEntry}
    (h : ∀ e ∈ inventors, e.order = none) : ordersOf inventors = oneTo inventors.length := by
  refine List.ext_getElem (by simp [ordersOf, oneTo]) fun i hi hi' => ?_
  have hnone := h _ (List.getElem_mem (l := inventors) (by simpa [ordersOf] using hi))
  simp [ordersOf, oneTo, hnone]

/-- Orders that are all given are the given ones. -/
theorem ordersOf_of_given {inventors : List InventorEntry} {orders : List Int}
    (h : inventors.map InventorEntry.order = orders.map some) : ordersOf inventors = orders := by
  have hlen : inventors.length = orders.length := by simpa using congrArg List.length h
  refine List.ext_getElem (by simp [ordersOf, hlen]) fun i hi hi' => ?_
  have hat := congrArg (fun l => l[i]?) h
  have hi'' : i < inventors.length := hlen ▸ hi'
  simp only [List.getElem?_map, List.getElem?_eq_getElem hi'', List.getElem?_eq_getElem hi',
    Option.map_some, Option.some.injEq] at hat
  simp [ordersOf, hat]

/-- Entries that all name an order name a list of orders. -/
theorem exists_given {inventors : List InventorEntry} (h : ∀ e ∈ inventors, e.order.isSome) :
    ∃ orders : List Int, inventors.map InventorEntry.order = orders.map some := by
  refine ⟨inventors.map fun e => e.order.getD 0, ?_⟩
  rw [List.map_map]
  refine List.map_congr_left fun e he => ?_
  obtain ⟨order, horder⟩ := Option.isSome_iff_exists.mp (h e he)
  simp [horder]

/-- What the last two checks decide. -/
theorem ranked_iff {inventors : List InventorEntry} :
    let explicit := (inventors.filter fun entry => entry.order.isSome).length
    (¬ (explicit ≠ 0 ∧ explicit ≠ inventors.length) ∧ contiguous (ordersOf inventors) = true) ↔
      ((∀ e ∈ inventors, e.order = none) ∨ ∃ orders : List Int,
        inventors.map InventorEntry.order = orders.map some ∧
          orders.Perm (oneTo inventors.length)) := by
  intro explicit
  obtain ⟨hnone, hall⟩ := @explicit_iff inventors
  have hlen : (ordersOf inventors).length = inventors.length := by simp [ordersOf]
  rw [contiguous_iff, hlen]
  constructor
  · rintro ⟨hmixed, hperm⟩
    by_cases hzero : explicit = 0
    · exact Or.inl (hnone.mp hzero)
    · have hfull : explicit = inventors.length := by
        by_contra hne
        exact hmixed ⟨hzero, hne⟩
      obtain ⟨orders, horders⟩ := exists_given (hall.mp hfull)
      exact Or.inr ⟨orders, horders, ordersOf_of_given horders ▸ hperm⟩
  · rintro (habsent | ⟨orders, horders, hperm⟩)
    · exact ⟨fun h => h.1 (hnone.mpr habsent), ordersOf_of_absent habsent ▸ List.Perm.refl _⟩
    · refine ⟨fun h => h.2 (hall.mpr fun e he => ?_), (ordersOf_of_given horders).symm ▸ hperm⟩
      have hmem : e.order ∈ orders.map some := horders ▸ List.mem_map.mpr ⟨e, he, rfl⟩
      obtain ⟨order, -, hsome⟩ := List.mem_map.mp hmem
      rw [← hsome]
      rfl

/-- Canonical ids exist if their numbers do. -/
theorem exist_iff {inventors : List InventorEntry} {d : Db}
    (hcanonical : ∀ e ∈ inventors, Canonical e.inventorId) :
    (∀ i ∈ (inventors.map InventorEntry.inventorId).map bigInt, ∃ r ∈ d.inventors.rows, r.id = i) ↔
      ∀ e ∈ inventors, ∃ row ∈ d.inventors, toString row.id = e.inventorId := by
  simp only [List.map_map, List.mem_map, Function.comp_apply, forall_exists_index, and_imp,
    forall_apply_eq_imp_iff₂]
  refine forall₂_congr fun e he => ?_
  obtain ⟨n, hn⟩ := hcanonical e he
  rw [hn, bigInt_toString]
  exact exists_congr fun r => and_congr_right fun _ => toString_inj.symm

/-- The four checks, as the function makes them. -/
structure Checked (inventors : List InventorEntry) (d : Db) : Prop where
  distinct : (inventors.map InventorEntry.inventorId).Nodup
  exist : ∀ i ∈ (inventors.map InventorEntry.inventorId).map bigInt,
    ∃ r ∈ d.inventors.rows, r.id = i
  uniform : let explicit := (inventors.filter fun entry => entry.order.isSome).length
    ¬ (explicit ≠ 0 ∧ explicit ≠ inventors.length)
  contiguous : contiguous (ordersOf inventors) = true

/-- The function, check by check. -/
theorem resolveInventorLinks_cases (inventors : List InventorEntry) (d : Db) :
    (Checked inventors d ∧ resolveInventorLinks inventors d = .ok (requestedLinks inventors)) ∨
      (¬ Checked inventors d ∧
        ∃ message, resolveInventorLinks inventors d = .error (badRequest message)) := by
  by_cases hnil : inventors = []
  · subst hnil
    exact Or.inl ⟨⟨List.nodup_nil, fun _ h => absurd h List.not_mem_nil, fun h => h.1 rfl, rfl⟩, rfl⟩
  have hempty : inventors.isEmpty = false := by simpa using hnil
  simp only [resolveInventorLinks, hempty, Bool.false_eq_true, if_false]
  by_cases hdistinct : (inventors.map InventorEntry.inventorId).Nodup
  case neg =>
    refine Or.inr ⟨fun h => hdistinct h.distinct, _, if_pos ?_⟩
    simpa [findDuplicates_eq_nil] using hdistinct
  have hduplicates := findDuplicates_eq_nil.mpr hdistinct
  simp only [hduplicates, List.isEmpty_nil, Bool.not_true, Bool.false_eq_true, if_false]
  by_cases hexist : ∀ i ∈ (inventors.map InventorEntry.inventorId).map bigInt,
      ∃ r ∈ d.inventors.rows, r.id = i
  case neg =>
    refine Or.inr ⟨fun h => hexist h.exist, _, if_pos ?_⟩
    rw [← findMissingIds_eq_nil] at hexist
    simpa using hexist
  have hmissing := findMissingIds_eq_nil.mpr hexist
  simp only [hmissing, List.isEmpty_nil, Bool.not_true, Bool.false_eq_true, if_false]
  split
  · rename_i hmixed
    exact Or.inr ⟨fun h => h.uniform hmixed, _, rfl⟩
  · rename_i huniform
    cases horder : contiguous (ordersOf inventors) with
    | false =>
      refine Or.inr ⟨fun h => ?_, _, rfl⟩
      rw [h.contiguous] at horder
      cases horder
    | true => exact Or.inl ⟨⟨hdistinct, hexist, huniform, horder⟩, rfl⟩

/-- **Inventors are accepted exactly when they are a ranking**, and then the links are the entries in
    place; everything else is a 400.  The ids lie within BIGINT, which the validation of the route sees
    to: for a larger one the query of `findMissingIds` would fail. -/
theorem resolveInventorLinks_iff {inventors : List InventorEntry} {d : Db}
    (hcanonical : ∀ e ∈ inventors, Canonical e.inventorId) :
    ((∃ links, resolveInventorLinks inventors d = .ok links) ↔ Ranking inventors d) ∧
      (∀ links, resolveInventorLinks inventors d = .ok links →
        links.map (fun l => toString l.inventorId) = inventors.map InventorEntry.inventorId ∧
          links.map InventorLink.inventorOrder =
            inventors.mapIdx fun index e => e.order.getD (index + 1)) ∧
      ∀ e, resolveInventorLinks inventors d = .error e → e.status = 400 := by
  have hkeep : (requestedLinks inventors).map (fun l => toString l.inventorId) =
      inventors.map InventorEntry.inventorId := by
    refine List.ext_getElem (by simp [requestedLinks]) fun i hi hi' => ?_
    have hi'' : i < inventors.length := by simpa using hi'
    obtain ⟨n, hn⟩ := hcanonical _ (List.getElem_mem hi'')
    simp only [requestedLinks, List.getElem_map, List.getElem_mapIdx, hn, bigInt_toString]
  rcases resolveInventorLinks_cases inventors d with
    ⟨hchecked, hok⟩ | ⟨hnot, message, herror⟩
  · refine ⟨iff_of_true ⟨_, hok⟩ ?_, fun links h => ?_, fun e h => ?_⟩
    · exact ⟨hchecked.distinct, (exist_iff hcanonical).mp hchecked.exist,
        ranked_iff.mp ⟨hchecked.uniform, hchecked.contiguous⟩⟩
    · obtain rfl := Except.ok.inj (hok.symm.trans h)
      exact ⟨hkeep, map_inventorOrder_requestedLinks inventors⟩
    · cases hok.symm.trans h
  · refine ⟨iff_of_false ?_ fun h => ?_, fun links h => ?_, fun e h => ?_⟩
    · rintro ⟨links, h⟩
      cases herror.symm.trans h
    · obtain ⟨huniform, horder⟩ := ranked_iff.mpr h.ranked
      exact hnot ⟨h.distinct, (exist_iff hcanonical).mpr h.exist, huniform, horder⟩
    · cases herror.symm.trans h
    · obtain rfl := Except.error.inj (herror.symm.trans h)
      rfl

/-- Inventors 1 and 2, and nothing else. -/
def alphaAndBeta : Db where
  users := Table.empty
  patents := Table.empty
  reviews := Table.empty
  inventors := ⟨[⟨1, none, "Alpha", "a@example.com", none, 0⟩,
    ⟨2, none, "Beta", "b@example.com", none, 0⟩], by decide⟩
  categories := Table.empty
  patentInventors := Table.empty
  patentCategories := Table.empty
  outbox := Table.empty

/-- Beta first. -/
def betaFirst : List InventorEntry := [⟨"1", some 2⟩, ⟨"2", some 1⟩]

/-- Two inventors, the second credited first. -/
theorem resolveInventorLinks_iff_betaFirst :
    ((∃ links, resolveInventorLinks betaFirst alphaAndBeta = .ok links) ↔
        Ranking betaFirst alphaAndBeta) ∧
      (∀ links, resolveInventorLinks betaFirst alphaAndBeta = .ok links →
        links.map (fun l => toString l.inventorId) = betaFirst.map InventorEntry.inventorId ∧
          links.map InventorLink.inventorOrder =
            betaFirst.mapIdx fun index e => e.order.getD (index + 1)) ∧
      ∀ e, resolveInventorLinks betaFirst alphaAndBeta = .error e → e.status = 400 := by
  refine resolveInventorLinks_iff fun e he => ?_
  rcases List.mem_cons.mp he with rfl | he
  · exact ⟨1, rfl⟩
  · obtain rfl := List.mem_singleton.mp he
    exact ⟨2, rfl⟩

end SmartPatents.Relations
