/-
  The last writer wins.

  Messages about many things arrive at a reader, each with the key of its thing and a number.  The
  reader keeps one message a key: the one with the largest number so far (`consume`).  What it ends
  up with (`project`) depends on WHICH messages arrived and on nothing else: not on their order, and
  not on how often each of them came (`project_eq_some_iff`, `project_eq_none_iff`).

  Two messages of one key and one number must be the same message (`Numbered`), or else the last
  one to arrive would win and the order would matter after all.
-/
import Mathlib.Logic.Function.Basic

namespace LastWriter

variable {K M : Type} {key : M → K} {number : M → Nat} {index : K → Option M} {ms : List M}
  {m : M} {k : K}

/-- What `index` holds is the newest of `ms` for each key. -/
structure Newest (key : M → K) (number : M → Nat) (ms : List M) (index : K → Option M) : Prop where
  held : ∀ k m, index k = some m → m ∈ ms ∧ key m = k
  newest : ∀ m ∈ ms, ∃ last, index (key m) = some last ∧ number m ≤ number last

/-- Before any message the index is empty. -/
theorem newest_nil : Newest key number [] fun _ => none := ⟨nofun, nofun⟩

/-- Two messages about one thing with one number are the same message. -/
def Numbered (key : M → K) (number : M → Nat) (ms : List M) : Prop :=
  ∀ m ∈ ms, ∀ m' ∈ ms, key m = key m' → number m = number m' → m = m'

variable [DecidableEq K]

/-- Take a message in, unless its number is below that of the message that is there. -/
def consume (key : M → K) (number : M → Nat) (index : K → Option M) (m : M) : K → Option M :=
  if (index (key m)).any fun last => number m < number last then index
  else Function.update index (key m) (some m)

/-- What a reader holds that started with nothing. -/
def project (key : M → K) (number : M → Nat) (ms : List M) : K → Option M :=
  ms.foldl (consume key number) fun _ => none

/-- A message leaves other keys alone. -/
theorem consume_of_ne (h : key m ≠ k) : consume key number index m k = index k := by
  unfold consume
  split
  · rfl
  · exact Function.update_of_ne (Ne.symm h) _ _

/-- A message that is not older than what is there replaces it. -/
theorem consume_self (h : ∀ last, index (key m) = some last → number last ≤ number m) :
    consume key number index m (key m) = some m := by
  rw [consume, if_neg, Function.update_self]
  cases hlast : index (key m) with
  | none => simp
  | some last => simpa using h last hlast

/-- **Step lemma.** -/
theorem Newest.consume (h : Newest key number ms index) (m : M) :
    Newest key number (ms ++ [m]) (consume key number index m) := by
  have hold : ∀ k last, index k = some last → last ∈ ms ++ [m] ∧ key last = k := fun k last hlast =>
    ⟨List.mem_append_left _ (h.held k last hlast).1, (h.held k last hlast).2⟩
  have hnew : m ∈ ms ++ [m] := List.mem_append_right _ (List.mem_singleton.mpr rfl)
  by_cases hbelow : ∃ last, index (key m) = some last ∧ number m < number last
  · -- the message is ignored
    obtain ⟨last, hlast, hlt⟩ := hbelow
    have hsame : LastWriter.consume key number index m = index := by
      rw [LastWriter.consume, if_pos (by simpa [hlast] using hlt)]
    rw [hsame]
    refine ⟨hold, fun m' hm' => ?_⟩
    rcases List.mem_append.mp hm' with hm' | hm'
    · exact h.newest m' hm'
    · obtain rfl := List.mem_singleton.mp hm'
      exact ⟨last, hlast, Nat.le_of_lt hlt⟩
  · have habove : ∀ last, index (key m) = some last → number last ≤ number m := fun last hlast =>
      Nat.not_lt.mp fun hlt => hbelow ⟨last, hlast, hlt⟩
    have hself := consume_self habove
    constructor
    case held =>
      intro k last hlast
      by_cases hk : key m = k
      · subst hk
        obtain rfl := Option.some.inj (hself.symm.trans hlast)
        exact ⟨hnew, rfl⟩
      · exact hold k last ((consume_of_ne hk).symm.trans hlast)
    case newest =>
      intro m' hm'
      by_cases hk : key m = key m'
      · refine ⟨m, hk ▸ hself, ?_⟩
        rcases List.mem_append.mp hm' with hm' | hm'
        · obtain ⟨last, hlast, hle⟩ := h.newest m' hm'
          exact Nat.le_trans hle (habove last (hk ▸ hlast))
        · exact Nat.le_of_eq (congrArg number (List.mem_singleton.mp hm'))
      · rcases List.mem_append.mp hm' with hm' | hm'
        · obtain ⟨last, hlast, hle⟩ := h.newest m' hm'
          exact ⟨last, (consume_of_ne hk).trans hlast, hle⟩
        · exact absurd (congrArg key (List.mem_singleton.mp hm')).symm hk

/-- What holds of one message holds of a log, by induction on it. -/
theorem Newest.foldl {ms₀ : List M} : ∀ {ms : List M} {index : K → Option M},
    Newest key number ms₀ index →
      Newest key number (ms₀ ++ ms) (ms.foldl (LastWriter.consume key number) index)
  | [], _, h => by rwa [List.append_nil]
  | m :: ms, _, h => by
      have hrest : Newest key number (ms₀ ++ [m] ++ ms) _ := (h.consume m).foldl
      rwa [List.append_assoc] at hrest

/-- **Run lemma.** -/
theorem newest_project (ms : List M) : Newest key number ms (project key number ms) :=
  newest_nil.foldl

/-- The index has the message of a key that has the highest number. -/
theorem project_eq_some_iff (hnum : Numbered key number ms) :
    project key number ms k = some m ↔
      m ∈ ms ∧ key m = k ∧ ∀ m' ∈ ms, key m' = k → number m' ≤ number m := by
  have h : Newest key number ms (project key number ms) := newest_project ms
  constructor
  · intro hm
    refine ⟨(h.held k m hm).1, (h.held k m hm).2, fun m' hm' hk => ?_⟩
    obtain ⟨last, hlast, hle⟩ := h.newest m' hm'
    rw [hk, hm] at hlast
    exact Option.some.inj hlast ▸ hle
  · rintro ⟨hm, rfl, hmax⟩
    obtain ⟨last, hlast, hle⟩ := h.newest m hm
    obtain ⟨hmem, hk⟩ := h.held _ last hlast
    have heq := hnum last hmem m hm hk (Nat.le_antisymm (hmax last hmem hk) hle)
    rw [hlast, heq]

theorem project_eq_none_iff : project key number ms k = none ↔ ∀ m ∈ ms, key m ≠ k := by
  have h : Newest key number ms (project key number ms) := newest_project ms
  constructor
  · rintro hnone m hm rfl
    obtain ⟨last, hlast, -⟩ := h.newest m hm
    rw [hnone] at hlast
    nomatch hlast
  · intro hno
    cases hlast : project key number ms k with
    | none => rfl
    | some last => exact absurd (h.held k last hlast).2 (hno last (h.held k last hlast).1)

end LastWriter
