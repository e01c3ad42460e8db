/-
  `src/services/patents/lifecycle.js`: the patent state machine.

    draft ──submit──▶ pendingAdmin ──approve──▶ approved
      ▲                    │                       │
      └─────edit───────────┴──decline──▶ declined ─┘

  `pendingAi` is reachable by nothing.

  The diagram is that of the source.  Its edge `edit` is not a transition: an edit leaves the
  status as it is, so a declined patent stays declined until it is submitted again, and nothing
  leads back to `draft`.

  The table is checked twice for each action.  `assertTransition` reads the row before the
  transaction, for an early answer with a precise text; the guarded UPDATE of
  `PatentService.applyTransition` has the last word.  Both use `TRANSITIONS`, so that they cannot
  disagree about what is legal, only about what the row is.
-/
import SmartPatents.Schema

namespace SmartPatents.Lifecycle

/-- The keys of `TRANSITIONS`. -/
inductive Action
  | submit
  | approve
  | decline
deriving DecidableEq

/-- The values of the `PatentStatus` enum, as errors and replies print them. -/
def statusText : PatentStatus → String
  | .draft => "draft"
  | .pendingAi => "pending_ai"
  | .pendingAdmin => "pending_admin"
  | .approved => "approved"
  | .declined => "declined"

/-- An action, as errors print it. -/
def actionText : Action → String
  | .submit => "submit"
  | .approve => "approve"
  | .decline => "decline"

/-- A row of `TRANSITIONS`. -/
structure Rule where
  «from» : List PatentStatus
  «to» : PatentStatus

/-- `TRANSITIONS`. A patent is declined from review, or withdrawn once approved. -/
def TRANSITIONS : Action → Rule
  | .submit => ⟨[.draft, .declined], .pendingAdmin⟩
  | .approve => ⟨[.pendingAdmin], .approved⟩
  | .decline => ⟨[.pendingAdmin, .approved], .declined⟩

/-- `EDITABLE_STATUSES`: what the submitter may edit. -/
def EDITABLE_STATUSES : List PatentStatus := [.draft, .declined]

/-- `status` is the text of a status, or "unknown". -/
def transitionConflict (action : Action) (status : String) : AppError :=
  conflict ("Cannot " ++ actionText action ++ " a patent with status \"" ++ status ++
    "\"; expected one of: " ++ ", ".intercalate ((TRANSITIONS action).from.map statusText))

/-- The cheap check before the transaction. -/
def assertTransition (patent : Patent) (action : Action) : Except AppError PatentStatus :=
  if patent.status ∈ (TRANSITIONS action).from then .ok (TRANSITIONS action).to
  else .error (transitionConflict action (statusText patent.status))

/-! ## Where a transition leads -/

/-- A draft is submitted, and so is a declined patent. -/
theorem mem_submit {s : PatentStatus} :
    s ∈ (TRANSITIONS .submit).from ↔ s = .draft ∨ s = .declined := by
  simp [TRANSITIONS]

/-- What is approved has been in review. -/
theorem mem_approve {s : PatentStatus} : s ∈ (TRANSITIONS .approve).from ↔ s = .pendingAdmin := by
  simp [TRANSITIONS]

/-- No transition leads back to draft. -/
theorem to_ne_draft (action : Action) : (TRANSITIONS action).to ≠ .draft := by
  cases action <;> decide

end SmartPatents.Lifecycle
