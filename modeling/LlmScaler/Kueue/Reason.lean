import Mathlib

/-!
# Why borrowing is withheld

Several reasons may hold at once; the one shown is the first in a fixed order.
-/

namespace LlmScaler.Kueue

/-- Why a queue's borrowing is not counted, or why its guaranteed figure is below nominal. -/
inductive Reason where
  | lendersUnreadable
  | kueueVersionUnknown
  | kueueVersionUntested
  | noCohort
  | inactive
  | malformed
  | noStatus
  | hierarchicalCohort
  | hierarchyUnknown
  | effectiveQuotas
  | fairSharing
  | topologyAware
  | admissionChecks
  | borrowWithinCohort
  | stale
  | nominalLentOut
  deriving DecidableEq, Repr

/-- `reasonOrder`, of the reasons decided from a read. -/
def reasonOrder : List Reason :=
  [.lendersUnreadable, .kueueVersionUnknown, .kueueVersionUntested, .noCohort, .inactive,
    .malformed, .noStatus, .hierarchicalCohort, .hierarchyUnknown, .effectiveQuotas, .fairSharing,
    .topologyAware, .admissionChecks, .borrowWithinCohort, .stale]

/-- `rank`: a reason's place in the order, after all of it for one outside. -/
def Reason.rank (r : Reason) : ℕ := reasonOrder.idxOf r

/-- The first of two reasons in the order, of those that hold. -/
def firstReason : Option Reason → Option Reason → Option Reason
  | best, none => best
  | none, some r => some r
  | some best, some r => if r.rank < best.rank then some r else some best

/-- `Precedence`: the reason shown when several hold. -/
def precedence (reasons : List (Option Reason)) : Option Reason := reasons.foldl firstReason none

theorem firstReason_eq_none {a b : Option Reason} : firstReason a b = none ↔ a = none ∧ b = none := by
  cases a with
  | none => cases b <;> simp [firstReason]
  | some r =>
    cases b with
    | none => simp [firstReason]
    | some r' => by_cases h : r'.rank < r.rank <;> simp [firstReason, h]

theorem precedence_eq_none {reasons : List (Option Reason)} :
    precedence reasons = none ↔ ∀ r ∈ reasons, r = none := by
  have hfold : ∀ best, reasons.foldl firstReason best = none ↔
      best = none ∧ ∀ r ∈ reasons, r = none := by
    induction reasons with
    | nil => simp
    | cons r reasons ih =>
      intro best
      rw [List.foldl_cons, ih, firstReason_eq_none, List.forall_mem_cons, and_assoc]
  rw [precedence, hfold, and_iff_right rfl]

example : precedence [none, some .stale, some .malformed] = some .malformed := by decide

end LlmScaler.Kueue
