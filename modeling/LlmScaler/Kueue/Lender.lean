import LlmScaler.Core.Time

/-!
# Lenders

A member of a cohort lends its unused nominal quota to the others. Whether Kueue takes it back from
them depends on its policy and on the priorities of the Workloads.
-/

namespace LlmScaler.Kueue

open LlmScaler.Core

/-- `spec.preemption.reclaimWithinCohort`. -/
inductive ReclaimPolicy where
  | any
  | lowerPriority
  /-- Kueue preempts none, also when the policy is absent. -/
  | never
  deriving DecidableEq, Repr

/-- `Reclaims`: whether Kueue takes back, for a lender, what a borrower holds; a priority that is not
known never reclaims. -/
def reclaims (policy : ReclaimPolicy) (lender borrower : Option Int) : Bool :=
  match policy with
  | .any => true
  | .lowerPriority =>
    match lender, borrower with
    | some l, some b => b < l
    | _, _ => false
  | .never => false

/-- What one read of a cohort says of a lender. -/
structure LenderState where
  queue : String
  waiting : Bool
  reclaim : ReclaimPolicy
  unused : Int
  priority : Option Int
  kept : Int
  pendingGPUs : Int
  /-- The highest priority among its pending Workloads that count. -/
  pendingPriority : Option Int
  pendingSince : Time
  deriving DecidableEq, Repr

end LlmScaler.Kueue
