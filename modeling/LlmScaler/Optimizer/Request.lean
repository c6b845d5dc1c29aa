import LlmScaler.Core.GoMap
import LlmScaler.Core.Sorting

/-!
# Model scaling requests

What an optimizer is given for one model: the composed analyzer signal, the replica state of each
variant and the variants discovery found. Quantities of capacity, cost, priority and score are
exact rationals; replica and GPU counts are natural numbers.
-/

namespace LlmScaler.Optimizer

open Core

def roleBoth : String := "both"

structure VariantCapacity where
  variantName : String
  perReplicaCapacity : ℚ

structure AnalyzerResult where
  variantCapacities : List VariantCapacity
  totalDemand : ℚ
  nodup : (variantCapacities.map (·.variantName)).Nodup

/-- Capacity figures of one role of a disaggregated model. -/
structure RoleCapacity where
  requiredCapacity : ℚ
  spareCapacity : ℚ
  totalSupply : ℚ
  totalDemand : ℚ

/-- The composed signal of one model. -/
structure NamedAnalyzerResult where
  /-- The result it is read from, `none` when there is none. -/
  result : Option AnalyzerResult
  score : ℚ
  remaining : ℚ
  spare : ℚ
  roleSpare : GoMap String ℚ
  /-- Capacity by role that may be released down to the release target. -/
  roleReleasable : GoMap String ℚ
  scaleUpThreshold : ℚ
  scaleDownBoundary : ℚ
  totalSupply : ℚ
  /-- Figures by role, `none` when the model is not disaggregated. -/
  roleCapacities : Option (GoMap String RoleCapacity)
  releaseBound : GoMap String ℚ
  live : Bool

structure VariantMetadata where
  variantName : String
  /-- Its role, empty for the role of a model that is not disaggregated. -/
  role : String
  cost : ℚ
  acceleratorName : String
  deriving DecidableEq

structure VariantReplicaState where
  variantName : String
  currentReplicas : ℕ
  gpusPerReplica : ℕ
  minReplicas : Option ℕ
  maxReplicas : Option ℕ
  deriving DecidableEq, Inhabited

structure ModelScalingRequest where
  modelID : String
  ns : String
  compositeSignal : NamedAnalyzerResult
  variantStates : List VariantReplicaState
  variants : List VariantMetadata
  priority : ℚ
  nodup : (variants.map (·.variantName)).Nodup

/-- A variant joined with the capacity measured for it. -/
structure VariantRecord extends VariantMetadata where
  /-- Capacity of one replica, 0 when the analyzer measured none. -/
  perReplicaCapacity : ℚ
  deriving DecidableEq

/-- Bound on a replica count converted from a quantity. -/
def maxReplicaCount : ℕ := 2147483647

def replicaCount (x : ℚ) : ℕ := min ⌊x⌋.toNat maxReplicaCount

def replicasForDemand (demand prc : ℚ) : ℕ :=
  if prc ≤ 0 then 0 else replicaCount ⌈demand / prc⌉

/-- Replicas that may be removed from spare capacity, rounded down. -/
def safeReplicasForSpare (spare prc : ℚ) : ℕ :=
  if prc ≤ 0 then 0 else replicaCount ⌊spare / prc⌋

/-- Capacity of one replica of a variant, 0 when it was not measured. -/
def prcForVariant (r : AnalyzerResult) (v : String) : ℚ :=
  ((r.variantCapacities.find? (·.variantName == v)).map (·.perReplicaCapacity)).getD 0

/-- The variants of a request joined with the capacities measured. -/
def buildVariantRecords (req : ModelScalingRequest) (satResult : AnalyzerResult) :
    List VariantRecord :=
  req.variants.map fun m =>
    { m with perReplicaCapacity := prcForVariant satResult m.variantName }

/-- The records of a request, empty when the model is to be skipped. -/
def recordsForRequest (req : ModelScalingRequest) : List VariantRecord :=
  match req.compositeSignal.result with
  | none => []
  | some r => buildVariantRecords req r

def buildStateMap (states : List VariantReplicaState) : GoMap String VariantReplicaState :=
  states.foldl (fun m s => m.set s.variantName s) ∅

def initTargets (states : List VariantReplicaState) : GoMap String ℕ :=
  states.foldl (fun m s => m.set s.variantName s.currentReplicas) ∅

/-- GPUs of one replica of a variant, 1 when unset. -/
def gpusPerReplicaFromState (stateMap : GoMap String VariantReplicaState) (v : String) : ℕ :=
  match stateMap.find? v with
  | some s => if s.gpusPerReplica > 0 then s.gpusPerReplica else 1
  | none => 1

/-- Accelerator of a variant, empty when it is not among the records. -/
def accFromVCs (vcs : List VariantRecord) (v : String) : String :=
  ((vcs.find? (·.variantName == v)).map (·.acceleratorName)).getD ""

def prcFromVCs (vcs : List VariantRecord) (v : String) : ℚ :=
  ((vcs.find? (·.variantName == v)).map (·.perReplicaCapacity)).getD 0

def declaredAccelerators (requests : List ModelScalingRequest) : List String :=
  requests.flatMap fun req => req.variants.map (·.acceleratorName)

/-- A role as it is matched, an empty one being that of a model that is not disaggregated. -/
def canonicalRole (role : String) : String := if role = "" then roleBoth else role

def variantsForRole (vcs : List VariantRecord) (role : String) : List VariantRecord :=
  vcs.filter fun vc => canonicalRole vc.role == role

def rolesOf (vcs : List VariantRecord) : List String :=
  ((vcs.map fun vc => canonicalRole vc.role).dedup).insertionSort (· ≤ ·)

/-- Demand of each role still to be served in one model's pass. -/
abbrev RolePairedState := GoMap String ℚ

/-- The utilization a release sheds down to: a quarter up the band between the thresholds, or the
lower one when the band is unusable. -/
def NamedAnalyzerResult.releaseTargetUtilization (e : NamedAnalyzerResult) : ℚ :=
  if e.scaleUpThreshold > 0 ∧ e.scaleDownBoundary > 0 ∧ e.scaleUpThreshold > e.scaleDownBoundary
  then e.scaleDownBoundary + (e.scaleUpThreshold - e.scaleDownBoundary) / 4
  else e.scaleDownBoundary

/-- Supply beyond what leaves the demand at the target utilization. -/
def releasableFor (supply demand target : ℚ) : ℚ :=
  if ¬ target > 0 ∨ ¬ supply > 0 then 0 else max 0 (supply - demand / target)

/-- What a role may release, bounded by the other analyzers, if its supply is known. -/
def NamedAnalyzerResult.withReleasable (e : NamedAnalyzerResult) (role : String)
    (supply demand : ℚ) : NamedAnalyzerResult :=
  if supply > 0 then
    let free := releasableFor supply demand e.releaseTargetUtilization
    let bounded :=
      match e.releaseBound.find? role with
      | some b => min free b
      | none => free
    { e with roleReleasable := e.roleReleasable.set role bounded }
  else e

/-- The roles of a model, the demand of each and the signal with the role budgets filled in. -/
def initRoleState (e : NamedAnalyzerResult) :
    List String × RolePairedState × NamedAnalyzerResult :=
  match e.result with
  | none => ([], ∅, e)
  | some r =>
    match e.roleCapacities with
    | some caps =>
      (caps.keys.insertionSort (· ≤ ·), caps.mapValues fun _ rc => rc.requiredCapacity,
        caps.entries.foldl (fun e c =>
          { e with roleSpare := e.roleSpare.set c.1 c.2.spareCapacity }.withReleasable c.1
            c.2.totalSupply c.2.totalDemand) e)
    | none =>
      ([roleBoth], (∅ : RolePairedState).set roleBoth e.remaining,
        { e with roleSpare := e.roleSpare.set roleBoth e.spare }.withReleasable roleBoth
          e.totalSupply r.totalDemand)

/-- Whether some role has demand to serve. -/
def anyRoleNeedsScaleUp (state : RolePairedState) (roles : List String) : Bool :=
  roles.any fun role => decide (0 < state.get role)

/-- Takes the capacity of `n` replicas of a variant off the required capacity. -/
def applyAllocation (e : NamedAnalyzerResult) (v : String) (n : ℕ) : NamedAnalyzerResult :=
  match e.result with
  | none => e
  | some r =>
    if prcForVariant r v ≤ 0 then e
    else { e with remaining := max 0 (e.remaining - n * prcForVariant r v) }

end LlmScaler.Optimizer
