import LlmScaler.Budget.Merge
import LlmScaler.Optimizer.Request

/-!
# Picking a variant for a role

Both optimizers try the variants of a role from the cheapest unit of capacity on. The cost-aware
pick bounds a variant by its replica ceiling; the fair-share pick bounds it by the model's share,
the GPU budget and the nodes as well.
-/

namespace LlmScaler.Optimizer

open Core Budget

/-- Cost of a unit of capacity; a variant without a capacity reading comes last. -/
def costEfficiency (vc : VariantRecord) : WithTop ℚ :=
  if 0 < vc.perReplicaCapacity then ((vc.cost / vc.perReplicaCapacity : ℚ) : WithTop ℚ) else ⊤

abbrev CostSorting :=
  Sorting fun a b : VariantRecord => decide (costEfficiency a < costEfficiency b)

/-- One replica of a variant as nodes see it. -/
structure ReplicaShape where
  variant : String
  accelerator : String
  gpus : ℕ
  deriving DecidableEq

/-- A picture of the free GPUs of each node. -/
structure NodeOps (ν : Type*) where
  /-- Replicas of a shape the nodes hold, of those asked for. -/
  fits : ν → ReplicaShape → ℕ → ℕ
  place : ν → ReplicaShape → Option ν

/-- The variants of one model, as one pass sees them. -/
structure Model where
  ns : String
  records : List VariantRecord
  stateMap : GoMap String VariantReplicaState
  roles : List String

def Model.gpus (m : Model) (v : String) : ℕ := gpusPerReplicaFromState m.stateMap v

def Model.acc (m : Model) (v : String) : String := accFromVCs m.records v

def Model.shape (m : Model) (v : String) : ReplicaShape := ⟨m.ns ++ "/" ++ v, m.acc v, m.gpus v⟩

/-- Replicas a variant may still gain under its own ceiling. -/
def headroom (state : VariantReplicaState) (target : ℕ) : ℕ∞ :=
  match state.maxReplicas with
  | some most => if most > 0 then ((most - target : ℕ) : ℕ∞) else ⊤
  | none => ⊤

def atMost (n : ℕ) (limit : ℕ∞) : ℕ := if limit = ⊤ then n else min n limit.toNat

def replicasIn (budget : ℕ∞) (gpus : ℕ) : ℕ∞ :=
  if budget = ⊤ then ⊤ else ((budget.toNat / gpus : ℕ) : ℕ∞)

/-- A choice of a variant for a role, with the most replicas it may gain. -/
abbrev RoleChoice := Option (String × ℕ∞)

/-- The cheapest variant of a role below its ceiling. -/
def costGreedyRolePick (sort : CostSorting) (m : Model) (targets : GoMap String ℕ)
    (role : String) : RoleChoice :=
  (sort.sort (variantsForRole m.records role)).findSome? fun vc =>
    if vc.perReplicaCapacity ≤ 0 then none
    else if headroom (m.stateMap.get vc.variantName) (targets.get vc.variantName) = 0 then none
    else some (vc.variantName,
      headroom (m.stateMap.get vc.variantName) (targets.get vc.variantName))

section FairShare

variable {ν : Type*} (ops : NodeOps ν) (sort : CostSorting) (target : ℚ) (m : Model)

/-- Replicas the nodes hold, of those asked for. -/
def nodesHold (nodes : Option ν) (v : String) (n : ℕ) : ℕ :=
  match nodes with
  | some view => min n (ops.fits view (m.shape v) n)
  | none => n

/-- Most replicas a variant may gain in a fair-share pick, 0 when it is passed over. -/
def fairShareCap (available : Option Figures) (targets : GoMap String ℕ) (nodes : Option ν)
    (vc : VariantRecord) : ℕ :=
  if vc.perReplicaCapacity ≤ 0 then 0
  else if budgetOf available vc.acceleratorName < m.gpus vc.variantName then 0
  else
    nodesHold ops m nodes vc.variantName
      (atMost (atMost ⌈target / vc.perReplicaCapacity⌉.toNat
          (replicasIn (budgetOf available vc.acceleratorName) (m.gpus vc.variantName)))
        (headroom (m.stateMap.get vc.variantName) (targets.get vc.variantName)))

/-- The cheapest variant of a role that the share, the budget, its ceiling and the nodes let
grow. -/
def fairShareRolePickOn (available : Option Figures) (targets : GoMap String ℕ)
    (nodes : Option ν) (role : String) : RoleChoice :=
  (sort.sort (variantsForRole m.records role)).findSome? fun vc =>
    if fairShareCap ops target m available targets nodes vc = 0 then none
    else some (vc.variantName, (fairShareCap ops target m available targets nodes vc : ℕ∞))

end FairShare

/-- Whether every usable variant of a role is at its ceiling, and there is one. -/
def roleAtCeiling (m : Model) (targets : GoMap String ℕ) (role : String) : Bool :=
  let usable := (variantsForRole m.records role).filter fun vc => 0 < vc.perReplicaCapacity
  !usable.isEmpty && usable.all fun vc =>
    headroom (m.stateMap.get vc.variantName) (targets.get vc.variantName) == 0

end LlmScaler.Optimizer
