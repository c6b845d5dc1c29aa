import LlmScaler.Optimizer.Request

/-!
# Units a model gives back

A model gives borrowed capacity back unit by unit: one replica of a single-role model, a whole pair
at the role ratio of a P/D one, never below a variant's `minReplicas`. A unit is the replicas it takes
off each decision, by index.
-/

namespace LlmScaler.Release

open Core

/-- `domain.VariantReplicaState`, as far as a release reads it. -/
structure VariantReplicaState where
  variantName : String
  acceleratorName : String
  currentReplicas : ℕ
  /-- Replicas whose pods are there, terminating ones included. -/
  heldReplicas : ℕ
  heldKnown : Bool
  minReplicas : Option ℕ
  gpusPerReplica : ℕ
  priorityClass : String
  deriving DecidableEq, Inhabited

/-- `ModelScalingRequest`, as far as a release reads it. -/
structure ModelScalingRequest where
  modelID : String
  ns : String
  priority : ℚ
  disaggregated : Bool
  variants : List Optimizer.VariantMetadata
  variantStates : List VariantReplicaState

inductive SaturationAction where
  | scaleUp
  | scaleDown
  | noChange
  deriving DecidableEq, Repr

inductive DecisionReason where
  | v2
  | saturationOnly
  | scaleFromZero
  | rescale
  | utilizationShare
  deriving DecidableEq, Repr

structure DecisionStep where
  name : String
  action : SaturationAction
  targetReplicas : ℕ
  wasConstrained : Bool
  reason : String
  deriving DecidableEq, Repr

/-- `domain.VariantDecision`, as far as a release reads and writes it. -/
structure VariantDecision where
  ns : String
  modelID : String
  variantName : String
  role : String
  currentReplicas : ℕ
  targetReplicas : ℕ
  gpusPerReplica : ℕ
  gpusAllocated : ℕ
  action : SaturationAction
  decisionReason : DecisionReason
  reason : String
  decisionSteps : List DecisionStep
  deriving DecidableEq, Repr

/-- Replica states by namespace and variant, as `indexStates` keys them. -/
abbrev States := GoMap String VariantReplicaState

def variantKey (ns variant : String) : String := ns ++ "/" ++ variant

/-- The states of the requests' variants, `indexStates`. -/
def indexStates (requests : List ModelScalingRequest) : States :=
  requests.foldl (fun m req =>
    req.variantStates.foldl (fun m st => m.set (variantKey req.ns st.variantName) st) m) ∅

def minOf (s : VariantReplicaState) : ℕ := s.minReplicas.getD 0

/-- `heldOf`: the replicas a variant's pods still hold. -/
def heldOf (s : VariantReplicaState) : ℕ :=
  if s.heldKnown then max s.heldReplicas s.currentReplicas else s.currentReplicas

/-- `accOf`: a variant's accelerator as discovery resolved it. -/
def accOf (req : ModelScalingRequest) (variant : String) : String :=
  match req.variants.find? (·.variantName == variant) with
  | some v => v.acceleratorName
  | none =>
    match req.variantStates.find? (·.variantName == variant) with
    | some st => st.acceleratorName
    | none => ""

namespace VariantDecision

/-- The GPUs of one replica, one when unset. -/
def gpr (d : VariantDecision) : ℕ := max 1 d.gpusPerReplica

def stateIn (states : States) (d : VariantDecision) : VariantReplicaState :=
  states.get (variantKey d.ns d.variantName)

/-- How far the target is above `minReplicas`. -/
def spare (states : States) (d : VariantDecision) : Int :=
  (d.targetReplicas : Int) - minOf (d.stateIn states)

def isOf (ns modelID : String) (d : VariantDecision) : Bool :=
  decide (d.ns = ns) && decide (d.modelID = modelID)

theorem isOf_ns {d : VariantDecision} {ns modelID : String} (h : d.isOf ns modelID = true) :
    d.ns = ns :=
  of_decide_eq_true (Bool.and_eq_true_iff.mp h).1

theorem isOf_unique {d : VariantDecision} {ns modelID ns' modelID' : String}
    (h : d.isOf ns modelID = true) (h' : d.isOf ns' modelID' = true) :
    (ns, modelID) = (ns', modelID') := by
  simp only [isOf, Bool.and_eq_true, decide_eq_true_eq] at h h'
  rw [← h.1, ← h.2, h'.1, h'.2]

def lower (n : ℕ) (d : VariantDecision) : VariantDecision :=
  { d with
    targetReplicas := d.targetReplicas - n
    gpusAllocated := (d.targetReplicas - n) * d.gpr }

end VariantDecision

/-- The replicas a unit takes off each decision, by index. -/
abbrev GivenUnit := List (ℕ × ℕ)

section

variable (states : States)

def ownOf (decisions : List VariantDecision) (ns modelID : String) :
    List (VariantDecision × ℕ) :=
  decisions.zipIdx.filter fun p => p.1.isOf ns modelID

/-- The roles of a model's decisions, sorted. -/
def rolesOf (own : List (VariantDecision × ℕ)) : List String :=
  (Sorting.byKey id).sort (own.map fun p => p.1.role).dedup

def inRole (own : List (VariantDecision × ℕ)) (role : String) : List (VariantDecision × ℕ) :=
  own.filter fun p => p.1.role = role

def roleTarget (own : List (VariantDecision × ℕ)) (role : String) : ℕ :=
  ((inRole own role).map fun p => p.1.targetReplicas).sum

/-- The greatest common divisor of the roles' totals, those without replicas left out. -/
def ratioOf (own : List (VariantDecision × ℕ)) : ℕ :=
  (rolesOf own).foldl (fun g role =>
    if 0 < roleTarget own role then Nat.gcd g (roleTarget own role) else g) 0

/-- A role's decisions in the order they give replicas: the most above `minReplicas` first. -/
def giveOrder (own : List (VariantDecision × ℕ)) : List (VariantDecision × ℕ) :=
  (Sorting.byKey fun p : VariantDecision × ℕ =>
    toLex (OrderDual.toDual (p.1.spare states), p.1.variantName)).sort own

/-- What a role's decisions give of `n` replicas, and what they cannot. -/
def takeRole : List (VariantDecision × ℕ) → ℕ → GivenUnit × ℕ
  | [], n => ([], n)
  | p :: ps, n =>
    let take := min n (max 0 (p.1.spare states)).toNat
    let rest := takeRole ps (n - take)
    (if 0 < take then (p.2, take) :: rest.1 else rest.1, rest.2)

/-- One role's part added to a unit, unless the role cannot give it. -/
def addRole (own : List (VariantDecision × ℕ)) (g : ℕ) (unit : GivenUnit) (role : String) :
    Option GivenUnit :=
  let part := takeRole states (giveOrder states (inRole own role)) (roleTarget own role / g)
  if 0 < part.2 then none else some (unit ++ part.1)

/-- The next replica of a single-role model: of its first variant by name that may give one. -/
def nextReplica (own : List (VariantDecision × ℕ)) (eligible : VariantDecision → Bool) : GivenUnit :=
  match ((Sorting.byKey fun p : VariantDecision × ℕ => p.1.variantName).sort own).find?
      fun p => decide (0 < p.1.spare states) && eligible p.1 with
  | some p => [(p.2, 1)]
  | none => []

/-- The next pair of a P/D model at its role ratio. -/
def nextPair (own : List (VariantDecision × ℕ)) : GivenUnit :=
  if ratioOf own = 0 then []
  else ((rolesOf own).foldlM (addRole states own (ratioOf own)) []).getD []

/-- `yieldUnitWhere`: the next unit a model gives back, empty when none is left. -/
def yieldUnitWhere (decisions : List VariantDecision) (ns modelID : String) (paired : Bool)
    (eligible : VariantDecision → Bool) : GivenUnit :=
  if paired then nextPair states (ownOf decisions ns modelID)
  else nextReplica states (ownOf decisions ns modelID) eligible

end

end LlmScaler.Release
