import LlmScaler.Optimizer.Pair
import LlmScaler.Optimizer.ScaleDown

/-!
# The optimizers

`costAwareOptimize` sizes each model on its own, unbounded. The greedy optimizer shares the GPU
budgets: in each round the model with the most remaining value is served towards the mean of the
models that still ask, on the tighter of the cluster budget and its namespace's, and what it spent
is taken from both.
-/

namespace LlmScaler.Optimizer

open Core Budget Accelerator

structure VariantDecision where
  variantName : String
  modelID : String
  ns : String
  acceleratorName : String
  currentReplicas : ℕ
  targetReplicas : ℕ
  gpusPerReplica : ℕ
  deriving DecidableEq

def buildDecisions (req : ModelScalingRequest) (targets : GoMap String ℕ) :
    List VariantDecision :=
  targets.entries.map fun t =>
    { variantName := t.1
      modelID := req.modelID
      ns := req.ns
      acceleratorName := accFromVCs (recordsForRequest req) t.1
      currentReplicas := ((buildStateMap req.variantStates).get t.1).currentReplicas
      targetReplicas := t.2
      gpusPerReplica := gpusPerReplicaFromState (buildStateMap req.variantStates) t.1 }

/-- The variants of a request as a pass sees them. -/
def modelOf (req : ModelScalingRequest) (roles : List String) : Model :=
  ⟨req.ns, recordsForRequest req, buildStateMap req.variantStates, roles⟩

def costAwareTargets (sort : CostSorting) (release : ReleaseSorting) (fuel : ℕ)
    (req : ModelScalingRequest) : GoMap String ℕ :=
  let init := initRoleState req.compositeSignal
  let m := modelOf req init.1
  let targets := initTargets req.variantStates
  if anyRoleNeedsScaleUp init.2.1 init.1 then
    (allocateForModelPairedOn (ν := Unit) ⟨fun _ _ n => n, fun _ _ => none⟩ m
      (fun st => costGreedyRolePick sort m st.targets) fuel
      ⟨init.2.2, init.2.1, targets, none, ∅, none⟩).targets
  else scaleDownRoleIterated release m init.2.2 targets

def costAwareOptimize (sort : CostSorting) (release : ReleaseSorting) (fuel : ℕ)
    (requests : List ModelScalingRequest) : List VariantDecision :=
  requests.flatMap fun req =>
    if recordsForRequest req = [] then []
    else buildDecisions req (costAwareTargets sort release fuel req)

/-- A model in the fair share. -/
structure ModelWork where
  index : ℕ
  req : ModelScalingRequest
  e : NamedAnalyzerResult
  roles : List String
  /-- Its value in the fair share; it is out when not positive. -/
  remaining : ℚ
  targets : GoMap String ℕ

/-- The variants of a model in the fair share. -/
def ModelWork.model (w : ModelWork) : Model := modelOf w.req w.roles

/-- A sort by remaining value, the highest first. -/
abbrev WorkSorting := Sorting fun a b : ModelWork => decide (b.remaining < a.remaining)

/-- Bound on a model's weight. -/
def maxShareWeight : ℚ := 10 ^ 300

def fairShareValue (priority : ℚ) (e : NamedAnalyzerResult) (ps : RolePairedState)
    (roles : List String) : ℚ :=
  let weighted := priority * (roles.map ps.get).sum * e.score
  if e.result.isSome ∧ 0 < weighted then min weighted maxShareWeight
  else (roles.map ps.get).foldl max 0

/-- The budget a model in a namespace may spend: that of the cluster, or the namespace's own keys
each at the tighter of the two. -/
def effectiveAvailable (available : Option Figures) (nsBudget : Option Figures) :
    Option Figures :=
  match nsBudget with
  | none => available
  | some b => some (b.mapValues fun accType nsAvail =>
      nsAvail ⊓ (clusterBudgetFor available accType).getD ⊤)

def largest (figures : List ℕ∞) : ℕ∞ := figures.foldr (· ⊔ ·) 0

/-- The GPUs a budget holds under one family: its own figure, or its products' together. -/
def familyTotal (b : Figures) (name : List Char) : ℕ∞ :=
  let own := b.entries.filter fun e => isFamily e.1 && fold e.1 == name
  let products := b.entries.filter fun e => !isFamily e.1 && fold (family e.1) == name
  if own ≠ [] then largest (own.map Sigma.snd)
  else (((products.map fun e => fold e.1).dedup).map fun p =>
    largest ((products.filter fun e => fold e.1 == p).map Sigma.snd)).sum

/-- The GPUs a budget holds in all, each family counted once. -/
def budgetTotal (budgets : Option Figures) : ℕ∞ :=
  match budgets with
  | none => ⊤
  | some b => (((b.keys.map fun k => fold (family k)).dedup).map (familyTotal b)).sum

structure Budgets (ν : Type*) where
  available : Option Figures
  byNamespace : GoMap String Figures
  nodes : Option ν

variable {ν : Type*}

/-- What a model in a namespace may spend. -/
def Budgets.effective (b : Budgets ν) (ns : String) : Option Figures :=
  effectiveAvailable b.available (b.byNamespace.find? ns)

/-- Takes what was spent under one key of a namespace's effective budget from the cluster budget
and the namespace's. -/
def reconcileKey (ns : String) (b : Budgets ν) (accType : String) (consumed : ℕ) : Budgets ν :=
  { b with
    available := b.available.map fun a => debitBudget a (budgetKey a accType) consumed
    byNamespace :=
      match b.byNamespace.find? ns with
      | some n => b.byNamespace.set ns (debitBudget n accType consumed)
      | none => b.byNamespace }

/-- Takes what a model spent from the budgets, key by key in order. -/
def reconcile (ns : String) (b : Budgets ν) (spent : GoMap String ℕ) : Budgets ν :=
  (spent.keys.insertionSort (· ≤ ·)).foldl (fun b accType =>
    reconcileKey ns b accType (spent.get accType)) b

/-- The demand of each role, cut at the model's share. -/
def capDemand (target : ℚ) (roles : List String) (ps : RolePairedState) : RolePairedState :=
  roles.foldl (fun ps role => if target < ps.get role then ps.set role target else ps) ps

section Optimize

variable (ops : NodeOps ν) (sort : CostSorting) (fuel : ℕ)

/-- The allocation of one model, cut at a share, on the budgets of a pass. -/
def allocatePaired (w : ModelWork) (target : ℚ) (b : Budgets ν) : PairState ν :=
  let init := initRoleState w.e
  allocateForModelPairedOn ops w.model
    (fun st => fairShareRolePickOn ops sort target w.model st.available st.targets st.nodes) fuel
    ⟨init.2.2, capDemand target w.roles init.2.1, w.targets, b.effective w.req.ns, ∅, b.nodes⟩

/-- The remaining value of a model after an allocation. A model that is not disaggregated reads
its required capacity afresh; another one what the allocation left of its cut demand. -/
def remainingAfter (w : ModelWork) (st : PairState ν) : ℚ :=
  if w.roles = [roleBoth] then
    fairShareValue w.req.priority st.e (initRoleState st.e).2.1 w.roles
  else fairShareValue w.req.priority st.e st.ps w.roles

def filterActive (work : List ModelWork) : List ModelWork :=
  work.filter fun w => 0 < w.remaining

/-- Whether some model that asks could be granted a GPU. -/
def anyBudgetLeft (active : List ModelWork) (b : Budgets ν) : Bool :=
  active.any fun w => decide (0 < budgetTotal (b.effective w.req.ns))

/-- The average remaining value. -/
def computeMean (active : List ModelWork) : ℚ :=
  if active = [] then 0 else (active.map (·.remaining)).sum / active.length

def allocationMean (active : List ModelWork) (w : ModelWork) : ℚ :=
  if active.length = 1 then 0
  else if w.remaining ≤ computeMean active then computeMean active - w.remaining / active.length
  else computeMean active

structure FairShare (ν : Type*) where
  work : List ModelWork
  budgets : Budgets ν

variable (order : WorkSorting)

/-- A model after its turn: out when it was not served, or is still above the mean. -/
def afterTurn (served : ModelWork × Budgets ν × Bool) (mean : ℚ) : ModelWork :=
  if served.2.2 = false ∨ mean < served.1.remaining then { served.1 with remaining := -1 }
  else served.1

/-- The model a scale-up request puts in the fair share. -/
def scaleUpWork (req : ModelScalingRequest) : Option ModelWork :=
  let init := initRoleState req.compositeSignal
  let fsv := fairShareValue req.priority init.2.2 init.2.1 init.1
  if recordsForRequest req = [] ∨ fsv ≤ 0 then none
  else some ⟨0, req, init.2.2, init.1, fsv, initTargets req.variantStates⟩

def isOtherRequest (req : ModelScalingRequest) : Bool :=
  let init := initRoleState req.compositeSignal
  recordsForRequest req ≠ [] && !anyRoleNeedsScaleUp init.2.1 init.1 &&
    decide (fairShareValue req.priority init.2.2 init.2.1 init.1 ≤ 0)

def scaleUpWorks (requests : List ModelScalingRequest) : List ModelWork :=
  (requests.filterMap scaleUpWork).mapIdx fun i w => { w with index := i }

/-- The budgets a pass starts with. Without constraints it denies rather than guesses. -/
def startBudgets (requests : List ModelScalingRequest) (constraints : List ResourceConstraints)
    (nodes : Option ν) : Budgets ν :=
  let declared := declaredAccelerators requests
  { available :=
      if constraints = [] then some ∅ else mergeWithAllowanceKeys constraints declared
    byNamespace :=
      mergeNamespaceConstraints constraints (declared ++ clusterProducts constraints)
    nodes := nodes }

end Optimize

end LlmScaler.Optimizer
