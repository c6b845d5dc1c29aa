import LlmScaler.Budget.Debits
import LlmScaler.Optimizer.Rescale

/-!
# A pass and the spends it records

A pass of the greedy optimizer first rescales the contended groups, then shares the GPUs left among
the other models. Every debit it makes is recorded with the model it was made for, so that the
budgets can be computed later as if some of the models had ordered nothing: the recorded spends of
the others are replayed on the budgets the pass found.
-/

namespace LlmScaler.Optimizer

open Core Budget

variable {ν : Type*}

/-- `spendOp`: one debit, from the cluster budget when `ns` is empty, else from that
namespace's. -/
structure SpendOp where
  model : String
  ns : String
  key : String
  gpus : ℕ
  deriving DecidableEq

def Budgets.debitCluster (b : Budgets ν) (key : String) (n : ℕ) : Budgets ν :=
  { b with available := b.available.map (debitBudget · key n) }

/-- A debit of a namespace's budget, if it has one. -/
def Budgets.debitNamespace (b : Budgets ν) (ns key : String) (n : ℕ) : Budgets ν :=
  { b with
    byNamespace :=
      match b.byNamespace.find? ns with
      | some held => b.byNamespace.set ns (debitBudget held key n)
      | none => b.byNamespace }

/-- A recorded spend debited again. -/
def chargeSpend (b : Budgets ν) (s : SpendOp) : Budgets ν :=
  if s.ns = "" then b.debitCluster s.key s.gpus else b.debitNamespace s.ns s.key s.gpus

/-- `replay`: the spends of the models that are not excluded, in order. -/
def replay (spends : List SpendOp) (b : Budgets ν) (exclude : GoMap String Bool) : Budgets ν :=
  (spends.filter fun s => !exclude.get s.model).foldl chargeSpend b

/-- `passHeadroom`: the budgets a pass left, those it found and what it spent. -/
structure PassHeadroom (ν : Type*) extends Budgets ν where
  start : Option Figures
  startByNS : GoMap String Figures
  spends : List SpendOp

/-- `without`: the headroom as if the pass had ordered nothing for the models excluded; `release`
takes their placements back from the nodes. -/
def PassHeadroom.without (release : ν → (String → Bool) → ν) (h : PassHeadroom ν)
    (exclude : GoMap String Bool) : PassHeadroom ν :=
  if exclude.entries.isEmpty then h
  else
    { h with
      toBudgets := replay h.spends
        ⟨h.start, h.startByNS, h.nodes.map fun view => release view exclude.get⟩ exclude }

/-- The key of the cluster budget an accelerator is spent from, the name itself without one. -/
def clusterKey (b : Budgets ν) (accType : String) : String :=
  match b.available with
  | none => accType
  | some a => budgetKey a accType

/-- `RescaleFlags`: where rescale is enabled. -/
structure RescaleFlags where
  cluster : Bool
  byNamespace : GoMap String Bool

/-- Whether rescale is enabled anywhere. -/
def RescaleFlags.any (f : RescaleFlags) : Bool := f.cluster || !f.byNamespace.entries.isEmpty

def RescaleFlags.enabledForScope (f : RescaleFlags) (ns : String) (nsScoped : Bool) : Bool :=
  if nsScoped then f.byNamespace.get ns else f.cluster

/-- `groupKey`: the budget key and the scope the models of a group compete under. -/
structure GroupKey where
  accType : String
  scope : String
  deriving DecidableEq

def groupKeyOf (flags : RescaleFlags) (b : Budgets ν) (req : RescaleRequest) : Option GroupKey :=
  let records := recordsForRequest req.toModelScalingRequest
  match singleAccType records with
  | none => none
  | some accType =>
    if records.any fun vc => vc.acceleratorName = "" then none
    else
      match b.byNamespace.find? req.ns with
      | some held =>
        if flags.enabledForScope req.ns true then some ⟨budgetKey held accType, req.ns⟩ else none
      | none =>
        if flags.enabledForScope req.ns false then some ⟨clusterKey b accType, ""⟩ else none

def groupKeys (flags : RescaleFlags) (b : Budgets ν) (requests : List RescaleRequest) :
    List GroupKey :=
  (Sorting.byKey fun k : GroupKey => toLex (k.accType, k.scope)).sort
    (requests.filterMap (groupKeyOf flags b)).dedup

def groupFree (b : Budgets ν) (k : GroupKey) : ℕ∞ :=
  if k.scope = "" then budgetOf b.available k.accType
  else ((b.byNamespace.find? k.scope).map (figureAt · k.accType)).getD 0

/-- The GPUs a group can be handed this cycle: a namespace's fills draw on the cluster too. -/
def groupFillable (b : Budgets ν) (k : GroupKey) (free : ℕ) : ℕ :=
  if k.scope = "" then free
  else
    match clusterBudgetFor b.available k.accType with
    | some cur => if cur = ⊤ then free else min free cur.toNat
    | none => free

def groupSpends (k : GroupKey) (cluster model : String) (took : ℕ) : List SpendOp :=
  if took = 0 then []
  else if k.scope = "" then [⟨model, "", k.accType, took⟩]
  else [⟨model, k.scope, k.accType, took⟩, ⟨model, "", cluster, took⟩]

/-- The debit of what a group's models took together. -/
def debitGroup (b : Budgets ν) (k : GroupKey) (cluster : String) (consumed : ℕ) : Budgets ν :=
  if consumed = 0 then b
  else if k.scope = "" then b.debitCluster k.accType consumed
  else (b.debitNamespace k.scope k.accType consumed).debitCluster cluster consumed

structure PassState (ν : Type*) where
  budgets : Budgets ν
  spends : List SpendOp
  handled : List String
  decisions : List VariantDecision

/-- A sort of a group's requests, the highest priority first. -/
def serveFirst (reqs : List RescaleRequest) : List RescaleRequest :=
  (Sorting.byKey fun r : RescaleRequest =>
    toLex (OrderDual.toDual r.priority, modelKey r.toModelScalingRequest)).sort reqs

structure GroupTurns (ν : Type*) where
  free : ℕ
  nodes : Option ν
  spends : List SpendOp
  decisions : List VariantDecision

section Rescale

variable (ops : NodeOps ν) (sort : CostSorting) (release : ReleaseSorting)

/-- One model of a group driven to its target, and what it took recorded. -/
def rescaleTurn (k : GroupKey) (cluster : String) (targets : GoMap String ℕ) (st : GroupTurns ν)
    (req : RescaleRequest) : GroupTurns ν :=
  let model := modelKey req.toModelScalingRequest
  let r := rescaleModelDecisions ops sort release req k.accType (targets.get model) st.free st.nodes
  { free := r.free
    nodes := r.nodes
    spends := st.spends ++ groupSpends k cluster model (st.free - r.free)
    decisions := st.decisions ++ buildDecisions req.toModelScalingRequest r.targets }

/-- One contended group rescaled; a group that is unlimited or fits its budget is left alone. -/
def rescaleGroup (st : PassState ν) (k : GroupKey) (reqs : List RescaleRequest) : PassState ν :=
  let free := (groupFree st.budgets k).toNat
  let budget := free + (reqs.map fun req =>
    modelCurrentGPUs (rescaleModel req.toModelScalingRequest k.accType)).sum
  let inputs := rescaleInputsForGroup sort reqs k.accType budget
  if groupFree st.budgets k = ⊤ ∨ inputs.2 ≤ budget then st
  else
    let fillable := groupFillable st.budgets k free
    let cluster := clusterKey st.budgets k.accType
    let served := (serveFirst reqs).foldl
      (rescaleTurn ops sort release k cluster (computeRescaleTargets inputs.1 budget).1)
      ⟨fillable, st.budgets.nodes, [], []⟩
    { budgets := debitGroup { st.budgets with nodes := served.nodes } k cluster
        (fillable - served.free)
      spends := st.spends ++ served.spends
      handled := st.handled ++ reqs.map fun req => modelKey req.toModelScalingRequest
      decisions := st.decisions ++ served.decisions }

/-- `applyRescale`: the contended groups rescaled one after another. -/
def applyRescale (flags : RescaleFlags) (requests : List RescaleRequest) (b : Budgets ν) :
    PassState ν :=
  (groupKeys flags b requests).foldl (fun st k =>
    rescaleGroup ops sort release st k
      (requests.filter fun req => groupKeyOf flags b req = some k)) ⟨b, [], [], []⟩

end Rescale

/-- How the fair share allocates one model towards its share, and whether a budget is left: on the
budgets alone, or with a placer that also keeps to a namespace's co-resource headroom. -/
structure Sizing (ν : Type*) where
  allocate : ModelWork → ℚ → Budgets ν → PairState ν
  /-- Whether some model that asks could be granted a GPU. -/
  budgetLeft : List ModelWork → Budgets ν → Bool

/-- The fair share on the budgets alone. -/
def budgetSizing (ops : NodeOps ν) (sort : CostSorting) (fuel : ℕ) : Sizing ν :=
  ⟨allocatePaired ops sort fuel, anyBudgetLeft⟩

/-- The spends recorded under one key of a namespace's effective budget. -/
def keySpends (model ns : String) (b : Budgets ν) (accType : String) (consumed : ℕ) :
    List SpendOp :=
  if consumed = 0 then []
  else ⟨model, "", clusterKey b accType, consumed⟩ ::
    (if b.byNamespace.has ns then [⟨model, ns, accType, consumed⟩] else [])

/-- The spends `allocateForModel` records, key by key in order. Its debits keep the keys of the
budgets, so each key is resolved as against the budgets before. -/
def modelSpends (w : ModelWork) (b : Budgets ν) (spent : GoMap String ℕ) : List SpendOp :=
  (spent.keys.insertionSort (· ≤ ·)).flatMap fun accType =>
    keySpends (modelKey w.req) w.req.ns b accType (spent.get accType)

/-- A model served towards the mean, with the spends recorded. -/
structure Served (ν : Type*) where
  /-- The model, the budgets, and whether its value fell. -/
  result : ModelWork × Budgets ν × Bool
  spends : List SpendOp

section FairShare

variable (sizing : Sizing ν) (fuel : ℕ) (order : WorkSorting)

/-- `allocateForModel`, recording what it spends. -/
def serveModel (w : ModelWork) (mean : ℚ) (b : Budgets ν) : Served ν :=
  if w.remaining - mean ≤ 0 then ⟨(w, b, false), []⟩
  else
    let st := sizing.allocate w (w.remaining - mean) b
    let remaining := remainingAfter w st
    ⟨({ w with e := st.e, targets := st.targets, remaining := remaining },
        reconcile w.req.ns { b with nodes := st.nodes } st.spent,
        decide (remaining < w.remaining)),
      modelSpends w b st.spent⟩

structure LoggedShare (ν : Type*) extends FairShare ν where
  spends : List SpendOp

def loggedBody (st : LoggedShare ν) : Pass (LoggedShare ν) :=
  let active := filterActive st.work
  match order.sort active with
  | [] => .stop st
  | w :: _ =>
    if sizing.budgetLeft active st.budgets then
      let served := serveModel sizing w (allocationMean active w) st.budgets
      .again
        { work := st.work.map fun x =>
            if x.index = w.index then afterTurn served.result (computeMean active) else x
          budgets := served.result.2.1
          spends := st.spends ++ served.spends }
    else .stop st

/-- `fairShareScaleUp`, recording what it spends. -/
def loggedScaleUp (st : LoggedShare ν) : LoggedShare ν := loop (loggedBody sizing order) fuel st

end FairShare

section Pass

variable (ops : NodeOps ν) (sort : CostSorting) (release : ReleaseSorting) (sizing : Sizing ν)
  (fuel : ℕ) (order : WorkSorting) (flags : RescaleFlags)

def rescalePass (requests : List RescaleRequest) (b : Budgets ν) : PassState ν :=
  if flags.any then applyRescale ops sort release flags requests b else ⟨b, [], [], []⟩

/-- A pass of the greedy optimizer that counts no borrowing, from the budgets it found. -/
def optimizePass (requests : List RescaleRequest) (b : Budgets ν) : PassState ν :=
  let rescaled := rescalePass ops sort release flags requests b
  let others := (requests.filter fun req =>
    !rescaled.handled.contains (modelKey req.toModelScalingRequest)).map (·.toModelScalingRequest)
  let shared := loggedScaleUp sizing fuel order
    ⟨⟨scaleUpWorks others, rescaled.budgets⟩, rescaled.spends⟩
  { budgets := shared.budgets
    spends := shared.spends
    handled := rescaled.handled
    decisions := (shared.work.flatMap fun w => buildDecisions w.req w.targets) ++
      ((others.filter isOtherRequest).flatMap fun req =>
        let init := initRoleState req.compositeSignal
        buildDecisions req (scaleDownRoleIterated release (modelOf req init.1) init.2.2
          (initTargets req.variantStates))) ++ rescaled.decisions }

def passHeadroom (requests : List RescaleRequest) (b : Budgets ν) : PassHeadroom ν :=
  let done := optimizePass ops sort release sizing fuel order flags requests b
  { done.budgets with
    start := b.available
    startByNS := b.byNamespace
    spends := done.spends }

/-- The pass over a cycle's constraints. -/
def greedyPass (requests : List RescaleRequest) (constraints : List ResourceConstraints)
    (nodes : Option ν) : PassHeadroom ν :=
  passHeadroom ops sort release sizing fuel order flags requests
    (startBudgets (requests.map (·.toModelScalingRequest)) constraints nodes)

end Pass

end LlmScaler.Optimizer
