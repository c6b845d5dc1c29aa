import LlmScaler.Budget.Merge

/-!
# The placement check and the promises withheld from it

`fitsGPUBudget` asks whether a demand may be placed in a namespace. Within one tick the wakes
already decided are withheld from the constraints of the next one: each is counted as used in the
one pool of each provider that `findKey` matches.
-/

namespace LlmScaler.Budget

open Core Accelerator

/-- GPUs demanded by accelerator name. -/
abbrev Demand := GoMap String ℕ

/-- Whether some pool can take `need` GPUs. -/
def anyPoolFits (budgets : Figures) (need : ℕ) : Bool :=
  budgets.entries.any fun e => decide ((need : ℕ∞) ≤ e.2)

/-- The budgets an allocation in a namespace is judged against, `none` when unbounded, and
whether the namespace is a closed allowlist. -/
def gpuBudgets (constraints : List ResourceConstraints) (ns : String) (declared : List String) :
    Option Figures × Bool :=
  if constraints.isEmpty then (none, false)
  else
    match (mergeNamespaceConstraints constraints declared).find? ns with
    | none => (mergeConstraints constraints declared, false)
    | some nsBudgets =>
      let perType := mergeWithAllowanceKeys constraints declared
      (some (nsBudgets.mapValues fun accType budget =>
        match clusterBudgetFor perType accType with
        | some cv => tighterBudget budget cv
        | none => budget), true)

/-- The key a demand is drawn from: `none` when it is denied, `some none` when it fits without a
key of its own. -/
def drawKey (budgets : Figures) (nsScoped : Bool) (rawType : String) (need : ℕ) :
    Option (Option String) :=
  match findBudgetKey budgets rawType with
  | some key => some (some key)
  | none =>
    if rawType = defaultAcceleratorName then
      if nsScoped then
        match budgets.keys with
        | [key] => some (some key)
        | _ => none
      else if anyPoolFits budgets need then some none else none
    else none

/-- The demand by the budget key it is drawn from, `none` when part of it is denied. -/
def drawDemand (budgets : Figures) (nsScoped : Bool) :
    List (Sigma fun _ : String => ℕ) → Demand → Option Demand
  | [], spent => some spent
  | ⟨rawType, need⟩ :: rest, spent =>
    if need = 0 then drawDemand budgets nsScoped rest spent
    else
      match drawKey budgets nsScoped rawType need with
      | none => none
      | some none => drawDemand budgets nsScoped rest spent
      | some (some key) => drawDemand budgets nsScoped rest (spent.modify key (· + need))

def demandUnder (demand : Demand) (key : String) : ℕ :=
  demand.sumWhere (covers key ·)

/-- Whether a demand can be drawn on a budget: every key holds what is drawn on the keys it
covers. -/
def drawable (budgets : Figures) (nsScoped : Bool) (demand : Demand) : Bool :=
  match drawDemand budgets nsScoped demand.entries ∅ with
  | none => false
  | some spent => budgets.entries.all fun e => decide ((demandUnder spent e.1 : ℕ∞) ≤ e.2)

/-- Whether allocating a demand is permitted in a namespace. -/
def fitsGPUBudget (constraints : List ResourceConstraints) (ns : String) (demand : Demand) :
    Bool :=
  match gpuBudgets constraints ns demand.keys with
  | (none, _) => true
  | (some budgets, nsScoped) => drawable budgets nsScoped demand

/-- Counts `g` GPUs as used in the pool `findKey` matches, and whether a finite pool was
charged. -/
def charge (pools : Pools) (acc : String) (g : ℕ) : Pools × Bool :=
  match findKey pools acc with
  | none => (pools, false)
  | some key =>
    match pools.find? key with
    | none => (pools, false)
    | some p =>
      if p.limit = ⊤ then (pools, false)
      else (pools.mapValues fun k p => if k = key then { p with used := p.used + g } else p, true)

/-- One promise of `g` GPUs withheld from a copy of the provider `c`, with what was withheld so
far from its cluster pools. -/
def withholdOne (c : ResourceConstraints) (scope acc : String) (g : ℕ)
    (copy : ResourceConstraints × ℕ) : ResourceConstraints × ℕ :=
  if g = 0 then copy
  else if scope = "" ∧ isClusterBound c = false then copy
  else
    let held :=
      if scope = "" then copy.1.namespacePools
      else copy.1.namespacePools.map fun held =>
        held.mapValues fun ns pools => if ns = scope then (charge pools acc g).1 else pools
    let charged := charge copy.1.pools acc g
    ({ copy.1 with namespacePools := held, pools := charged.1 },
      if charged.2 then copy.2 + g else copy.2)

/-- Copies of the constraints with the promised GPUs counted as used. `promised` is by scope, the
empty one for the cluster group, else a namespace. -/
def withholdPromised (constraints : List ResourceConstraints) (promised : GoMap String Demand) :
    List ResourceConstraints :=
  if promised.entries.isEmpty then constraints
  else constraints.map fun c =>
    let copy := promised.entries.foldl (fun copy scope =>
      scope.2.entries.foldl (fun copy acc => withholdOne c scope.1 acc.1 acc.2 copy) copy) (c, 0)
    { copy.1 with
      totalUsed := copy.1.totalUsed + copy.2
      totalAvail := copy.1.totalAvail - copy.2 }

/-- The demand of this tick's wakes, by namespace. -/
abbrev TickWakes := GoMap String Demand

def addDemand (promised demand : Demand) : Demand :=
  demand.entries.foldl (fun m e => m.modify e.1 (· + e.2)) promised

/-- Records a wake's demand against this tick's later wakes. -/
def debitTick (wakes : TickWakes) (ns : String) (demand : Demand) : TickWakes :=
  wakes.set ns (addDemand ((wakes.find? ns).getD ∅) demand)

/-- Judges one wake against the constraints with the earlier wakes withheld, and records it when
it is accepted. -/
def decideWake (constraints : List ResourceConstraints) (ns : String) (wakes : TickWakes)
    (demand : Demand) : TickWakes :=
  if fitsGPUBudget (withholdPromised constraints wakes) ns demand then debitTick wakes ns demand
  else wakes

end LlmScaler.Budget
