import LlmScaler.Accelerator.Joint

/-!
# The GPU budgets of a cycle

A cluster bound is a provider whose pools hold for every namespace; a namespace bound is a
provider's allowlist for one namespace. Each is a closed allowlist, and the bounds of one kind are
intersected into one budget per accelerator key. A figure is the GPUs left, `⊤` where the source
has one of its two unlimited sentinels: `math.MaxInt` in a cluster budget, a negative number in a
namespace budget.
-/

namespace LlmScaler.Budget

open Core Accelerator

/-- A merged budget: the GPUs left under each accelerator key. -/
abbrev Figures := GoMap String ℕ∞

structure ResourcePool where
  limit : ℕ∞
  used : ℕ
  deriving DecidableEq

/-- A provider's pools by accelerator type: an allowlist. -/
abbrev Pools := GoMap String ResourcePool

/-- The GPUs a pool leaves free, never below zero. -/
def ResourcePool.available (p : ResourcePool) : ℕ∞ := p.limit - p.used

def poolBound (p : ResourcePool) : ℕ∞ := p.available

/-- The constraints of one provider that counts no cohort borrowing. -/
structure ResourceConstraints where
  pools : Pools
  /-- The allowlist of each namespace the provider holds; `none` for a cluster-wide provider. -/
  namespacePools : Option (GoMap String Pools)
  /-- Whether the provider says it bounds namespaces only. -/
  namespaceScoped : Bool
  totalUsed : ℕ
  totalAvail : ℕ

/-- Whether the provider bounds the whole cluster. -/
def isClusterBound (c : ResourceConstraints) : Bool :=
  !c.namespaceScoped && c.namespacePools.isNone

def clusterBounds (constraints : List ResourceConstraints) : List ResourceConstraints :=
  constraints.filter isClusterBound

/-- Whether one of the allowlists has `name` as a key, ignoring case. -/
def hasKey (allowlists : List Pools) (name : String) : Bool :=
  allowlists.any fun pools => pools.keys.any (equalFold · name)

/-- Whether `name` becomes a key of a merge: it is a key of one allowlist, or every one of them
admits it. -/
def materialized (allowlists : List Pools) (name : String) : Bool :=
  hasKey allowlists name ||
    allowlists.all fun pools => (allowlistBound poolBound pools name).isSome

def resolvedNames (declared : List String) : List String :=
  declared.filter isAcceleratorResolved

def namespaceKeys (constraints : List ResourceConstraints) : List String :=
  constraints.flatMap fun c =>
    match c.namespacePools with
    | none => []
    | some held => held.entries.flatMap fun e => e.2.keys

def clusterProducts (constraints : List ResourceConstraints) : List String :=
  (clusterBounds constraints).flatMap fun c => c.pools.keys.filter (!isFamily ·)

/-- Names sorted, with spellings that differ only in case folded to the smallest. -/
def distinctSpellings (names : List String) : List String :=
  dropSpellings (names.insertionSort (· ≤ ·))

/-- Lowers every product key to the family keys that cover it. -/
def clampProducts (budgets : Figures) : Figures :=
  budgets.mapValues fun p v =>
    if isFamily p then v else v ⊓ tightest (boundsWhere id budgets (isProductOf p ·))

/-- Spends `n` GPUs under `key`: from it, its other spellings and the family key that covers it,
never below zero; products are then clamped. -/
def debitBudget (budgets : Figures) (key : String) (n : ℕ) : Figures :=
  if n = 0 then budgets
  else clampProducts (budgets.mapValues fun other v => if covers other key then v - n else v)

/-- The figure of a key, zero when it is missing. -/
def figureAt (budgets : Figures) (key : String) : ℕ∞ := (budgets.find? key).getD 0

/-- A budget with a key for each distinct spelling that has a figure, products clamped. -/
def mergeNames (names : List String) (figure : String → Option ℕ∞) : Figures :=
  clampProducts (GoMap.ofList ((distinctSpellings names).filterMap fun name =>
    (figure name).map (name, ·)))

/-- The cluster bounds intersected into one budget per key, `none` (unbounded) when there is no
cluster bound. The declared names every bound admits are keys of their own. -/
def mergeConstraints (constraints : List ResourceConstraints) (declared : List String) :
    Option Figures :=
  let keyed := (clusterBounds constraints).map (·.pools)
  let names := resolvedNames declared ++ keyed.flatMap AList.keys
  if keyed = [] then none
  else some (mergeNames names fun name =>
    if materialized keyed name then clusterAllowlistsBound poolBound keyed name else none)

/-- `mergeConstraints` with every key a namespace allowance lists materialized too. -/
def mergeWithAllowanceKeys (constraints : List ResourceConstraints) (declared : List String) :
    Option Figures :=
  mergeConstraints constraints (declared ++ namespaceKeys constraints)

def tighterBudget (a b : ℕ∞) : ℕ∞ := a ⊓ b

/-- What a namespace may use of a family it may use only through products. -/
def closedFamilyBudget (allowlists : List Pools) (name : String) : ℕ∞ :=
  (clusterAllowlistsBound poolBound allowlists name).getD 0

/-- The allowlists of the providers that hold a namespace. -/
def namespaceHolders (constraints : List ResourceConstraints) (ns : String) : List Pools :=
  constraints.filterMap fun c => c.namespacePools.bind (·.find? ns)

def namespaceFigure (pools cluster : List Pools) (name : String) : ℕ∞ :=
  if closesFamily pools name then closedFamilyBudget (pools ++ cluster) name
  else if closesFamily cluster name && listsProduct pools name then
    closedFamilyBudget (pools ++ cluster) name
  else tightest (pools.map (freeOf poolBound · name))

/-- One namespace's allowlists merged into its budget. -/
def mergeNamespace (pools cluster : List Pools) (declared : List String) : Figures :=
  mergeNames (resolvedNames declared ++ pools.flatMap AList.keys) fun name =>
    if materialized pools name then some (namespaceFigure pools cluster name) else none

def heldNamespaces (constraints : List ResourceConstraints) : List String :=
  (constraints.flatMap fun c =>
    match c.namespacePools with
    | none => []
    | some held => held.keys).dedup

/-- The budget of every namespace some provider holds. -/
def mergeNamespaceConstraints (constraints : List ResourceConstraints) (declared : List String) :
    GoMap String Figures :=
  GoMap.ofList ((heldNamespaces constraints).map fun ns =>
    (ns, mergeNamespace (namespaceHolders constraints ns)
      ((clusterBounds constraints).map (·.pools)) declared))

/-- The cluster bound on an accelerator a namespace allowance lists, if there is one. -/
def clusterBudgetFor (available : Option Figures) (name : String) : Option ℕ∞ :=
  match available with
  | none => none
  | some budgets =>
    match findBudgetKey budgets name with
    | some key => some (figureAt budgets key)
    | none => if name = defaultAcceleratorName then none else some 0

/-- The key of a budget a declared accelerator is spent from, the name itself when there is
none. -/
def budgetKey (budgets : Figures) (declared : String) : String :=
  (findBudgetKey budgets declared).getD declared

/-- What a budget allows a workload declaring `name`. -/
def budgetOf (budgets : Option Figures) (name : String) : ℕ∞ :=
  match budgets with
  | none => ⊤
  | some b =>
    match findBudgetKey b name with
    | some key => figureAt b key
    | none => 0

end LlmScaler.Budget
