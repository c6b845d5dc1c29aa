import LlmScaler.Core.GoMap
import LlmScaler.Core.Sorting
import LlmScaler.WarmPool.Pool

/-!
# The warm pool's policy

`Decide` makes the plan of one cycle from what was observed: it hands lent Pods back, borrows
Pods for the variants that are short, admits models into the Pods beyond the reserve and evicts
the copies nobody wants. Shares are rational numbers and times are integers. What a model needs
is read from its engine options by a function the policy is given.
-/

namespace LlmScaler.WarmPool

open LlmScaler.Core

/-- The pool's operating policy. -/
structure Config where
  sleepMinSize : Int
  maxHold : Int
  /-- The time before which a bridge is not handed back as excess. -/
  minHold : Int
  retained : Bool
  admissionWindow : Int
  minMissesToAdmit : Int
  /-- The most requested variants that are admitted without a miss. -/
  preloadTop : Int
  /-- The bound on a Pod's warm set, none when not positive. -/
  maxInstancesPerPod : Int
  /-- The host memory a Pod may commit to sleeping models. -/
  podMemoryBytes : Int
  deriving DecidableEq, Repr

/-- What has been decided about one variant. -/
structure VariantDemand where
  model : ModelRef
  desired : Int
  ready : Int
  parked : Bool
  share : ℚ
  warmCopies : Option Nat
  deriving DecidableEq, Repr

/-- The first result of `wantedCopies`: automatic mode holds at most one. -/
def VariantDemand.wantedCopies (v : VariantDemand) : Nat := v.warmCopies.getD 1

/-- The second result of `wantedCopies`. -/
def VariantDemand.explicit (v : VariantDemand) : Bool := v.warmCopies.isSome

structure Borrow where
  pod : NamespacedName
  variant : String
  deriving DecidableEq, Repr

/-- Everything a decision looks at. -/
structure Input where
  memberships : List Membership
  variants : List VariantDemand
  borrowedAt : GoMap Borrow Int
  admitting : List NamespacedName
  wantAwake : String
  missesAt : GoMap String (List Int)
  now : Int

/-- One thing to do to one model in one Pod. -/
structure Action where
  pod : NamespacedName
  model : ModelRef
  deriving DecidableEq, Repr

def Action.key (a : Action) : Borrow := ⟨a.pod, a.model.variant⟩

/-- A variant the pool refused to warm. -/
structure Declined where
  model : ModelRef
  reason : String
  permanent : Bool
  deriving DecidableEq, Repr

structure Plan where
  returns : List Action
  borrow : List Action
  admits : List Action
  evict : List Action
  growBy : Int
  blocked : List ModelRef
  missed : List ModelRef
  declined : List Declined

/-- The entry `lentByVariant(all)[variant]`: the instances in use. -/
def lent (all : List Membership) (variant : String) : List Membership :=
  all.filter fun m => m.state = .serving && m.model.variant = variant

/-- `borrowedAt`: a lend without a recorded start begins now. -/
def borrowedAt (input : Input) (m : Membership) : Int :=
  (GoMap.find? input.borrowedAt ⟨m.pod, m.model.variant⟩).getD input.now

/-- `Desired - Ready` less what is lent already: the Pods a variant is short of. -/
def shortfall (input : Input) (v : VariantDemand) : Int :=
  v.desired - v.ready - (lent input.memberships v.model.variant).length

/-- `residentCount`: the Pods with a copy of the variant. -/
def residentCount (all : List Membership) (variant : String) : Nat :=
  if variant = "" then 0 else (pods all).countP fun p => holds (inPod all p) variant

/-- What `holding` and `roomiestFreePod` rank by: the fewest models, then the name. -/
def roomKey (all : List Membership) (p : NamespacedName) : ℕ ×ₗ String :=
  toLex (resident (inPod all p), p.string)

/-- What `evictions` ranks by: the longest unused, then the Pod's name. -/
def idleKey (m : Membership) : ℤ ×ₗ String := toLex (m.lastUsed, m.pod.name)

/-- The orders the language leaves open: in which a map is ranged over, and of elements that a
`sort.Slice` finds equal. -/
structure Orders (input : Input) where
  pods : Sorting fun _ _ : NamespacedName => false
  oldest : Sorting fun a b => decide (borrowedAt input a < borrowedAt input b)
  emptiest : Sorting fun p q => decide (roomKey input.memberships p < roomKey input.memberships q)
  idlest : Sorting fun a b => decide (idleKey a < idleKey b)

/-- The orders that keep equal elements as they were. -/
def Orders.stable (input : Input) : Orders input where
  pods := ⟨id, fun _ => .rfl, fun _ => List.pairwise_of_forall fun _ _ => rfl⟩
  oldest := .byKey _
  emptiest := .byKey _
  idlest := .byKey _

/-- `anotherVariantIsShort`: some other variant has fewer replicas ready than it wants. -/
def anotherVariantIsShort (input : Input) (self : String) : Bool :=
  input.variants.any fun o => o.model.variant ≠ self && o.ready < o.desired

/-- Whether the lend has reached the hold timeout, which a retained pool has not. -/
def expired (input : Input) (cfg : Config) (m : Membership) : Bool :=
  !cfg.retained && cfg.maxHold ≤ input.now - borrowedAt input m

/-- Whether the lend is under the floor, which any other variant's need waives. -/
def tooYoung (input : Input) (cfg : Config) (self : String) (m : Membership) : Bool :=
  0 < cfg.minHold && !anotherVariantIsShort input self &&
    input.now - borrowedAt input m < cfg.minHold

/-- The lent Pods beyond what the ordinary replicas fail to cover. -/
def excess (input : Input) (v : VariantDemand) : Int :=
  (lent input.memberships v.model.variant).length - max 0 (v.desired - v.ready)

/-- `returnsFor`: which of a variant's lent Pods go back. -/
def returnsFor {input : Input} (o : Orders input) (cfg : Config) (v : VariantDemand) :
    List Action :=
  (((o.oldest.sort (lent input.memberships v.model.variant)).zipIdx).filter fun (m, i) =>
    ((i : Int) < excess input v && !tooYoung input cfg v.model.variant m) ||
      expired input cfg m).map fun (m, _) => ⟨m.pod, m.model⟩

/-- The entry `knownModels(variants)[variant]`: of two demands the later counts. -/
def knownModel (variants : List VariantDemand) (variant : String) : Option ModelRef :=
  (variants.reverse.find? fun v => v.model.variant = variant).map VariantDemand.model

/-- `withKnownModel`: the action with demand's fuller model. -/
def withKnownModel (variants : List VariantDemand) (a : Action) : Action :=
  match knownModel variants a.model.variant with
  | none => a
  | some full => if full.poolLabels.isEmpty then a else { a with model := full }

/-- `orphanReturns`: every engine that is awake with nothing using it, by Pod and variant. -/
def orphanReturns (all : List Membership) : List Action :=
  (Sorting.byKey fun a : Action => toLex (a.pod.string, a.model.variant)).sort
    ((all.filter fun m => m.state = .waking).map fun m => ⟨m.pod, m.model⟩)

/-- `isShort`: the first demand for the variant still falls short. -/
def isShort (input : Input) (variant : String) : Bool :=
  match input.variants.find? fun v => v.model.variant = variant with
  | none => false
  | some v => 0 < shortfall input v

/-- What else is in use in the Pod that holds the wanted model. -/
def inTheWay (input : Input) (p : NamespacedName) : List Action :=
  ((inPod input.memberships p).filter fun m =>
    m.model.variant ≠ input.wantAwake && m.state = .serving).map fun m => ⟨p, m.model⟩

/-- The loop of `intentReturns`: the first Pod with something to hand back. -/
def firstInTheWay (input : Input) (returned : List NamespacedName) :
    List NamespacedName → List Action
  | [] => []
  | p :: ps =>
    if returned.contains p || !holds (inPod input.memberships p) input.wantAwake then
      firstInTheWay input returned ps
    else if (inTheWay input p).isEmpty then firstInTheWay input returned ps
    else inTheWay input p

/-- `intentReturns`: the Pod that stands between the wanted model and being awake. -/
def intentReturns {input : Input} (o : Orders input) (returned : List NamespacedName) :
    List Action :=
  if input.wantAwake = "" then []
  else if 0 < (lent input.memberships input.wantAwake).length then []
  else if !isShort input input.wantAwake then []
  else firstInTheWay input returned (o.pods.sort (pods input.memberships))

def askedReturns {input : Input} (o : Orders input) (cfg : Config) : List Action :=
  (input.variants.flatMap (returnsFor o cfg)).map (withKnownModel input.variants)

/-- The orphans, with demand's models. -/
def knownOrphans (input : Input) : List Action :=
  (orphanReturns input.memberships).map (withKnownModel input.variants)

/-- The returns before the borrows: the variants' own, the orphans, and the intent's. -/
def allReturns {input : Input} (o : Orders input) (cfg : Config) : List Action :=
  askedReturns o cfg ++ knownOrphans input ++
    intentReturns o ((askedReturns o cfg ++ knownOrphans input).map Action.pod)

/-- `freePods`: the Pods that can serve a wake and those about to be handed back, without those
that are loading. -/
def freePods (input : Input) (returning : List NamespacedName) : List NamespacedName :=
  (pods input.memberships).filter fun p =>
    !input.admitting.contains p && (isFree (inPod input.memberships p) || returning.contains p)

/-- `holding`: the free Pods with a copy of the variant, the emptiest first. -/
def holding {input : Input} (o : Orders input) (free : List NamespacedName) (variant : String) :
    List NamespacedName :=
  o.emptiest.sort (free.filter fun p => holds (inPod input.memberships p) variant)

/-- What the borrow loop carries from variant to variant. -/
structure Borrowing where
  free : List NamespacedName
  borrow : List Action
  blocked : List ModelRef
  missed : List ModelRef

def taken {input : Input} (o : Orders input) (free : List NamespacedName) (v : VariantDemand) :
    List NamespacedName :=
  (holding o free v.model.variant).take (shortfall input v).toNat

def borrowFor {input : Input} (o : Orders input) (s : Borrowing) (v : VariantDemand) :
    Borrowing :=
  if shortfall input v ≤ 0 then s
  else if (holding o s.free v.model.variant).isEmpty then
    if 0 < residentCount input.memberships v.model.variant then
      { s with blocked := s.blocked ++ [v.model] }
    else { s with missed := s.missed ++ [v.model] }
  else
    { free := s.free.filter fun p => !(taken o s.free v).contains p
      borrow := s.borrow ++ (taken o s.free v).map fun p => ⟨p, v.model⟩
      blocked := if ((taken o s.free v).length : Int) < shortfall input v then
        s.blocked ++ [v.model] else s.blocked
      missed := s.missed }

/-- The borrow loop, from the Pods the returns leave free. -/
def borrows {input : Input} (o : Orders input) (cfg : Config) : Borrowing :=
  input.variants.foldl (borrowFor o)
    ⟨freePods input ((allReturns o cfg).map Action.pod), [], [], []⟩

/-- `dropOrphanReturnsSupersededByBorrows`: an orphan that is borrowed again is not returned. -/
def dropOrphanReturnsSupersededByBorrows (returns orphans borrows : List Action) : List Action :=
  if orphans.isEmpty || borrows.isEmpty then returns
  else returns.filter fun a =>
    !((orphans.map Action.key).contains a.key && (borrows.map Action.key).contains a.key)

/-- `missesInWindow`: the misses of a variant that still count. -/
def missesInWindow (input : Input) (cfg : Config) (variant : String) : Nat :=
  (GoMap.get input.missesAt variant).countP fun t => input.now - t ≤ cfg.admissionWindow

def byShare (variants : List VariantDemand) : List VariantDemand :=
  (Sorting.byKey fun v : VariantDemand => -v.share).sort variants

/-- Whether a variant is worth warming: asked for, parked, popular, or missed often enough. -/
def worthWarming (input : Input) (cfg : Config) (v : VariantDemand) : Bool :=
  if v.explicit then v.wantedCopies ≠ 0
  else v.parked ||
    (((byShare input.variants).take cfg.preloadTop.toNat).any fun w =>
      w.model.variant = v.model.variant) ||
    (cfg.minMissesToAdmit ≤ missesInWindow input cfg v.model.variant && 0 < cfg.minMissesToAdmit)

/-- What candidates are ranked by: asked for by name, then parked, then by share. -/
def rankKey (v : VariantDemand) : ℕ ×ₗ ℕ ×ₗ ℚ :=
  toLex (if v.explicit then 0 else 1, toLex (if v.parked then 0 else 1, -v.share))

/-- `candidatesForAdmission`: the variants worth warming, in order. -/
def candidatesForAdmission (input : Input) (cfg : Config) : List VariantDemand :=
  (Sorting.byKey rankKey).sort ((byShare input.variants).filter (worthWarming input cfg))

/-- `roomiestFreePodWithout`: the emptiest free Pod without the variant and with room. -/
def roomiestFreePodWithout {input : Input} (o : Orders input) (cfg : Config)
    (free : List NamespacedName) (variant : String) (emptyOnly : Bool) : Option NamespacedName :=
  (o.emptiest.sort (free.filter fun p =>
    !(emptyOnly && 0 < resident (inPod input.memberships p)) &&
    !(variant ≠ "" && holds (inPod input.memberships p) variant) &&
    !(0 < cfg.maxInstancesPerPod &&
      cfg.maxInstancesPerPod ≤ resident (inPod input.memberships p)))).head?

/-- `capacityOf`: what the first informative membership of a Pod declares. -/
def capacityOf (resident : List Membership) : PodCapacity :=
  match resident.find? fun m => 0 < m.capacity.gpus || 0 < m.capacity.memoryLimitBytes ||
      m.capacity.accelerator ≠ "" with
  | some m => m.capacity
  | none => .zero

/-- The bytes in tenths of a GiB, rounded half to even as `%.1f` does. -/
def gibTenths (bytes : Nat) : Nat :=
  let q := bytes * 10 / 2 ^ 30
  let r := bytes * 10 % 2 ^ 30
  if r < 2 ^ 29 || (r == 2 ^ 29 && q % 2 == 0) then q else q + 1

/-- `gib`: a number of bytes as it is reported. -/
def gib (bytes : Nat) : String :=
  toString (gibTenths bytes / 10) ++ "." ++ toString (gibTenths bytes % 10) ++ "GiB"

section Fit

variable (shapeOf : String → Shape)

/-- The host memory the known models of a Pod are charged. -/
def committed (resident : List Membership) : Int :=
  ((resident.filter fun m => (shapeOf m.model.engineOptions).known).map fun m =>
    (shapeOf m.model.engineOptions).hostBytes).sum

/-- The memory budget of a Pod: the configured one, never above the container's limit. -/
def memoryBudget (capacity : PodCapacity) (cfg : Config) : Int :=
  if 0 < capacity.memoryLimitBytes ∧
      (cfg.podMemoryBytes ≤ 0 ∨ capacity.memoryLimitBytes < cfg.podMemoryBytes) then
    capacity.memoryLimitBytes
  else cfg.podMemoryBytes

/-- `doesNotFit`: why a model cannot be admitted into a Pod, and whether that is permanent. -/
def doesNotFit (model : ModelRef) (resident : List Membership) (cfg : Config) :
    Option (String × Bool) :=
  let shape := shapeOf model.engineOptions
  let capacity := capacityOf resident
  let gpus := max 1 capacity.gpus
  let pods := max 1 capacity.podsPerGroup
  let budget := memoryBudget capacity cfg
  if gpus < shape.gpus then
    some ("needs " ++ toString shape.gpus ++ " GPUs, this Pod holds " ++ toString gpus, true)
  else if shape.pods ≠ pods then
    some ("spans " ++ toString shape.pods ++ " Pod(s), this warm unit is " ++ toString pods, true)
  else match acceleratorMismatch model.accelerator capacity.accelerator with
  | some why => some (why, true)
  | none =>
    if budget ≤ 0 then none
    else if !shape.known then
      some ("its size cannot be worked out from its name, so it cannot be shown to fit", true)
    else if budget < committed shapeOf resident + shape.hostBytes then
      some ("needs " ++ gib shape.hostBytes.toNat ++ " on top of the " ++
        gib (committed shapeOf resident).toNat ++ " already resident, over the " ++
        gib budget.toNat ++ " budget", false)
    else none

/-- What the admission loop carries from variant to variant. -/
structure Admitting where
  free : List NamespacedName
  admits : List Action
  declined : List Declined
  budget : Nat

/-- `admittedSoFar`: the copies of a variant this pass has placed. -/
def admittedSoFar (placed : List Action) (variant : String) : Nat :=
  placed.countP fun a => a.model.variant = variant

/-- The inner admission loop: one variant's copies, while the budget lasts. -/
def admitCopies {input : Input} (o : Orders input) (cfg : Config) (emptyOnly : Bool)
    (v : VariantDemand) : Nat → Admitting → Admitting
  | 0, s => s
  | budget + 1, s =>
    if residentCount input.memberships v.model.variant +
        admittedSoFar s.admits v.model.variant < v.wantedCopies then
      match roomiestFreePodWithout o cfg s.free v.model.variant emptyOnly with
      | none => s
      | some target =>
        match doesNotFit shapeOf v.model (inPod input.memberships target) cfg with
        | some (reason, permanent) =>
          { s with declined := s.declined ++ [⟨v.model, reason, permanent⟩] }
        | none => admitCopies o cfg emptyOnly v budget
            { free := s.free.erase target
              admits := s.admits ++ [⟨target, v.model⟩]
              declined := s.declined
              budget := budget }
    else s

/-- `admissions`: what is made resident without taking the reserve below its floor. -/
def admissions {input : Input} (o : Orders input) (cfg : Config) (free : List NamespacedName)
    (emptyPodsOnly : Bool) : Admitting :=
  (candidatesForAdmission input cfg).foldl
    (fun s v => admitCopies shapeOf o cfg emptyPodsOnly v s.budget s)
    ⟨free, [], [], ((free.length : Int) - cfg.sleepMinSize).toNat⟩

end Fit

/-- The copies of a variant that are neither lent nor in a Pod the plan uses. -/
def spareCopies {input : Input} (o : Orders input) (claimed : List NamespacedName)
    (variant : String) : List Membership :=
  ((o.pods.sort (pods input.memberships)).filter fun p => !claimed.contains p).flatMap fun p =>
    (inPod input.memberships p).filter fun m =>
      m.model.variant = variant && m.model.variant ≠ "" &&
        (inPod (lent input.memberships variant) p).isEmpty

/-- `evictions`: the copies beyond what a variant asked for, the longest unused first. -/
def evictions {input : Input} (o : Orders input) (claimed : List NamespacedName) : List Action :=
  (input.variants.filter VariantDemand.explicit).flatMap fun v =>
    ((o.idlest.sort (spareCopies o claimed v.model.variant)).take
      ((spareCopies o claimed v.model.variant).length - v.wantedCopies)).map fun m =>
        ⟨m.pod, m.model⟩

/-- `Decide`: the plan of one cycle. -/
def decidePlan (shapeOf : String → Shape) {input : Input} (o : Orders input) (cfg : Config) :
    Plan :=
  let b := borrows o cfg
  let a := admissions shapeOf o cfg b.free (!b.blocked.isEmpty)
  { returns := dropOrphanReturnsSupersededByBorrows (allReturns o cfg) (knownOrphans input)
      b.borrow
    borrow := b.borrow
    admits := a.admits
    evict := evictions o ((b.borrow ++ a.admits).map Action.pod)
    growBy := max 0 (cfg.sleepMinSize - a.free.length)
    blocked := b.blocked
    missed := b.missed
    declined := a.declined }

end LlmScaler.WarmPool
