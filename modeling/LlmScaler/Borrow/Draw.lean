import LlmScaler.Core.Time
import LlmScaler.Budget.Merge
import LlmScaler.Nodes.Shape

/-!
# Borrowed capacity

The figures of cohort borrowing: a cohort's free GPUs of one flavor (a shared chunk), what a
namespace may draw of them past its guaranteed figure, what Kueue lets it reclaim within it, and
the draws a pass orders. Counts are integers, so that a figure below zero would show.
-/

namespace LlmScaler.Borrow

open LlmScaler.Core LlmScaler.Nodes LlmScaler.Accelerator

/-- How a namespace's growth within its reclaiming queues' nominal splits. -/
structure Reclaim where
  after : Int
  /-- The part of it the queues keep unused, taken first. -/
  kept : Int
  gpus : Int
  needsHole : Bool := false
  deriving DecidableEq, Repr, Inhabited

namespace Reclaim

variable (r o : Reclaim)

/-- `Reclaim{}`. -/
def zero : Reclaim := ⟨0, 0, 0, false⟩

/-- `pool`: the part of `after` the cohort's free pool covers. -/
def pool : Int := max 0 (r.after - max 0 r.kept)

/-- `sub`: less another's, each figure clamped at 0, `kept` at most `after`. -/
def sub : Reclaim where
  after := max 0 (r.after - o.after)
  kept := min (max 0 (r.after - o.after)) (max 0 (r.kept - o.kept))
  gpus := max 0 (r.gpus - o.gpus)
  needsHole := r.needsHole

/-- `add`: plus another's. -/
def add : Reclaim := ⟨r.after + o.after, r.kept + o.kept, r.gpus + o.gpus, false⟩

/-- `atMost`: each figure at most another's. -/
def atMost : Reclaim := ⟨min r.after o.after, min r.kept o.kept, min r.gpus o.gpus, false⟩

/-- `exempt`: whether a replica grown next is Kueue's to reclaim whole. -/
def exempt (g : Int) : Bool := !r.needsHole && r.after ≤ 0 && g ≤ r.gpus

/-- The part of `after` a replica grown next takes. -/
def takeAfter (g : Int) : Int := min g (max 0 r.after)

/-- `take`: what a replica grown next consumes. -/
def take (g : Int) : Reclaim where
  after := r.takeAfter g
  kept := min (r.takeAfter g) (max 0 r.kept)
  gpus := min (g - r.takeAfter g) (max 0 r.gpus)

theorem pool_nonneg : 0 ≤ r.pool := le_max_left _ _

end Reclaim

/-- Capacity ordered for one variant in one pass: GPUs drawn from a shared chunk, or growth within
a reclaiming queue's nominal. -/
structure BorrowDraw where
  ns : String
  modelID : String
  variant : String
  cohort : String := ""
  flavor : String := ""
  resource : String := ""
  gpus : Int
  replicas : Int
  target : Int
  placement : Option FlavorPlacement := none
  orderedAt : Time := none
  resolvedAt : Time := none
  /-- The GPUs re-placed on the variant's own draw in flight. -/
  creditGPUs : Int := 0
  creditReplicas : Int := 0
  reclaim : Bool := false
  after : Int := 0
  kept : Int := 0
  /-- The part of `after` re-placed on the variant's own entry. -/
  creditAfter : Int := 0
  creditKept : Int := 0
  accelerator : String := ""
  noHole : Bool := false
  closesRestricted : Bool := false
  wake : Bool := false

structure InFlightKey where
  ns : String
  variant : String
  cohort : String
  flavor : String
  resource : String
  reclaim : Bool
  deriving DecidableEq, Repr

namespace BorrowDraw

variable (d : BorrowDraw)

/-- `keyOfDraw`. -/
def key : InFlightKey := ⟨d.ns, d.variant, d.cohort, d.flavor, d.resource, d.reclaim⟩

/-- `reclaimOf`: a reclaim entry's growth. -/
def reclaimOf : Reclaim := ⟨d.after, d.kept, d.gpus, false⟩

/-- `drawAccelerator`: the accelerator a draw's pods run on, empty when none is named. -/
def drawAccelerator : String :=
  if d.accelerator ≠ "" then d.accelerator
  else match d.placement with
    | some f => f.acceleratorType
    | none => ""

/-- The GPUs an entry takes of its chunk's free pool. -/
def poolGPUs : Int := if d.reclaim then d.reclaimOf.pool else d.gpus

end BorrowDraw

/-- GPUs a model may borrow only when its priority is below the lender's. -/
structure PriorityLend where
  queue : String
  below : Int
  gpus : ℕ
  deriving DecidableEq, Repr

/-- One cohort's free GPUs of one flavor and resource. -/
structure SharedPoolChunk extends FlavorPlacement where
  cohort : String
  flavor : String
  resource : String
  free : Int
  readAt : Time
  pendingGPUs : Int
  /-- The cohort's free pool of each other resource of the flavor's group. -/
  coFree : GoMap String Int
  restricted : List PriorityLend
  classPriority : GoMap String Int
  borrowed : Int
  borrowerPriority : Option Int
  /-- The restricted part is closed for the rest of the pass. -/
  restrictedClosed : Bool

def priorityClassNone : String := "none"

/-- `Reclaims` for a lender on `LowerPriority`: it outranks the borrower. -/
def reclaimsLower (lender borrower : Int) : Bool := borrower < lender

namespace SharedPoolChunk

variable (c : SharedPoolChunk)

/-- `key`: a chunk across providers that read the same cohort. -/
def key : String := c.cohort ++ "/" ++ c.flavor ++ "/" ++ c.resource

/-- The chunk's names. -/
def id : String × String × String := (c.cohort, c.flavor, c.resource)

/-- `serves`: a replica on the accelerator may be placed into the chunk. -/
def serves (acc : String) : Bool := c.acceleratorType = "" || sameName c.acceleratorType acc

/-- `heldAbove`: the chunk is borrowed at a priority the lender does not outrank. -/
def heldAbove (r : PriorityLend) : Bool :=
  0 < c.borrowed && match c.borrowerPriority with
    | none => true
    | some p => !reclaimsLower r.below p

def priorityOf (cls : String) (fallback : Option Int) : Option Int :=
  if cls = priorityClassNone then
    match c.classPriority.find? cls, fallback with
    | known, none => known
    | none, some f => some f
    | some p, some f => some (max p f)
  else c.classPriority.find? cls

/-- Whether a restricted lender's GPUs are closed to a class. -/
def closedTo (cls : String) (fallback : Option Int) (r : PriorityLend) : Bool :=
  c.restrictedClosed || c.heldAbove r || match c.priorityOf cls fallback with
    | none => true
    | some p => !reclaimsLower r.below p

/-- `drawable`: what a model of the class may draw on the chunk. -/
def drawable (cls : String) (fallback : Option Int) : Int :=
  max 0 (c.free - ((c.restricted.filter (c.closedTo cls fallback)).map fun r => (r.gpus : Int)).sum)

/-- `readAfter`: the snapshot was read after a time. -/
def readAfter (t : Time) : Bool := t.isSome && c.readAt.isSome && c.readAt.after t

/-- The chunk a draw is on. -/
def holds (d : BorrowDraw) : Bool :=
  c.cohort = d.cohort && c.flavor = d.flavor && c.resource = d.resource

end SharedPoolChunk

/-- One namespace's borrowing figures for one accelerator type. -/
structure NamespaceBorrow where
  /-- The GPUs past the guaranteed figure it may reach, `⊤` when only the pool bounds it. -/
  cap : ℕ∞
  /-- What peers borrow of its guaranteed figure and Kueue preempts them for. -/
  lentOut : Int
  /-- The guaranteed growth Kueue admits before it preempts. -/
  preemptAfter : Int
  preemptKept : Int
  frozen : Bool
  /-- How far its queues may still grow each co-resource. -/
  coHeadroom : GoMap String Int
  coKept : GoMap String Int
  highestPriority : Option Int
  flavors : List String

/-- The nominal figures of a namespace that is read and not counted. -/
structure NominalFigures where
  /-- What peers borrow of its nominal and Kueue preempts them for. -/
  lentOut : Int
  preemptAfter : Int
  preemptKept : Int
  /-- What it reaches whatever the free pool holds, `⊤` when unbounded. -/
  guaranteed : ℕ∞
  flavors : List String
  coHeadroom : GoMap String Int

/-- What borrowing reads of one provider's constraints. -/
structure BorrowConstraints where
  namespacePools : GoMap String Budget.Pools
  /-- The borrowing figures of each namespace, `none` when it counts no borrowing. -/
  namespaceBorrow : Option (GoMap String (GoMap String NamespaceBorrow))
  /-- The nominal figures of each namespace read and not counted. -/
  namespaceNominal : GoMap String (GoMap String NominalFigures)
  sharedPools : List SharedPoolChunk
  namespaceCohorts : GoMap String (List String)

/-- `HasBorrowing`: some constraint counts cohort borrowing. -/
def hasBorrowing (constraints : List BorrowConstraints) : Bool :=
  constraints.any fun c => c.namespaceBorrow.isSome

end LlmScaler.Borrow
