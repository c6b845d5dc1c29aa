import LlmScaler.Core.Sorting
import LlmScaler.Core.Tally
import LlmScaler.Kueue.Lender
import LlmScaler.Kueue.Reason

/-!
# What a queue could reach in its cohort

From one read of the ClusterQueues: per cohort, flavor and GPU resource the free pool the members
lend, and per queue what it reaches without the cohort, how far past that it could borrow, and how
the growth of a queue Kueue reclaims for splits into what is admitted at once and what peers are
preempted for. Figures are whole GPUs.
-/

namespace LlmScaler.Kueue

open LlmScaler.Core

/-- `MaxQuotaValue`: the largest finite cap. -/
def maxQuotaValue : Int := 2 ^ 20

def clampQuota (n : Int) : Int := if n > maxQuotaValue then maxQuotaValue else n

def addCapped (a b : Int) : Int := clampQuota (a + b)

structure ResourceKey where
  flavor : String
  resource : String
  deriving DecidableEq, Repr

def ResourceKey.order (k : ResourceKey) : String ×ₗ String := toLex (k.flavor, k.resource)

/-- One queue's quota and reservation of one flavor and GPU resource. The reader takes no negative
quantity. -/
structure QueueResource where
  nominal : ℕ
  /-- The lending limit; everything is lent when it is unset. -/
  lendingLimit : Option ℕ
  borrowingLimit : Option ℕ
  reserved : ℕ
  borrowed : ℕ
  deriving DecidableEq, Repr

namespace QueueResource

variable (r : QueueResource)

/-- `lent`: what the queue lends. -/
def lent : Int :=
  match r.lendingLimit with
  | some limit => min (max limit 0) r.nominal
  | none => r.nominal

/-- `lent`: what it keeps. -/
def kept : Int := r.nominal - r.lent

/-- `unused`: what it lends and does not use itself. -/
def unused : Int := max 0 (r.nominal - max (r.reserved : Int) r.kept)

/-- `keptFree`: what it keeps and does not use. -/
def keptFree : Int := max 0 (r.kept - r.reserved)

end QueueResource

/-- What borrowing reads of one ClusterQueue. -/
structure QueueState where
  name : String
  cohort : String
  reclaim : ReclaimPolicy
  hasStatus : Bool
  fairSharing : Bool
  effectiveQuotas : Bool
  inactive : Bool
  malformed : Bool
  admissionChecks : Bool
  borrowWithinCohort : Bool
  resources : GoMap ResourceKey QueueResource

/-- `CanReclaim`: the queue may preempt any borrower to get its nominal back. -/
def QueueState.canReclaim (q : QueueState) : Bool := reclaims q.reclaim none none

structure CohortState where
  parent : String
  hasResourceGroups : Bool

/-- One read of everything borrowing depends on. -/
structure Topology where
  queues : GoMap String QueueState
  cohorts : GoMap String CohortState
  cohortsUnreadable : Bool
  topologyName : GoMap String String
  versionUntested : Bool
  versionUnknown : Bool
  lendersUnreadable : Bool
  named : ∀ name q, queues.find? name = some q → q.name = name

def reasonIf (b : Bool) (r : Reason) : Option Reason := if b then some r else none

def globalReason (t : Topology) (stale : Bool) : Option Reason :=
  precedence [reasonIf stale .stale, reasonIf t.lendersUnreadable .lendersUnreadable,
    reasonIf t.versionUnknown .kueueVersionUnknown, reasonIf t.versionUntested .kueueVersionUntested]

/-- The reasons one member withholds its cohort's borrowing for. -/
def memberReasons (t : Topology) (q : QueueState) : List (Option Reason) :=
  [reasonIf (!q.hasStatus) .noStatus, reasonIf q.effectiveQuotas .effectiveQuotas,
    reasonIf q.fairSharing .fairSharing] ++
  q.resources.keys.map (fun key => reasonIf (t.topologyName.get key.flavor != "") .topologyAware) ++
  [reasonIf q.admissionChecks .admissionChecks, reasonIf q.malformed .malformed,
    reasonIf q.borrowWithinCohort .borrowWithinCohort]

/-- `withheldReason`: why borrowing cannot be counted anywhere in a cohort. -/
def withheldReason (t : Topology) (cohort : String) (qs : List QueueState) (stale : Bool) :
    Option Reason :=
  precedence ([globalReason t stale, reasonIf t.cohortsUnreadable .hierarchyUnknown,
    reasonIf (match t.cohorts.find? cohort with
      | some c => c.parent != "" || c.hasResourceGroups
      | none => false) .hierarchicalCohort] ++
    t.cohorts.entries.map (fun e => reasonIf (e.2.parent == cohort) .hierarchicalCohort) ++
    qs.flatMap (memberReasons t))

def members (t : Topology) (cohort : String) : List QueueState :=
  (t.queues.entries.map Sigma.snd).filter fun q => q.cohort != "" && q.cohort == cohort

/-- Why a queue's borrowing is not counted. -/
def queueReason (t : Topology) (stale : Bool) (q : QueueState) : Option Reason :=
  let own := if q.cohort = "" then precedence [globalReason t stale, some .noCohort]
    else withheldReason t q.cohort (members t q.cohort) stale
  if q.inactive then precedence [own, some .inactive] else own

def declared (qs : List QueueState) (key : ResourceKey) : List QueueResource :=
  qs.filterMap fun q => q.resources.find? key

/-- `cohortFree`: the free pool of a key, inactive members included. -/
def cohortFree (qs : List QueueState) (key : ResourceKey) : Int :=
  clampQuota (max 0 (((declared qs key).map QueueResource.lent).sum -
    ((declared qs key).map fun r => max 0 ((r.reserved : Int) - r.kept)).sum))

/-- What a queue reaches past its base: the free pool, up to its borrowing limit. -/
def topOf (r : QueueResource) (free : Int) : Int :=
  let top := addCapped (max (r.reserved : Int) r.kept) free
  match r.borrowingLimit with
  | some limit => min top (addCapped r.nominal (max limit 0))
  | none => top

/-- `reach`: a counted queue's guaranteed and borrowable figures. -/
def reach (q : QueueState) (r : QueueResource) (free : Int) : Int × Int :=
  if q.canReclaim then (r.nominal, max (topOf r free) r.nominal - r.nominal)
  else
    let guaranteed := min (r.nominal : Int) (max (r.reserved : Int) r.kept)
    (guaranteed, max 0 (topOf r free - guaranteed))

/-- `withinNominal`: what a counted queue could reach without borrowing. -/
def withinNominal (q : QueueState) (r : QueueResource) (free : Int) : Int :=
  if q.canReclaim then r.nominal
  else min r.nominal (addCapped (max (r.reserved : Int) r.kept) free)

/-- How a reclaiming queue's growth up to its nominal splits. -/
structure Reclaimable where
  lentOut : Int
  after : Int
  keptPart : Int

def reclaimable (q : QueueState) (r : QueueResource) (free borrowed : Int) : Reclaimable :=
  if q.canReclaim then
    let fromPool := min r.unused free
    ⟨min borrowed (r.unused - fromPool), r.keptFree + fromPool, r.keptFree⟩
  else ⟨0, 0, 0⟩

def peers (qs : List QueueState) (self : String) : List QueueState :=
  qs.filter fun q => q.name != self

/-- `peersBorrowed`: what the other members borrow of a key. -/
def peersBorrowed (qs : List QueueState) (self : String) (key : ResourceKey) : Int :=
  (declared (peers qs self) key).foldl (fun n r => addCapped n (max 0 r.borrowed)) 0

/-- What one queue could reach for one key. -/
structure QueueFigures where
  key : ResourceKey
  nominal : Int
  /-- The part of the reach that does not depend on the cohort. -/
  guaranteed : Int
  borrowable : Int
  borrowCap : Option ℕ
  withinNominal : Int
  /-- What peers borrow of its unused nominal and Kueue would preempt them for. -/
  lentOut : Int
  preemptAfter : Int
  preemptKept : Int
  cohortFree : Int
  kueueBorrowed : ℕ
  reason : Option Reason
  guaranteedReason : Option Reason

def countedFigures (qs : List QueueState) (q : QueueState) (key : ResourceKey)
    (r : QueueResource) : QueueFigures :=
  let free := Kueue.cohortFree qs key
  let split := reclaimable q r free (peersBorrowed qs q.name key)
  { key := key
    nominal := r.nominal
    guaranteed := (reach q r free).1
    borrowable := (reach q r free).2
    borrowCap := r.borrowingLimit
    withinNominal := Kueue.withinNominal q r free
    lentOut := split.lentOut
    preemptAfter := split.after
    preemptKept := split.keptPart
    cohortFree := free
    kueueBorrowed := r.borrowed
    reason := none
    guaranteedReason := if (reach q r free).1 < r.nominal then some .nominalLentOut else none }

def withheldFigures (reason : Reason) (key : ResourceKey) (r : QueueResource) : QueueFigures where
  key := key
  nominal := r.nominal
  guaranteed := r.nominal
  borrowable := 0
  borrowCap := r.borrowingLimit
  withinNominal := r.nominal
  lentOut := 0
  preemptAfter := 0
  preemptKept := 0
  cohortFree := 0
  kueueBorrowed := r.borrowed
  reason := some reason
  guaranteedReason := none

def figuresOf (t : Topology) (stale : Bool) (q : QueueState) (key : ResourceKey)
    (r : QueueResource) : QueueFigures :=
  match queueReason t stale q with
  | some reason => withheldFigures reason key r
  | none => countedFigures (members t q.cohort) q key r

/-- `ComputeBorrowing`: the figures of every queue, by flavor and resource. -/
def computeBorrowing (t : Topology) (stale : Bool) : GoMap String (List QueueFigures) :=
  t.queues.mapValues fun _ q => (Sorting.byKey fun f : QueueFigures => f.key.order).sort
    (q.resources.entries.map fun e => figuresOf t stale q e.1 e.2)

/-- The GPUs by which a queue's computed borrowing differs from Kueue's. -/
def driftOf (q : QueueState) : Int :=
  q.resources.entries.foldl (fun drift e =>
    let computed := max 0 ((e.2.reserved : Int) - e.2.nominal)
    addCapped drift (max (computed - e.2.borrowed) (e.2.borrowed - computed))) 0

/-- `BorrowDrift`: the drift of every queue in a cohort whose reservation Kueue has written. -/
def borrowDrift (t : Topology) : GoMap String Int :=
  (t.queues.deleteFunc fun _ q => q.cohort == "" || !q.hasStatus).mapValues fun _ q => driftOf q

end LlmScaler.Kueue
