import LlmScaler.Borrow.Deduct
import LlmScaler.Nodes.InFlight

/-!
# The record of draws in flight

Draws and reclaims a pass or a wake ordered and Kueue has not reserved yet, kept across cycles and
keyed by variant and chunk. Replicas whose pods exist leave an entry and lag until a read shows
them; an entry whose target goes back is cut. Each figure of an entry is shared per replica,
rounded up.
-/

namespace LlmScaler.Borrow

open LlmScaler.Core LlmScaler.Nodes

structure BorrowInFlight where
  entries : GoMap InFlightKey BorrowDraw
  /-- The resolved draws, held until a read after they resolved. -/
  lagging : List BorrowDraw
  gated : GoMap String (GoMap String Int)
  admitted : List AdmittedGPUs
  cycleAt : Time
  wakeReclaims : List BorrowDraw

def BorrowInFlight.new : BorrowInFlight := ⟨∅, [], ∅, [], none, []⟩

/-- One variant's replica counts as a cycle sees them. -/
structure VariantObservation where
  current : Int
  desired : Int
  deriving DecidableEq, Repr

/-- `ceilDiv`; the division rounds toward zero. -/
def ceilDiv (a b : Int) : Int := if b ≤ 0 then a else (a + b - 1).tdiv b

namespace BorrowDraw

variable (d : BorrowDraw)

/-- `namespace/variant`. -/
def variantKey : String := d.ns ++ "/" ++ d.variant

/-- A figure of the draw shared among `n` of its replicas, rounded up. -/
def part (n v : Int) : Int := min v (n * ceilDiv v d.replicas)

/-- `replicasOf`: the draw cut to `n` of its replicas. -/
def replicasOf (n : Int) : BorrowDraw :=
  { d with
    replicas := n
    gpus := d.part n d.gpus
    after := d.part n d.after
    kept := min (d.part n d.after) (d.part n d.kept)
    creditReplicas := min d.creditReplicas n
    creditGPUs := min d.creditGPUs (d.part n d.gpus)
    creditAfter := min d.creditAfter (d.part n d.after)
    creditKept := min d.creditKept (min (d.part n d.after) (d.part n d.kept)) }

/-- `TrimmedTo`: the draw cut to a target, unless nothing is left. -/
def trimmedTo (target : Int) : Option BorrowDraw :=
  if d.target - target ≤ 0 then some d
  else if d.replicas ≤ d.target - target then none
  else some { d.replicasOf (d.replicas - (d.target - target)) with target := target }

/-- The replicas that now exist: what they take of the draw, at a time. -/
def resolved (missing now : Int) : BorrowDraw :=
  { d with
    replicas := d.replicas - missing
    gpus := d.gpus - (d.replicasOf missing).gpus
    after := d.after - (d.replicasOf missing).after
    kept := min (d.after - (d.replicasOf missing).after)
      (max 0 (d.kept - (d.replicasOf missing).kept))
    resolvedAt := some now }

/-- A draw without its credits, ordered at a time. -/
def uncredited (now : Int) : BorrowDraw :=
  { d with
    orderedAt := some now
    resolvedAt := none
    gpus := d.gpus - d.creditGPUs
    replicas := d.replicas - d.creditReplicas
    after := d.after - d.creditAfter
    kept := max 0 (d.kept - d.creditKept)
    creditGPUs := 0
    creditReplicas := 0
    creditAfter := 0
    creditKept := 0 }

/-- A draw on top of the entry its variant has on the chunk. -/
def onTopOf (prev : BorrowDraw) : BorrowDraw :=
  { d with
    gpus := d.gpus + prev.gpus
    after := d.after + prev.after
    kept := d.kept + prev.kept
    replicas := d.replicas + prev.replicas
    target := max d.target prev.target
    orderedAt := prev.orderedAt
    closesRestricted := d.closesRestricted || prev.closesRestricted
    noHole := d.noHole || prev.noHole }

end BorrowDraw

namespace BorrowInFlight

variable (b : BorrowInFlight)

def entryFor (entries : GoMap InFlightKey BorrowDraw) (now : Int) (d : BorrowDraw) : BorrowDraw :=
  match entries.find? d.key with
  | none => d.uncredited now
  | some prev => (d.uncredited now).onTopOf prev

def recordDraw (now : Int) (entries : GoMap InFlightKey BorrowDraw) (d : BorrowDraw) :
    GoMap InFlightKey BorrowDraw :=
  if ((entryFor entries now d).gpus ≤ 0 ∧ (entryFor entries now d).after ≤ 0) ∨
      (entryFor entries now d).replicas ≤ 0 then entries
  else entries.set d.key (entryFor entries now d)

/-- `RecordAt`: add a pass's draws. -/
def recordAt (draws : List BorrowDraw) (now : Int) : BorrowInFlight :=
  { b with entries := draws.foldl (recordDraw now) b.entries }

/-- What an observation makes of an entry: what stays in flight and what lags. -/
def observeDraw (observed : GoMap String VariantObservation) (now : Int) (d : BorrowDraw) :
    Option BorrowDraw × List BorrowDraw :=
  if d.orderedAt.expired now inFlightTTL then (none, [])
  else match observed.find? d.variantKey with
    | none => if d.wake then (some d, []) else (none, [])
    | some o =>
      if !d.wake && (0 < o.desired && o.desired < d.target) then (none, [])
      else if d.replicas ≤ max 0 (d.target - o.current) then (some d, [])
      else
        (if max 0 (d.target - o.current) = 0 then none
          else some (d.replicasOf (max 0 (d.target - o.current))),
         if 0 < (d.resolved (max 0 (d.target - o.current)) now).gpus ∨
            0 < (d.resolved (max 0 (d.target - o.current)) now).after then
           [d.resolved (max 0 (d.target - o.current)) now]
         else [])

/-- `ObserveAt`: settle the record against a cycle's replica counts. -/
def observeAt (observed : GoMap String VariantObservation) (now : Int) : BorrowInFlight :=
  { b with
    entries := b.entries.entries.foldl (fun es e =>
      match (observeDraw observed now e.2).1 with
      | none => es.delete e.1
      | some d => es.set e.1 d) b.entries
    lagging := (b.lagging.filter fun d =>
        observed.has d.variantKey && !d.resolvedAt.expired now inFlightTTL) ++
      b.entries.entries.flatMap fun e => (observeDraw observed now e.2).2 }

/-- `Trim`: lower the draws to the targets decided this cycle. -/
def trim (targets : GoMap String Int) : BorrowInFlight :=
  { b with
    entries := b.entries.entries.foldl (fun es e =>
      match targets.find? e.2.variantKey with
      | none => es
      | some t =>
        if e.2.wake then es
        else match e.2.trimmedTo t with
          | none => es.delete e.1
          | some d => es.set e.1 d) b.entries }

def keyOrder (k : InFlightKey) :
    String ×ₗ String ×ₗ String ×ₗ String ×ₗ String ×ₗ Bool :=
  toLex (k.ns, toLex (k.variant, toLex (k.cohort, toLex (k.flavor, toLex (k.resource, k.reclaim)))))

/-- `entriesLocked`: the entries in a stable order. -/
def sortedEntries : List BorrowDraw :=
  ((Sorting.byKey keyOrder).sort b.entries.keys).filterMap b.entries.find?

/-- `Unreserved`: what the record holds that a read may not show yet. -/
def unreserved (now : Int) : Unreserved where
  inFlight := (b.sortedEntries.filter fun d => !d.orderedAt.expired now inFlightTTL) ++
    b.lagging.filter fun d => !d.resolvedAt.expired now inFlightTTL
  gated := if b.cycleAt.expired now inFlightTTL then ∅ else b.gated
  admitted := if b.cycleAt.expired now inFlightTTL then [] else b.admitted

def wakeEntry (now : Int) (d : BorrowDraw) : BorrowDraw :=
  { d with orderedAt := some now, resolvedAt := none, wake := true }

/-- The record after one of a wake's entries: only when it holds none for the variant and chunk. -/
def recordWakeDraw (now : Int) (b : BorrowInFlight) (d : BorrowDraw) : BorrowInFlight :=
  if b.entries.has d.key || d.gpus ≤ 0 || d.replicas ≤ 0 then b
  else
    { b with
      entries := b.entries.set d.key (wakeEntry now d)
      wakeReclaims := if d.reclaim then b.wakeReclaims ++ [wakeEntry now d] else b.wakeReclaims }

/-- `RecordWake`: add a wake's entries. -/
def recordWake (draws : List BorrowDraw) (now : Int) : BorrowInFlight :=
  draws.foldl (recordWakeDraw now)
    { b with wakeReclaims := b.wakeReclaims.filter fun d => !d.orderedAt.expired now inFlightTTL }

end BorrowInFlight

end LlmScaler.Borrow
