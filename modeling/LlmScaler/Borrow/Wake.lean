import LlmScaler.Core.Run
import LlmScaler.Borrow.Chunks

/-!
# What a wake takes of the pools

A scale-from-zero wake grows its namespace replica by replica: past the guaranteed figure by draws
on the shared chunks, within it into what Kueue admits before preempting and then into what it
reclaims. Each part becomes an entry of the record, from which the next decision deducts it. An
entry without GPUs of its own is not recorded, though a reclaim entry may take GPUs of the pool all
the same.
-/

namespace LlmScaler.Borrow

open LlmScaler.Core LlmScaler.Accelerator

structure WakeReplica where
  variant : String
  accelerator : String
  gpus : ℕ
  deriving DecidableEq, Repr

/-- The GPUs a replica is counted for, one at least. -/
def WakeReplica.size (r : WakeReplica) : ℕ := max r.gpus 1

/-- What a wake has left of one accelerator type. -/
structure TypeState where
  /-- A constraint carries the namespace's borrowing figures. -/
  read : Bool
  limit : ℕ∞
  used : ℕ
  reclaim : Reclaim
  /-- Its cohort's chunks, each with what the wake has left free of it. -/
  chunks : List (SharedPoolChunk × Int)

section Read

variable (constraints : List BorrowConstraints) (ns : String)

def borrowOf (c : BorrowConstraints) : Option (GoMap String NamespaceBorrow) :=
  c.namespaceBorrow.bind fun m => m.find? ns

def addFlavors (own : GoMap String (List String)) (t : String) (flavors : List String) :
    GoMap String (List String) :=
  if flavors.isEmpty then own
  else own.set t (flavors.foldl (fun l f => if l.contains f then l else l ++ [f]) (own.get t))

/-- `ownFlavorsOf`: the flavors the namespace's own queues offer each type on. -/
def ownFlavorsOf : GoMap String (List String) :=
  constraints.foldl (fun own c =>
    (c.namespaceNominal.get ns).entries.foldl (fun own e => addFlavors own e.1 e.2.flavors)
      (((borrowOf ns c).getD ∅).entries.foldl (fun own e => addFlavors own e.1 e.2.flavors) own)) ∅

/-- One entry's reclaim figures, the cautious ones of two. -/
def cautious (got : Option Reclaim) (lentOut after kept : Int) : Option Reclaim :=
  match got with
  | none => some ⟨after, min kept after, lentOut, false⟩
  | some r => some ⟨max r.after after, min r.kept kept, min r.gpus lentOut, r.needsHole⟩

/-- `reclaimFor`: the namespace's reclaim of a type, as the constraints read it. -/
def reclaimFor (acc : String) : Reclaim :=
  (constraints.foldl (fun got c =>
    match findKey ((borrowOf ns c).getD ∅) acc with
    | some k => match ((borrowOf ns c).getD ∅).find? k with
      | some b => cautious got b.lentOut b.preemptAfter b.preemptKept
      | none => got
    | none => match findKey (c.namespaceNominal.get ns) acc with
      | some k => match (c.namespaceNominal.get ns).find? k with
        | some f => cautious got f.lentOut f.preemptAfter f.preemptKept
        | none => got
      | none => got) none).getD .zero

/-- The pool of a constraint that reads the namespace's figures of a type. -/
def readPool (acc : String) (c : BorrowConstraints) : Option Budget.ResourcePool :=
  if (borrowOf ns c).isNone && !c.namespaceNominal.has ns then none
  else (findKey (c.namespacePools.get ns) acc).bind fun k => (c.namespacePools.get ns).find? k

/-- The guaranteed figure of a type: a namespace read and not counted has its queues'. -/
def guaranteedOf (acc : String) (c : BorrowConstraints) (p : Budget.ResourcePool) : ℕ∞ :=
  if (borrowOf ns c).isSome then p.limit
  else match (findKey (c.namespaceNominal.get ns) acc).bind
      fun k => (c.namespaceNominal.get ns).find? k with
    | some f => f.guaranteed
    | none => p.limit

/-- The chunks of a constraint a replica of the type may draw on. -/
def wakeChunks (acc : String) (c : BorrowConstraints) : List SharedPoolChunk :=
  c.sharedPools.filter fun p => (c.namespaceCohorts.get ns).contains p.cohort && p.serves acc &&
    match findKey (ownFlavorsOf constraints ns) acc with
    | some k => ((ownFlavorsOf constraints ns).get k).isEmpty ||
        ((ownFlavorsOf constraints ns).get k).contains p.flavor
    | none => true

/-- What earlier wakes of the tick grew the type by. -/
def priorOf (prior : GoMap String ℕ) (acc : String) : ℕ :=
  match findKey prior acc with
  | some k => prior.get k
  | none => 0

/-- The reclaim left for the tick, with what the constraints read before preempting. -/
def wakeReclaim (reclaim : GoMap String Reclaim) (acc : String) : Reclaim :=
  match findKey reclaim acc with
  | some k => ⟨(reclaimFor constraints ns acc).after, (reclaimFor constraints ns acc).kept,
      (reclaim.get k).gpus, (reclaim.get k).needsHole⟩
  | none => ⟨(reclaimFor constraints ns acc).after, (reclaimFor constraints ns acc).kept, 0, false⟩

/-- A type's state before the wake: the first constraint that reads it counts. -/
def typeState (prior : GoMap String ℕ) (reclaim : GoMap String Reclaim) (acc : String) :
    TypeState :=
  match constraints.findSome? fun c => (readPool ns acc c).map fun p => (c, p) with
  | some (c, p) => ⟨true, guaranteedOf ns acc c p, p.used + priorOf prior acc,
      wakeReclaim constraints ns reclaim acc,
      (wakeChunks constraints ns acc c).map fun ch => (ch, ch.free)⟩
  | none => ⟨false, 0, priorOf prior acc, wakeReclaim constraints ns reclaim acc, []⟩

end Read

/-- The part of a replica past the guaranteed figure. -/
def TypeState.past (s : TypeState) (g : ℕ) : ℕ :=
  if s.limit = ⊤ then 0
  else (s.used + g - s.limit.toNat) - (s.used - s.limit.toNat)

/-- What a replica takes within the guaranteed figure. -/
def TypeState.takes (s : TypeState) (g : ℕ) : Reclaim := s.reclaim.take (g - s.past g)

section Wake

variable (constraints : List BorrowConstraints) (ns modelID : String) (prior : GoMap String ℕ)
  (reclaim : GoMap String Reclaim)

/-- The draws of a replica's part past the guaranteed figure, first chunk first, and what they
leave. -/
def drawPast (r : WakeReplica) : Int → List (SharedPoolChunk × Int) →
    List BorrowDraw × List (SharedPoolChunk × Int)
  | _, [] => ([], [])
  | pool, (ch, free) :: rest =>
    if pool ≤ 0 then ([], (ch, free) :: rest)
    else if min pool free ≤ 0 then
      ((drawPast r pool rest).1, (ch, free) :: (drawPast r pool rest).2)
    else
      ({ ns := ns, modelID := modelID, variant := r.variant, cohort := ch.cohort,
         flavor := ch.flavor, resource := ch.resource, gpus := min pool free, replicas := 1,
         target := 1, placement := some ch.toFlavorPlacement, wake := true } ::
          (drawPast r (pool - min pool free) rest).1,
        (ch, free - min pool free) :: (drawPast r (pool - min pool free) rest).2)

/-- The reclaim entry of a replica, named after the first chunk; none when it takes nothing. -/
def wakeReclaimEntry (r : WakeReplica) (s : TypeState) (took : Reclaim) (noHole : Bool) :
    List BorrowDraw :=
  if 0 < took.gpus ∨ 0 < took.after then
    [{ ns := ns, modelID := modelID, variant := r.variant,
       cohort := (s.chunks.head?.map fun p => p.1.cohort).getD "",
       flavor := (s.chunks.head?.map fun p => p.1.flavor).getD "",
       resource := (s.chunks.head?.map fun p => p.1.resource).getD "",
       gpus := took.gpus, after := took.after, kept := took.kept, replicas := 1, target := 1,
       reclaim := true, accelerator := r.accelerator, wake := true, noHole := noHole }]
  else []

/-- The types a wake has seen, and the entries it emitted. -/
structure WakeState where
  /-- The state of each type, under the name it was first seen by. -/
  states : List (String × TypeState)
  out : List BorrowDraw

/-- The order a Go map of type states is read in: any. -/
abbrev Iteration := Sorting fun _ _ : String × TypeState => false

variable (it : Iteration)

/-- The state a replica's type has, under its name: one seen before, or a new one. -/
def WakeState.stateOf (w : WakeState) (r : WakeReplica) : String × TypeState :=
  ((it.sort w.states).find? fun p => sameName p.1 r.accelerator).getD
    (r.accelerator, typeState constraints ns prior reclaim r.accelerator)

def WakeState.put (w : WakeState) (k : String) (s : TypeState) : List (String × TypeState) :=
  if w.states.any fun p => p.1 = k then
    w.states.map fun p => if p.1 = k then (k, s) else p
  else w.states ++ [(k, s)]

def TypeState.grown (s : TypeState) (r : WakeReplica) : TypeState :=
  { s with
    used := s.used + r.size
    reclaim := s.reclaim.sub (s.takes r.size)
    chunks := (drawPast ns modelID r (s.past r.size) s.chunks).2 }

def TypeState.entries (s : TypeState) (r : WakeReplica) : List BorrowDraw :=
  (drawPast ns modelID r (s.past r.size) s.chunks).1 ++
    wakeReclaimEntry ns modelID r s (s.takes r.size)
      (s.past r.size = 0 && s.reclaim.exempt r.size)

def wakeStep (w : WakeState) (r : WakeReplica) : WakeState :=
  if (w.stateOf constraints ns prior reclaim it r).2.read then
    ⟨w.put (w.stateOf constraints ns prior reclaim it r).1
        ((w.stateOf constraints ns prior reclaim it r).2.grown ns modelID r),
      w.out ++ (w.stateOf constraints ns prior reclaim it r).2.entries ns modelID r⟩
  else
    ⟨w.put (w.stateOf constraints ns prior reclaim it r).1
      (w.stateOf constraints ns prior reclaim it r).2, w.out⟩

/-- `WakeDraws`: what a wake takes that the next read does not show yet. -/
def wakeDraws (reps : List WakeReplica) : List BorrowDraw :=
  (runFrom (wakeStep constraints ns modelID prior reclaim it) ⟨[], []⟩ reps).out

end Wake

end LlmScaler.Borrow
