import LlmScaler.Core.Sorting
import LlmScaler.Core.Time
import LlmScaler.Nodes.Shape

/-!
# The node view

One cycle's picture of free GPUs per node. Every placement debits the nodes it lands on and is
charged to the owner set at the time; the pods of an exclusive-topology replica share one domain,
which the view keeps as taken. A clone, on which a placement is tried, records no owner: adopting
it charges what it added to the owner of that moment. Debits and charges are integers, so that a
figure that went below zero would show.
-/

namespace LlmScaler.Nodes

open LlmScaler.Core

structure NodeView where
  slots : List NodeSlot
  debit : GoMap ℕ Int
  owner : String
  /-- What each owner was charged per node; a clone has none. -/
  owned : Option (GoMap String (GoMap ℕ Int))
  takenAt : Time
  /-- The topology domains taken, each with the owner it was charged to. -/
  domains : GoMap String String

namespace NodeView

/-- `newNodeViewAt`: the view of a snapshot. -/
def new (slots : List NodeSlot) (takenAt : Time) : NodeView :=
  ⟨slots, ∅, "", some ∅, takenAt, ∅⟩

variable (v : NodeView)

/-- `free`: the GPUs of a node not used nor debited. -/
def free (i : ℕ) : Int :=
  max 0 ((slotAt v.slots i).capacity - (slotAt v.slots i).used - v.debit.get i)

/-- `Clone`: an independent copy that records no owners. -/
def clone : NodeView := { v with owner := "", owned := none }

/-- `setOwner`: who later debits are charged to. -/
def setOwner (owner : String) : NodeView := { v with owner := owner }

/-- `record`: charge the GPUs of a node to the owner. -/
def record (i : ℕ) (g : Int) : NodeView :=
  { v with owned := v.owned.map fun m => m.modify v.owner fun perNode =>
      perNode.modify i fun n => n + g }

/-- `charge`: debit the GPUs of a node, charged to the owner. -/
def charge (i : ℕ) (g : Int) : NodeView :=
  { v.record i g with debit := v.debit.modify i fun n => n + g }

def chargeAll (taken : GoMap ℕ Int) : NodeView :=
  (taken.keys.insertionSort (· ≤ ·)).foldl (fun v i => v.charge i (taken.get i)) v

/-- `takeDomain`: charge a topology domain to the owner. -/
def takeDomain (id : String) : NodeView := { v with domains := v.domains.set id v.owner }

/-- `domainTaken`: the domain holds a group already. -/
def domainTaken (key d : String) : Bool :=
  v.domains.has (domainID key d) || grouped v.slots key d

end NodeView

structure PodFit where
  gpus : ℕ
  nodes : List ℕ
  deriving DecidableEq, Repr

namespace NodeView

variable (v : NodeView)

/-- `podFits`: the pods that take GPUs, largest first, each with its nodes. -/
def podFits (r : ReplicaFit) : List PodFit :=
  (Sorting.byKey fun p : PodFit => -(p.gpus : Int)).sort
    ((r.pods.zipIdx.filter fun (g, _) => 0 < g).map fun (g, i) =>
      ⟨g, eligibleFor v.slots r (podTemplates r i)⟩)

/-- The smaller of the hole found so far and node `i`'s, of those that hold the pod. -/
def betterHole (taken : GoMap ℕ Int) (need : ℕ) (key domain : String) (best : Option (ℕ × Int))
    (i : ℕ) : Option (ℕ × Int) :=
  if domain ≠ "" ∧ labelAt v.slots i key ≠ domain then best
  else if v.free i - taken.get i < need then best
  else match best with
    | some (_, bestFree) =>
      if bestFree ≤ v.free i - taken.get i then best else some (i, v.free i - taken.get i)
    | none => some (i, v.free i - taken.get i)

/-- The smallest hole among a pod's nodes that holds it, the first of equal ones. -/
def smallestHole (taken : GoMap ℕ Int) (p : PodFit) (key domain : String) : Option (ℕ × Int) :=
  p.nodes.foldl (v.betterHole taken p.gpus key domain) none

/-- The loop of `bestFit`, over what the pods before took. -/
def bestFitFrom (key domain : String) : GoMap ℕ Int → List PodFit → Option (GoMap ℕ Int)
  | taken, [] => some taken
  | taken, p :: pods =>
    match v.smallestHole taken p key domain with
    | none => none
    | some (best, _) => bestFitFrom key domain (taken.modify best fun n => n + p.gpus) pods

/-- `bestFit`: the GPUs taken per node, unless some pod fits nowhere. -/
def bestFit (pods : List PodFit) (key domain : String) : Option (GoMap ℕ Int) :=
  v.bestFitFrom key domain ∅ pods

/-- Whether the replica's pods must share one domain of their own. -/
def exclusive (r : ReplicaFit) : Bool := r.domain ≠ "" && 1 < (v.podFits r).length

/-- The loop of `place` over the domains, in label-value order. -/
def placeIn (r : ReplicaFit) : List String → NodeView × Bool
  | [] => (v, false)
  | d :: ds =>
    if v.domainTaken r.domain d then placeIn r ds
    else match v.bestFit (v.podFits r) r.domain d with
      | none => placeIn r ds
      | some taken => ((v.chargeAll taken).takeDomain (domainID r.domain d), true)

/-- `place`: fit the replica's pods onto the nodes, and whether every pod fit. -/
def place (r : ReplicaFit) : NodeView × Bool :=
  if v.podFits r = [] then (v, true)
  else if v.exclusive r then
    v.placeIn r (domainsOf v.slots ((v.podFits r).flatMap PodFit.nodes) r.domain)
  else match v.bestFit (v.podFits r) r.domain "" with
    | none => (v, false)
    | some taken => (v.chargeAll taken, true)

/-- The charges of `adopt`: what the copy added on each node. -/
def recordAdded (c : NodeView) : NodeView :=
  c.debit.keys.foldl (fun v' i => if c.debit.get i - v.debit.get i = 0 then v'
    else v'.record i (c.debit.get i - v.debit.get i)) v

/-- `adopt`: take a clone's debits and domains, charged to the owner. -/
def adopt (c : NodeView) : NodeView :=
  c.domains.keys.foldl (fun v' id => if v'.domains.has id then v' else v'.takeDomain id)
    { v.recordAdded c with debit := c.debit }

/-- A sequence of placements on a trial copy, until one does not fit. -/
def placeSome : NodeView → List ReplicaShape → NodeView × Bool
  | v, [] => (v, true)
  | v, r :: rs =>
    match v.place (fitOf v.slots r) with
    | (v', true) => placeSome v' rs
    | (_, false) => (v, false)

/-- `PlaceReplicas`: whether every replica fits, committed when asked and they do. -/
def placeReplicas (reps : List ReplicaShape) (commit : Bool) : NodeView × Bool :=
  match placeSome v.clone reps with
  | (trial, true) => (if commit then v.adopt trial else v, true)
  | (_, false) => (v, false)

/-- The freest of the nodes and what it has free, the first of equal ones. -/
def freest (nodes : List ℕ) : Option (ℕ × Int) :=
  nodes.foldl (fun most i => match most with
    | some (_, f) => if f < v.free i then some (i, v.free i) else most
    | none => if 0 < v.free i then some (i, v.free i) else none) none

/-- The loop of `Reserve`: the freest node first, each in one piece. -/
def reserveFrom (nodes : List ℕ) : ℕ → NodeView → ℕ → NodeView
  | 0, v, _ => v
  | fuel + 1, v, gpus =>
    if gpus = 0 then v
    else match v.freest nodes with
      | none => v
      | some (most, mostFree) =>
        reserveFrom nodes fuel (v.charge most (min mostFree gpus)) (gpus - mostFree.toNat)

/-- `Reserve`: hold GPUs of the accelerator on the freest nodes, charged to the owner. -/
def reserve (owner acc : String) (gpus : ℕ) : NodeView :=
  (reserveFrom (eligible v.slots acc [] true) gpus (v.setOwner owner) gpus).setOwner v.owner

/-- The statements `debit[i] -= g` and, when nothing is left, `delete(debit, i)`. -/
def giveBackNode (debit : GoMap ℕ Int) (i : ℕ) (g : Int) : GoMap ℕ Int :=
  if debit.get i - g ≤ 0 then debit.delete i else debit.set i (debit.get i - g)

/-- The debits less what one owner was charged. -/
def giveBack (debit perNode : GoMap ℕ Int) : GoMap ℕ Int :=
  perNode.entries.foldl (fun d e => giveBackNode d e.1 e.2) debit

def giveBackOwners (owned : GoMap String (GoMap ℕ Int)) (named : String → Bool)
    (debit : GoMap ℕ Int) : GoMap ℕ Int :=
  (owned.entries.filter fun e => named e.1).foldl (fun d e => giveBack d e.2) debit

/-- `without`: a copy with what the named owners were charged taken back. -/
def without (exclude : String → Bool) : NodeView :=
  { v.clone with
    debit := giveBackOwners (v.owned.getD ∅) exclude v.debit
    domains := v.domains.deleteFunc fun _ owner => exclude owner }

/-- `DebitsExcept`: the GPUs debited on a node for every owner not named. -/
def debitsExcept (exclude : String → Bool) (i : ℕ) : Int :=
  (((v.owned.getD ∅).entries.filter fun e => !exclude e.1).map fun e => e.2.get i).sum

end NodeView

end LlmScaler.Nodes
