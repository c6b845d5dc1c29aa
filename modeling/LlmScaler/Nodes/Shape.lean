import LlmScaler.Core.GoMap
import LlmScaler.Accelerator.Name

/-!
# Nodes and replicas

What the node view reads of a node and of a replica, and on which nodes a pod may land: the
accelerator, the taints its template tolerates, its template's selector and affinity, and the
node labels of the Kueue flavor it is admitted on. Nodes are named by their position in the
snapshot.
-/

namespace LlmScaler.Nodes

open LlmScaler.Core LlmScaler.Accelerator

/-- A `corev1.Taint` that keeps pods off a node. -/
structure Taint where
  key : String
  value : String
  effect : String
  deriving DecidableEq, Repr

/-- A `corev1.Toleration`. -/
structure Toleration where
  key : String
  operator : String
  value : String
  effect : String
  deriving DecidableEq, Repr

/-- `ToleratesTaint`, with the numeric operators off. -/
def Toleration.toleratesTaint (t : Toleration) (taint : Taint) : Bool :=
  (t.effect = "" || t.effect = taint.effect) && (t.key = "" || t.key = taint.key) &&
    (if t.operator = "Exists" then true
     else (t.operator = "" || t.operator = "Equal") && t.value = taint.value)

inductive SelectorOperator where
  | isIn
  | notIn
  | exists
  | doesNotExist
  | gt
  | lt
  deriving DecidableEq, Repr

/-- A `corev1.NodeSelectorRequirement`. -/
structure Requirement where
  key : String
  operator : SelectorOperator
  values : List String
  deriving DecidableEq, Repr

/-- A `corev1.NodeSelectorTerm`; of its match fields only whether there are any is read. -/
structure SelectorTerm where
  matchExpressions : List Requirement
  hasMatchFields : Bool
  deriving DecidableEq, Repr

/-- A pod template's selector and required affinity. -/
structure PodPlacement where
  nodeSelector : GoMap String String
  /-- The required affinity's terms, one of which must hold; empty for no affinity. -/
  requiredNodeAffinity : List SelectorTerm

/-- A Kueue flavor's node placement. -/
structure FlavorPlacement where
  acceleratorType : String
  nodeLabels : GoMap String String
  tolerations : List Toleration

structure NodeSlot where
  name : String
  accelerator : String
  capacity : Int
  used : Int
  unschedulable : Bool
  taints : List Taint
  labels : GoMap String String
  group : Bool

/-- The slot read past the end of the snapshot. -/
def NodeSlot.none : NodeSlot := ⟨"", "", 0, 0, true, [], ∅, false⟩

/-- The GPUs of a node that the snapshot does not show in use. -/
def NodeSlot.unused (n : NodeSlot) : Int := max 0 (n.capacity - n.used)

/-- `eligibleNode`: whether a pod of the accelerator may land on the node. -/
def eligibleNode (n : NodeSlot) (acc : String) (tolerations : List Toleration) (anyTaint : Bool) :
    Bool :=
  !n.unschedulable && (!isAcceleratorResolved acc || sameName n.accelerator acc) &&
    (anyTaint || n.taints.all fun t => tolerations.any fun tol => tol.toleratesTaint t)

/-- `requirementHolds`: one requirement against the node's labels. -/
def requirementHolds (r : Requirement) (labels : GoMap String String) : Bool :=
  match r.operator, labels.find? r.key with
  | .isIn, some val => r.values.contains val
  | .isIn, none => false
  | .notIn, some val => !r.values.contains val
  | .notIn, none => true
  | .exists, val => val.isSome
  | .doesNotExist, val => val.isNone
  | .gt, val => match r.values, val.bind String.toInt? with
    | [want], some got => match want.toInt? with
      | some want => want < got
      | none => false
    | _, _ => false
  | .lt, val => match r.values, val.bind String.toInt? with
    | [want], some got => match want.toInt? with
      | some want => got < want
      | none => false
    | _, _ => false

/-- `termAdmits`: every requirement of the term holds. -/
def termAdmits (reqs : List Requirement) (labels : GoMap String String) : Bool :=
  reqs.all fun r => requirementHolds r labels

def hasLabels (labels selector : GoMap String String) : Bool :=
  selector.entries.all fun e => labels.find? e.1 = some e.2

/-- `templateAdmits`: the selector, and one term of the affinity that is not empty. -/
def templateAdmits (p : PodPlacement) (labels : GoMap String String) : Bool :=
  hasLabels labels p.nodeSelector &&
    (p.requiredNodeAffinity.isEmpty || p.requiredNodeAffinity.any fun term =>
      !(term.matchExpressions.isEmpty && !term.hasMatchFields) &&
        termAdmits term.matchExpressions labels)

/-- `admitsPlacement`: the templates and the flavor's labels. -/
def admitsPlacement (n : NodeSlot) (templates : List PodPlacement)
    (flavorLabels : GoMap String String) : Bool :=
  (templates.all fun t => templateAdmits t n.labels) && hasLabels n.labels flavorLabels

/-- One replica as a decision names it. -/
structure ReplicaShape where
  variant : String
  accelerator : String
  /-- Each pod's GPUs, leader first; empty when not known. -/
  podGPUs : List ℕ
  gpus : ℕ
  tolerations : List Toleration
  /-- The label every pod must share a value of, or empty. -/
  domainKey : String
  placements : List PodPlacement
  flavor : Option FlavorPlacement

/-- One replica as the view places it. -/
structure ReplicaFit where
  acc : String
  pods : List ℕ
  tolerations : List Toleration
  domain : String
  templates : List PodPlacement
  flavor : Option FlavorPlacement

/-- `podTemplates`: the templates pod `i` is judged by. -/
def podTemplates (r : ReplicaFit) (i : ℕ) : List PodPlacement :=
  if r.templates.length ≤ 1 then r.templates
  else if r.templates.length = 2 ∧ 1 < r.pods.length then
    if i = 0 then r.templates.take 1 else r.templates.drop 1
  else []

section Eligible

variable (slots : List NodeSlot)

def slotAt (i : ℕ) : NodeSlot := slots.getD i .none

/-- `eligible`: the nodes a pod of the accelerator may land on. -/
def eligible (acc : String) (tolerations : List Toleration) (anyTaint : Bool) : List ℕ :=
  (List.range slots.length).filter fun i => eligibleNode (slotAt slots i) acc tolerations anyTaint

/-- `eligibleFor`: the nodes a pod judged by the templates may land on, those of its flavor when
it has one. -/
def eligibleFor (r : ReplicaFit) (templates : List PodPlacement) : List ℕ :=
  match r.flavor with
  | none =>
    if templates.isEmpty then eligible slots r.acc r.tolerations false
    else (eligible slots r.acc r.tolerations false).filter fun i =>
      admitsPlacement (slotAt slots i) templates ∅
  | some f => (eligible slots r.acc (r.tolerations ++ f.tolerations) false).filter fun i =>
      admitsPlacement (slotAt slots i) templates f.nodeLabels

/-- `eligibleFit`: the nodes any pod of the replica may land on when which pod it is is not
known. -/
def eligibleFit (r : ReplicaFit) : List ℕ :=
  if 1 < r.templates.length then eligibleFor slots r [] else eligibleFor slots r r.templates

/-- `largest`: the capacity of the largest node of the accelerator. -/
def largest (acc : String) : Int :=
  (eligible slots acc [] true).foldl (fun most i => max most (slotAt slots i).capacity) 0

/-- `replicaPods`: the measured layout when it adds up, one pod when a node could hold it, none
when no node could. -/
def replicaPods (acc : String) (podGPUs : List ℕ) (gpusPerReplica : ℕ) : List ℕ :=
  if podGPUs ≠ [] ∧ podGPUs.sum = gpusPerReplica then podGPUs
  else if largest slots acc < gpusPerReplica then []
  else [gpusPerReplica]

/-- `fitOf`: the shape as the view places it. -/
def fitOf (s : ReplicaShape) : ReplicaFit where
  acc := s.accelerator
  pods := replicaPods slots s.accelerator s.podGPUs s.gpus
  tolerations := s.tolerations
  domain := s.domainKey
  templates := s.placements
  flavor := s.flavor

/-- The value of a node's label, empty when it has none. -/
def labelAt (i : ℕ) (key : String) : String := ((slotAt slots i).labels.find? key).getD ""

/-- `domainsOf`: the values of the label among the nodes, sorted. -/
def domainsOf (nodes : List ℕ) (key : String) : List String :=
  (((nodes.map fun i => labelAt slots i key).filter fun d => d ≠ "").dedup).insertionSort (· ≤ ·)

/-- `groupedDomains`: a group's pod is on a node with this value of the label. -/
def grouped (key d : String) : Bool :=
  slots.any fun n => n.group && (n.labels.find? key).getD "" = d && d ≠ ""

/-- `slotOf`: the position of the node with a name. -/
def slotOf (name : String) : Option ℕ :=
  let i := slots.findIdx fun n => n.name = name
  if i < slots.length then some i else none

end Eligible

/-- `domainID`: a value of a topology label. -/
def domainID (key d : String) : String := key ++ "\x00" ++ d

end LlmScaler.Nodes
