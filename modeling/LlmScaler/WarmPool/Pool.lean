import Mathlib

/-!
# The warm pool as observed

A pool Pod holds several models, of which at most some are awake. One membership is one model in
one Pod; an empty Pod is listed by a placeholder whose variant is the empty string. Where a
membership is served from, its tier and its pool's name are read by nothing that decides.
-/

namespace LlmScaler.WarmPool

/-- `types.NamespacedName`: a Pod's namespace and name. -/
structure NamespacedName where
  ns : String
  name : String
  deriving DecidableEq, Repr

/-- `NamespacedName.String`: the name as it is compared. -/
def NamespacedName.string (p : NamespacedName) : String := p.ns ++ "/" ++ p.name

/-- What an instance in a Pod is doing. -/
inductive State where
  | absent
  | loading
  | asleep
  | waking
  | serving
  | draining
  deriving DecidableEq, Repr

/-- The states in which an instance keeps its Pod from serving a wake. -/
def State.busy : State → Bool
  | .loading | .waking | .serving | .draining => true
  | .absent | .asleep => false

structure ModelRef where
  ns : String
  variant : String
  /-- The engine's options, from which its shape is read. -/
  engineOptions : String
  accelerator : String
  /-- The selector of its inference pool, which only demand knows. -/
  poolLabels : List (String × String)
  deriving DecidableEq, Repr

structure PodCapacity where
  gpus : Int
  memoryLimitBytes : Int
  accelerator : String
  podsPerGroup : Int
  deriving DecidableEq, Repr

def PodCapacity.zero : PodCapacity := ⟨0, 0, "", 0⟩

/-- One model in one Pod. -/
structure Membership where
  model : ModelRef
  pod : NamespacedName
  state : State
  lastUsed : Int
  capacity : PodCapacity
  deriving DecidableEq, Repr

/-- `Free`: every instance of the Pod is asleep and none is loading. -/
def isFree (inPod : List Membership) : Bool := inPod.all fun m => !m.state.busy

/-- The entry `ByPod(all)[pod]`: the memberships of one Pod. -/
def inPod (all : List Membership) (pod : NamespacedName) : List Membership :=
  all.filter fun m => m.pod = pod

/-- The keys of `ByPod(all)`. -/
def pods (all : List Membership) : List NamespacedName := (all.map Membership.pod).dedup

/-- `Resident`: the models held in a Pod, without the placeholder of an empty one. -/
def resident (inPod : List Membership) : Nat := inPod.countP fun m => m.model.variant ≠ ""

/-- Whether a Pod's memberships name the variant. -/
def holds (inPod : List Membership) (variant : String) : Bool :=
  inPod.any fun m => m.model.variant = variant

/-- What an engine needs, read from its options. -/
structure Shape where
  /-- The host memory of a sleeping instance, zero when it cannot be worked out. -/
  hostBytes : Int
  gpus : Int
  pods : Int
  deriving DecidableEq, Repr

/-- `Shape.Known`: the memory could be worked out. -/
def Shape.known (s : Shape) : Bool := 0 < s.hostBytes

/-- `AcceleratorMismatch`: why a copy of a model wanting one accelerator is useless on another. -/
def acceleratorMismatch (wanted held : String) : Option String :=
  if wanted = "" ∨ held = "" ∨ wanted = held then none
  else some ("needs " ++ wanted ++ ", this Pod is on " ++ held)

variable {all : List Membership} {m : Membership} {pod : NamespacedName} {variant : String}

@[simp] theorem mem_inPod : m ∈ inPod all pod ↔ m ∈ all ∧ m.pod = pod := by
  simp [inPod]

@[simp] theorem mem_pods : pod ∈ pods all ↔ ∃ m ∈ all, m.pod = pod := by
  simp [pods]

theorem nodup_pods (all : List Membership) : (pods all).Nodup := List.nodup_dedup _

@[simp] theorem isFree_iff {l : List Membership} :
    isFree l = true ↔ ∀ m ∈ l, m.state.busy = false := by
  simp [isFree]

@[simp] theorem holds_iff {l : List Membership} :
    holds l variant = true ↔ ∃ m ∈ l, m.model.variant = variant := by
  simp [holds]

end LlmScaler.WarmPool
