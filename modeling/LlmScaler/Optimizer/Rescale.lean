import LlmScaler.Composite.Spare
import LlmScaler.Optimizer.WaterFill

/-!
# Driving one model to its rescale target

In a contended group every model is given a GPU target. Its roles split the target; a role above
its share gives up whole replicas, the most expensive first, and one below it is filled, the most
cost-efficient first, from the GPUs free this cycle. With a node view the fills must also land on
nodes: what does not place goes back to the free GPUs.
-/

namespace LlmScaler.Composite

/-- `OtherFrames.Demand`: the demand an optimizer sizing at utilization `u` reads as keeping what
every other frame needs. -/
def OtherFrames.demandAt (o : OtherFrames) (u : ℚ) : ℚ :=
  match o.releasable u with
  | none => 0
  | some rel => if ¬ 0 < o.supply then 0 else u * max (o.supply - rel) 0

end LlmScaler.Composite

namespace LlmScaler.Optimizer

open Core Budget Accelerator Composite

/-- `RoleHold`: what the composite forbids a role. -/
structure RoleHold where
  noScaleUp : Bool := false
  noScaleDown : Bool := false
  deriving DecidableEq, Inhabited

/-- A request with what rescale alone reads of its signal. -/
structure RescaleRequest extends ModelScalingRequest where
  holds : GoMap String RoleHold
  otherFrames : GoMap String OtherFrames
  /-- A namespace has a name: the empty one stands for the cluster where budgets are listed. -/
  named : ns ≠ ""

/-- `modelKey`: identity of a model across namespaces. -/
def modelKey (req : ModelScalingRequest) : String := req.ns ++ "/" ++ req.modelID

/-- `singleAccType`: the first spelling of the accelerator all variants share. -/
def singleAccType (vcs : List VariantRecord) : Option String :=
  match vcs.filter fun vc => vc.acceleratorName ≠ "" with
  | [] => none
  | first :: rest =>
    if rest.all fun vc => sameName first.acceleratorName vc.acceleratorName then
      some first.acceleratorName
    else none

/-- `variantsOnType`: the variants on an accelerator. -/
def variantsOnType (vcs : List VariantRecord) (accType : String) : List VariantRecord :=
  vcs.filter fun vc => sameName vc.acceleratorName accType

/-- The variants of a request on an accelerator, the only ones rescale moves. -/
def rescaleModel (req : ModelScalingRequest) (accType : String) : Model :=
  let records := variantsOnType (recordsForRequest req) accType
  ⟨req.ns, records, buildStateMap req.variantStates, rolesOf records⟩

section Reading

variable (m : Model)

def Model.stateOf (vc : VariantRecord) : VariantReplicaState := m.stateMap.get vc.variantName

/-- A figure of each variant summed, times its GPUs. -/
def Model.sumGPUs (variants : List VariantRecord) (replicas : VariantReplicaState → ℕ) : ℕ :=
  (variants.map fun vc => replicas (m.stateOf vc) * m.gpus vc.variantName).sum

/-- `roleCurrentGPUs`: GPUs the role's replicas have. -/
def roleCurrentGPUs (role : String) : ℕ :=
  m.sumGPUs (variantsForRole m.records role) (·.currentReplicas)

/-- `roleFloorGPUs`: GPUs the role's least replicas have. -/
def roleFloorGPUs (role : String) : ℕ :=
  m.sumGPUs (variantsForRole m.records role) (·.minReplicas.getD 0)

def bounded (st : VariantReplicaState) : Bool := decide (0 < st.maxReplicas.getD 0)

/-- `roleCeilingGPUs`: GPUs the variants' most replicas have, 0 when one of them is unbounded. -/
def ceilingGPUs (variants : List VariantRecord) : ℕ :=
  if variants.all fun vc => bounded (m.stateOf vc) then m.sumGPUs variants (·.maxReplicas.getD 0)
  else 0

def modelCurrentGPUs : ℕ := m.sumGPUs m.records (·.currentReplicas)

def fillable (role : String) : List VariantRecord :=
  (variantsForRole m.records role).filter fun vc => 0 < vc.perReplicaCapacity

/-- `roleReplicaStepGPUs`: fewest GPUs a replica of a fillable variant takes, 0 without one. -/
def roleReplicaStepGPUs (role : String) : ℕ :=
  (((fillable m role).map fun vc => m.gpus vc.variantName).min?).getD 0

/-- `uniformReplicaGPUs`: every fillable variant of the role takes the same GPUs. -/
def uniformReplicaGPUs (role : String) : Bool :=
  match (fillable m role).map fun vc => m.gpus vc.variantName with
  | [] => true
  | g :: rest => rest.all (· == g)

/-- `ceilToReplica`: GPUs rounded up to whole replicas. -/
def ceilToReplica (gpus g : ℕ) : ℕ := if g = 0 then gpus else (gpus + g - 1) / g * g

def demandForRoleOrModel (nr : NamedAnalyzerResult) (role : String) : ℚ :=
  match nr.result with
  | none => 0
  | some r =>
    if canonicalRole role = roleBoth then r.totalDemand
    else
      match nr.roleCapacities.bind (·.find? role) with
      | some rc => rc.totalDemand
      | none => r.totalDemand

def RescaleRequest.otherFrameDemand (req : RescaleRequest) (role : String) (u : ℚ) : ℚ :=
  match req.otherFrames.find? role with
  | none => 0
  | some o => o.demandAt u

/-- `rescaleRoleDemand`: a role's demand raised to what another analyzer keeps. -/
def rescaleRoleDemand (req : RescaleRequest) (role : String) : ℚ :=
  max (demandForRoleOrModel req.compositeSignal role) (req.otherFrameDemand role 1)

variable (sort : CostSorting) (req : RescaleRequest)

/-- `bestVariantForRole`: the most cost-efficient variant with a capacity reading. -/
def bestVariantForRole (role : String) : Option VariantRecord :=
  (sort.sort (variantsForRole m.records role)).find? fun vc => 0 < vc.perReplicaCapacity

/-- `roleDemandGPUs`: GPUs that serve a role's demand on its best variant. -/
def roleDemandGPUs (role : String) : ℕ :=
  match bestVariantForRole m sort role with
  | none => 0
  | some best => replicasForDemand (rescaleRoleDemand req role) best.perReplicaCapacity *
      m.gpus best.variantName

def RescaleRequest.mayNotShrink (role : String) : Bool := (req.holds.get role).noScaleDown

/-- The floor of a role: what it has when it may not shrink. -/
def heldFloorGPUs (role : String) : ℕ :=
  if req.mayNotShrink role then max (roleFloorGPUs m role) (roleCurrentGPUs m role)
  else roleFloorGPUs m role

/-- `pinnedModel`: some role is held both ways. -/
def pinnedModel : Bool := req.holds.entries.any fun h => h.2.noScaleUp && h.2.noScaleDown

/-- A role's demand under its ceiling. -/
def roleCapGPUs (role : String) : ℕ :=
  let d := roleDemandGPUs m sort req role
  let c := ceilingGPUs m (variantsForRole m.records role)
  if 0 < c then min d c else d

/-- A model's claim in the water-fill of its group, and the GPUs it can take. -/
def rescaleInputOf (budget : ℕ) : RescaleInput × ℕ :=
  let weigh := (m.roles.map (rescaleRoleDemand req)).sum
  if pinnedModel req then
    let cur := (m.roles.map (roleCurrentGPUs m)).sum
    (⟨modelKey req.toModelScalingRequest, req.priority, weigh, cur, cur⟩, cur)
  else
    let maxBounded := m.records.all fun vc => bounded (m.stateOf vc)
    let floorGPUs := max (m.sumGPUs m.records (·.minReplicas.getD 0))
      (m.roles.map (heldFloorGPUs m req)).sum
    let demandCap := (m.roles.map (roleCapGPUs m sort req)).sum
    let capGPUs :=
      if maxBounded then min demandCap (m.sumGPUs m.records (·.maxReplicas.getD 0)) else demandCap
    let bounded := if maxBounded then capGPUs else min capGPUs budget
    (⟨modelKey req.toModelScalingRequest, req.priority, weigh, floorGPUs, max bounded floorGPUs⟩,
      max capGPUs floorGPUs)

end Reading

/-- `rescaleInputsForGroup`: the claims of a group's models and the GPUs they can take. -/
def rescaleInputsForGroup (sort : CostSorting) (reqs : List RescaleRequest) (accType : String)
    (budget : ℕ) : List RescaleInput × ℕ :=
  let claims := (reqs.filter fun req => req.compositeSignal.result.isSome).map fun req =>
    rescaleInputOf (rescaleModel req.toModelScalingRequest accType) sort req budget
  (claims.map Prod.fst, (claims.map Prod.snd).sum)

/-- Replicas to reclaim of one variant. `before` are the variants tried before it. -/
def reclaimOf (m : Model) (before : List VariantRecord) (isLast : Bool) (remaining : ℕ)
    (targets : GoMap String ℕ) (vc : VariantRecord) : ℕ :=
  let current := targets.get vc.variantName
  let least := ((m.stateMap.find? vc.variantName).bind (·.minReplicas)).getD 0
  if vc.perReplicaCapacity ≤ 0 ∨ current ≤ least then 0
  else
    let n := min (remaining / m.gpus vc.variantName) (current - least)
    if isLast ∧ current - n < 1 ∧ anyHasReplicas before targets = false then current - 1 else n

/-- `scaleDownVariantSet` as `reclaimRole` calls it: the GPUs still to be reclaimed and the
targets. -/
def reclaimVariants (m : Model) : List VariantRecord → List VariantRecord →
    ℕ × GoMap String ℕ → ℕ × GoMap String ℕ
  | _, [], st => st
  | before, vc :: rest, (remaining, targets) =>
    let n := reclaimOf m before rest.isEmpty remaining targets vc
    let st :=
      if n = 0 then (remaining, targets)
      else (remaining - n * m.gpus vc.variantName,
        targets.set vc.variantName (targets.get vc.variantName - n))
    reclaimVariants m (before ++ [vc]) rest st

section Reclaim

variable (release : ReleaseSorting) (req : RescaleRequest) (m : Model)

/-- `reclaimRole`: the GPUs a role gives up, of those asked for, and the targets. -/
def reclaimRole (role : String) (targets : GoMap String ℕ) (deltaGPUs : ℕ) :
    ℕ × GoMap String ℕ :=
  let shed := reclaimVariants m []
    ((release req.compositeSignal).sort (variantsForRole m.records role)) (deltaGPUs, targets)
  (deltaGPUs - shed.1, shed.2)

def cutOf (tgt cur : String → ℕ) (role : String) : ℕ :=
  if req.mayNotShrink role then 0 else cur role - tgt role

/-- What a role can give up of its cut; with a share it keeps its last replica. -/
def canGive (tgt cur : String → ℕ) (targets : GoMap String ℕ) (role : String) : ℕ :=
  let keep := if 0 < tgt role then max (roleReplicaStepGPUs m role) 1 else 0
  min (cutOf req tgt cur role) (reclaimRole release req m role targets (cur role - keep)).1

structure Reclaiming where
  targets : GoMap String ℕ
  shed : GoMap String ℕ
  total : ℕ

def Reclaiming.give (st : Reclaiming) (role : String) (deltaGPUs : ℕ) : Reclaiming :=
  let given := reclaimRole release req m role st.targets deltaGPUs
  ⟨given.2, st.shed.modify role (· + given.1), st.total - given.1⟩

/-- `reclaimWholeReplicas`: the roles above their shares give up whole replicas, each within its
own cut first, then what is left of the cuts together. -/
def reclaimWholeReplicas (tgt cur : String → ℕ) (targets : GoMap String ℕ) : GoMap String ℕ :=
  let cut := cutOf req tgt cur
  let cutRoles := m.roles.filter fun role => 0 < cut role
  let total := (cutRoles.map (canGive release req m tgt cur targets)).sum
  if total = 0 then targets
  else
    let own := cutRoles.foldl (fun (st : Reclaiming) role =>
      st.give release req m role (cut role)) ⟨targets, ∅, total⟩
    if cutRoles.any fun role => !uniformReplicaGPUs m role then own.targets
    else
      let left := fun (st : Reclaiming) role => cut role - st.shed.get role
      let order := (Sorting.byKey fun role => OrderDual.toDual (left own role)).sort m.roles
      (order.foldl (fun (st : Reclaiming) role =>
        if st.total = 0 ∨ left own role = 0 then st
        else st.give release req m role
          (min st.total (ceilToReplica (left own role) (roleReplicaStepGPUs m role)))) own).targets

end Reclaim

section Fill

variable (sort : CostSorting) (m : Model)

/-- One variant of a fill: replicas while the GPUs wanted and its ceiling hold one more. -/
def fillVariant (wantGPUs : ℕ) (st : ℕ × GoMap String ℕ) (vc : VariantRecord) :
    ℕ × GoMap String ℕ :=
  let n := if vc.perReplicaCapacity ≤ 0 then 0 else
    atMost ((wantGPUs - st.1) / m.gpus vc.variantName)
      (headroom (m.stateOf vc) (st.2.get vc.variantName))
  if n = 0 then st
  else (st.1 + n * m.gpus vc.variantName, st.2.modify vc.variantName (· + n))

/-- `fillRole`: the GPUs a role's new replicas take, of those wanted, and the targets. -/
def fillRole (role : String) (targets : GoMap String ℕ) (wantGPUs : ℕ) : ℕ × GoMap String ℕ :=
  (sort.sort (variantsForRole m.records role)).foldl (fillVariant m wantGPUs) (0, targets)

/-- `roleShareCeilings`: the most of a model's GPUs a role may be given. -/
def roleShareCeilings (dem uncapped : String → ℕ) (role : String) : Option ℕ :=
  let byDemand := m.roles.any fun role => 0 < dem role
  let c := ceilingGPUs m (variantsForRole m.records role)
  let own := if 0 < c then some c else none
  if byDemand then
    let bound := max (dem role) (uncapped role)
    match own with
    | some c => some (if bound < c then bound else c)
    | none => some bound
  else own

structure Rounding where
  tgt : GoMap String ℕ
  trial : GoMap String ℕ
  cut : GoMap String ℕ
  leftover : ℕ

/-- A growing role's share lowered to what it can place. -/
def Rounding.lower (cur : String → ℕ) (st : Rounding) (role : String) : Rounding :=
  let want := st.tgt.get role - cur role
  if want = 0 then st
  else
    let placed := fillRole sort m role st.trial want
    let cut := want - placed.1
    ⟨st.tgt.modify role (· - cut), placed.2, st.cut.set role cut, st.leftover + cut⟩

/-- What was cut spent on whole replicas of a role. -/
def Rounding.spend (dem : String → ℕ) (cut : GoMap String ℕ) (st : Rounding) (role : String) :
    Rounding :=
  if st.leftover = 0 then st
  else
    let limit := max (dem role - st.tgt.get role)
      (ceilToReplica (cut.get role) (roleReplicaStepGPUs m role))
    let extra := fillRole sort m role st.trial (min st.leftover limit)
    ⟨st.tgt.modify role (· + extra.1), extra.2, st.cut, st.leftover - extra.1⟩

/-- `roundFillsToReplicas`: the shares of the growing roles in whole replicas. -/
def roundFillsToReplicas (tgt : GoMap String ℕ) (cur dem : String → ℕ)
    (targets : GoMap String ℕ) : GoMap String ℕ :=
  let lowered := m.roles.foldl (Rounding.lower sort m cur) ⟨tgt, targets, ∅, 0⟩
  let order := (Sorting.byKey fun role => OrderDual.toDual (lowered.cut.get role)).sort m.roles
  (order.foldl (Rounding.spend sort m dem lowered.cut) lowered).tgt

/-- `roleGrowth`: replicas a fill added to a variant. -/
structure RoleGrowth where
  variant : String
  n : ℕ
  deriving DecidableEq

/-- What a role's fill added, in the order it added it. -/
def grownBy (role : String) (before after : GoMap String ℕ) : List RoleGrowth :=
  ((sort.sort (variantsForRole m.records role)).map fun vc =>
    (⟨vc.variantName, after.get vc.variantName - before.get vc.variantName⟩ : RoleGrowth)).filter
      fun g => 0 < g.n

/-- The state of a model's fills. -/
structure Fills where
  targets : GoMap String ℕ
  free : ℕ
  grown : List (String × List RoleGrowth)

/-- A role below its share is filled from the free GPUs. -/
def fillOne (req : RescaleRequest) (tgt cur : String → ℕ) (st : Fills) (role : String) : Fills :=
  if tgt role ≤ cur role ∨ (req.holds.get role).noScaleUp then st
  else
    let filled := fillRole sort m role st.targets (min (tgt role - cur role) st.free)
    ⟨filled.2, st.free - filled.1, st.grown ++ [(role, grownBy sort m role st.targets filled.2)]⟩

end Fill

section Nodes

variable {ν : Type*} (ops : NodeOps ν) (m : Model) (grown : List (String × List RoleGrowth))

/-- Replicas a role's fill added. -/
def wantOf (growths : List RoleGrowth) : ℕ := (growths.map (·.n)).sum

def filling : List (String × List RoleGrowth) := grown.filter fun g => 0 < wantOf g.2

/-- The variant of a fill's replica, counting in the order added. -/
def replicaAt : List RoleGrowth → ℕ → String
  | [], _ => ""
  | g :: rest, i => if i < g.n then g.variant else replicaAt rest (i - g.n)

/-- The fill furthest behind its share of what is placed. -/
def nextFill (placed : GoMap String ℕ) (fills : List (String × List RoleGrowth)) :
    Option (String × List RoleGrowth) :=
  fills.foldl (fun next f =>
    if wantOf f.2 ≤ placed.get f.1 then next
    else
      match next with
      | none => some f
      | some l =>
        if placed.get f.1 * wantOf l.2 < placed.get l.1 * wantOf f.2 then some f else next) none

structure Placing (ν : Type*) where
  trial : ν
  placed : GoMap String ℕ
  placedVariant : GoMap String ℕ

/-- One replica of the fill furthest behind is placed, until none is left or one does not
place. -/
def placeFill (st : Placing ν) : Pass (Placing ν) :=
  match nextFill st.placed (filling grown) with
  | none => .stop st
  | some f =>
    let v := replicaAt f.2 (st.placed.get f.1)
    match ops.place st.trial (m.shape v) with
    | none => .stop st
    | some trial => .again ⟨trial, st.placed.modify f.1 (· + 1), st.placedVariant.modify v (· + 1)⟩

def placeFills (view : ν) : Placing ν :=
  loop (placeFill ops m grown) (((filling grown).map fun f => wantOf f.2).sum + 1) ⟨view, ∅, ∅⟩

/-- Whether only part of a pair placed. -/
def halfPair (placed : GoMap String ℕ) : Bool :=
  decide (1 < (filling grown).length) && (filling grown).any fun f => placed.get f.1 == 0

/-- What does not place is taken back off the targets, and its GPUs are returned. -/
def takeBack (placedVariant : GoMap String ℕ) (st : ℕ × GoMap String ℕ) (g : RoleGrowth) :
    ℕ × GoMap String ℕ :=
  let back := g.n - placedVariant.get g.variant
  if back = 0 then st else (st.1 + back * m.gpus g.variant, st.2.modify g.variant (· - back))

/-- `fitRescaleToNodes`: the GPUs returned, the targets and the nodes. A model filling several
roles grows only if each of them placed a replica. -/
def fitRescaleToNodes (nodes : Option ν) (targets : GoMap String ℕ) :
    ℕ × GoMap String ℕ × Option ν :=
  match nodes with
  | none => (0, targets, none)
  | some view =>
    let placing := placeFills ops m grown view
    let half := halfPair grown placing.placed
    let back := ((filling grown).flatMap Prod.snd).foldl
      (takeBack m (if half then ∅ else placing.placedVariant)) (0, targets)
    (back.1, back.2, some (if half then view else placing.trial))

end Nodes

structure Rescaled (ν : Type*) where
  targets : GoMap String ℕ
  free : ℕ
  nodes : Option ν

section Model

variable {ν : Type*} (ops : NodeOps ν) (sort : CostSorting) (release : ReleaseSorting)

/-- The shares of a model's roles and the targets after reclaiming. A model with a role held both
ways keeps what it has. -/
def rescaleShares (req : RescaleRequest) (m : Model) (targetGPUs : ℕ) :
    (String → ℕ) × GoMap String ℕ :=
  let targets := initTargets req.variantStates
  let cur := roleCurrentGPUs m
  if pinnedModel req then (cur, targets)
  else
    let dem := roleDemandGPUs m sort req
    let floors := heldFloorGPUs m req
    let uncapped := distributeGPUsByWeight targetGPUs m.roles dem cur floors fun _ => none
    let shares := distributeGPUsByWeight targetGPUs m.roles dem cur floors
      (roleShareCeilings m dem uncapped.get)
    let tgt := roundFillsToReplicas sort m shares cur dem targets
    (tgt.get, reclaimWholeReplicas release req m tgt.get cur targets)

/-- `rescaleModelDecisions`: one model driven to its target. -/
def rescaleModelDecisions (req : RescaleRequest) (accType : String) (targetGPUs free : ℕ)
    (nodes : Option ν) : Rescaled ν :=
  let m := rescaleModel req.toModelScalingRequest accType
  let shares := rescaleShares sort release req m targetGPUs
  let fills := m.roles.foldl (fillOne sort m req shares.1 (roleCurrentGPUs m))
    ⟨shares.2, free, []⟩
  let fitted := fitRescaleToNodes ops m fills.grown nodes fills.targets
  ⟨fitted.2.1, fills.free + fitted.1, fitted.2.2⟩

end Model

end LlmScaler.Optimizer
