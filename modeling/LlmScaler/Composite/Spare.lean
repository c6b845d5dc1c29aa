import LlmScaler.Composite.Frames
import LlmScaler.Optimizer.ScaleDown

/-!
# Bounding what a role releases by every frame

The optimizers release in the units of the frame a role is priced in. Shedding `X` of that sheds at
most `X` times a frame's ratio of another frame's capacity, so the role's spare is capped at the
least any other frame can lose over its ratio, and a second bound at the release target caps the
capacity the optimizers also shed on.
-/

namespace LlmScaler.Composite

open Core Optimizer

/-- `FrameReading`: one analyzer's reading of a role in its own frame. -/
structure FrameReading where
  supply : ℚ
  demand : ℚ
  /-- The most of its capacity a unit of the chosen frame's is worth. -/
  ratio : ℚ

/-- `OtherFrames`: a role's supply in the frame it is priced in and the other frames' readings. -/
structure OtherFrames where
  supply : ℚ
  frames : List FrameReading

/-- `Releasable`: the most of the chosen frame's capacity a role can shed with every other frame
left at or below a utilization. -/
def OtherFrames.releasable (o : OtherFrames) (u : ℚ) : WithTop ℚ :=
  if ¬ 0 < u then ⊤
  else o.frames.foldl (fun out f =>
    if ¬ 0 < f.ratio ∨ ¬ 0 ≤ f.supply ∨ ¬ 0 ≤ f.demand then out
    else min out ((max (f.supply - f.demand / u) 0 / f.ratio : ℚ) : WithTop ℚ)) ⊤

/-- Capacity of one replica of a variant in the frame its role is priced in. -/
def pricedCapacity (r : Result) (v : VariantNeed) : ℚ := prcForVariant r.analyzerResult v.variantName

def frameReading (r : Result) (vs : List VariantNeed) (f : PricingFrame) : FrameReading :=
  vs.foldl (fun reading v =>
    if v.replicas = 0 ∨ ¬ 0 < f.prc v then reading
    else
      { reading with
        supply := reading.supply + v.replicas * f.prc v
        ratio := if 0 < pricedCapacity r v then max reading.ratio (f.prc v / pricedCapacity r v)
          else reading.ratio }) ⟨0, f.demand, 0⟩

def RolePricing.others (p : RolePricing) (chosen : ℕ) : List PricingFrame :=
  (p.frames.zipIdx.filter fun f => f.2 ≠ chosen).map Prod.fst

/-- `otherFrames`: what the frames a role is not priced in read of it, if any sizes it. -/
def otherFrames (p : RolePricing) (r : Result) : Option OtherFrames :=
  match p.chosen with
  | none => none
  | some chosen =>
    if p.frames.length < 2 then none
    else
      let frames := ((p.others chosen).map (frameReading r p.vs)).filter fun f => 0 < f.ratio
      if frames.isEmpty then none
      else some ⟨(p.vs.map fun v => v.replicas * pricedCapacity r v).sum, frames⟩

/-- `NamedAnalyzerResult` as the composite builds it. -/
structure Signal where
  result : Result
  score : ℚ
  scaleUpThreshold : ℚ
  scaleDownBoundary : ℚ
  requiredCapacity : ℚ
  spareCapacity : ℚ
  totalSupply : ℚ
  /-- Figures by role, `none` when the model is not disaggregated. -/
  roleCapacities : Option (GoMap String RoleCapacity)
  releaseBound : GoMap String ℚ
  live : Bool

/-- The composite as an optimizer is given it. -/
def Signal.named (c : Signal) : NamedAnalyzerResult where
  result := some c.result.analyzerResult
  score := c.score
  remaining := c.requiredCapacity
  spare := c.spareCapacity
  roleSpare := ∅
  roleReleasable := ∅
  scaleUpThreshold := c.scaleUpThreshold
  scaleDownBoundary := c.scaleDownBoundary
  totalSupply := c.totalSupply
  roleCapacities := c.roleCapacities
  releaseBound := c.releaseBound
  live := c.live

/-- `ReleaseTargetUtilization`. -/
def Signal.releaseTarget (c : Signal) : ℚ := c.named.releaseTargetUtilization

/-- The smaller of a figure and a bound that may be infinite. -/
def capped (x : ℚ) : WithTop ℚ → ℚ
  | ⊤ => x
  | (b : ℚ) => min x b

/-- `publish`: a role's bound at the release target; an infinite one is none. -/
def Signal.publish (c : Signal) (role : String) (o : OtherFrames) : Signal :=
  { c with
    releaseBound :=
      match o.releasable c.releaseTarget with
      | ⊤ => c.releaseBound.delete role
      | (b : ℚ) => c.releaseBound.set role b }

def boundModelSpare (scaleDown : ℚ) (c : Signal) (p : RolePricing) : Signal :=
  if p.role ≠ roleBoth then c
  else
    match otherFrames p c.result with
    | none => c
    | some o =>
      { c with spareCapacity := capped c.spareCapacity (o.releasable scaleDown) }.publish p.role o

/-- The bound of one role's spare, and whether it lowered one. -/
def boundRoleSpare (scaleDown : ℚ) (st : GoMap String RoleCapacity × Signal × Bool)
    (p : RolePricing) : GoMap String RoleCapacity × Signal × Bool :=
  match st.1.find? p.role with
  | none => st
  | some rc =>
    match otherFrames p st.2.1.result with
    | none => st
    | some o =>
      let c := st.2.1.publish p.role o
      if o.releasable scaleDown < rc.spareCapacity then
        (st.1.set p.role { rc with spareCapacity := capped rc.spareCapacity (o.releasable scaleDown) },
          c, true)
      else (st.1, c, st.2.2)

def boundAllSpare (c : Signal) (pricings : List RolePricing) (scaleDown : ℚ) : Signal :=
  match c.roleCapacities with
  | none => pricings.foldl (boundModelSpare scaleDown) c
  | some caps =>
    if caps.entries.isEmpty then pricings.foldl (boundModelSpare scaleDown) c
    else
      let st := pricings.foldl (boundRoleSpare scaleDown) (caps, c, false)
      let c := { st.2.1 with roleCapacities := some st.1 }
      if st.2.2 then
        { c with
          spareCapacity := min c.spareCapacity (st.1.entries.map fun rc => rc.2.spareCapacity).sum }
      else c

end LlmScaler.Composite
