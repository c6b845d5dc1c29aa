import LlmScaler.Optimizer.Request

/-!
# Pricing a role in one analyzer's frame

Every listed analyzer reads a role in a frame of its own: a demand, in saturation's units, and a
capacity for one replica of each variant. A role is priced in the frame the replicas it runs cover
least; the capacities the optimizers read are that frame's.
-/

namespace LlmScaler.Composite

open Core Optimizer

/-- `VariantCapacity` as the composite reads it. -/
structure RatedVariant extends VariantCapacity where
  role : String
  replicaCount : ℕ

def roleOfVC (vc : RatedVariant) : String := canonicalRole vc.role

/-- `AnalyzerResult` as the composite reads it. -/
structure Result where
  variantCapacities : List RatedVariant
  totalDemand : ℚ
  /-- Demand on each role, `none` when the model is not disaggregated. -/
  roleDemand : Option (GoMap String ℚ)
  nodup : (variantCapacities.map (·.variantName)).Nodup

/-- The result as the optimizers read it. -/
def Result.analyzerResult (r : Result) : AnalyzerResult where
  variantCapacities := r.variantCapacities.map (·.toVariantCapacity)
  totalDemand := r.totalDemand
  nodup := by
    rw [List.map_map]
    exact r.nodup

def demandForRole (r : Result) (role : String) : Option ℚ :=
  match r.roleDemand with
  | none => if canonicalRole role = roleBoth then some r.totalDemand else none
  | some demand => demand.find? (canonicalRole role)

/-- `rolesPresent`: the distinct roles, in first-seen order. -/
def rolesPresent (vcs : List RatedVariant) : List String :=
  vcs.foldl (fun out vc => if roleOfVC vc ∈ out then out else out ++ [roleOfVC vc]) []

/-- `Decision`: what the listed analyzers need of one variant. -/
structure Decision where
  saturation : Bool
  saturationN : ℚ
  needs : List (String × ℚ)

/-- `variantNeed`: one variant's need as each analyzer reads it. -/
structure VariantNeed where
  /-- The variant, which the source has by its place in the result. -/
  variantName : String
  sat : ℚ
  satOK : Bool
  others : GoMap String ℚ
  replicas : ℕ
  prc : ℚ

def newVariantNeed (vc : RatedVariant) (d : Decision) : VariantNeed where
  variantName := vc.variantName
  sat := d.saturationN
  satOK := d.saturation
  others := d.needs.foldl (fun others n => others.set n.1 n.2) ∅
  replicas := vc.replicaCount
  prc := vc.perReplicaCapacity

/-- `pricingFrame`: one analyzer's view of a role. -/
structure PricingFrame where
  analyzer : String
  demand : ℚ
  deriving DecidableEq

/-- The need of a variant in a frame: an analyzer that does not size it reads it at saturation's
ratio. -/
def PricingFrame.need (f : PricingFrame) (v : VariantNeed) : Option ℚ :=
  if f.analyzer = "" then if v.satOK then some v.sat else none
  else
    match v.others.find? f.analyzer with
    | some n => some n
    | none => if 0 < v.prc then some (f.demand / v.prc) else none

def PricingFrame.prc (f : PricingFrame) (v : VariantNeed) : ℚ :=
  if f.analyzer = "" then v.prc
  else
    match v.others.find? f.analyzer with
    | some n => if 0 < n ∧ 0 < f.demand then f.demand / n else v.prc
    | none => v.prc

/-- The demand of each analyzer but saturation: the largest need in saturation's units. -/
def frameDemands (vs : List VariantNeed) : GoMap String ℚ :=
  vs.foldl (fun demand v => v.others.entries.foldl (fun demand n =>
    let asked := n.2 * v.prc
    if 0 < v.prc ∧ (demand.find? n.1).all (· < asked) then demand.set n.1 asked else demand)
      demand) ∅

/-- `roleFrames`: the frames that size a role. -/
def roleFrames (dSat : ℚ) (vs : List VariantNeed) : List PricingFrame :=
  (if vs.any (·.satOK) then [⟨"", dSat⟩] else []) ++
    ((frameDemands vs).keys.insertionSort (· ≤ ·)).map fun a => ⟨a, (frameDemands vs).get a⟩

/-- `coverage`: how much of a frame's need the running replicas cover. -/
def coverage (vs : List VariantNeed) (f : PricingFrame) : WithTop ℚ :=
  let weighted := vs.any fun v => 0 < v.replicas
  (vs.map fun v =>
    match f.need v with
    | none => 0
    | some n =>
      let w : ℚ := if weighted then v.replicas else 1
      if w = 0 then 0 else if n = 0 then ⊤ else ((w / n : ℚ) : WithTop ℚ)).sum

/-- The place of the lowest figure, the first on a tie. -/
def lowest (figures : List (WithTop ℚ)) : Option ℕ :=
  (figures.zipIdx.foldl (fun (best : Option (ℕ × WithTop ℚ)) c =>
    match best with
    | none => some (c.2, c.1)
    | some b => if c.1 < b.2 then some (c.2, c.1) else some b) none).map Prod.fst

structure RolePricing where
  role : String
  vs : List VariantNeed
  frames : List PricingFrame
  chosen : Option ℕ

/-- A variant priced in another analyzer's frame, when that sizes it. -/
def repriced (f : PricingFrame) (vs : List VariantNeed) (vc : RatedVariant) : RatedVariant :=
  match (vs.find? (·.variantName == vc.variantName)).bind (·.others.find? f.analyzer) with
  | some n => if 0 < n ∧ 0 < f.demand then { vc with perReplicaCapacity := f.demand / n } else vc
  | none => vc

theorem variantName_repriced (f : PricingFrame) (vs : List VariantNeed) (vc : RatedVariant) :
    (repriced f vs vc).variantName = vc.variantName := by
  unfold repriced
  split
  · split_ifs <;> rfl
  · rfl

/-- A result with a role's demand and capacities those of another analyzer's frame. -/
def Result.priced (r : Result) (role : String) (dSat : ℚ) (vs : List VariantNeed)
    (f : PricingFrame) : Result where
  variantCapacities := r.variantCapacities.map (repriced f vs)
  totalDemand := if r.roleDemand.isNone then f.demand else r.totalDemand + (f.demand - dSat)
  roleDemand := r.roleDemand.map fun demand => demand.set role f.demand
  nodup := by
    have hnames : (·.variantName) ∘ repriced f vs = fun vc => vc.variantName :=
      funext (variantName_repriced f vs)
    rw [List.map_map, hnames]
    exact r.nodup

def priceRole (r : Result) (role : String) (dSat : ℚ) (vs : List VariantNeed) :
    RolePricing × Result :=
  let frames := roleFrames dSat vs
  let chosen := lowest (frames.map (coverage vs))
  let pricing : RolePricing := ⟨role, vs, frames, chosen⟩
  match chosen.bind (frames[·]?) with
  | none => (pricing, r)
  | some f => if f.analyzer = "" then (pricing, r) else (pricing, r.priced role dSat vs f)

def needsOf (sat : Result) (decisions : String → Decision) (role : String) : List VariantNeed :=
  (sat.variantCapacities.filter fun vc => roleOfVC vc == role).map fun vc =>
    newVariantNeed vc (decisions vc.variantName)

/-- The roles priced one after another, those whose demand saturation does not know left out. -/
def priceRoles (sat : Result) (decisions : String → Decision) : List RolePricing × Result :=
  (rolesPresent sat.variantCapacities).foldl (fun st role =>
    match demandForRole sat role with
    | none => st
    | some dSat =>
      let priced := priceRole st.2 role dSat (needsOf sat decisions role)
      (st.1 ++ [priced.1], priced.2)) ([], sat)

end LlmScaler.Composite
