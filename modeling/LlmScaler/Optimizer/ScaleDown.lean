import LlmScaler.Optimizer.Pick

/-!
# Releasing replicas

A model without demand releases what its roles have to spare, role by role, the most expensive
variant first. A variant keeps its least replicas, and the cheapest one keeps a replica when no
other variant has one. A release never raises a target.
-/

namespace LlmScaler.Optimizer

open Core

/-- Whether a role has capacity to spare on a current reading. -/
def needsScaleDownForRole (e : NamedAnalyzerResult) (role : String) : Bool :=
  e.live && e.result.isSome && decide (0 < e.roleSpare.get role)

/-- The larger of the two budgets a role may release. -/
def releaseBudget (e : NamedAnalyzerResult) (role : String) : ℚ :=
  match e.roleReleasable.find? role with
  | some free => max (e.roleSpare.get role) free
  | none => e.roleSpare.get role

def safeRemovalReplicasForRole (e : NamedAnalyzerResult) (v role : String) : ℕ :=
  if e.live then
    match e.result with
    | none => 0
    | some r => safeReplicasForSpare (releaseBudget e role) (prcForVariant r v)
  else 0

/-- Charges a release to the budgets of its role. -/
def applyDeallocationForRole (e : NamedAnalyzerResult) (v role : String) (n : ℕ) :
    NamedAnalyzerResult :=
  match e.result with
  | none => e
  | some r =>
    if prcForVariant r v ≤ 0 then e
    else
      let charge := fun free : ℚ => max 0 (free - n * prcForVariant r v)
      { e with
        roleSpare := e.roleSpare.modify role charge
        roleReleasable :=
          if e.roleReleasable.has role then e.roleReleasable.modify role charge
          else e.roleReleasable }

/-- Whether a variant stands before another in the order of release: by cost from the highest,
then by weighted capacity, then by name. -/
def releasedBefore (e : NamedAnalyzerResult) (a b : VariantRecord) : Bool :=
  let weighted := fun name => (e.result.map fun r => e.score * prcForVariant r name).getD 0
  if a.cost ≠ b.cost then decide (b.cost < a.cost)
  else if weighted a.variantName ≠ weighted b.variantName then
    decide (weighted a.variantName < weighted b.variantName)
  else decide (a.variantName < b.variantName)

abbrev ReleaseSorting := ∀ e : NamedAnalyzerResult, Sorting (releasedBefore e)

def releaseKey (e : NamedAnalyzerResult) (vc : VariantRecord) : ℚᵒᵈ ×ₗ (ℚ ×ₗ String) :=
  toLex (OrderDual.toDual vc.cost,
    toLex ((e.result.map fun r => e.score * prcForVariant r vc.variantName).getD 0, vc.variantName))

theorem releasedBefore_eq (e : NamedAnalyzerResult) (a b : VariantRecord) :
    releasedBefore e a b = decide (releaseKey e a < releaseKey e b) := by
  unfold releasedBefore releaseKey
  simp only [Prod.Lex.toLex_lt_toLex, OrderDual.toDual_lt_toDual, OrderDual.toDual_inj]
  split_ifs with hcost hweight
  · simp only [hcost, false_and, or_false]
  · simp only [not_not.mp hcost, lt_irrefl, false_or, true_and, hweight, false_and, or_false]
  · simp only [not_not.mp hcost, not_not.mp hweight, lt_irrefl, false_or, true_and]

def releaseSort : ReleaseSorting := fun e =>
  { sort := (Sorting.byKey (releaseKey e)).sort
    perm := (Sorting.byKey (releaseKey e)).perm
    sorted := fun l => ((Sorting.byKey (releaseKey e)).sorted l).imp fun h => by
      rw [releasedBefore_eq]
      exact h }

def anyHasReplicas (variants : List VariantRecord) (targets : GoMap String ℕ) : Bool :=
  variants.any fun vc => 0 < targets.get vc.variantName

/-- Replicas to release of one variant. `before` are the variants tried before it. -/
def releaseOf (m : Model) (role : String) (before : List VariantRecord) (isLast : Bool)
    (e : NamedAnalyzerResult) (targets : GoMap String ℕ) (vc : VariantRecord) : ℕ :=
  let current := targets.get vc.variantName
  let least := ((m.stateMap.find? vc.variantName).bind (·.minReplicas)).getD 0
  if vc.perReplicaCapacity ≤ 0 ∨ current ≤ least then 0
  else
    let n := min (safeRemovalReplicasForRole e vc.variantName role) (current - least)
    if isLast ∧ current - n < 1 ∧ anyHasReplicas before targets = false then current - 1 else n

/-- Releases replicas of the variants in order. -/
def scaleDownVariantSet (m : Model) (role : String) :
    List VariantRecord → List VariantRecord → NamedAnalyzerResult × GoMap String ℕ →
      NamedAnalyzerResult × GoMap String ℕ
  | _, [], st => st
  | before, vc :: rest, (e, targets) =>
    let n := releaseOf m role before rest.isEmpty e targets vc
    let st :=
      if n = 0 then (e, targets)
      else (applyDeallocationForRole e vc.variantName role n,
        targets.set vc.variantName (targets.get vc.variantName - n))
    scaleDownVariantSet m role (before ++ [vc]) rest st

def scaleDownRoleIterated (sort : ReleaseSorting) (m : Model) (e : NamedAnalyzerResult)
    (targets : GoMap String ℕ) : GoMap String ℕ :=
  ((rolesOf m.records).foldl (fun st role =>
    if needsScaleDownForRole st.1 role then
      scaleDownVariantSet m role [] ((sort st.1).sort (variantsForRole m.records role)) st
    else st) (e, targets)).2

private theorem scaleDownVariantSet_le (m : Model) (role : String) (before rest : List VariantRecord)
    (st : NamedAnalyzerResult × GoMap String ℕ) (v : String) :
    (scaleDownVariantSet m role before rest st).2.get v ≤ st.2.get v := by
  induction rest generalizing before st with
  | nil => exact Nat.le_refl _
  | cons vc rest ih =>
    obtain ⟨e, targets⟩ := st
    refine (ih _ _).trans ?_
    split_ifs
    · exact Nat.le_refl _
    · simp only [GoMap.get_set]
      split_ifs with hv
      · rw [hv]
        exact Nat.sub_le _ _
      · exact Nat.le_refl _

theorem scaleDownRoleIterated_le (sort : ReleaseSorting) (m : Model) (e : NamedAnalyzerResult)
    (targets : GoMap String ℕ) (v : String) :
    (scaleDownRoleIterated sort m e targets).get v ≤ targets.get v := by
  refine List.foldlRecOn (motive := fun st : NamedAnalyzerResult × GoMap String ℕ =>
    st.2.get v ≤ targets.get v) _ _ le_rfl fun st hst role _ => ?_
  split_ifs
  · exact (scaleDownVariantSet_le m role [] _ st v).trans hst
  · exact hst

end LlmScaler.Optimizer
