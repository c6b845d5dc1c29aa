import LlmScaler.Composite.Spare
import LlmScaler.Core.Lists
import LlmScaler.Optimizer.Released

/-!
# A release leaves every frame served

What a role releases in the units of its priced frame is within the bound every other frame set, and
a replica is worth no more in a frame than the frame's ratio says.
-/

namespace LlmScaler.Composite

open Core Optimizer List GoMap

/-- What a frame makes of some replicas of a role's variants. -/
def supplyIn (f : PricingFrame) (vs : List VariantNeed) (replicas : VariantNeed → ℕ) : ℚ :=
  (vs.map fun v => if 0 < f.prc v then replicas v * f.prc v else 0).sum

variable {o : OtherFrames}

section Readings

variable {r : Result} {f : PricingFrame} {vs : List VariantNeed}

theorem supplyIn_nonneg (replicas : VariantNeed → ℕ) : 0 ≤ supplyIn f vs replicas := by
  refine sum_nonneg (forall_mem_map.mpr fun v _ => ?_)
  split_ifs
  · positivity
  · exact le_rfl

/-- What a reading says: the supply of the running replicas, the frame's demand, and a ratio that no
running variant exceeds. -/
structure Reads (r : Result) (f : PricingFrame) (vs : List VariantNeed) (reading : FrameReading) :
    Prop where
  supply : reading.supply = supplyIn f vs (·.replicas)
  demand : reading.demand = f.demand
  ratio_nonneg : 0 ≤ reading.ratio
  /-- A running variant that both frames rate is within the ratio. -/
  ratio : ∀ v ∈ vs, v.replicas ≠ 0 → 0 < f.prc v → 0 < pricedCapacity r v →
    f.prc v / pricedCapacity r v ≤ reading.ratio

theorem supplyIn_append (v : VariantNeed) (replicas : VariantNeed → ℕ) :
    supplyIn f (vs ++ [v]) replicas = supplyIn f vs replicas +
      if 0 < f.prc v then replicas v * f.prc v else 0 := by
  simp [supplyIn]

theorem reads_frameReading (r : Result) (f : PricingFrame) (vs : List VariantNeed) :
    Reads r f vs (frameReading r vs f) := by
  induction vs using reverseRecOn with
  | nil => exact ⟨rfl, rfl, le_rfl, nofun⟩
  | append_singleton vs v ih =>
    rw [frameReading, foldl_append, ← frameReading, foldl_cons, foldl_nil]
    have hold : ∀ reading : FrameReading, (frameReading r vs f).ratio ≤ reading.ratio →
        ∀ w ∈ vs, w.replicas ≠ 0 → 0 < f.prc w → 0 < pricedCapacity r w →
          f.prc w / pricedCapacity r w ≤ reading.ratio := fun reading hle w hw hrun hf hc =>
      (ih.ratio w hw hrun hf hc).trans hle
    by_cases hskip : v.replicas = 0 ∨ ¬ 0 < f.prc v
    · rw [if_pos hskip]
      refine ⟨?_, ih.demand, ih.ratio_nonneg, forall_mem_append.mpr ⟨ih.ratio, ?_⟩⟩
      · rw [supplyIn_append, ih.supply]
        rcases hskip with hzero | hnone
        · simp [hzero]
        · simp [hnone]
      · exact forall_mem_singleton.mpr fun hrun hf =>
          absurd hskip (not_or.mpr ⟨hrun, not_not.mpr hf⟩)
    · obtain ⟨hrun, hf⟩ := not_or.mp hskip
      rw [if_neg hskip]
      have hle : (frameReading r vs f).ratio ≤ if 0 < pricedCapacity r v then
          max (frameReading r vs f).ratio (f.prc v / pricedCapacity r v)
          else (frameReading r vs f).ratio := by
        split_ifs
        · exact le_max_left _ _
        · exact le_rfl
      refine ⟨?_, ih.demand, ih.ratio_nonneg.trans hle,
        forall_mem_append.mpr ⟨hold _ hle, ?_⟩⟩
      · rw [supplyIn_append, ih.supply, if_pos (not_not.mp hf)]
      · refine forall_mem_singleton.mpr fun _ _ hc => ?_
        rw [if_pos hc]
        exact le_max_right _ _

/-- The most a role can shed is within what each frame that counts can lose over its ratio. -/
theorem releasable_le {u : ℚ} (hu : 0 < u) {reading : FrameReading} (hmem : reading ∈ o.frames)
    (hratio : 0 < reading.ratio) (hsupply : 0 ≤ reading.supply) (hdemand : 0 ≤ reading.demand) :
    o.releasable u ≤ ((max (reading.supply - reading.demand / u) 0 / reading.ratio : ℚ) : WithTop ℚ) := by
  obtain ⟨supply, frames⟩ := o
  unfold OtherFrames.releasable
  rw [if_neg (not_not.mpr hu)]
  induction frames using reverseRecOn with
  | nil => cases hmem
  | append_singleton frames last ih =>
    rw [foldl_append, foldl_cons, foldl_nil]
    rcases mem_append.mp hmem with hmem | hmem
    · split_ifs
      · exact ih hmem
      · exact (min_le_left _ _).trans (ih hmem)
    · rw [← mem_singleton.mp hmem, if_neg]
      · exact min_le_right _ _
      · simp only [hratio, hsupply, hdemand, not_true_eq_false, or_self, not_false_eq_true]

end Readings

section Bound

variable {c : Signal} {p : RolePricing} {pricings : List RolePricing} {scaleDown budget : ℚ}

theorem capped_le {x budget : ℚ} {b : WithTop ℚ} (h : b ≤ (budget : WithTop ℚ)) :
    capped x b ≤ budget := by
  cases b with
  | top => exact absurd h (not_le.mpr (WithTop.coe_lt_top budget))
  | coe b => exact (min_le_right x b).trans (WithTop.coe_le_coe.mp h)

/-- A role's release bound is published within a budget. -/
def Bounded (budget : ℚ) (role : String) (c : Signal) : Prop :=
  ∃ b ≤ budget, c.releaseBound.find? role = some b

variable {role : String}

theorem bounded_publish (h : o.releasable c.releaseTarget ≤ (budget : WithTop ℚ)) :
    Bounded budget role (c.publish role o) := by
  unfold Signal.publish Bounded
  cases hb : o.releasable c.releaseTarget with
  | top =>
    rw [hb] at h
    exact absurd h (not_le.mpr (WithTop.coe_lt_top budget))
  | coe b =>
    rw [hb] at h
    exact ⟨b, WithTop.coe_le_coe.mp h, by simp only [find?_set, if_true]⟩

theorem Bounded.publish_of_ne {role' : String} (hne : role ≠ role') (h : Bounded budget role c) :
    Bounded budget role (c.publish role' o) := by
  obtain ⟨b, hb, hfind⟩ := h
  refine ⟨b, hb, ?_⟩
  unfold Signal.publish
  cases o.releasable c.releaseTarget with
  | top =>
    simp only [find?_delete, hne, if_false]
    exact hfind
  | coe x =>
    simp only [find?_set, hne, if_false]
    exact hfind

/-- What bounding a role's spare leaves: the result and the release target. -/
structure SameBase (c c' : Signal) : Prop where
  result : c'.result = c.result
  target : c'.releaseTarget = c.releaseTarget

theorem SameBase.refl (c : Signal) : SameBase c c := ⟨rfl, rfl⟩

theorem SameBase.publish {c' : Signal} (h : SameBase c c') (role : String) (o : OtherFrames) :
    SameBase c (c'.publish role o) := ⟨h.result, h.target⟩

theorem SameBase.boundModelSpare {c' : Signal} (h : SameBase c c') (p : RolePricing) :
    SameBase c (boundModelSpare scaleDown c' p) := by
  unfold Composite.boundModelSpare
  split_ifs
  · exact h
  · split
    · exact h
    · refine SameBase.publish ?_ _ _
      exact ⟨h.result, h.target⟩

variable {st : GoMap String RoleCapacity × Signal × Bool}

theorem SameBase.boundRoleSpare (h : SameBase c st.2.1) (p : RolePricing) :
    SameBase c (boundRoleSpare scaleDown st p).2.1 := by
  unfold Composite.boundRoleSpare
  split
  · exact h
  · split
    · exact h
    · simp only
      split_ifs <;> exact h.publish _ _

/-- What a role's other frames let it shed is within a budget. -/
structure ShedsWithin (budget scaleDown : ℚ) (p : RolePricing) (o : OtherFrames) (c : Signal) :
    Prop where
  frames : otherFrames p c.result = some o
  spare : o.releasable scaleDown ≤ (budget : WithTop ℚ)
  release : o.releasable c.releaseTarget ≤ (budget : WithTop ℚ)

theorem SameBase.shedsWithin {c' : Signal} (h : SameBase c c')
    (hsheds : ShedsWithin budget scaleDown p o c) : ShedsWithin budget scaleDown p o c' :=
  ⟨h.result ▸ hsheds.frames, hsheds.spare, h.target ▸ hsheds.release⟩

/-- The model's spare is within what the other frames let it shed, and so is its bound. -/
theorem boundModelSpare_foldl (hnodup : (pricings.map (·.role)).Nodup) (hp : p ∈ pricings)
    (hrole : p.role = roleBoth) (hsheds : ShedsWithin budget scaleDown p o c) :
    (pricings.foldl (boundModelSpare scaleDown) c).spareCapacity ≤ budget ∧
      Bounded budget roleBoth (pricings.foldl (boundModelSpare scaleDown) c) := by
  refine foldl_at (I := SameBase c) (Q := fun c' : Signal => c'.spareCapacity ≤ budget ∧
    Bounded budget roleBoth c') hnodup hp (SameBase.refl c) (fun _ hc' q => hc'.boundModelSpare q)
    (fun c' hbase => ?_) fun c' hc' q hq => ?_
  · unfold Composite.boundModelSpare
    have hsheds' := hbase.shedsWithin hsheds
    rw [if_neg (not_not.mpr hrole), hsheds'.frames, hrole]
    exact ⟨capped_le hsheds'.spare, bounded_publish hsheds'.release⟩
  · rw [Composite.boundModelSpare, if_pos (hrole ▸ hq)]
    exact hc'

/-- A role's spare and its bound are within a budget. -/
def RoleBounded (budget : ℚ) (role : String) (st : GoMap String RoleCapacity × Signal × Bool) :
    Prop :=
  ∀ rc, st.1.find? role = some rc → rc.spareCapacity ≤ budget ∧ Bounded budget role st.2.1

theorem RoleBounded.boundRoleSpare_of_ne (h : RoleBounded budget role st) (hne : role ≠ p.role) :
    RoleBounded budget role (boundRoleSpare scaleDown st p) := by
  intro rc hrc
  unfold Composite.boundRoleSpare at hrc ⊢
  split at hrc
  · exact h rc hrc
  · split at hrc
    · exact h rc hrc
    · simp only at hrc ⊢
      split_ifs at hrc ⊢
      · rw [find?_set, if_neg hne] at hrc
        exact ⟨(h rc hrc).1, (h rc hrc).2.publish_of_ne hne⟩
      · exact ⟨(h rc hrc).1, (h rc hrc).2.publish_of_ne hne⟩

theorem ShedsWithin.boundRoleSpare (h : ShedsWithin budget scaleDown p o st.2.1) :
    RoleBounded budget p.role (boundRoleSpare scaleDown st p) := by
  intro rc hrc
  unfold Composite.boundRoleSpare at hrc ⊢
  split at hrc
  · next hnone =>
    rw [hnone] at hrc
    cases hrc
  · next rc' hfind =>
    simp only [h.frames] at hrc ⊢
    split_ifs at hrc ⊢ with hlower
    · rw [find?_set, if_pos rfl] at hrc
      rw [← Option.some.inj hrc]
      exact ⟨capped_le h.spare, bounded_publish h.release⟩
    · refine ⟨?_, bounded_publish h.release⟩
      rw [← Option.some.inj (hfind.symm.trans hrc)]
      exact WithTop.coe_le_coe.mp ((not_lt.mp hlower).trans h.spare)

theorem boundRoleSpare_foldl (hnodup : (pricings.map (·.role)).Nodup) (hp : p ∈ pricings)
    (hsheds : ShedsWithin budget scaleDown p o c) (caps : GoMap String RoleCapacity) :
    RoleBounded budget p.role (pricings.foldl (boundRoleSpare scaleDown) (caps, c, false)) := by
  exact foldl_at (I := fun st => SameBase c st.2.1) hnodup hp (SameBase.refl c)
    (fun _ hst q => hst.boundRoleSpare q) (fun _ hbase => (hbase.shedsWithin hsheds).boundRoleSpare)
    fun _ hst _ hq => hst.boundRoleSpare_of_ne hq.symm

end Bound

variable {p : RolePricing} {pricings : List RolePricing} {scaleDown : ℚ}

section Budgets

variable {budget : ℚ} {role : String}

/-- Both budgets of a role are within a figure, and so is its release bound. -/
structure BudgetsWithin (budget : ℚ) (role : String) (e : NamedAnalyzerResult) : Prop where
  spare : e.roleSpare.get role ≤ budget
  releasable : ∀ b, e.roleReleasable.find? role = some b → b ≤ budget

variable {e : NamedAnalyzerResult}

theorem BudgetsWithin.releaseBudget_le (h : BudgetsWithin budget role e) :
    releaseBudget e role ≤ budget := by
  unfold releaseBudget
  split
  · next free hfree => exact max_le h.spare (h.releasable free hfree)
  · exact h.spare

/-- A role's spare set and its releasable capacity computed. -/
def withBudgets (e : NamedAnalyzerResult) (role : String) (spare supply demand : ℚ) :
    NamedAnalyzerResult :=
  { e with roleSpare := e.roleSpare.set role spare }.withReleasable role supply demand

theorem withBudgets_releaseBound (e : NamedAnalyzerResult) (role : String)
    (spare supply demand : ℚ) :
    (withBudgets e role spare supply demand).releaseBound = e.releaseBound ∧
      (withBudgets e role spare supply demand).result = e.result := by
  unfold withBudgets NamedAnalyzerResult.withReleasable
  split_ifs <;> exact ⟨rfl, rfl⟩

theorem BudgetsWithin.withBudgets_of_ne {role' : String} (h : BudgetsWithin budget role e)
    (hne : role ≠ role') (spare supply demand : ℚ) :
    BudgetsWithin budget role (withBudgets e role' spare supply demand) := by
  unfold withBudgets NamedAnalyzerResult.withReleasable
  split_ifs
  · refine ⟨?_, fun b hb => ?_⟩
    · simp only [get_set_of_ne _ _ hne]
      exact h.spare
    · simp only [find?_set, hne, if_false] at hb
      exact h.releasable b hb
  · refine ⟨?_, h.releasable⟩
    simp only [get_set_of_ne _ _ hne]
    exact h.spare

theorem BudgetsWithin.withBudgets (h : BudgetsWithin budget role e) {spare : ℚ}
    (hspare : spare ≤ budget) {b : ℚ} (hb : b ≤ budget)
    (hbound : e.releaseBound.find? role = some b) (supply demand : ℚ) :
    BudgetsWithin budget role (withBudgets e role spare supply demand) := by
  unfold Composite.withBudgets NamedAnalyzerResult.withReleasable
  split_ifs
  · simp only [hbound]
    refine ⟨?_, fun free hfree => ?_⟩
    · simp only [get_set_self]
      exact hspare
    · simp only [find?_set, if_true] at hfree
      rw [← Option.some.inj hfree]
      exact (min_le_right _ _).trans hb
  · refine ⟨?_, h.releasable⟩
    simp only [get_set_self]
    exact hspare

theorem initRoleState_eq (c : Signal) : (initRoleState c.named).2.2 =
    match c.roleCapacities with
    | none => withBudgets c.named roleBoth c.spareCapacity c.totalSupply c.result.totalDemand
    | some caps => caps.entries.foldl (fun e rc =>
        withBudgets e rc.1 rc.2.spareCapacity rc.2.totalSupply rc.2.totalDemand) c.named := by
  simp only [initRoleState, Signal.named]
  cases c.roleCapacities with
  | none => rfl
  | some caps => rfl

theorem initRoleState_releaseBound (c : Signal) :
    (initRoleState c.named).2.2.releaseBound = c.releaseBound ∧
      (initRoleState c.named).2.2.result = some c.result.analyzerResult := by
  rw [initRoleState_eq]
  split
  · exact withBudgets_releaseBound c.named _ _ _ _
  · refine foldlRecOn (motive := fun e : NamedAnalyzerResult =>
      e.releaseBound = c.releaseBound ∧ e.result = some c.result.analyzerResult) _ _ ⟨rfl, rfl⟩
      fun e he rc _ => ?_
    obtain ⟨hbound, hresult⟩ := withBudgets_releaseBound e rc.1 rc.2.spareCapacity
      rc.2.totalSupply rc.2.totalDemand
    exact ⟨hbound.trans he.1, hresult.trans he.2⟩

/-- A pass starts with the budgets of a bounded role within its bound, and with none for a role the
signal does not have. -/
theorem initRoleState_within {c : Signal} (hbudget : 0 ≤ budget)
    (hroles : ∀ caps, c.roleCapacities = some caps → ∀ rc, caps.find? role = some rc →
      rc.spareCapacity ≤ budget ∧ Bounded budget role c)
    (hmodel : c.roleCapacities = none → role = roleBoth →
      c.spareCapacity ≤ budget ∧ Bounded budget role c) :
    BudgetsWithin budget role (initRoleState c.named).2.2 := by
  have hfresh : BudgetsWithin budget role c.named := ⟨hbudget, nofun⟩
  rw [initRoleState_eq]
  split
  · next hnone =>
    by_cases hrole : role = roleBoth
    · obtain ⟨hspare, b, hb, hfind⟩ := hmodel hnone hrole
      subst hrole
      exact hfresh.withBudgets hspare hb hfind _ _
    · exact hfresh.withBudgets_of_ne hrole _ _ _
  · next caps hcaps =>
    refine (foldlRecOn (motive := fun e : NamedAnalyzerResult =>
      e.releaseBound = c.releaseBound ∧ BudgetsWithin budget role e) _ _ ⟨rfl, hfresh⟩
      fun e he rc hrc => ?_).2
    obtain ⟨hbound, hwithin⟩ := he
    refine ⟨(withBudgets_releaseBound _ _ _ _ _).1.trans hbound, ?_⟩
    by_cases hrole : role = rc.1
    · obtain ⟨hspare, b, hb, hfind⟩ := hroles caps hcaps rc.2 (hrole ▸ mem_entries.mp hrc)
      subst hrole
      exact hwithin.withBudgets hspare hb (hbound ▸ hfind) _ _
    · exact hwithin.withBudgets_of_ne hrole _ _ _

theorem roleCapacities_boundModelSpare (scaleDown : ℚ) (pricings : List RolePricing) (c : Signal) :
    (pricings.foldl (boundModelSpare scaleDown) c).roleCapacities = c.roleCapacities := by
  refine foldlRecOn (motive := fun c' : Signal => c'.roleCapacities = c.roleCapacities) _ _
    rfl fun c' hc' p _ => ?_
  unfold boundModelSpare
  split_ifs
  · exact hc'
  · split
    · exact hc'
    · exact hc'

theorem sameBase_boundModelSpare (scaleDown : ℚ) (pricings : List RolePricing) (c : Signal) :
    SameBase c (pricings.foldl (boundModelSpare scaleDown) c) :=
  foldlRecOn (motive := SameBase c) _ _ (SameBase.refl c) fun _ hc' q _ =>
    hc'.boundModelSpare q

theorem boundAllSpare_within {c : Signal} (hbudget : 0 ≤ budget)
    (hnodup : (pricings.map (·.role)).Nodup) (hp : p ∈ pricings)
    (hsheds : ShedsWithin budget scaleDown p o c) :
    BudgetsWithin budget p.role
      (initRoleState (boundAllSpare c pricings scaleDown).named).2.2 := by
  have hmodel : p.role = roleBoth →
      (pricings.foldl (boundModelSpare scaleDown) c).spareCapacity ≤ budget ∧
        Bounded budget p.role (pricings.foldl (boundModelSpare scaleDown) c) := fun hrole => by
    rw [hrole]
    exact boundModelSpare_foldl hnodup hp hrole hsheds
  unfold boundAllSpare
  cases hcaps : c.roleCapacities with
  | none =>
    refine initRoleState_within hbudget (fun caps hsome => ?_) fun _ => hmodel
    rw [roleCapacities_boundModelSpare, hcaps] at hsome
    cases hsome
  | some caps =>
    simp only
    split_ifs with hempty hlowered
    · refine initRoleState_within hbudget (fun caps' hsome rc hrc => ?_) fun hnone => ?_
      · rw [roleCapacities_boundModelSpare, hcaps] at hsome
        rw [← Option.some.inj hsome] at hrc
        have hmem := mem_entries.mpr hrc
        rw [isEmpty_iff.mp hempty] at hmem
        cases hmem
      · rw [roleCapacities_boundModelSpare, hcaps] at hnone
        cases hnone
    all_goals
      have hroles := boundRoleSpare_foldl hnodup hp hsheds caps
      refine initRoleState_within hbudget (fun caps' hsome rc hrc => ?_) fun hnone => absurd hnone nofun
      rw [← Option.some.inj hsome] at hrc
      exact hroles rc hrc

theorem result_boundAllSpare (c : Signal) (pricings : List RolePricing) (scaleDown : ℚ) :
    (boundAllSpare c pricings scaleDown).result = c.result := by
  have hroles : ∀ caps, SameBase c (pricings.foldl (boundRoleSpare scaleDown) (caps, c, false)).2.1 :=
    fun caps => foldlRecOn (motive := fun st : GoMap String RoleCapacity × Signal × Bool =>
      SameBase c st.2.1) _ _ (SameBase.refl c) fun st hst q _ => hst.boundRoleSpare q
  unfold boundAllSpare
  split
  · exact (sameBase_boundModelSpare scaleDown pricings c).result
  · next caps _ =>
    simp only
    split_ifs
    · exact (sameBase_boundModelSpare scaleDown pricings c).result
    · exact (hroles caps).result
    · exact (hroles caps).result

end Budgets

/-- Pricings as a model's roles give them: one a role, of variants of that role. -/
structure Priced (records : List VariantRecord) (pricings : List RolePricing) : Prop where
  roles : (pricings.map (·.role)).Nodup
  chosen : ∀ p ∈ pricings, ∀ k, p.chosen = some k → k < p.frames.length
  names : ∀ p ∈ pricings, (p.vs.map (·.variantName)).Nodup
  role : ∀ p ∈ pricings, ∀ v ∈ p.vs, ∀ vc ∈ records, vc.variantName = v.variantName →
    canonicalRole vc.role = p.role

/-- The running replicas of a variant that a pass keeps, taken to lose every replica removed. -/
def keptReplicas (before after : GoMap String ℕ) (v : VariantNeed) : ℕ :=
  v.replicas - (before.get v.variantName - after.get v.variantName)

section Served

variable {r : Result} {f : PricingFrame} {vs : List VariantNeed} {before after : GoMap String ℕ}

theorem supplyIn_le_kept {reading : FrameReading} (hreading : Reads r f vs reading)
    (hzero : ∀ v, prcForVariant r.analyzerResult v ≤ 0 → after.get v = before.get v) :
    supplyIn f vs (·.replicas) ≤ supplyIn f vs (keptReplicas before after) +
      reading.ratio * shed r.analyzerResult (vs.map (·.variantName)) before after := by
  have hsum : supplyIn f vs (keptReplicas before after) +
      reading.ratio * shed r.analyzerResult (vs.map (·.variantName)) before after =
        (vs.map fun v => (if 0 < f.prc v then keptReplicas before after v * f.prc v else 0) +
          reading.ratio * (((before.get v.variantName - after.get v.variantName : ℕ) : ℚ) *
            pricedCapacity r v)).sum := by
    rw [sum_map_add, sum_map_mul_left, supplyIn, shed, map_map]
    rfl
  rw [hsum]
  refine sum_le_sum fun v hv => ?_
  beta_reduce
  have hnone : pricedCapacity r v ≤ 0 → before.get v.variantName - after.get v.variantName = 0 :=
    fun hc => by rw [hzero v.variantName hc, Nat.sub_self]
  unfold keptReplicas
  generalize before.get v.variantName - after.get v.variantName = removed at hnone ⊢
  have hworth : 0 ≤ reading.ratio * (removed * pricedCapacity r v) := by
    refine mul_nonneg hreading.ratio_nonneg ?_
    rcases le_or_gt (pricedCapacity r v) 0 with hc | hc
    · simp [hnone hc]
    · positivity
  split_ifs with hf
  · by_cases hrun : v.replicas = 0
    · simp only [hrun, Nat.zero_sub, Nat.cast_zero, zero_mul]
      linarith
    · rcases le_or_gt (pricedCapacity r v) 0 with hc | hc
      · simp [hnone hc]
      · -- a replica is worth at most the ratio times its priced capacity
        have hratio : f.prc v ≤ reading.ratio * pricedCapacity r v :=
          (div_le_iff₀ hc).mp (hreading.ratio v hv hrun hf hc)
        have hkept : (v.replicas : ℚ) ≤ (v.replicas - removed : ℕ) + removed := by
          exact_mod_cast le_tsub_add
        calc (v.replicas : ℚ) * f.prc v
            ≤ ((v.replicas - removed : ℕ) + removed) * f.prc v :=
              mul_le_mul_of_nonneg_right hkept hf.le
          _ = (v.replicas - removed : ℕ) * f.prc v + removed * f.prc v := by ring
          _ ≤ (v.replicas - removed : ℕ) * f.prc v +
                removed * (reading.ratio * pricedCapacity r v) := by gcongr
          _ = _ := by ring
  · linarith

theorem supplyIn_kept_le (f : PricingFrame) (vs : List VariantNeed)
    (before after : GoMap String ℕ) :
    supplyIn f vs (keptReplicas before after) ≤ supplyIn f vs (·.replicas) := by
  refine sum_le_sum fun v _ => ?_
  split_ifs with hf
  · refine mul_le_mul_of_nonneg_right ?_ hf.le
    exact_mod_cast Nat.sub_le _ _
  · exact le_rfl

variable {chosen i : ℕ}

theorem otherFrames_eq_some (hchosen : p.chosen = some chosen) (hlt : chosen < p.frames.length)
    (hi : i ≠ chosen) (hf : p.frames[i]? = some f) (hratio : 0 < (frameReading r p.vs f).ratio) :
    ∃ o, otherFrames p r = some o ∧ frameReading r p.vs f ∈ o.frames := by
  have hmem : frameReading r p.vs f ∈
      ((p.others chosen).map (frameReading r p.vs)).filter fun f => 0 < f.ratio := by
    refine mem_filter.mpr ⟨mem_map_of_mem ?_, decide_eq_true hratio⟩
    refine mem_map.mpr ⟨(f, i), mem_filter.mpr ⟨?_, decide_eq_true hi⟩, rfl⟩
    exact mem_zipIdx_iff_getElem?.mpr hf
  have hlength : ¬ p.frames.length < 2 := by
    have := (List.getElem?_eq_some_iff.mp hf).1
    omega
  unfold otherFrames
  rw [hchosen]
  simp only [hlength, if_false]
  rw [if_neg (by simp only [List.isEmpty_iff]; exact ne_nil_of_mem hmem)]
  exact ⟨_, rfl, hmem⟩

theorem result_budgets (c : Signal) (pricings : List RolePricing) (scaleDown : ℚ) :
    (initRoleState (boundAllSpare c pricings scaleDown).named).2.2.result =
      some c.result.analyzerResult := by
  rw [(initRoleState_releaseBound _).2, result_boundAllSpare]

theorem Priced.records {records : List VariantRecord} (h : Priced records pricings)
    (hp : p ∈ pricings) :
    ∀ vc ∈ records, vc.variantName ∈ p.vs.map (·.variantName) → canonicalRole vc.role = p.role := by
  intro vc hvc hmem
  obtain ⟨v, hv, hname⟩ := mem_map.mp hmem
  exact h.role p hp v hv vc hvc hname.symm

theorem targets_of_shed_nonpos {names : List String} {r : AnalyzerResult}
    (hle : ∀ v, after.get v ≤ before.get v)
    (hzero : ∀ v, prcForVariant r v ≤ 0 → after.get v = before.get v)
    (hshed : shed r names before after ≤ 0) : ∀ v ∈ names, after.get v = before.get v := by
  have hterm : ∀ v, 0 ≤ ((before.get v - after.get v : ℕ) : ℚ) * prcForVariant r v := by
    intro v
    rcases le_or_gt (prcForVariant r v) 0 with hc | hc
    · rw [hzero v hc]
      simp
    · positivity
  intro v hv
  rcases le_or_gt (prcForVariant r v) 0 with hc | hc
  · exact hzero v hc
  · have hone : ((before.get v - after.get v : ℕ) : ℚ) * prcForVariant r v ≤
        shed r names before after :=
      single_le_sum (fun x hx => by
        obtain ⟨w, _, rfl⟩ := mem_map.mp hx
        exact hterm w) _ (mem_map_of_mem hv)
    have hnone : ((before.get v - after.get v : ℕ) : ℚ) ≤ 0 :=
      nonpos_of_mul_nonpos_left (hone.trans hshed) hc
    have : before.get v - after.get v = 0 := by exact_mod_cast le_antisymm hnone (Nat.cast_nonneg _)
    have := hle v
    omega

section Release

variable {m : Model} (h : Priced m.records pricings) (hp : p ∈ pricings) {sort : ReleaseSorting}
  {c : Signal} (hafter : after = scaleDownRoleIterated sort m
    (initRoleState (boundAllSpare c pricings scaleDown).named).2.2 before)

include h hp hafter

theorem Priced.kept {v : String} (hv : prcForVariant c.result.analyzerResult v ≤ 0) :
    after.get v = before.get v := by
  rw [hafter]
  exact (Releases.scaleDownRoleIterated (h.names p hp) sort m (h.records hp)
    (result_budgets c pricings scaleDown) before le_rfl).2 v hv

variable (hpos : 0 < scaleDown) (hle : scaleDown ≤ c.releaseTarget) (hchosen : p.chosen = some chosen)
  (hi : i ≠ chosen) (hf : p.frames[i]? = some f) (hdemand : 0 ≤ f.demand)

include hpos hle hchosen hi hf hdemand

/-- A role sheds no more than a frame that counts has above its demand at the release target. -/
theorem Priced.shed_le (hratio : 0 < (frameReading c.result p.vs f).ratio) :
    shed c.result.analyzerResult (p.vs.map (·.variantName)) before after ≤
      max (supplyIn f p.vs (·.replicas) - f.demand / c.releaseTarget) 0 /
        (frameReading c.result p.vs f).ratio := by
  have hreading := reads_frameReading c.result f p.vs
  obtain ⟨o, ho, hmem⟩ := otherFrames_eq_some hchosen (h.chosen p hp chosen hchosen) hi hf hratio
  have hsupply : 0 ≤ (frameReading c.result p.vs f).supply := hreading.supply ▸ supplyIn_nonneg _
  have hreleasable : ∀ u, 0 < u → o.releasable u ≤
      ((max (supplyIn f p.vs (·.replicas) - f.demand / u) 0 /
        (frameReading c.result p.vs f).ratio : ℚ) : WithTop ℚ) := by
    intro u hu
    have hmost := releasable_le hu hmem hratio hsupply (hreading.demand ▸ hdemand)
    rwa [hreading.supply, hreading.demand] at hmost
  -- the boundary is below the target, so its bound is the tighter one
  have hspare : o.releasable scaleDown ≤
      ((max (supplyIn f p.vs (·.replicas) - f.demand / c.releaseTarget) 0 /
        (frameReading c.result p.vs f).ratio : ℚ) : WithTop ℚ) := by
    refine (hreleasable scaleDown hpos).trans (WithTop.coe_le_coe.mpr ?_)
    have hdiv : f.demand / c.releaseTarget ≤ f.demand / scaleDown :=
      div_le_div_of_nonneg_left hdemand hpos hle
    gcongr
  have hnonneg := div_nonneg (le_max_right
    (supplyIn f p.vs (·.replicas) - f.demand / c.releaseTarget) 0) hratio.le
  have hwithin := boundAllSpare_within hnonneg h.roles hp
    ⟨ho, hspare, hreleasable c.releaseTarget (hpos.trans_le hle)⟩
  rw [hafter]
  exact (Releases.scaleDownRoleIterated (h.names p hp) sort m (h.records hp)
    (result_budgets c pricings scaleDown) before
    (max_le hnonneg hwithin.releaseBudget_le)).1

theorem Priced.supplyIn_le : supplyIn f p.vs (·.replicas) ≤ supplyIn f p.vs (keptReplicas before after) +
      max (supplyIn f p.vs (·.replicas) - f.demand / c.releaseTarget) 0 := by
  have hreading := reads_frameReading c.result f p.vs
  have hlost := supplyIn_le_kept hreading fun v hv => h.kept hp hafter hv
  rcases hreading.ratio_nonneg.eq_or_lt with hratio | hratio
  · -- no variant that can be released counts in the frame
    rw [← hratio, zero_mul, add_zero] at hlost
    exact hlost.trans (le_add_of_nonneg_right (le_max_right _ _))
  · have hshed := h.shed_le hp hafter hpos hle hchosen hi hf hdemand hratio
    rw [le_div_iff₀ hratio, mul_comm] at hshed
    linarith

theorem Priced.targets (habove : supplyIn f p.vs (·.replicas) < f.demand / c.releaseTarget)
    {v : VariantNeed} (hv : v ∈ p.vs) (hrun : v.replicas ≠ 0) (hprc : 0 < f.prc v)
    (hpriced : 0 < pricedCapacity c.result v) :
    ∀ w ∈ p.vs, after.get w.variantName = before.get w.variantName := by
  have hreading := reads_frameReading c.result f p.vs
  have hratio : 0 < (frameReading c.result p.vs f).ratio :=
    (div_pos hprc hpriced).trans_le (hreading.ratio v hv hrun hprc hpriced)
  have hshed := h.shed_le hp hafter hpos hle hchosen hi hf hdemand hratio
  rw [max_eq_right (sub_nonpos.mpr habove.le), zero_div] at hshed
  intro w hw
  refine targets_of_shed_nonpos (fun v => ?_)
    (fun v hv => h.kept hp hafter hv) hshed _ (mem_map_of_mem hw)
  rw [hafter]
  exact scaleDownRoleIterated_le sort m _ before v

end Release

end Served

theorem nodup_rolesPresent (vcs : List RatedVariant) : (rolesPresent vcs).Nodup := by
  refine foldlRecOn (motive := Nodup) _ _ nodup_nil fun out hout vc _ => ?_
  split_ifs with hmem
  · exact hout
  · rw [nodup_append]
    refine ⟨hout, nodup_singleton _, ?_⟩
    rintro role hrole _ hlast rfl
    exact hmem (mem_singleton.mp hlast ▸ hrole)

theorem lowest_lt {figures : List (WithTop ℚ)} {k : ℕ} (h : lowest figures = some k) :
    k < figures.length := by
  unfold lowest at h
  obtain ⟨best, hbest, rfl⟩ := Option.map_eq_some_iff.mp h
  refine foldlRecOn (motive := fun st : Option (ℕ × WithTop ℚ) =>
    ∀ best, st = some best → best.1 < figures.length) _ _ (by simp)
    (fun st hst c hc best hb => ?_) best hbest
  have hlt : c.2 < figures.length :=
    (List.getElem?_eq_some_iff.mp (mem_zipIdx_iff_getElem?.mp hc)).1
  cases st with
  | none =>
    rw [← Option.some.inj hb]
    exact hlt
  | some b =>
    simp only at hb
    split_ifs at hb
    · rw [← Option.some.inj hb]
      exact hlt
    · exact hst best hb

theorem priceRole_spec (r : Result) (role : String) (dSat : ℚ) (vs : List VariantNeed) :
    (priceRole r role dSat vs).1.role = role ∧ (priceRole r role dSat vs).1.vs = vs ∧
      ∀ k, (priceRole r role dSat vs).1.chosen = some k →
        k < (priceRole r role dSat vs).1.frames.length := by
  have hpricing : (priceRole r role dSat vs).1 =
      ⟨role, vs, roleFrames dSat vs, lowest ((roleFrames dSat vs).map (coverage vs))⟩ := by
    unfold priceRole
    simp only
    split
    · rfl
    · split_ifs <;> rfl
  rw [hpricing]
  refine ⟨rfl, rfl, fun k hk => ?_⟩
  exact (lowest_lt hk).trans_eq (length_map _)

theorem priceRoles_spec (sat : Result) (decisions : String → Decision) :
    ((priceRoles sat decisions).1.map (·.role)).Nodup ∧
      ∀ p ∈ (priceRoles sat decisions).1, p.vs = needsOf sat decisions p.role ∧
        ∀ k, p.chosen = some k → k < p.frames.length := by
  suffices h : ((priceRoles sat decisions).1.map (·.role)).Sublist
      (rolesPresent sat.variantCapacities) ∧ ∀ p ∈ (priceRoles sat decisions).1,
        p.vs = needsOf sat decisions p.role ∧ ∀ k, p.chosen = some k → k < p.frames.length from
    ⟨(nodup_rolesPresent _).sublist h.1, h.2⟩
  unfold priceRoles
  induction rolesPresent sat.variantCapacities using reverseRecOn with
  | nil => simp
  | append_singleton roles role ih =>
    rw [foldl_append, foldl_cons, foldl_nil]
    cases demandForRole sat role with
    | none => exact ⟨ih.1.trans (sublist_append_left _ _), ih.2⟩
    | some dSat =>
      simp only [map_append, map_cons, map_nil]
      generalize List.foldl _ _ _ = st at ih ⊢
      obtain ⟨hrole, hvs, hchosen⟩ := priceRole_spec st.2 role dSat (needsOf sat decisions role)
      refine ⟨?_, forall_mem_append.mpr ⟨ih.2, forall_mem_singleton.mpr ⟨?_, hchosen⟩⟩⟩
      · rw [hrole]
        exact ih.1.append (Sublist.refl _)
      · rw [hrole, hvs]

/-- The pricings of a model's roles, when discovery and the analyzers agree on a variant's role. -/
theorem priced_priceRoles {sat : Result} (decisions : String → Decision)
    {records : List VariantRecord}
    (hroles : ∀ vc ∈ sat.variantCapacities, ∀ record ∈ records,
      record.variantName = vc.variantName → canonicalRole record.role = roleOfVC vc) :
    Priced records (priceRoles sat decisions).1 := by
  obtain ⟨hnodup, hpricings⟩ := priceRoles_spec sat decisions
  refine ⟨hnodup, fun p hp => (hpricings p hp).2, fun p hp => ?_, fun p hp v hv record hrecord hname
    => ?_⟩
  · rw [(hpricings p hp).1, needsOf, map_map]
    exact sat.nodup.sublist (filter_sublist.map _)
  · rw [(hpricings p hp).1] at hv
    obtain ⟨vc, hvc, rfl⟩ := mem_map.mp hv
    obtain ⟨hmem, hrole⟩ := mem_filter.mp hvc
    exact (hroles vc hmem record hrecord hname).trans (beq_iff_eq.mp hrole)

/-- A scale-down keeps every frame a role is not priced in served: with the replicas kept, one whose
supply covered its demand at the release target still does; one above it loses nothing, and where it
rates a running variant that is priced, no replica of the role is removed. -/
theorem scaleDown_keeps_frames_served (sat : Result) (decisions : String → Decision) (c : Signal)
    (m : Model) (sort : ReleaseSorting) (before : GoMap String ℕ)
    (hroles : ∀ vc ∈ sat.variantCapacities, ∀ record ∈ m.records,
      record.variantName = vc.variantName → canonicalRole record.role = roleOfVC vc)
    {scaleDown : ℚ} (hpos : 0 < scaleDown) (hle : scaleDown ≤ c.releaseTarget) :
    let pricings := (priceRoles sat decisions).1
    let priced : Signal := { c with result := (priceRoles sat decisions).2 }
    let after := scaleDownRoleIterated sort m
      (initRoleState (boundAllSpare priced pricings scaleDown).named).2.2 before
    ∀ p ∈ pricings, ∀ chosen, p.chosen = some chosen → ∀ i f, i ≠ chosen → p.frames[i]? = some f →
      (f.demand / c.releaseTarget ≤ supplyIn f p.vs (·.replicas) →
        f.demand / c.releaseTarget ≤ supplyIn f p.vs (keptReplicas before after)) ∧
      (supplyIn f p.vs (·.replicas) < f.demand / c.releaseTarget →
        supplyIn f p.vs (keptReplicas before after) = supplyIn f p.vs (·.replicas) ∧
          ((∃ v ∈ p.vs, v.replicas ≠ 0 ∧ 0 < f.prc v ∧ 0 < pricedCapacity priced.result v) →
            ∀ v ∈ p.vs, after.get v.variantName = before.get v.variantName)) := by
  intro pricings priced after p hp chosen hchosen i f hi hf
  have hpriced : Priced m.records pricings := priced_priceRoles decisions hroles
  have htarget : 0 < c.releaseTarget := hpos.trans_le hle
  have hrunning : 0 ≤ supplyIn f p.vs (·.replicas) := supplyIn_nonneg _
  rcases le_or_gt 0 f.demand with hdemand | hdemand
  · have hlost := hpriced.supplyIn_le hp (rfl : after = _) hpos hle hchosen hi hf hdemand
    have hsame : priced.releaseTarget = c.releaseTarget := rfl
    rw [hsame] at hlost
    constructor
    · intro hcovered
      rw [max_eq_left (sub_nonneg.mpr hcovered)] at hlost
      linarith
    · intro habove
      rw [max_eq_right (sub_nonpos.mpr habove.le), add_zero] at hlost
      refine ⟨le_antisymm (supplyIn_kept_le f p.vs before after) hlost, ?_⟩
      rintro ⟨v, hv, hrun, hprc, hcapacity⟩
      exact hpriced.targets hp (rfl : after = _) hpos hle hchosen hi hf hdemand habove hv hrun hprc
        hcapacity
  · have hnegative : f.demand / c.releaseTarget < 0 := div_neg_of_neg_of_pos hdemand htarget
    exact ⟨fun _ => hnegative.le.trans (supplyIn_nonneg _), fun habove =>
      absurd (habove.trans hnegative) (not_lt.mpr hrunning)⟩

/-- Two variants two analyzers rate differently. -/
def ratedTwice : Result where
  variantCapacities := [⟨⟨"a", 10⟩, "", 4⟩, ⟨⟨"b", 5⟩, "", 2⟩]
  totalDemand := 20
  roleDemand := none
  nodup := by decide

/-- Saturation asks 2 replicas of the first variant and 4 of the second, another analyzer 3 and 2. -/
def askedTwice (v : String) : Decision :=
  if v = "a" then ⟨true, 2, [("slo", 3)]⟩ else ⟨true, 4, [("slo", 2)]⟩

def spareSignal : Signal where
  result := ratedTwice
  score := 1
  scaleUpThreshold := 4 / 5
  scaleDownBoundary := 1 / 2
  requiredCapacity := 0
  spareCapacity := 10
  totalSupply := 70
  roleCapacities := none
  releaseBound := ∅
  live := true

/-- The model's two variants. -/
def ratedModel : Model where
  ns := "x"
  records := [⟨⟨"a", "", 3, "H100"⟩, 10⟩, ⟨⟨"b", "", 1, "A100"⟩, 15⟩]
  stateMap := ∅
  roles := [roleBoth]

/-- Priced in the other analyzer's frame, the role gives up one replica and saturation stays
served. -/
theorem scaleDown_keeps_frames_served_two :
    let before : GoMap String ℕ := GoMap.ofList [("a", 4), ("b", 2)]
    let pricings := (priceRoles ratedTwice askedTwice).1
    let after := scaleDownRoleIterated releaseSort ratedModel (initRoleState (boundAllSpare
      { spareSignal with result := (priceRoles ratedTwice askedTwice).2 } pricings (1 / 2)).named).2.2
      before
    after.get "a" = 3 ∧ ∀ p ∈ pricings, p.frames[0]? = some ⟨"", 20⟩ ∧
      (20 : ℚ) / spareSignal.releaseTarget ≤ supplyIn ⟨"", 20⟩ p.vs (keptReplicas before after) := by
  intro before pricings after
  have hroles : ∀ vc ∈ ratedTwice.variantCapacities, ∀ record ∈ ratedModel.records,
      record.variantName = vc.variantName → canonicalRole record.role = roleOfVC vc := by decide
  have h := scaleDown_keeps_frames_served ratedTwice askedTwice spareSignal ratedModel releaseSort
    before hroles (by norm_num : (0 : ℚ) < 1 / 2) (by decide +kernel)
  refine ⟨by decide +kernel, fun p hp => ?_⟩
  have hfacts : ∀ p ∈ pricings, p.chosen = some 1 ∧ p.frames[0]? = some ⟨"", 20⟩ ∧
      (20 : ℚ) / spareSignal.releaseTarget ≤ supplyIn ⟨"", 20⟩ p.vs (·.replicas) := by
    decide +kernel
  obtain ⟨hchosen, hframe, hcovered⟩ := hfacts p hp
  exact ⟨hframe, (h p hp 1 hchosen 0 _ (by decide) hframe).1 hcovered⟩

end LlmScaler.Composite
