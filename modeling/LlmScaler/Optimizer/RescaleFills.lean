import LlmScaler.Core.Lists
import LlmScaler.Optimizer.Rescale

/-!
# What rescale's fills take

A fill takes the GPUs of the replicas it adds, never more than it is offered, and what does not
land on a node goes back. So a model never leaves more free GPUs than it found.
-/

namespace LlmScaler.Optimizer

open Core Budget Accelerator List GoMap

variable {before : GoMap String ℕ} {role : String} {vc : VariantRecord}

section Fill

variable (sort : CostSorting) (m : Model)

/-- GPUs the target replicas of some variants take. -/
def targetGPUs (variants : List VariantRecord) (targets : GoMap String ℕ) : ℕ :=
  (variants.map fun vc => targets.get vc.variantName * m.gpus vc.variantName).sum

variable {variants : List VariantRecord}

theorem targetGPUs_modify_of_notMem {v : String} (h : v ∉ variants.map (·.variantName))
    (targets : GoMap String ℕ) (f : ℕ → ℕ) :
    targetGPUs m variants (targets.modify v f) = targetGPUs m variants targets := by
  unfold targetGPUs
  refine congrArg List.sum (map_congr_left fun vc hvc => ?_)
  have hne : vc.variantName ≠ v := fun he => h (he ▸ mem_map_of_mem hvc)
  rw [get_modify, if_neg hne]

theorem targetGPUs_modify (hnodup : (variants.map (·.variantName)).Nodup) (hvc : vc ∈ variants)
    (targets : GoMap String ℕ) (n : ℕ) :
    targetGPUs m variants (targets.modify vc.variantName (· + n)) =
      targetGPUs m variants targets + n * m.gpus vc.variantName := by
  induction variants with
  | nil => cases hvc
  | cons head rest ih =>
    obtain ⟨hhead, hrest⟩ := nodup_cons.mp hnodup
    have hcons : ∀ targets, targetGPUs m (head :: rest) targets =
        targets.get head.variantName * m.gpus head.variantName + targetGPUs m rest targets :=
      fun _ => rfl
    rw [hcons, hcons, get_modify]
    rcases mem_cons.mp hvc with rfl | hmem
    · rw [if_pos rfl, targetGPUs_modify_of_notMem m hhead]
      ring
    · have hne : head.variantName ≠ vc.variantName :=
        fun he => hhead (mem_map.mpr ⟨vc, hmem, he.symm⟩)
      rw [if_neg hne, ih hrest hmem]
      ring

/-- What a fill has done: it took the GPUs of the replicas it added, within those wanted. -/
structure FillKept (variants : List VariantRecord) (want : ℕ) (before : GoMap String ℕ)
    (st : ℕ × GoMap String ℕ) : Prop where
  within : st.1 ≤ want
  grows : ∀ v, before.get v ≤ st.2.get v
  taken : targetGPUs m variants st.2 = targetGPUs m variants before + st.1

theorem FillKept.fillVariant (hnodup : (variants.map (·.variantName)).Nodup) {want : ℕ}
    {st : ℕ × GoMap String ℕ} (h : FillKept m variants want before st) (hvc : vc ∈ variants) :
    FillKept m variants want before (fillVariant m want st vc) := by
  unfold Optimizer.fillVariant
  set n := (if vc.perReplicaCapacity ≤ 0 then 0 else
    atMost ((want - st.1) / m.gpus vc.variantName)
      (headroom (m.stateOf vc) (st.2.get vc.variantName))) with hn
  dsimp only
  split_ifs with hzero
  · exact h
  · have hfits : n * m.gpus vc.variantName ≤ want - st.1 := by
      have hle : n ≤ (want - st.1) / m.gpus vc.variantName := by
        rw [hn]
        unfold atMost
        split_ifs
        · exact Nat.zero_le _
        · exact Nat.le_refl _
        · exact Nat.min_le_left _ _
      exact (Nat.mul_le_mul_right _ hle).trans (Nat.div_mul_le_self _ _)
    have hwithin := h.within
    refine ⟨by dsimp only; omega, fun v => ?_, ?_⟩
    · refine (h.grows v).trans ?_
      rw [get_modify]
      split_ifs with hv
      · rw [hv]
        exact Nat.le_add_right _ _
      · exact Nat.le_refl _
    · rw [targetGPUs_modify m hnodup hvc, h.taken, Nat.add_assoc]

theorem fillRole_kept (role : String)
    (hnodup : (m.records.map (·.variantName)).Nodup) (targets : GoMap String ℕ) (want : ℕ) :
    FillKept m (sort.sort (variantsForRole m.records role)) want targets
      (fillRole sort m role targets want) := by
  have hsorted : ((sort.sort (variantsForRole m.records role)).map (·.variantName)).Nodup :=
    (((sort.perm _).map _).nodup_iff).mpr
      (hnodup.sublist ((filter_sublist).map _))
  exact foldlRecOn (motive := FillKept m _ want targets) _ _
    ⟨Nat.zero_le _, fun _ => Nat.le_refl _, rfl⟩
    fun _ hst _ hvc => hst.fillVariant m hsorted hvc

/-- GPUs of the replicas some fills added. -/
def growthGPUs (growths : List RoleGrowth) : ℕ := (growths.map fun g => g.n * m.gpus g.variant).sum

theorem growthGPUs_append (xs ys : List RoleGrowth) :
    growthGPUs m (xs ++ ys) = growthGPUs m xs + growthGPUs m ys := by
  rw [growthGPUs, map_append, sum_append]
  rfl

theorem growthGPUs_grownBy {want : ℕ} {st : ℕ × GoMap String ℕ}
    (h : FillKept m (sort.sort (variantsForRole m.records role)) want before st) :
    growthGPUs m (grownBy sort m role before st.2) = st.1 := by
  obtain ⟨spent, after⟩ := st
  have hsum : ∀ variants : List VariantRecord,
      growthGPUs m ((variants.map fun vc => (⟨vc.variantName,
        after.get vc.variantName - before.get vc.variantName⟩ : RoleGrowth)).filter
          fun g => 0 < g.n) + targetGPUs m variants before = targetGPUs m variants after := by
    intro variants
    induction variants with
    | nil => rfl
    | cons vc rest ih =>
      have hgrows := h.grows vc.variantName
      dsimp only at hgrows
      have hgpus : (after.get vc.variantName - before.get vc.variantName) * m.gpus vc.variantName +
          before.get vc.variantName * m.gpus vc.variantName =
            after.get vc.variantName * m.gpus vc.variantName := by
        rw [← Nat.add_mul, Nat.sub_add_cancel hgrows]
      have hcons : ∀ targets, targetGPUs m (vc :: rest) targets =
          targets.get vc.variantName * m.gpus vc.variantName + targetGPUs m rest targets :=
        fun _ => rfl
      rw [hcons, hcons, map_cons, filter_cons]
      split_ifs with hpos
      · rw [← ih, ← hgpus]
        unfold growthGPUs
        rw [map_cons, sum_cons]
        ring
      · have hzero : after.get vc.variantName - before.get vc.variantName = 0 := by
          simpa [Nat.sub_eq_zero_iff_le] using hpos
        rw [hzero, Nat.zero_mul, Nat.zero_add] at hgpus
        rw [← ih, hgpus]
        ring
  have hafter := h.taken
  have hdiff := hsum (sort.sort (variantsForRole m.records role))
  dsimp only [grownBy] at hafter ⊢
  omega

theorem fills_taken (req : RescaleRequest) (tgt cur : String → ℕ)
    (hnodup : (m.records.map (·.variantName)).Nodup) (roles : List String) (targets : GoMap String ℕ)
    (free : ℕ) :
    (roles.foldl (fillOne sort m req tgt cur) ⟨targets, free, []⟩).free + growthGPUs m
      ((roles.foldl (fillOne sort m req tgt cur) ⟨targets, free, []⟩).grown.flatMap Prod.snd) =
        free := by
  refine foldlRecOn (motive := fun st : Fills =>
    st.free + growthGPUs m (st.grown.flatMap Prod.snd) = free) _ _ rfl ?_
  intro st hst role _
  unfold fillOne
  split_ifs
  · exact hst
  · have hkept := fillRole_kept sort m role hnodup st.targets
      (min (tgt role - cur role) st.free)
    have hgrown := growthGPUs_grownBy sort m hkept
    have hwithin : (fillRole sort m role st.targets (min (tgt role - cur role) st.free)).1 ≤
        st.free := hkept.within.trans (Nat.min_le_right _ _)
    dsimp only
    rw [flatMap_append, flatMap_singleton, growthGPUs_append]
    dsimp only
    rw [hgrown]
    omega

end Fill

section Grown

variable {sort : CostSorting} {m : Model}

theorem role_eq_of_name_mem (hnodup : (m.records.map (·.variantName)).Nodup) {r : String}
    (hvc : vc ∈ variantsForRole m.records r)
    (hname : vc.variantName ∈ (variantsForRole m.records role).map (·.variantName)) : r = role := by
  obtain ⟨vc', hvc', hsame⟩ := mem_map.mp hname
  obtain ⟨hmem, hrole⟩ := mem_filter.mp hvc
  obtain ⟨hmem', hrole'⟩ := mem_filter.mp hvc'
  have heq : vc' = vc := inj_on_of_nodup_map hnodup hmem' hmem hsame
  rw [heq] at hrole'
  exact (beq_iff_eq.mp hrole).symm.trans (beq_iff_eq.mp hrole')

theorem fillRole_frame (role : String) (targets : GoMap String ℕ) (want : ℕ) {x : String}
    (hx : x ∉ (variantsForRole m.records role).map (·.variantName)) :
    (fillRole sort m role targets want).2.get x = targets.get x := by
  refine foldlRecOn (motive := fun st : ℕ × GoMap String ℕ => st.2.get x = targets.get x) _ _
    rfl fun st hst vc hvc => ?_
  have hne : x ≠ vc.variantName := fun he =>
    hx (mem_map.mpr ⟨vc, (sort.perm _).subset hvc, he.symm⟩)
  unfold fillVariant
  dsimp only
  generalize (if vc.perReplicaCapacity ≤ 0 then 0 else _) = n
  split_ifs
  · exact hst
  · rw [get_modify, if_neg hne, hst]

theorem grownBy_congr {before' after after' : GoMap String ℕ}
    (hbefore : ∀ vc ∈ variantsForRole m.records role,
      before.get vc.variantName = before'.get vc.variantName)
    (hafter : ∀ vc ∈ variantsForRole m.records role,
      after.get vc.variantName = after'.get vc.variantName) :
    grownBy sort m role before after = grownBy sort m role before' after' := by
  refine congrArg (List.filter _) (map_congr_left fun vc hvc => ?_)
  have hmem := (sort.perm _).subset hvc
  rw [hbefore vc hmem, hafter vc hmem]

/-- What filling some roles has done: each fill added what its role's targets gained since the
start, and no other target moved. -/
structure GrownSince (sort : CostSorting) (m : Model) (start : GoMap String ℕ)
    (roles : List String) (st : Fills) : Prop where
  sublist : (st.grown.map Prod.fst).Sublist roles
  growths : ∀ f ∈ st.grown, f.2 = grownBy sort m f.1 start st.targets
  grows : ∀ x, start.get x ≤ st.targets.get x
  moved : ∀ x, st.targets.get x ≠ start.get x →
    ∃ f ∈ st.grown, x ∈ (variantsForRole m.records f.1).map (·.variantName)

theorem fills_grown (hnodup : (m.records.map (·.variantName)).Nodup) (req : RescaleRequest)
    (tgt cur : String → ℕ) (start : GoMap String ℕ) (free : ℕ) {roles : List String}
    (hroles : roles.Nodup) :
    GrownSince sort m start roles (roles.foldl (fillOne sort m req tgt cur) ⟨start, free, []⟩) := by
  induction roles using reverseRecOn with
  | nil =>
    exact ⟨Sublist.slnil, fun _ h => (not_mem_nil h).elim, fun _ => Nat.le_refl _,
      fun _ h => (h rfl).elim⟩
  | append_singleton roles role ih =>
    obtain ⟨hroles, -, hnew⟩ := nodup_append'.mp hroles
    have hnot : role ∉ roles := fun h => hnew h (mem_singleton.mpr rfl)
    have hst := ih hroles
    rw [foldl_concat]
    generalize roles.foldl (fillOne sort m req tgt cur) ⟨start, free, []⟩ = st at hst
    have hother : ∀ f ∈ st.grown, f.1 ≠ role := fun f hf he =>
      hnot (he ▸ hst.sublist.subset (mem_map_of_mem hf))
    unfold fillOne
    split_ifs
    · exact ⟨hst.sublist.trans (sublist_append_left _ _), hst.growths, hst.grows, hst.moved⟩
    · have hkept := fillRole_kept sort m role hnodup st.targets (min (tgt role - cur role) st.free)
      have hframe : ∀ x, x ∉ (variantsForRole m.records role).map (·.variantName) →
          (fillRole sort m role st.targets (min (tgt role - cur role) st.free)).2.get x =
            st.targets.get x := fun _ => fillRole_frame role st.targets _
      generalize fillRole sort m role st.targets (min (tgt role - cur role) st.free) = filled
        at hkept hframe
      have hstart : ∀ vc ∈ variantsForRole m.records role,
          st.targets.get vc.variantName = start.get vc.variantName := by
        intro vc hvc
        by_contra hmoved
        obtain ⟨f, hf, hname⟩ := hst.moved _ hmoved
        exact hother f hf (role_eq_of_name_mem hnodup hvc hname).symm
      refine ⟨?_, ?_, fun x => (hst.grows x).trans (hkept.grows x), fun x hx => ?_⟩
      · rw [map_append]
        exact hst.sublist.append (Sublist.refl _)
      · intro f hf
        rcases mem_append.mp hf with hf | hf
        · rw [hst.growths f hf]
          refine grownBy_congr (fun _ _ => rfl) fun vc hvc => (hframe _ fun hname => ?_).symm
          exact hother f hf (role_eq_of_name_mem hnodup hvc hname)
        · rw [mem_singleton.mp hf]
          exact grownBy_congr hstart fun _ _ => rfl
      · by_cases hname : x ∈ (variantsForRole m.records role).map (·.variantName)
        · exact ⟨_, mem_append_right _ (mem_singleton.mpr rfl), hname⟩
        · obtain ⟨f, hf, hmem⟩ := hst.moved x fun he => hx ((hframe x hname).trans he)
          exact ⟨f, mem_append_left _ hf, hmem⟩

end Grown

section Nodes

variable {ν : Type*} (ops : NodeOps ν) (m : Model)

theorem fst_foldl_takeBack (placed : GoMap String ℕ) (growths : List RoleGrowth)
    (st : ℕ × GoMap String ℕ) : (growths.foldl (takeBack m placed) st).1 = st.1 +
      (growths.map fun g => (g.n - placed.get g.variant) * m.gpus g.variant).sum := by
  refine foldl_raises (fun st g => ?_) growths st
  unfold takeBack
  dsimp only
  split_ifs with hzero
  · rw [hzero, Nat.zero_mul, Nat.add_zero]
  · rfl

theorem takeBack_le (placed : GoMap String ℕ) (growths : List RoleGrowth)
    (st : ℕ × GoMap String ℕ) :
    (growths.foldl (takeBack m placed) st).1 ≤ st.1 + growthGPUs m growths := by
  rw [fst_foldl_takeBack]
  exact Nat.add_le_add_left (sum_le_sum fun g _ => Nat.mul_le_mul_right _ (Nat.sub_le _ _)) _

theorem growthGPUs_filling (grown : List (String × List RoleGrowth)) :
    growthGPUs m ((filling grown).flatMap Prod.snd) = growthGPUs m (grown.flatMap Prod.snd) := by
  induction grown with
  | nil => rfl
  | cons f rest ih =>
    unfold filling at ih ⊢
    rw [flatMap_cons, growthGPUs_append, filter_cons]
    split_ifs with hwant
    · rw [flatMap_cons, growthGPUs_append, ih]
    · have hnone : growthGPUs m f.2 = 0 := by
        refine sum_eq_zero (forall_mem_map.mpr fun g hg => ?_)
        have hle : g.n ≤ wantOf f.2 := le_sum_of_mem (mem_map_of_mem hg)
        rw [decide_eq_true_eq] at hwant
        rw [show g.n = 0 by omega, Nat.zero_mul]
      rw [ih, hnone, Nat.zero_add]

theorem fitRescaleToNodes_le (grown : List (String × List RoleGrowth)) (nodes : Option ν)
    (targets : GoMap String ℕ) :
    (fitRescaleToNodes ops m grown nodes targets).1 ≤ growthGPUs m (grown.flatMap Prod.snd) := by
  cases nodes with
  | none => exact Nat.zero_le _
  | some view =>
    refine (takeBack_le m _ _ _).trans ?_
    rw [Nat.zero_add, growthGPUs_filling]

end Nodes

theorem nodup_rescaleModel (req : ModelScalingRequest) (accType : String) :
    ((rescaleModel req accType).records.map (·.variantName)).Nodup := by
  have hrecords : ((recordsForRequest req).map (·.variantName)).Nodup := by
    unfold recordsForRequest
    cases req.compositeSignal.result with
    | none => exact nodup_nil
    | some r =>
      dsimp only [buildVariantRecords]
      rw [map_map]
      exact req.nodup
  exact hrecords.sublist (filter_sublist.map _)

theorem rescaleModelDecisions_free_le {ν : Type*} (ops : NodeOps ν) (sort : CostSorting)
    (release : ReleaseSorting) (req : RescaleRequest) (accType : String) (targetGPUs free : ℕ)
    (nodes : Option ν) :
    (rescaleModelDecisions ops sort release req accType targetGPUs free nodes).free ≤ free := by
  have hnodup := nodup_rescaleModel req.toModelScalingRequest accType
  unfold rescaleModelDecisions
  dsimp only
  generalize rescaleModel req.toModelScalingRequest accType = m at hnodup ⊢
  generalize rescaleShares sort release req m targetGPUs = shares
  have htaken := fills_taken sort m req shares.1 (roleCurrentGPUs m) hnodup m.roles shares.2 free
  generalize m.roles.foldl (fillOne sort m req shares.1 (roleCurrentGPUs m))
    ⟨shares.2, free, []⟩ = fills at htaken ⊢
  have hback := fitRescaleToNodes_le ops m fills.grown nodes fills.targets
  omega

end LlmScaler.Optimizer
