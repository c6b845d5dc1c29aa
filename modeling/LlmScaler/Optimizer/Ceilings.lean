import LlmScaler.Optimizer.PoolFit
import LlmScaler.Optimizer.SpendLog

/-!
# Targets within the variants' ceilings

A pass commits a role no more replicas than the variant picked for it has headroom: a role is sized
within the cap of its pick, trimming goes no higher, and fitting only lowers. The roles' variants
differ, so no pass takes a variant past its `maxReplicas`, and no run of an optimizer does.
-/

namespace LlmScaler.Optimizer

open Core Budget List GoMap

variable {ν : Type*} {ops : NodeOps ν} {m : Model} {commits : List Commit} {st : PairState ν}

/-- No target is past the ceiling of its variant, unless its replicas were. -/
def WithinMax (states : GoMap String VariantReplicaState) (targets : GoMap String ℕ) : Prop :=
  ∀ v most, (states.get v).maxReplicas = some most → 0 < most →
    targets.get v ≤ max (states.get v).currentReplicas most

theorem get_commitRole (m : Model) (st : PairState ν) (c : Commit) (v : String) :
    (commitRole m st c).targets.get v =
      if v = c.variant then st.targets.get v + c.k else st.targets.get v := by
  have htargets : (commitRole m st c).targets = st.targets.modify c.variant (· + c.k) := by
    rw [commitRole]
    split <;> rfl
  rw [htargets, get_modify]
  split_ifs with hv
  · rw [hv]
  · rfl

theorem WithinMax.commit (h : WithinMax m.stateMap st.targets)
    (hvariants : (commits.map (·.variant)).Nodup)
    (hroom : ∀ c ∈ commits, c.k ≤ headroom (m.stateMap.get c.variant) (st.targets.get c.variant)) :
    WithinMax m.stateMap (commits.foldl (commitRole m) st).targets := by
  intro v most hmax hpos
  have hle := h v most hmax hpos
  by_cases hv : v ∈ commits.map (·.variant)
  · obtain ⟨c, hc, rfl⟩ := mem_map.mp hv
    have hhead := hroom c hc
    simp only [headroom, hmax, if_pos hpos, Nat.cast_le] at hhead
    have hget := view_foldl (·.variant) (m := (·.targets.get ·)) (g := commitRole m)
      (f := fun c n => n + c.k) (get_commitRole m) hvariants hc st
    omega
  · have hget := view_foldl_of_not_mem (·.variant) (m := (·.targets.get ·)) (g := commitRole m)
      (f := fun c n => n + c.k) (get_commitRole m) hv st
    omega

section Picks

variable {e : NamedAnalyzerResult} {ps : RolePairedState} {picked : List RolePick}

theorem atMost_le (n : ℕ) (limit : ℕ∞) : atMost n limit ≤ limit := by
  rw [atMost]
  split_ifs with htop
  · rw [htop]
    exact le_top
  · exact (Nat.cast_le.mpr (min_le_right _ _)).trans (ENat.natCast_toNat htop).le

/-- A pick of a variant of the role, with no more than its headroom. -/
def Bounded (m : Model) (pick : RolePickFn ν) : Prop :=
  ∀ st role v cap, pick st role = some (v, cap) →
    (∃ vc ∈ m.records, vc.variantName = v ∧ canonicalRole vc.role = role) ∧
      cap ≤ headroom (m.stateMap.get v) (st.targets.get v)

theorem exists_of_pick {sort : CostSorting} {role : String} {choose : VariantRecord → RoleChoice}
    {c : String × ℕ∞}
    (h : (sort.sort (variantsForRole m.records role)).findSome? choose = some c) :
    ∃ vc ∈ m.records, canonicalRole vc.role = role ∧ choose vc = some c := by
  obtain ⟨vc, hvc, hchoose⟩ := exists_of_findSome?_eq_some h
  obtain ⟨hmem, hrole⟩ := mem_filter.mp (sort.mem_sort.mp hvc)
  exact ⟨vc, hmem, beq_iff_eq.mp hrole, hchoose⟩

theorem bounded_costGreedyRolePick (sort : CostSorting) :
    Bounded m fun st : PairState ν => costGreedyRolePick sort m st.targets := by
  intro st role v cap h
  obtain ⟨vc, hmem, hrole, hchoose⟩ := exists_of_pick h
  split_ifs at hchoose
  cases hchoose
  exact ⟨⟨vc, hmem, rfl, hrole⟩, le_rfl⟩

theorem fairShareCap_le (target : ℚ) (available : Option Figures) (targets : GoMap String ℕ)
    (nodes : Option ν) (vc : VariantRecord) :
    fairShareCap ops target m available targets nodes vc ≤
      headroom (m.stateMap.get vc.variantName) (targets.get vc.variantName) := by
  have hnodes (n : ℕ) : nodesHold ops m nodes vc.variantName n ≤ n := by
    cases nodes with
    | none => exact le_rfl
    | some view => exact min_le_left _ _
  rw [fairShareCap]
  split_ifs
  · exact bot_le
  · exact bot_le
  · exact (Nat.cast_le.mpr (hnodes _)).trans (atMost_le _ _)

theorem bounded_fairShareRolePickOn (sort : CostSorting) (target : ℚ) :
    Bounded m fun st : PairState ν =>
      fairShareRolePickOn ops sort target m st.available st.targets st.nodes := by
  intro st role v cap h
  obtain ⟨vc, hmem, hrole, hchoose⟩ := exists_of_pick h
  split_ifs at hchoose
  cases hchoose
  exact ⟨⟨vc, hmem, rfl, hrole⟩, fairShareCap_le ..⟩

theorem pickRoles_spec {choose : String → RoleChoice} {atCeiling : String → Bool}
    {prcOf : String → ℚ} {roles : List String}
    (h : (pickRoles choose atCeiling prcOf roles ps).1 = some picked) :
    (picked.map (·.role)).Sublist roles ∧
      ∀ p ∈ picked, choose p.role = some (p.variant, p.cap) := by
  induction roles generalizing ps picked with
  | nil =>
    cases h
    exact ⟨.slnil, fun _ hp => absurd hp not_mem_nil⟩
  | cons role roles ih =>
    rw [pickRoles] at h
    cases hchoose : choose role with
    | none =>
      simp only [hchoose] at h
      split_ifs at h
      · exact (ih h).imp_left (.cons _)
      · exact (ih h).imp_left (.cons _)
    | some c =>
      simp only [hchoose] at h
      split_ifs at h
      · exact (ih h).imp_left (.cons _)
      · obtain ⟨rest, hrest, rfl⟩ := Option.map_eq_some_iff.mp h
        exact (ih hrest).imp (.cons_cons _) fun hall => forall_mem_cons.mpr ⟨hchoose, hall⟩

theorem deltaUtil_le (e : NamedAnalyzerResult) (ps : RolePairedState) {p : RolePick}
    (hp : p ∈ picked) : deltaUtil e ps picked ≤ utilOf e ps p := by
  cases picked with
  | nil => cases hp
  | cons q rest =>
    exact (min?_eq_some_iff.mp min?_cons').2 _ (mem_map_of_mem (f := utilOf e ps) hp)

theorem trim_le {p : RolePick} (hp : p ∈ picked) :
    (trim e ps (deltaUtil e ps picked) p).k ≤ p.cap := by
  apply le_trans (Nat.cast_le.mpr _) (atMost_le (roleBottleneckReplicas e ps p.role p.variant) _)
  simp only [trim]
  split_ifs with hpos
  · obtain ⟨hprc, hdemand⟩ := hpos
    have hdelta := deltaUtil_le e ps hp
    rw [utilOf, if_neg (not_le.mpr hdemand), le_div_iff₀ hdemand] at hdelta
    refine max_le (Int.toNat_le.mpr (Int.floor_le_iff.mpr ?_)) (min_le_right _ _)
    refine lt_of_le_of_lt ((div_le_iff₀ hprc).mpr hdelta) ?_
    exact_mod_cast lt_add_one _
  · exact Nat.zero_le _

end Picks

section Fits

variable {fitted : List Commit}

theorem Lowered.variants (h : Lowered commits fitted) :
    fitted.map (·.variant) = commits.map (·.variant) := by
  induction h with
  | nil => rfl
  | cons hcc _ ih => rw [map_cons, map_cons, ih, hcc.1]

theorem trimmed_fitPairToPools {available : Option Figures} (hroles : (commits.map (·.role)).Nodup)
    (h : fitPairToPools m available commits = some fitted) : Forall₂ Trimmed commits fitted := by
  have htrim := trimmed_fitPairToPoolsCounts (m := m) hroles available
  rw [← toOption_fitPairToPoolsCounts] at h
  generalize fitPairToPoolsCounts m available commits = out at h htrim
  cases out with
  | error left => cases h
  | ok left =>
    cases h
    exact htrim

theorem lowered_fitPairToNodes {nodes : Option ν} {out : List Commit × Option ν}
    (hroles : (commits.map (·.role)).Nodup) (h : fitPairToNodes ops m nodes commits = some out) :
    Lowered commits out.1 := by
  cases nodes with
  | none =>
    cases h
    exact forall₂_same.mpr fun c _ => ⟨rfl, le_rfl⟩
  | some view =>
    obtain ⟨hfst, hle⟩ := @placeCommits_spec _ ops m ((commits.map (·.k)).sum + 1) view
      (commits.map (·, 0)) (by rwa [map_map]) (by simp)
    simp only [fitPairToNodes] at h
    split_ifs at h
    cases h
    rw [map_map] at hfst
    exact lowered_placed (hfst.trans (map_id _)) hle

theorem lowered_fitPairToBudget {available : Option Figures} {nodes : Option ν}
    {out : List Commit × Option ν} (hroles : (commits.map (·.role)).Nodup)
    (h : fitPairToBudget ops m available nodes commits = some out) : Lowered commits out.1 := by
  obtain ⟨fitted, hpools, hnodes⟩ := Option.bind_eq_some_iff.mp h
  have htrim := trimmed_fitPairToPools hroles hpools
  have hlow := lowered_fitPairToNodes (roles_of_trimmed htrim ▸ hroles) hnodes
  exact forall₂_comp (T := fun c c' : Commit => c'.toRolePick = c.toRolePick ∧ c'.k ≤ c.k)
    (fun _ _ _ htrim hlow => ⟨hlow.1.trans htrim.1, hlow.2.trans htrim.2.1⟩) htrim hlow

end Fits

section Allocate

variable {pick : RolePickFn ν} (hpick : Bounded m pick)
  (hnames : (m.records.map (·.variantName)).Nodup)

include hpick hnames

theorem pairCommits_spec {picked : List RolePick} {out : List Commit × Option ν}
    {ps : RolePairedState} (hroles : (picked.map (·.role)).Nodup)
    (hpicked : ∀ p ∈ picked, pick st p.role = some (p.variant, p.cap))
    (h : pairCommits ops m { st with ps := ps } picked = some out) :
    (out.1.map (·.variant)).Nodup ∧
      ∀ c ∈ out.1, c.k ≤ headroom (m.stateMap.get c.variant) (st.targets.get c.variant) := by
  have hvariants : (picked.map (·.variant)).Nodup := by
    refine pairwise_map.mpr ((pairwise_map.mp hroles).imp_of_mem fun ha hb hne heq => hne ?_)
    obtain ⟨⟨a, hrec, haname, harole⟩, -⟩ := hpick _ _ _ _ (hpicked _ ha)
    obtain ⟨⟨b, hrec', hbname, hbrole⟩, -⟩ := hpick _ _ _ _ (hpicked _ hb)
    have hsame := inj_on_of_nodup_map hnames hrec hrec' (haname.trans (heq.trans hbname.symm))
    rw [← harole, ← hbrole, hsame]
  simp only [pairCommits] at h
  split_ifs at h
  have hlow := lowered_fitPairToBudget (by rwa [map_map]) h
  constructor
  · rwa [hlow.variants, map_map]
  · intro c hc
    obtain ⟨c', hc', hsame, hk⟩ := exists_of_forall₂ hlow hc
    obtain ⟨p, hp, rfl⟩ := mem_map.mp hc'
    have hroom := (hpick _ _ _ _ (hpicked p hp)).2
    rw [hsame]
    exact (Nat.cast_le.mpr hk).trans ((trim_le hp).trans hroom)

theorem WithinMax.allocate (hroles : m.roles.Nodup) (h : WithinMax m.stateMap st.targets)
    (fuel : ℕ) : WithinMax m.stateMap (allocateForModelPairedOn ops m pick fuel st).targets := by
  refine @loop_invariant _ _ (fun st : PairState ν => WithinMax m.stateMap st.targets) ?_ _ h fuel
  intro st h
  rw [pairBody]
  split_ifs
  · dsimp only
    split
    · exact h
    · next out hout =>
      obtain ⟨picked, hpicked, hcommits⟩ := Option.bind_eq_some_iff.mp hout
      obtain ⟨hsub, hall⟩ := pickRoles_spec hpicked
      obtain ⟨hvariants, hroom⟩ := pairCommits_spec hpick hnames (hsub.nodup hroles) hall hcommits
      exact WithinMax.commit h hvariants hroom
  · exact h

end Allocate

theorem withinMax_initTargets (states : List VariantReplicaState) :
    WithinMax (buildStateMap states) (initTargets states) := by
  have hcurrent : ∀ v, (initTargets states).get v =
      ((buildStateMap states).get v).currentReplicas := by
    refine foldl_rel (r := fun (t : GoMap String ℕ) (s : GoMap String VariantReplicaState) =>
      ∀ v, t.get v = (s.get v).currentReplicas) (fun _ => rfl) fun s _ t s' h v => ?_
    rw [get_set, get_set]
    split_ifs
    · rfl
    · exact h v
  exact fun v _ _ _ => (hcurrent v).le.trans (le_max_left _ _)

theorem nodup_recordsForRequest (req : ModelScalingRequest) :
    ((recordsForRequest req).map (·.variantName)).Nodup := by
  rw [recordsForRequest]
  split
  · exact nodup_nil
  · rw [buildVariantRecords, map_map]
    exact req.nodup

theorem nodup_initRoleState (e : NamedAnalyzerResult) : (initRoleState e).1.Nodup := by
  rw [initRoleState]
  split
  · exact nodup_nil
  · split
    · exact (perm_insertionSort _ _).nodup_iff.mpr (AList.nodupKeys _)
    · exact nodup_singleton _

/-- The cost-aware optimizer takes no variant past its ceiling. -/
theorem costAwareTargets_withinMax (sort : CostSorting) (release : ReleaseSorting) (fuel : ℕ)
    (req : ModelScalingRequest) :
    WithinMax (buildStateMap req.variantStates) (costAwareTargets sort release fuel req) := by
  simp only [costAwareTargets]
  split_ifs
  · refine WithinMax.allocate (m := modelOf req _) (bounded_costGreedyRolePick sort)
      (nodup_recordsForRequest req) (nodup_initRoleState _) ?_ fuel
    exact withinMax_initTargets req.variantStates
  · intro v most hmax hpos
    exact (scaleDownRoleIterated_le ..).trans (withinMax_initTargets _ v most hmax hpos)

structure ModelWork.Kept (w : ModelWork) : Prop where
  roles : w.roles.Nodup
  within : WithinMax (buildStateMap w.req.variantStates) w.targets

theorem ModelWork.Kept.serve {w : ModelWork} (h : w.Kept) (sort : CostSorting) (fuel : ℕ)
    (share mean : ℚ) (b : Budgets ν) :
    (afterTurn (serveModel (budgetSizing ops sort fuel) w share b).result mean).Kept := by
  have hserved : (serveModel (budgetSizing ops sort fuel) w share b).result.1.Kept := by
    rw [serveModel]
    split_ifs
    · exact h
    · refine ⟨h.roles, WithinMax.allocate (m := w.model) (bounded_fairShareRolePickOn sort _)
        (nodup_recordsForRequest w.req) h.roles ?_ fuel⟩
      exact h.within
  rw [afterTurn]
  split_ifs
  · exact ⟨hserved.roles, hserved.within⟩
  · exact hserved

theorem kept_scaleUpWorks {requests : List ModelScalingRequest} {w : ModelWork}
    (h : w ∈ scaleUpWorks requests) : w.Kept := by
  obtain ⟨i, hi, rfl⟩ := mem_mapIdx.mp h
  obtain ⟨req, -, hwork⟩ := mem_filterMap.mp (getElem_mem hi)
  generalize (requests.filterMap scaleUpWork)[i] = w at hwork
  simp only [scaleUpWork] at hwork
  split_ifs at hwork
  cases hwork
  exact ⟨nodup_initRoleState _, withinMax_initTargets _⟩

/-- However many rounds the fair share takes, it takes no variant of a model past its ceiling. -/
theorem loggedScaleUp_withinMax (ops : NodeOps ν) (sort : CostSorting) (order : WorkSorting)
    (fuel rounds : ℕ) (requests : List ModelScalingRequest) (b : Budgets ν)
    (spends : List SpendOp) :
    Forall (fun w => WithinMax (buildStateMap w.req.variantStates) w.targets)
      (loggedScaleUp (budgetSizing ops sort fuel) rounds order
        ⟨⟨scaleUpWorks requests, b⟩, spends⟩).work := by
  refine forall_iff_forall_mem.mpr fun w hw => ?_
  refine (@loop_invariant _ (loggedBody (budgetSizing ops sort fuel) order)
    (fun st => ∀ w ∈ st.work, w.Kept) ?_ _ (fun _ => kept_scaleUpWorks) rounds w hw).within
  intro st h
  simp only [loggedBody]
  cases hsort : order.sort (filterActive st.work) with
  | nil => exact h
  | cons w rest =>
    dsimp only
    split_ifs
    · have hmem : w ∈ order.sort (filterActive st.work) := hsort ▸ mem_cons_self
      have hw := h w (mem_filter.mp (order.mem_sort.mp hmem)).1
      refine forall_mem_map.mpr fun x hx => ?_
      split_ifs
      · exact hw.serve sort fuel _ _ _
      · exact h x hx
    · exact h

end LlmScaler.Optimizer
