import LlmScaler.Nodes.Fits
import LlmScaler.Nodes.Landing
import LlmScaler.Optimizer.PairSpec
import LlmScaler.Optimizer.RescaleFills

/-!
# Committing to the node view

The optimizers place replicas on a clone of the node view and adopt the clone when the placement
stands. What the view is debited is then the pods of the replicas left in the counts: a role's
replicas of one pass of the paired loop, or the replicas a rescale fill added to its variants, taken
back where they did not place.
-/

namespace LlmScaler.Optimizer

open Core Budget Accelerator Nodes List GoMap

/-- What a replica's state says of its pods. -/
structure PodLayout where
  /-- Each pod's GPUs, leader first; empty when not known. -/
  podGPUs : List ℕ := []
  tolerations : List Toleration := []
  /-- The label every pod must share a value of, or empty. -/
  topologyKey : String := ""
  placements : List PodPlacement := []
  deriving Inhabited

section View

variable (layouts : GoMap String PodLayout)

/-- `nodeFit.replica`: a replica with the pods its variant's state describes. -/
def replicaOf (s : ReplicaShape) : Nodes.ReplicaShape :=
  let layout := layouts.get s.variant
  ⟨s.variant, s.accelerator, layout.podGPUs, s.gpus, layout.tolerations, layout.topologyKey,
    layout.placements, none⟩

def viewOps : NodeOps NodeView where
  fits v s n := (v.fits (fitOf v.slots (replicaOf layouts s)) n).1
  place v s :=
    match v.place (fitOf v.slots (replicaOf layouts s)) with
    | (v', true) => some v'
    | (_, false) => none

def podsOf (m : Model) (slots : List NodeSlot) (variant : String) : Multiset ℕ :=
  ((fitOf slots (replicaOf layouts (m.shape variant))).pods : Multiset ℕ)

/-- `fitPairToNodes` on the cycle's view: the counts placed, `none` when one of the roles has no
place, and the view after. -/
def fitPairToNodesOn (m : Model) (v : NodeView) (commits : List Commit) :
    Option (List Commit) × NodeView :=
  let placed := placeCommits (viewOps layouts) m ((commits.map (·.k)).sum + 1) v.clone
    (commits.map (·, 0))
  if placed.2.any fun p => decide (0 < p.1.k) && p.2 == 0 then (none, v)
  else (some (placed.2.map fun p => { p.1 with k := p.2 }), v.adopt placed.1)

/-- `fitRescaleToNodes` on the cycle's view, charged to the model `key`: the GPUs returned, the
targets and the view after. -/
def fitRescaleToNodesOn (m : Model) (grown : List (String × List RoleGrowth)) (key : String)
    (v : NodeView) (targets : GoMap String ℕ) : ℕ × GoMap String ℕ × NodeView :=
  if filling grown = [] then (0, targets, v)
  else
    let placing := placeFills (viewOps layouts) m grown v.clone
    let half := halfPair grown placing.placed
    let back := ((filling grown).flatMap Prod.snd).foldl
      (takeBack m (if half then ∅ else placing.placedVariant)) (0, targets)
    (back.1, back.2, if half then v
      else ((v.setOwner key).adopt placing.trial).setOwner v.owner)

end View

section Place

variable {layouts : GoMap String PodLayout} {m : Model}

theorem viewOps_place {c c' : NodeView} {s : ReplicaShape}
    (h : (viewOps layouts).place c s = some c') :
    c.place (fitOf c.slots (replicaOf layouts s)) = (c', true) := by
  unfold viewOps at h
  dsimp only at h
  split at h
  next v' heq =>
    cases h
    exact heq
  next => cases h

theorem debited_clone (v : NodeView) : NodeView.Debited v v.clone 0 :=
  (NodeView.Debited.refl v).of_debit rfl rfl rfl rfl

theorem debited_viewOps {v c c' : NodeView} {pods : Multiset ℕ} (h : NodeView.Debited v c pods)
    {variant : String} (hplace : (viewOps layouts).place c (m.shape variant) = some c') :
    NodeView.Debited v c' (pods + podsOf layouts m v.slots variant) := by
  have hplaced := viewOps_place hplace
  have hok : (c.place (fitOf c.slots (replicaOf layouts (m.shape variant)))).2 = true := by
    rw [hplaced]
  have hdebited := NodeView.debited_place hok
  rw [hplaced] at hdebited
  rw [podsOf, ← h.1]
  exact h.trans hdebited

theorem debited_adopt {v c : NodeView} {pods : Multiset ℕ} (h : NodeView.Debited v c pods) :
    NodeView.Debited v (v.adopt c) pods :=
  h.of_debit rfl ((NodeView.slots_adopt v c).trans h.1.symm) rfl (NodeView.debit_adopt v c)

end Place

section Pair

variable {layouts : GoMap String PodLayout} {m : Model}

def placingPods (layouts : GoMap String PodLayout) (m : Model) (slots : List NodeSlot)
    (placing : List (Commit × ℕ)) : Multiset ℕ :=
  (placing.map fun p => p.2 • podsOf layouts m slots p.1.variant).sum

theorem placingPods_zero (slots : List NodeSlot) (commits : List Commit) :
    placingPods layouts m slots (commits.map (·, 0)) = 0 := by
  refine sum_eq_zero (forall_mem_map.mpr (forall_mem_map.mpr fun c _ => ?_))
  exact zero_nsmul _

theorem placingPods_place {slots : List NodeSlot} {placing : List (Commit × ℕ)}
    (hnodup : (placing.map fun p => p.1.role).Nodup) {c : Commit} {n : ℕ}
    (hc : (c, n) ∈ placing) :
    placingPods layouts m slots
        (placing.map fun p => if p.1.role = c.role then (p.1, p.2 + 1) else p) =
      placingPods layouts m slots placing + podsOf layouts m slots c.variant := by
  unfold placingPods
  rw [map_map]
  refine sum_map_add_at (fun p => p.1.role) hnodup hc ?_ ?_
  · intro p _ hne
    rw [Function.comp_apply, if_neg hne]
  · rw [Function.comp_apply, if_pos rfl, add_nsmul, one_nsmul]

theorem debited_placeCommits (fuel : ℕ) {v trial : NodeView}
    {placing : List (Commit × ℕ)} (hnodup : (placing.map fun p => p.1.role).Nodup)
    (h : NodeView.Debited v trial (placingPods layouts m v.slots placing)) :
    NodeView.Debited v (placeCommits (viewOps layouts) m fuel trial placing).1
      (placingPods layouts m v.slots (placeCommits (viewOps layouts) m fuel trial placing).2) := by
  induction fuel generalizing trial placing with
  | zero => exact h
  | succ fuel ih =>
    rw [placeCommits]
    cases hnext : nextToPlace placing with
    | none => exact h
    | some c =>
      simp only
      cases hplace : (viewOps layouts).place trial (m.shape c.variant) with
      | none => exact h
      | some trial' =>
        obtain ⟨n, hmem, -⟩ := nextToPlace_spec hnext
        refine ih ?_ ?_
        · rw [map_map]
          refine (map_congr_left fun p _ => ?_ : _ = placing.map fun p => p.1.role) ▸ hnodup
          rw [Function.comp_apply]
          split_ifs <;> rfl
        · rw [placingPods_place hnodup hmem]
          exact debited_viewOps h hplace

/-- What fitting the roles of a pass reports: placed, no count rises, a role that asked has a
replica and the view is debited with the pods of the replicas left; refused, nothing changed. -/
structure PairFitted (layouts : GoMap String PodLayout) (m : Model) (v : NodeView)
    (commits : List Commit) (out : Option (List Commit) × NodeView) : Prop where
  lowered : ∀ left, out.1 = some left → Lowered commits left
  each : ∀ left, out.1 = some left →
    Forall₂ (fun c c' : Commit => 0 < c.k → 0 < c'.k) commits left
  debited : ∀ left, out.1 = some left → NodeView.Debited v out.2
    (left.map fun c => c.k • podsOf layouts m v.slots c.variant).sum
  refused : out.1 = none → out.2 = v

theorem pairFitted_fitPairToNodesOn (v : NodeView) {commits : List Commit}
    (hroles : (commits.map (·.role)).Nodup) :
    PairFitted layouts m v commits (fitPairToNodesOn layouts m v commits) := by
  have hstart : ((commits.map fun c => (c, 0)).map fun p : Commit × ℕ => p.1.role).Nodup := by
    rw [map_map]
    exact hroles
  have hdebited : NodeView.Debited v v.clone
      (placingPods layouts m v.slots (commits.map fun c => (c, 0))) := by
    rw [placingPods_zero]
    exact debited_clone v
  replace hdebited := debited_placeCommits ((commits.map (·.k)).sum + 1) hstart hdebited
  obtain ⟨hfst, hle⟩ := @placeCommits_spec _ (viewOps layouts) m ((commits.map (·.k)).sum + 1)
    v.clone _ hstart (by simp)
  unfold fitPairToNodesOn
  dsimp only
  generalize placeCommits (viewOps layouts) m ((commits.map (·.k)).sum + 1) v.clone
    (commits.map (·, 0)) = placed at hdebited hfst hle ⊢
  rw [map_map] at hfst
  replace hfst : placed.2.map Prod.fst = commits := hfst.trans (map_id _)
  split_ifs with hshort
  · exact ⟨by simp, by simp, by simp, fun _ => rfl⟩
  · refine ⟨?_, ?_, ?_, by simp⟩
    · rintro _ ⟨⟩
      exact lowered_placed hfst hle
    · rintro _ ⟨⟩
      rw [← hfst, forall₂_map_left_iff, forall₂_map_right_iff, forall₂_same]
      intro p hp hpos
      by_contra hnone
      have hzero : p.2 = 0 := Nat.eq_zero_of_not_pos hnone
      apply hshort
      rw [any_eq_true]
      exact ⟨p, hp, by simp [hpos, hzero]⟩
    · rintro _ ⟨⟩
      rw [map_map]
      exact debited_adopt hdebited

end Pair

section Fills

/-- Of the first `i` replicas of a fill, those of a variant. -/
def heldOf : List RoleGrowth → ℕ → String → ℕ
  | [], _, _ => 0
  | g :: rest, i, x => if g.variant = x then min g.n i else heldOf rest (i - g.n) x

theorem replicaAt_mem {growths : List RoleGrowth} {i : ℕ} (h : i < wantOf growths) :
    replicaAt growths i ∈ growths.map (·.variant) := by
  induction growths generalizing i with
  | nil => exact (Nat.not_lt_zero _ h).elim
  | cons g rest ih =>
    have hwant : wantOf (g :: rest) = g.n + wantOf rest := rfl
    unfold replicaAt
    split_ifs
    · exact mem_cons_self
    · exact mem_cons_of_mem _ (ih (by omega))

theorem heldOf_succ {growths : List RoleGrowth} (hnodup : (growths.map (·.variant)).Nodup) {i : ℕ}
    (h : i < wantOf growths) (x : String) :
    heldOf growths (i + 1) x = heldOf growths i x + if x = replicaAt growths i then 1 else 0 := by
  induction growths generalizing i with
  | nil => exact (Nat.not_lt_zero _ h).elim
  | cons g rest ih =>
    have hwant : wantOf (g :: rest) = g.n + wantOf rest := rfl
    rw [map_cons, nodup_cons] at hnodup
    obtain ⟨hg, hrest⟩ := hnodup
    unfold heldOf replicaAt
    by_cases hi : i < g.n
    · rw [if_pos hi, Nat.sub_eq_zero_of_le hi, Nat.sub_eq_zero_of_le hi.le]
      by_cases hx : g.variant = x
      · rw [if_pos hx, if_pos hx, if_pos hx.symm]
        omega
      · rw [if_neg hx, if_neg hx, if_neg (Ne.symm hx), Nat.add_zero]
    · rw [if_neg hi, Nat.succ_sub (Nat.not_lt.mp hi)]
      have hi' : i - g.n < wantOf rest := by omega
      by_cases hx : g.variant = x
      · have hne : x ≠ replicaAt rest (i - g.n) := by
          rintro he
          rw [← hx] at he
          exact hg (he ▸ replicaAt_mem hi')
        rw [if_pos hx, if_pos hx, if_neg hne]
        omega
      · rw [if_neg hx, if_neg hx, ih hrest hi']

theorem heldOf_le {growths : List RoleGrowth} (hnodup : (growths.map (·.variant)).Nodup)
    {g : RoleGrowth} (hg : g ∈ growths) (i : ℕ) : heldOf growths i g.variant ≤ g.n := by
  induction growths generalizing i with
  | nil => cases hg
  | cons g' rest ih =>
    rw [map_cons, nodup_cons] at hnodup
    obtain ⟨hg', hrest⟩ := hnodup
    unfold heldOf
    rcases mem_cons.mp hg with rfl | hmem
    · rw [if_pos rfl]
      exact Nat.min_le_left _ _
    · have hne : g'.variant ≠ g.variant := fun he => hg' (he ▸ mem_map_of_mem hmem)
      rw [if_neg hne]
      exact ih hrest hmem _

theorem exists_heldOf_pos {growths : List RoleGrowth}
    (hpos : ∀ g ∈ growths, 0 < g.n) (hne : growths ≠ []) {i : ℕ} (hi : 0 < i) :
    ∃ g ∈ growths, 0 < heldOf growths i g.variant := by
  obtain ⟨g, rest, rfl⟩ := exists_cons_of_ne_nil hne
  refine ⟨g, mem_cons_self, ?_⟩
  rw [heldOf, if_pos rfl]
  exact lt_min (hpos g mem_cons_self) hi

theorem nextFill_spec {placed : GoMap String ℕ} {fills : List (String × List RoleGrowth)}
    {f : String × List RoleGrowth} (h : nextFill placed fills = some f) :
    f ∈ fills ∧ placed.get f.1 < wantOf f.2 := by
  have hselect := foldl_select (P := fun f : String × List RoleGrowth =>
    placed.get f.1 < wantOf f.2) (fun best f => by
      by_cases hdone : wantOf f.2 ≤ placed.get f.1
      · exact .inl (if_pos hdone)
      · rw [if_neg hdone]
        cases best with
        | none => exact .inr ⟨rfl, not_le.mp hdone⟩
        | some l =>
          by_cases hbehind : placed.get f.1 * wantOf l.2 < placed.get l.1 * wantOf f.2
          · exact .inr ⟨if_pos hbehind, not_le.mp hdone⟩
          · exact .inl (if_neg hbehind)) h
  exact hselect.resolve_left fun hnone => nomatch hnone

/-- Fills of distinct roles, each with its own variants of the model. -/
structure FillsOf (m : Model) (fills : List (String × List RoleGrowth)) : Prop where
  roles : (fills.map Prod.fst).Nodup
  variants : ∀ f ∈ fills, ∀ g ∈ f.2,
    g.variant ∈ (variantsForRole m.records f.1).map (·.variantName)
  once : ∀ f ∈ fills, (f.2.map (·.variant)).Nodup
  records : (m.records.map (·.variantName)).Nodup

variable {layouts : GoMap String PodLayout} {m : Model} {fills : List (String × List RoleGrowth)}

theorem FillsOf.same (h : FillsOf m fills) {f f' : String × List RoleGrowth} (hf : f ∈ fills)
    (hf' : f' ∈ fills) {x : String} (hx : x ∈ f.2.map (·.variant))
    (hx' : x ∈ f'.2.map (·.variant)) : f = f' := by
  obtain ⟨g, hg, rfl⟩ := mem_map.mp hx
  obtain ⟨g', hg', hsame⟩ := mem_map.mp hx'
  obtain ⟨vc, hvc, hname⟩ := mem_map.mp (h.variants f hf g hg)
  have hname' := h.variants f' hf' g' hg'
  rw [hsame, ← hname] at hname'
  exact inj_on_of_nodup_map h.roles hf hf' (role_eq_of_name_mem h.records hvc hname')

def variantPods (layouts : GoMap String PodLayout) (m : Model) (slots : List NodeSlot)
    (replicas : String → ℕ) : Multiset ℕ :=
  (m.records.map fun vc => replicas vc.variantName • podsOf layouts m slots vc.variantName).sum

theorem variantPods_zero (slots : List NodeSlot) {replicas : String → ℕ}
    (h : ∀ x, replicas x = 0) : variantPods layouts m slots replicas = 0 := by
  refine sum_eq_zero (forall_mem_map.mpr fun vc _ => ?_)
  rw [h]
  exact zero_nsmul _

/-- What placing the fills has done at any point: the replicas placed of each variant are the first
of its fill, and the trial view is debited with their pods. -/
structure FillsPlaced (layouts : GoMap String PodLayout) (m : Model) (v : NodeView)
    (fills : List (String × List RoleGrowth)) (st : Placing NodeView) : Prop where
  debited : NodeView.Debited v st.trial (variantPods layouts m v.slots st.placedVariant.get)
  /-- A variant's replicas are placed in the order its fill added them. -/
  held : ∀ f ∈ fills, ∀ x ∈ f.2.map (·.variant),
    st.placedVariant.get x = heldOf f.2 (st.placed.get f.1) x
  others : ∀ x, (∀ f ∈ fills, x ∉ f.2.map (·.variant)) → st.placedVariant.get x = 0

theorem fillsPlaced_start (v : NodeView) : FillsPlaced layouts m v fills ⟨v.clone, ∅, ∅⟩ where
  debited := by
    have hzero : variantPods layouts m v.slots (GoMap.get ∅) = 0 :=
      variantPods_zero v.slots fun _ => rfl
    rw [hzero]
    exact debited_clone v
  held f _ x _ := by
    have hzero : ∀ growths : List RoleGrowth, heldOf growths 0 x = 0 := by
      intro growths
      induction growths with
      | nil => rfl
      | cons g rest ih =>
        rw [heldOf, Nat.zero_sub, ih, Nat.min_zero, ite_self]
    exact (hzero f.2).symm
  others _ _ := rfl

theorem FillsPlaced.place (hof : FillsOf m fills) {v : NodeView} {st : Placing NodeView}
    (h : FillsPlaced layouts m v fills st) {f : String × List RoleGrowth} (hf : f ∈ fills)
    (hlt : st.placed.get f.1 < wantOf f.2) {trial : NodeView}
    (hplace : (viewOps layouts).place st.trial
      (m.shape (replicaAt f.2 (st.placed.get f.1))) = some trial) :
    FillsPlaced layouts m v fills ⟨trial, st.placed.modify f.1 (· + 1),
      st.placedVariant.modify (replicaAt f.2 (st.placed.get f.1)) (· + 1)⟩ := by
  have hnext := replicaAt_mem hlt
  have hdebited := debited_viewOps h.debited hplace
  generalize hx : replicaAt f.2 (st.placed.get f.1) = x at hnext hdebited
  refine ⟨?_, ?_, ?_⟩
  · obtain ⟨g, hg, rfl⟩ := mem_map.mp hnext
    obtain ⟨vc, hvc, hname⟩ := mem_map.mp (hof.variants f hf g hg)
    refine (?_ : _ = variantPods layouts m v.slots _) ▸ hdebited
    refine (sum_map_add_at (·.variantName) hof.records (mem_of_mem_filter hvc) ?_ ?_).symm
    · intro vc' _ hne
      rw [get_modify, if_neg (hname ▸ hne)]
    · rw [get_modify, if_pos hname, add_nsmul, one_nsmul, hname]
  · intro f' hf' y hy
    dsimp only
    rw [get_modify, get_modify]
    by_cases hsame : f'.1 = f.1
    · obtain rfl : f' = f := inj_on_of_nodup_map hof.roles hf' hf hsame
      rw [if_pos rfl, heldOf_succ (hof.once f' hf') hlt, hx, ← h.held f' hf' y hy]
      split_ifs with hyx
      · rw [hyx]
      · rfl
    · have hne : y ≠ x := fun he => hsame (congrArg Prod.fst (hof.same hf' hf hy (he ▸ hnext)))
      rw [if_neg hne, if_neg hsame]
      exact h.held f' hf' y hy
  · intro y hy
    have hne : y ≠ x := fun he => hy f hf (he ▸ hnext)
    dsimp only
    rw [get_modify, if_neg hne]
    exact h.others y hy

theorem fillsPlaced_placeFills {grown : List (String × List RoleGrowth)}
    (hof : FillsOf m (filling grown)) (v : NodeView) :
    FillsPlaced layouts m v (filling grown) (placeFills (viewOps layouts) m grown v.clone) := by
  refine loop_invariant (fun st hst => ?_) (fillsPlaced_start v) _
  unfold placeFill
  cases hnext : nextFill st.placed (filling grown) with
  | none => exact hst
  | some f =>
    obtain ⟨hf, hlt⟩ := nextFill_spec hnext
    dsimp only
    cases hplace : (viewOps layouts).place st.trial
        (m.shape (replicaAt f.2 (st.placed.get f.1))) with
    | none => exact hst
    | some trial => exact hst.place hof hf hlt hplace

theorem foldl_takeBack (placed : GoMap String ℕ) {growths : List RoleGrowth}
    (hnodup : (growths.map (·.variant)).Nodup) (st : ℕ × GoMap String ℕ) :
    (growths.foldl (takeBack m placed) st).1 = st.1 +
        (growths.map fun g => (g.n - placed.get g.variant) * m.gpus g.variant).sum ∧
      (∀ g ∈ growths, (growths.foldl (takeBack m placed) st).2.get g.variant =
        st.2.get g.variant - (g.n - placed.get g.variant)) ∧
      ∀ x ∉ growths.map (·.variant), (growths.foldl (takeBack m placed) st).2.get x =
        st.2.get x := by
  have hsnd (st : ℕ × GoMap String ℕ) (g : RoleGrowth) (x : String) :
      (takeBack m placed st g).2.get x =
        if x = g.variant then st.2.get x - (g.n - placed.get g.variant) else st.2.get x := by
    unfold takeBack
    dsimp only
    split_ifs with hzero hx hx
    · rw [hzero, Nat.sub_zero]
    · rfl
    · rw [get_modify, if_pos hx, hx]
    · rw [get_modify, if_neg hx]
  refine ⟨fst_foldl_takeBack m placed growths st, fun g hg => ?_, fun x hx => ?_⟩
  · exact view_foldl RoleGrowth.variant (m := fun st x => st.2.get x)
      (f := fun g n => n - (g.n - placed.get g.variant)) hsnd hnodup hg st
  · exact view_foldl_of_not_mem RoleGrowth.variant (m := fun st x => st.2.get x)
      (f := fun g n => n - (g.n - placed.get g.variant)) hsnd hx st

theorem mem_grownBy {sort : CostSorting} {role : String} {before after : GoMap String ℕ}
    {g : RoleGrowth} :
    g ∈ grownBy sort m role before after ↔ 0 < g.n ∧ ∃ vc ∈ variantsForRole m.records role,
      g = ⟨vc.variantName, after.get vc.variantName - before.get vc.variantName⟩ := by
  rw [grownBy, mem_filter, decide_eq_true_eq, and_comm, mem_map]
  simp only [(sort.perm _).mem_iff, eq_comm]

theorem FillsOf.nodup_growths (h : FillsOf m fills) :
    ((fills.flatMap Prod.snd).map (·.variant)).Nodup := by
  rw [map_flatMap, nodup_flatMap]
  refine ⟨h.once, h.roles.of_map.pairwise_of_forall_ne ?_⟩
  intro f hf f' hf' hne x hx hx'
  exact hne (h.same hf hf' hx hx')

def Grows (m : Model) (before after : GoMap String ℕ) (role : String) : Prop :=
  ∃ vc ∈ variantsForRole m.records role, before.get vc.variantName < after.get vc.variantName

/-- What fitting the fills of a model reports: the view is debited with the pods of the replicas
left in the targets, the GPUs of the others are returned, and of several roles filled each has a
replica left, or nothing is left and nothing changed. -/
structure RescaleFitted (layouts : GoMap String PodLayout) (m : Model) (v : NodeView)
    (start filled : GoMap String ℕ) (spent : ℕ) (out : ℕ × GoMap String ℕ × NodeView) : Prop where
  /-- No target is raised, and none falls below what it was before the fills. -/
  kept : ∀ x, start.get x ≤ out.2.1.get x ∧ out.2.1.get x ≤ filled.get x
  debited : NodeView.Debited v out.2.2
    (variantPods layouts m v.slots fun x => out.2.1.get x - start.get x)
  refund : out.1 = (m.records.map fun vc =>
    (filled.get vc.variantName - out.2.1.get vc.variantName) * m.gpus vc.variantName).sum
  pair : ∀ r s, r ≠ s → Grows m start filled r → Grows m start filled s →
    (∀ role, Grows m start filled role → Grows m start out.2.1 role) ∨
      out.2.2 = v ∧ (∀ x, out.2.1.get x = start.get x) ∧ out.1 = spent

def stays (grown : List (String × List RoleGrowth)) (placing : Placing NodeView) :
    GoMap String ℕ :=
  if halfPair grown placing.placed then ∅ else placing.placedVariant

section Since

variable {sort : CostSorting} {start : GoMap String ℕ} {roles : List String} {st : Fills}
  (h : GrownSince sort m start roles st)

include h

theorem GrownSince.growth_eq {g : RoleGrowth} (hg : g ∈ (filling st.grown).flatMap Prod.snd) :
    g.n = st.targets.get g.variant - start.get g.variant := by
  obtain ⟨f, hf, hg⟩ := mem_flatMap.mp hg
  rw [h.growths f (mem_of_mem_filter hf), mem_grownBy] at hg
  obtain ⟨-, vc, -, rfl⟩ := hg
  rfl

theorem GrownSince.stays_le (hof : FillsOf m (filling st.grown)) {v : NodeView}
    {placing : Placing NodeView} (hplaced : FillsPlaced layouts m v (filling st.grown) placing) (x : String) :
    (stays st.grown placing).get x ≤ st.targets.get x - start.get x := by
  unfold stays
  split_ifs
  · exact Nat.zero_le _
  · by_cases hx : ∃ f ∈ filling st.grown, x ∈ f.2.map (·.variant)
    · obtain ⟨f, hf, hx⟩ := hx
      rw [hplaced.held f hf x hx]
      obtain ⟨g, hg, rfl⟩ := mem_map.mp hx
      rw [← h.growth_eq (mem_flatMap.mpr ⟨f, hf, hg⟩)]
      exact heldOf_le (hof.once f hf) hg _
    · rw [hplaced.others x fun f hf hmem => hx ⟨f, hf, hmem⟩]
      exact Nat.zero_le _

theorem GrownSince.grows_of_placed (hof : FillsOf m (filling st.grown)) {v : NodeView}
    {placing : Placing NodeView}
    (hplaced : FillsPlaced layouts m v (filling st.grown) placing) {out : GoMap String ℕ}
    (hout : ∀ x, out.get x = start.get x + placing.placedVariant.get x)
    {f : String × List RoleGrowth} (hf : f ∈ filling st.grown) (hpos : 0 < placing.placed.get f.1) :
    Grows m start out f.1 := by
  obtain ⟨hmem, hwant⟩ := mem_filter.mp hf
  have hne : f.2 ≠ [] := by
    rintro hnil
    rw [hnil] at hwant
    exact absurd hwant (by decide)
  have hall : ∀ g ∈ f.2, 0 < g.n := by
    intro g hg
    rw [h.growths f hmem, mem_grownBy] at hg
    exact hg.1
  obtain ⟨g, hg, hheld⟩ := exists_heldOf_pos hall hne hpos
  obtain ⟨vc, hvc, hname⟩ := mem_map.mp (hof.variants f hf g hg)
  refine ⟨vc, hvc, ?_⟩
  rw [hout, hname, hplaced.held f hf g.variant (mem_map_of_mem hg)]
  exact Nat.lt_add_of_pos_right hheld

variable (hnodup : (m.records.map (·.variantName)).Nodup)
include hnodup

theorem GrownSince.fillsOf (hroles : roles.Nodup) : FillsOf m (filling st.grown) where
  roles := hroles.sublist ((filter_sublist.map _).trans h.sublist)
  variants f hf g hg := by
    rw [h.growths f (mem_of_mem_filter hf), mem_grownBy] at hg
    obtain ⟨-, vc, hvc, rfl⟩ := hg
    exact mem_map_of_mem hvc
  once f hf := by
    rw [h.growths f (mem_of_mem_filter hf)]
    refine Nodup.sublist (filter_sublist.map _) ?_
    rw [map_map, ((sort.perm _).map _).nodup_iff]
    exact hnodup.sublist (filter_sublist.map _)
  records := hnodup

theorem GrownSince.mem_filling {role : String} {vc : VariantRecord}
    (hvc : vc ∈ variantsForRole m.records role)
    (hlt : start.get vc.variantName < st.targets.get vc.variantName) :
    ∃ f ∈ filling st.grown, f.1 = role ∧ vc.variantName ∈ f.2.map (·.variant) := by
  obtain ⟨f, hf, hname⟩ := h.moved vc.variantName hlt.ne'
  obtain rfl := role_eq_of_name_mem hnodup hvc hname
  have hg : (⟨vc.variantName, st.targets.get vc.variantName - start.get vc.variantName⟩ :
      RoleGrowth) ∈ f.2 := by
    rw [h.growths f hf, mem_grownBy]
    exact ⟨Nat.sub_pos_of_lt hlt, vc, hvc, rfl⟩
  refine ⟨f, mem_filter.mpr ⟨hf, decide_eq_true ?_⟩, rfl, mem_map_of_mem hg⟩
  exact (Nat.sub_pos_of_lt hlt).trans_le (le_sum_of_mem (mem_map_of_mem hg))

theorem GrownSince.eq_of_notMem {x : String} (hx : ∀ f ∈ filling st.grown, x ∉ f.2.map (·.variant)) :
    st.targets.get x = start.get x := by
  by_contra hne
  obtain ⟨f, -, hname⟩ := h.moved x hne
  obtain ⟨vc, hvc, rfl⟩ := mem_map.mp hname
  obtain ⟨f', hf', -, hmem⟩ := h.mem_filling hnodup hvc (lt_of_le_of_ne (h.grows _) (Ne.symm hne))
  exact hx f' hf' hmem

omit hnodup in
theorem GrownSince.takeBack (hof : FillsOf m (filling st.grown)) {stay : GoMap String ℕ}
    (hstay : ∀ x, stay.get x ≤ st.targets.get x - start.get x) :
    let back := ((filling st.grown).flatMap Prod.snd).foldl (Optimizer.takeBack m stay)
      (0, st.targets)
    (∀ x, back.2.get x = start.get x + stay.get x) ∧
      back.1 = (m.records.map fun vc => (st.targets.get vc.variantName -
        (start.get vc.variantName + stay.get vc.variantName)) * m.gpus vc.variantName).sum := by
  intro back
  have hnames : ∀ x, x ∉ ((filling st.grown).flatMap Prod.snd).map (·.variant) →
      st.targets.get x = start.get x := by
    intro x hx
    refine h.eq_of_notMem hof.records fun f hf hmem => hx ?_
    obtain ⟨g, hg, rfl⟩ := mem_map.mp hmem
    exact mem_map_of_mem (mem_flatMap.mpr ⟨f, hf, hg⟩)
  obtain ⟨hsum, hback, hframe⟩ := foldl_takeBack (m := m) stay hof.nodup_growths (0, st.targets)
  constructor
  · intro x
    have hle := hstay x
    have hgrows := h.grows x
    by_cases hx : x ∈ ((filling st.grown).flatMap Prod.snd).map (·.variant)
    · obtain ⟨g, hg, rfl⟩ := mem_map.mp hx
      refine (hback g hg).trans ?_
      rw [h.growth_eq hg]
      dsimp only
      omega
    · have hsame := hnames x hx
      refine (hframe x hx).trans ?_
      dsimp only
      omega
  · refine (hsum.trans (Nat.zero_add _)).trans ?_
    have hgpus : ∀ l : List VariantRecord, (l.map fun vc => (st.targets.get vc.variantName -
        (start.get vc.variantName + stay.get vc.variantName)) * m.gpus vc.variantName) =
          (l.map (·.variantName)).map fun x =>
            (st.targets.get x - (start.get x + stay.get x)) * m.gpus x := by
      intro l
      rw [map_map]
      rfl
    rw [hgpus, ← sum_map_of_subset hof.records hof.nodup_growths ?_ ?_, map_map]
    · refine congrArg List.sum (map_congr_left fun g hg => ?_)
      rw [Function.comp_apply, h.growth_eq hg, Nat.sub_sub]
    · intro x hx
      obtain ⟨g, hg, rfl⟩ := mem_map.mp hx
      obtain ⟨f, hf, hg⟩ := mem_flatMap.mp hg
      exact (filter_sublist.map _).subset (hof.variants f hf g hg)
    · intro x _ hx
      rw [hnames x hx, Nat.sub_eq_zero_of_le (Nat.le_add_right _ _), Nat.zero_mul]

theorem GrownSince.rescaleFitted (hroles : roles.Nodup) (key : String) (v : NodeView) {spent : ℕ}
    (hspent : spent = growthGPUs m ((filling st.grown).flatMap Prod.snd)) :
    RescaleFitted layouts m v start st.targets spent
      (fitRescaleToNodesOn layouts m st.grown key v st.targets) := by
  have hof := h.fillsOf hnodup hroles
  unfold fitRescaleToNodesOn
  split_ifs with hempty
  · have hsame : ∀ x, st.targets.get x = start.get x := by
      intro x
      apply h.eq_of_notMem hnodup
      rw [hempty]
      exact fun f hf => (not_mem_nil hf).elim
    refine ⟨fun x => ⟨h.grows x, le_rfl⟩, ?_, ?_, ?_⟩
    · rw [variantPods_zero _ fun x => by rw [hsame, Nat.sub_self]]
      exact NodeView.Debited.refl v
    · simp
    · rintro r - - ⟨vc, -, hlt⟩
      exact absurd (hsame _) hlt.ne'
  have hplaced : FillsPlaced layouts m v _ _ := fillsPlaced_placeFills hof v
  dsimp only
  generalize placeFills (viewOps layouts) m st.grown v.clone = placing at hplaced
  have hle := h.stays_le hof hplaced
  obtain ⟨htargets, hrefund⟩ := h.takeBack hof hle
  unfold stays at htargets hrefund hle
  generalize hback : ((filling st.grown).flatMap Prod.snd).foldl _ (0, st.targets) = back
    at htargets hrefund ⊢
  by_cases hhalf : halfPair st.grown placing.placed = true
  · rw [if_pos hhalf] at htargets hle hback ⊢
    replace htargets : ∀ x, back.2.get x = start.get x := htargets
    refine ⟨fun x => ?_, ?_, ?_, ?_⟩
    · dsimp only
      rw [htargets]
      exact ⟨le_rfl, h.grows x⟩
    · rw [variantPods_zero _ fun x => by rw [htargets, Nat.sub_self]]
      exact NodeView.Debited.refl v
    · refine hrefund.trans (congrArg List.sum (map_congr_left fun vc _ => ?_))
      rw [htargets, if_pos hhalf]
      rfl
    · intro _ _ _ _ _
      refine .inr ⟨rfl, htargets, ?_⟩
      obtain ⟨hsum, -, -⟩ := foldl_takeBack (m := m) ∅ hof.nodup_growths (0, st.targets)
      dsimp only
      rw [← hback, hsum, hspent, Nat.zero_add]
      rfl
  · rw [if_neg hhalf] at htargets hle hback ⊢
    refine ⟨fun x => ?_, ?_, ?_, ?_⟩
    · dsimp only
      have := hle x
      have := h.grows x
      rw [htargets]
      omega
    · have hpods : (fun x => back.2.get x - start.get x) = placing.placedVariant.get := by
        funext x
        rw [htargets, Nat.add_sub_cancel_left]
      dsimp only
      rw [hpods]
      refine hplaced.debited.of_debit rfl ?_ rfl (NodeView.debit_adopt _ _)
      exact (NodeView.slots_adopt _ _).trans hplaced.debited.1.symm
    · refine hrefund.trans (congrArg List.sum (map_congr_left fun vc _ => ?_))
      rw [htargets, if_neg hhalf]
    · intro r s hne hr hs
      refine .inl fun role hrole => ?_
      have hfill : ∀ role, Grows m start st.targets role → ∃ f ∈ filling st.grown, f.1 = role := by
        rintro role ⟨vc, hvc, hlt⟩
        obtain ⟨f, hf, hrole, -⟩ := h.mem_filling hnodup hvc hlt
        exact ⟨f, hf, hrole⟩
      obtain ⟨fr, hfr, rfl⟩ := hfill r hr
      obtain ⟨fs, hfs, rfl⟩ := hfill s hs
      obtain ⟨f, hf, rfl⟩ := hfill role hrole
      have hmany : 1 < (filling st.grown).length := by
        by_contra hfew
        exact hne (congrArg Prod.fst (eq_of_length_le_one (not_lt.mp hfew) hfr hfs))
      refine h.grows_of_placed hof hplaced htargets hf (Nat.pos_of_ne_zero fun hzero => hhalf ?_)
      rw [halfPair, decide_eq_true hmany, Bool.true_and, any_eq_true]
      exact ⟨f, hf, beq_iff_eq.mpr hzero⟩

end Since

/-- Fitting the roles of a pass, or the fills of a rescaled model, to the node view commits exactly
what it reports. -/
theorem fitToNodes_exact (layouts : GoMap String PodLayout) :
    (∀ (m : Model) (v : NodeView) (commits : List Commit), (commits.map (·.role)).Nodup →
      PairFitted layouts m v commits (fitPairToNodesOn layouts m v commits)) ∧
    ∀ (sort : CostSorting) (req : RescaleRequest) (accType key : String) (tgt cur : String → ℕ)
      (start : GoMap String ℕ) (free : ℕ) (v : NodeView),
      let m := rescaleModel req.toModelScalingRequest accType
      let fills := m.roles.foldl (fillOne sort m req tgt cur) ⟨start, free, []⟩
      RescaleFitted layouts m v start fills.targets (free - fills.free)
        (fitRescaleToNodesOn layouts m fills.grown key v fills.targets) := by
  refine ⟨fun m v commits hroles => pairFitted_fitPairToNodesOn v hroles, ?_⟩
  intro sort req accType key tgt cur start free v m fills
  have hnodup := nodup_rescaleModel req.toModelScalingRequest accType
  have hroles : m.roles.Nodup :=
    (perm_insertionSort _ _).nodup_iff.mpr (nodup_dedup _)
  have htaken := fills_taken sort m req tgt cur hnodup m.roles start free
  refine (fills_grown hnodup req tgt cur start free hroles).rescaleFitted hnodup hroles key v ?_
  rw [growthGPUs_filling]
  exact Nat.sub_eq_of_eq_add (htaken.symm.trans (Nat.add_comm _ _))

/-- A prefill and a decode replica of eight GPUs each, on two nodes of eight. -/
theorem fitToNodes_exact_pair :
    let node : NodeSlot := ⟨"n", "H100", 8, 0, false, [], ∅, false⟩
    let v := NodeView.new [node, node] none
    let m : Model := ⟨"ns", [⟨⟨"p", "prefill", 1, "H100"⟩, 1⟩, ⟨⟨"d", "decode", 1, "H100"⟩, 1⟩],
      .ofList [("p", ⟨"p", 0, 8, none, none⟩), ("d", ⟨"d", 0, 8, none, none⟩)], []⟩
    let commits : List Commit := [⟨⟨"prefill", "p", ⊤, 1⟩, 2⟩, ⟨⟨"decode", "d", ⊤, 1⟩, 2⟩]
    ((fitPairToNodesOn ∅ m v commits).1.map fun left => left.map (·.k)) = some [1, 1] ∧
      PairFitted ∅ m v commits (fitPairToNodesOn ∅ m v commits) :=
  ⟨by decide +kernel, (fitToNodes_exact ∅).1 _ _ _ (by decide)⟩

end Fills

end LlmScaler.Optimizer
