import LlmScaler.Core.Lists
import LlmScaler.Core.Sums
import LlmScaler.WarmPool.Spares

/-!
# What the plan keeps within its bounds

Every admission is checked where it is made: against the reserve, the copies wanted and the Pod it
goes into. What the loop has admitted therefore keeps all of them together, and evictions start from
what is neither lent nor used by the plan.
-/

namespace LlmScaler.WarmPool

open LlmScaler.Core List

/-- An admission the Pod can take: the model is not in it, and fits. -/
structure Admissible (shapeOf : String → Shape) (cfg : Config) (all : List Membership)
    (a : Action) : Prop where
  absent : a.model.variant ≠ "" → ∀ m ∈ inPod all a.pod, m.model.variant ≠ a.model.variant
  fits : doesNotFit shapeOf a.model (inPod all a.pod) cfg = none

/-- The memory a Pod may commit, where there is a bound, holds what is in it and the admission. -/
theorem Admissible.memory {shapeOf : String → Shape} {cfg : Config} {all : List Membership}
    {a : Action} (h : Admissible shapeOf cfg all a)
    (hbudget : 0 < memoryBudget (capacityOf (inPod all a.pod)) cfg) :
    committed shapeOf (inPod all a.pod) + (shapeOf a.model.engineOptions).hostBytes ≤
      memoryBudget (capacityOf (inPod all a.pod)) cfg := by
  have hfits := h.fits
  dsimp only [doesNotFit] at hfits
  cases hacc : acceleratorMismatch a.model.accelerator (capacityOf (inPod all a.pod)).accelerator with
  | some why =>
    simp only [hacc] at hfits
    split_ifs at hfits
  | none =>
    simp only [hacc] at hfits
    split_ifs at hfits <;> omega

section Admissions

variable {input : Input} (o : Orders input) (cfg : Config) (shapeOf : String → Shape)
  (hvariants : (input.variants.map fun w => w.model.variant).Nodup)

/-- The admissions so far, from a budget of so many Pods. -/
structure Within (input : Input) (budget : ℕ) (s : Admitting) : Prop where
  admissible : ∀ a ∈ s.admits, Admissible shapeOf cfg input.memberships a
  spent : s.admits.length + s.budget = budget
  copies : ∀ w ∈ input.variants, residentCount input.memberships w.model.variant +
    admittedSoFar s.admits w.model.variant ≤
      max (residentCount input.memberships w.model.variant) w.wantedCopies

theorem absent_of_roomiest {free : List NamespacedName} {variant : String} {emptyOnly : Bool}
    {p : NamespacedName} (h : roomiestFreePodWithout o cfg free variant emptyOnly = some p)
    (hvariant : variant ≠ "") : ∀ m ∈ inPod input.memberships p, m.model.variant ≠ variant := by
  have hp := mem_of_head? h
  rw [Sorting.mem_sort] at hp
  have hfilter := (mem_filter.mp hp).2
  intro m hm heq
  have hholds : holds (inPod input.memberships p) variant = true := holds_iff.mpr ⟨m, hm, heq⟩
  simp [hvariant, hholds] at hfilter

include hvariants

theorem Within.admitCopies {total budget : ℕ} {s : Admitting} (h : Within cfg shapeOf input total s)
    (hbudget : s.budget = budget) (emptyOnly : Bool) {v : VariantDemand} (hv : v ∈ input.variants) :
    Within cfg shapeOf input total (admitCopies shapeOf o cfg emptyOnly v budget s) := by
  induction budget generalizing s with
  | zero => exact h
  | succ budget ih =>
    unfold WarmPool.admitCopies
    split_ifs with hwanted
    · cases htarget : roomiestFreePodWithout o cfg s.free v.model.variant emptyOnly with
      | none => exact h
      | some target =>
        cases hfits : doesNotFit shapeOf v.model (inPod input.memberships target) cfg with
        | some why =>
          simp only [hfits]
          exact ⟨h.admissible, h.spent, h.copies⟩
        | none =>
          simp only [hfits]
          refine ih ⟨?_, ?_, ?_⟩ rfl
          · intro a ha
            rcases mem_append.mp ha with ha | ha
            · exact h.admissible a ha
            · obtain rfl := mem_singleton.mp ha
              exact ⟨absent_of_roomiest o cfg htarget, hfits⟩
          · have := h.spent
            simp only [length_append, length_singleton]
            omega
          · intro w hw
            have hcopies := h.copies w hw
            rw [admittedSoFar, countP_append, countP_singleton]
            split_ifs with hvar
            · obtain rfl : v = w := inj_on_of_nodup_map hvariants hv hw (by simpa using hvar)
              rw [admittedSoFar] at hwanted
              omega
            · exact hcopies
    · exact h

theorem within_admissions (free : List NamespacedName) (emptyOnly : Bool) :
    Within cfg shapeOf input ((free.length : Int) - cfg.sleepMinSize).toNat
      (admissions shapeOf o cfg free emptyOnly) := by
  unfold admissions
  refine foldlRecOn (motive := Within cfg shapeOf input _) _ _
    ⟨by simp, by simp, fun w _ => le_max_left _ _⟩ fun s hs v hv => ?_
  have hmem : v ∈ input.variants := by
    rw [candidatesForAdmission, Sorting.mem_sort, mem_filter, byShare, Sorting.mem_sort] at hv
    exact hv.1
  exact hs.admitCopies o cfg shapeOf hvariants rfl emptyOnly hmem

end Admissions

section Evictions

variable {input : Input} (o : Orders input)

def copiesOf (all : List Membership) (variant : String) : Nat :=
  all.countP fun m => m.model.variant = variant

def evicted (evict : List Action) (variant : String) : Nat :=
  evict.countP fun a => a.model.variant = variant

theorem mem_spareCopies {claimed : List NamespacedName} {variant : String} {m : Membership}
    (h : m ∈ spareCopies o claimed variant) : m.pod ∉ claimed ∧ m.model.variant = variant ∧
      ∀ m' ∈ lent input.memberships variant, m'.pod ≠ m.pod := by
  obtain ⟨p, hp, hm⟩ := mem_flatMap.mp h
  obtain ⟨hm, htest⟩ := mem_filter.mp hm
  obtain ⟨_, rfl⟩ := mem_inPod.mp hm
  have hclaimed := (mem_filter.mp hp).2
  simp only [Bool.and_eq_true, decide_eq_true_eq, List.isEmpty_iff] at htest
  refine ⟨by simpa using hclaimed, htest.1.1, fun m' hm' heq => ?_⟩
  have hmem : m' ∈ inPod (lent input.memberships variant) m.pod := mem_inPod.mpr ⟨hm', heq⟩
  rw [htest.2] at hmem
  cases hmem

theorem length_spareCopies_le (claimed : List NamespacedName) (variant : String) :
    (spareCopies o claimed variant).length ≤ copiesOf input.memberships variant := by
  have hnodup : ((o.pods.sort (pods input.memberships)).filter fun p =>
      !claimed.contains p).Nodup :=
    ((o.pods.perm _).nodup_iff.mpr (nodup_pods _)).filter _
  have hgroups := sum_groups_le hnodup Membership.pod (fun _ => 1)
    (input.memberships.filter fun m => m.model.variant = variant)
  simp only [map_const', sum_replicate, smul_eq_mul, mul_one,
    ← countP_eq_length_filter] at hgroups
  refine le_trans ?_ hgroups
  rw [spareCopies, length_flatMap]
  refine sum_le_sum fun p _ => ?_
  simp only [← countP_eq_length_filter, inPod, countP_filter]
  refine countP_mono_left fun m _ h => ?_
  simp_all

theorem evicted_le (claimed : List NamespacedName)
    (hvariants : (input.variants.map fun w => w.model.variant).Nodup) {v : VariantDemand}
    (hv : v ∈ input.variants) : evicted (evictions o claimed) v.model.variant ≤
      (spareCopies o claimed v.model.variant).length - v.wantedCopies := by
  have hother : ∀ w ∈ input.variants.filter VariantDemand.explicit, w ≠ v →
      ((((o.idlest.sort (spareCopies o claimed w.model.variant)).take
        ((spareCopies o claimed w.model.variant).length - w.wantedCopies)).map fun m =>
          (⟨m.pod, m.model⟩ : Action)).filter fun a => a.model.variant = v.model.variant) = [] := by
    intro w hw hne
    refine filter_eq_nil_iff.mpr fun a ha hvar => hne ?_
    obtain ⟨m, hm, rfl⟩ := mem_map.mp ha
    have hspare := mem_of_mem_take hm
    rw [Sorting.mem_sort] at hspare
    refine inj_on_of_nodup_map hvariants (mem_filter.mp hw).1 hv ?_
    exact (mem_spareCopies o hspare).2.1.symm.trans (by simpa using hvar)
  rw [evicted, countP_eq_length_filter, evictions, filter_flatMap]
  by_cases hexplicit : v ∈ input.variants.filter VariantDemand.explicit
  · rw [flatMap_eq_of_nodup ((hvariants.of_map _).filter _) hexplicit hother]
    refine (length_filter_le _ _).trans ?_
    rw [length_map]
    exact length_take_le _ _
  · rw [flatMap_eq_nil_iff.mpr fun w hw => hother w hw fun heq => hexplicit (heq ▸ hw)]
    exact Nat.zero_le _

theorem evictions_spare {claimed : List NamespacedName} {a : Action}
    (h : a ∈ evictions o claimed) :
    a.pod ∉ claimed ∧ ∀ m ∈ lent input.memberships a.model.variant, m.pod ≠ a.pod := by
  obtain ⟨v, _, ha⟩ := mem_flatMap.mp h
  obtain ⟨m, hm, rfl⟩ := mem_map.mp ha
  have hspare := mem_of_mem_take hm
  rw [Sorting.mem_sort] at hspare
  obtain ⟨hclaimed, hvariant, hlent⟩ := mem_spareCopies o hspare
  exact ⟨hclaimed, hvariant ▸ hlent⟩

end Evictions

/-- The plan keeps its bounds together: the reserve, one admission a Pod of a model that is not in
it, the copies wanted, the host memory, and what is evicted; and it asks for the Pods the reserve is
short of. -/
theorem plan_within_bounds {input : Input} (o : Orders input) (cfg : Config)
    (shapeOf : String → Shape)
    (hvariants : (input.variants.map fun w => w.model.variant).Nodup) :
    let plan := decidePlan shapeOf o cfg
    let left : Int := (freePods input ((allReturns o cfg).map Action.pod)).length -
      plan.borrow.length
    (plan.admits ≠ [] → cfg.sleepMinSize ≤ left - plan.admits.length) ∧
    (plan.admits.map Action.pod).Nodup ∧
    (∀ a ∈ plan.admits, a.model.variant ≠ "" →
      ∀ m ∈ inPod input.memberships a.pod, m.model.variant ≠ a.model.variant) ∧
    (∀ v ∈ input.variants, residentCount input.memberships v.model.variant +
      admittedSoFar plan.admits v.model.variant ≤
        max (residentCount input.memberships v.model.variant) v.wantedCopies) ∧
    (∀ a ∈ plan.admits, 0 < memoryBudget (capacityOf (inPod input.memberships a.pod)) cfg →
      committed shapeOf (inPod input.memberships a.pod) +
        (shapeOf a.model.engineOptions).hostBytes ≤
          memoryBudget (capacityOf (inPod input.memberships a.pod)) cfg) ∧
    (∀ v ∈ input.variants, evicted plan.evict v.model.variant ≠ 0 →
      v.wantedCopies + evicted plan.evict v.model.variant ≤
        copiesOf input.memberships v.model.variant) ∧
    (∀ a ∈ plan.evict, a.pod ∉ (plan.borrow ++ plan.admits).map Action.pod ∧
      ∀ m ∈ lent input.memberships a.model.variant, m.pod ≠ a.pod) ∧
    plan.growBy = max 0 (cfg.sleepMinSize - (left - plan.admits.length)) := by
  intro plan left
  have hwithin := within_admissions o cfg shapeOf hvariants (borrows o cfg).free
    (!(borrows o cfg).blocked.isEmpty)
  have hborrow := (borrows_perm o cfg).length_eq
  have hadmitted := (admissions_perm o cfg shapeOf (borrows o cfg).free
    (!(borrows o cfg).blocked.isEmpty)).length_eq
  rw [length_append, length_map] at hborrow hadmitted
  have hleft : left = (borrows o cfg).free.length := by
    have : plan.borrow.length = (borrows o cfg).borrow.length := rfl
    omega
  have hspent := hwithin.spent
  have hadmits : plan.admits.length = (admissions shapeOf o cfg (borrows o cfg).free
    (!(borrows o cfg).blocked.isEmpty)).admits.length := rfl
  have hgrow : plan.growBy = max 0 (cfg.sleepMinSize - (left - plan.admits.length)) := by
    have hfree : ((admissions shapeOf o cfg (borrows o cfg).free
        (!(borrows o cfg).blocked.isEmpty)).free.length : Int) = left - plan.admits.length := by
      omega
    rw [← hfree]
    rfl
  refine ⟨fun hne => ?_, ?_, fun a ha => (hwithin.admissible a ha).absent, hwithin.copies,
    fun a ha => (hwithin.admissible a ha).memory, fun v hv hne => ?_,
    fun a ha => evictions_spare o ha, hgrow⟩
  · have hpos := length_pos_iff.mpr hne
    change _ + _ = _ at hspent
    omega
  · have honce := usesOnce o cfg shapeOf
    rw [Plan.UsesOnce, map_append] at honce
    exact honce.of_append_right
  · have hle := evicted_le o ((plan.borrow ++ plan.admits).map Action.pod) hvariants hv
    have hspare := length_spareCopies_le o ((plan.borrow ++ plan.admits).map Action.pod)
      v.model.variant
    have : plan.evict = evictions o ((plan.borrow ++ plan.admits).map Action.pod) := rfl
    rw [← this] at hle
    omega

/-- One empty Pod and one parked variant, and no reserve to keep. -/
private def oneParked : Input where
  memberships := [⟨⟨"ns", "", "", "", []⟩, ⟨"ns", "pod"⟩, .absent, 0, ⟨1, 10, "", 1⟩⟩]
  variants := [⟨⟨"ns", "a", "", "", []⟩, 0, 0, true, 0, none⟩]
  borrowedAt := ∅
  admitting := []
  wantAwake := ""
  missesAt := ∅
  now := 0

/-- The variant is admitted, within the Pod's memory. -/
theorem plan_within_bounds_parked :
    ⟨⟨"ns", "pod"⟩, ⟨"ns", "a", "", "", []⟩⟩ ∈ (decidePlan (fun _ => ⟨4, 1, 1⟩) (.stable oneParked)
      ⟨0, 0, 0, false, 0, 0, 0, 0, 0⟩).admits ∧
    committed (fun _ => ⟨4, 1, 1⟩) (inPod oneParked.memberships ⟨"ns", "pod"⟩) + 4 ≤
      memoryBudget (capacityOf (inPod oneParked.memberships ⟨"ns", "pod"⟩))
        ⟨0, 0, 0, false, 0, 0, 0, 0, 0⟩ := by
  have hadmitted : ⟨⟨"ns", "pod"⟩, ⟨"ns", "a", "", "", []⟩⟩ ∈ (decidePlan (fun _ => ⟨4, 1, 1⟩)
      (.stable oneParked) ⟨0, 0, 0, false, 0, 0, 0, 0, 0⟩).admits := by decide
  exact ⟨hadmitted, (plan_within_bounds (.stable oneParked) ⟨0, 0, 0, false, 0, 0, 0, 0, 0⟩
    (fun _ => ⟨4, 1, 1⟩) (by decide)).2.2.2.2.1 _ hadmitted (by decide)⟩

end LlmScaler.WarmPool
