import LlmScaler.Optimizer.ScaleDown

/-!
# What a role releases

A release charges both budgets of its role with the capacity it sheds, and sheds no more than the
larger of them has left.
-/

namespace LlmScaler.Optimizer

open Core GoMap

section Release

variable {e : NamedAnalyzerResult} {r : AnalyzerResult} {v role : String} {n : ℕ}

theorem releaseOf_le (m : Model) (role : String) (before : List VariantRecord) (isLast : Bool)
    (e : NamedAnalyzerResult) (targets : GoMap String ℕ) (vc : VariantRecord) :
    releaseOf m role before isLast e targets vc ≤
      safeRemovalReplicasForRole e vc.variantName role := by
  unfold releaseOf
  simp only
  split_ifs with hnone hlast
  · exact Nat.zero_le _
  · -- the cheapest variant keeps one replica of those it could release
    have hle := Nat.min_le_left (safeRemovalReplicasForRole e vc.variantName role)
      (targets.get vc.variantName -
        ((m.stateMap.find? vc.variantName).bind (·.minReplicas)).getD 0)
    omega
  · exact Nat.min_le_left _ _

theorem releaseOf_le_target (m : Model) (role : String) (before : List VariantRecord)
    (isLast : Bool) (e : NamedAnalyzerResult) (targets : GoMap String ℕ) (vc : VariantRecord) :
    releaseOf m role before isLast e targets vc ≤ targets.get vc.variantName := by
  unfold releaseOf
  simp only
  split_ifs with hnone hlast
  · exact Nat.zero_le _
  · exact Nat.sub_le _ _
  · exact (Nat.min_le_right _ _).trans (Nat.sub_le _ _)

theorem replicaCount_le (x : ℚ) : (replicaCount x : ℚ) ≤ max 0 x := by
  have hfloor : ((⌊x⌋.toNat : ℕ) : ℤ) = max 0 ⌊x⌋ := by omega
  have hmin : (replicaCount x : ℤ) ≤ max 0 ⌊x⌋ := by
    rw [← hfloor]
    exact_mod_cast Nat.min_le_left _ _
  calc (replicaCount x : ℚ) ≤ ((max 0 ⌊x⌋ : ℤ) : ℚ) := by exact_mod_cast hmin
    _ = max 0 (⌊x⌋ : ℚ) := by push_cast; rfl
    _ ≤ max 0 x := max_le_max le_rfl (Int.floor_le x)

theorem safeReplicasForSpare_mul_le (spare prc : ℚ) :
    safeReplicasForSpare spare prc * prc ≤ max 0 spare ∧
      (prc ≤ 0 → safeReplicasForSpare spare prc = 0) := by
  unfold safeReplicasForSpare
  split_ifs with hprc
  · exact ⟨by simp, fun _ => rfl⟩
  · push Not at hprc
    refine ⟨?_, fun hnot => absurd hprc (not_lt.mpr hnot)⟩
    have hcount : (replicaCount ⌊spare / prc⌋ : ℚ) ≤ max 0 (spare / prc) :=
      (replicaCount_le _).trans (max_le_max le_rfl (Int.floor_le _))
    calc (replicaCount ⌊spare / prc⌋ : ℚ) * prc ≤ max 0 (spare / prc) * prc :=
          mul_le_mul_of_nonneg_right hcount hprc.le
      _ = max 0 spare := by
          rw [max_mul_of_nonneg _ _ hprc.le, zero_mul, div_mul_cancel₀ _ hprc.ne']

theorem capacity_le_releaseBudget (hr : e.result = some r)
    (hn : n ≤ safeRemovalReplicasForRole e v role) :
    n * prcForVariant r v ≤ max 0 (releaseBudget e role) ∧ (prcForVariant r v ≤ 0 → n = 0) := by
  have hsafe : n ≤ safeReplicasForSpare (releaseBudget e role) (prcForVariant r v) := by
    refine hn.trans ?_
    unfold safeRemovalReplicasForRole
    rw [hr]
    split_ifs
    · exact le_rfl
    · exact Nat.zero_le _
  obtain ⟨hmul, hnone⟩ := safeReplicasForSpare_mul_le (releaseBudget e role) (prcForVariant r v)
  have hzero : prcForVariant r v ≤ 0 → n = 0 := fun hprc => Nat.le_zero.mp (hnone hprc ▸ hsafe)
  refine ⟨?_, hzero⟩
  rcases le_or_gt (prcForVariant r v) 0 with hprc | hprc
  · rw [hzero hprc]
    simp
  · refine le_trans ?_ hmul
    exact mul_le_mul_of_nonneg_right (by exact_mod_cast hsafe) hprc.le

@[simp] theorem result_applyDeallocationForRole (e : NamedAnalyzerResult) (v role : String) (n : ℕ) :
    (applyDeallocationForRole e v role n).result = e.result := by
  unfold applyDeallocationForRole
  split
  · rfl
  · split_ifs <;> rfl

theorem releaseBudget_applyDeallocation_of_ne {role' : String} (hne : role' ≠ role) :
    releaseBudget (applyDeallocationForRole e v role n) role' = releaseBudget e role' := by
  unfold applyDeallocationForRole
  split
  · rfl
  · split_ifs with hprc hhas
    · rfl
    · simp only [releaseBudget, GoMap.modify, find?_set, hne, if_false,
        get_set_of_ne _ _ hne]
    · simp only [releaseBudget, GoMap.modify, get_set_of_ne _ _ hne]

theorem releaseBudget_applyDeallocation (hr : e.result = some r)
    (hn : n * prcForVariant r v ≤ max 0 (releaseBudget e role)) :
    max 0 (releaseBudget (applyDeallocationForRole e v role n) role) +
      n * prcForVariant r v ≤ max 0 (releaseBudget e role) := by
  unfold applyDeallocationForRole
  rw [hr]
  simp only
  split_ifs with hprc hhas
  · have hshed : n * prcForVariant r v ≤ 0 := mul_nonpos_of_nonneg_of_nonpos (by positivity) hprc
    linarith
  · have hfind : ∃ free, e.roleReleasable.find? role = some free :=
      Option.isSome_iff_exists.mp hhas
    obtain ⟨free, hfree⟩ := hfind
    have hget : e.roleReleasable.get role = free := by
      rw [GoMap.get]
      exact congrArg (Option.getD · default) hfree
    simp only [releaseBudget, GoMap.modify, find?_set, if_true, get_set_self, hget,
      hfree] at hn ⊢
    have hspare := (le_max_left (e.roleSpare.get role) free).trans (le_max_right 0 _)
    have hrel := (le_max_right (e.roleSpare.get role) free).trans (le_max_right 0 _)
    rw [← le_sub_iff_add_le]
    refine max_le ?_ (max_le (max_le ?_ ?_) (max_le ?_ ?_)) <;> linarith
  · have hfind : e.roleReleasable.find? role = none := by
      rw [GoMap.has, Bool.not_eq_true, Option.isSome_eq_false_iff, Option.isNone_iff_eq_none] at hhas
      exact hhas
    simp only [releaseBudget, GoMap.modify, get_set_self, hfind] at hn ⊢
    have hspare := le_max_right 0 (e.roleSpare.get role)
    rw [← le_sub_iff_add_le]
    refine max_le ?_ (max_le ?_ ?_) <;> linarith

end Release

/-- The capacity some variants shed between two targets. -/
def shed (r : AnalyzerResult) (names : List String) (before after : GoMap String ℕ) : ℚ :=
  (names.map fun v => ((before.get v - after.get v : ℕ) : ℚ) * prcForVariant r v).sum

/-- What a pass that started from some targets has released: the variants of a role shed no more
than its budget has been charged, and none without a capacity. -/
structure Releases (r : AnalyzerResult) (role : String) (names : List String)
    (start : GoMap String ℕ) (budget : ℚ) (st : NamedAnalyzerResult × GoMap String ℕ) : Prop where
  result : st.1.result = some r
  /-- The budget covers what is left of it and what was shed. -/
  within : max 0 (releaseBudget st.1 role) + shed r names start st.2 ≤ budget
  le : ∀ v, st.2.get v ≤ start.get v
  kept : ∀ v, prcForVariant r v ≤ 0 → st.2.get v = start.get v

section Pass

variable {r : AnalyzerResult} {role : String} {names : List String} {start : GoMap String ℕ}
  {budget : ℚ} {e : NamedAnalyzerResult} {targets : GoMap String ℕ} {v : String} {n : ℕ}

theorem shed_set (hnames : names.Nodup) (hle : targets.get v ≤ start.get v)
    (hn : n ≤ targets.get v) :
    shed r names start (targets.set v (targets.get v - n)) = shed r names start targets +
      if v ∈ names then n * prcForVariant r v else 0 := by
  induction names with
  | nil => simp [shed]
  | cons w names ih =>
    obtain ⟨hw, hnames⟩ := List.nodup_cons.mp hnames
    have hcons : ∀ t : GoMap String ℕ, shed r (w :: names) start t =
        ((start.get w - t.get w : ℕ) : ℚ) * prcForVariant r w + shed r names start t := by
      intro t
      rw [shed, List.map_cons, List.sum_cons]
      rfl
    rw [hcons, hcons, ih hnames]
    by_cases hvw : w = v
    · subst hvw
      have hsplit : ((start.get w - (targets.get w - n) : ℕ) : ℚ) =
          ((start.get w - targets.get w : ℕ) : ℚ) + n := by
        have : start.get w - (targets.get w - n) = start.get w - targets.get w + n := by omega
        exact_mod_cast this
      rw [get_set_self, if_neg hw, if_pos List.mem_cons_self, hsplit]
      ring
    · have hmem : v ∈ w :: names ↔ v ∈ names := by simp [Ne.symm hvw]
      rw [get_set_of_ne _ _ hvw, if_congr hmem rfl rfl]
      ring

theorem Releases.lower (h : Releases r role names start budget (e, targets))
    {e' : NamedAnalyzerResult} (hresult : e'.result = e.result)
    (hzero : prcForVariant r v ≤ 0 → n = 0)
    (hwithin : max 0 (releaseBudget e' role) +
      shed r names start (targets.set v (targets.get v - n)) ≤ budget) :
    Releases r role names start budget (e', targets.set v (targets.get v - n)) := by
  refine ⟨hresult.trans h.result, hwithin, ?_, ?_⟩
  · intro w
    rw [get_set]
    split_ifs with hw
    · rw [hw]
      exact (Nat.sub_le _ _).trans (h.le v)
    · exact h.le w
  · intro w hprc
    rw [get_set]
    split_ifs with hw
    · subst hw
      rw [hzero hprc, Nat.sub_zero]
      exact h.kept w hprc
    · exact h.kept w hprc

theorem Releases.release (hnames : names.Nodup) (h : Releases r role names start budget (e, targets))
    (hsafe : n ≤ safeRemovalReplicasForRole e v role) (hn : n ≤ targets.get v) :
    Releases r role names start budget
      (applyDeallocationForRole e v role n, targets.set v (targets.get v - n)) := by
  obtain ⟨hcapacity, hzero⟩ := capacity_le_releaseBudget h.result hsafe
  refine h.lower (result_applyDeallocationForRole e v role n) hzero ?_
  have hcharge := releaseBudget_applyDeallocation h.result hcapacity
  have hnonneg : 0 ≤ n * prcForVariant r v := by
    rcases le_or_gt (prcForVariant r v) 0 with hprc | hprc
    · rw [hzero hprc]
      simp
    · positivity
  have hshed : shed r names start (targets.set v (targets.get v - n)) ≤
      shed r names start targets + n * prcForVariant r v := by
    rw [shed_set hnames (h.le v) hn]
    split_ifs <;> linarith
  have := h.within
  linarith

theorem Releases.release_other (hnames : names.Nodup) {role' : String} (hrole : role ≠ role')
    (hv : v ∉ names) (h : Releases r role names start budget (e, targets))
    (hsafe : n ≤ safeRemovalReplicasForRole e v role') (hn : n ≤ targets.get v) :
    Releases r role names start budget
      (applyDeallocationForRole e v role' n, targets.set v (targets.get v - n)) := by
  refine h.lower (result_applyDeallocationForRole e v role' n)
    (capacity_le_releaseBudget h.result hsafe).2 ?_
  rw [shed_set hnames (h.le v) hn, if_neg hv, add_zero,
    releaseBudget_applyDeallocation_of_ne hrole]
  exact h.within

theorem Releases.scaleDownVariantSet (hnames : names.Nodup) (m : Model) {role' : String}
    {vcs : List VariantRecord} (hvcs : role ≠ role' → ∀ vc ∈ vcs, vc.variantName ∉ names)
    (before : List VariantRecord) {st : NamedAnalyzerResult × GoMap String ℕ}
    (h : Releases r role names start budget st) :
    Releases r role names start budget (scaleDownVariantSet m role' before vcs st) := by
  induction vcs generalizing before st with
  | nil => exact h
  | cons vc vcs ih =>
    obtain ⟨e, targets⟩ := st
    refine ih (fun hrole vc' hvc' => hvcs hrole vc' (List.mem_cons_of_mem vc hvc')) _ ?_
    split_ifs with hzero
    · exact h
    · have hsafe := releaseOf_le m role' before vcs.isEmpty e targets vc
      have hn := releaseOf_le_target m role' before vcs.isEmpty e targets vc
      by_cases hrole : role = role'
      · subst hrole
        exact h.release hnames hsafe hn
      · exact h.release_other hnames hrole (hvcs hrole vc List.mem_cons_self) hsafe hn

theorem Releases.scaleDownRoleIterated (hnames : names.Nodup) (sort : ReleaseSorting) (m : Model)
    (hroles : ∀ vc ∈ m.records, vc.variantName ∈ names → canonicalRole vc.role = role)
    (hr : e.result = some r) (targets : GoMap String ℕ)
    (hbudget : max 0 (releaseBudget e role) ≤ budget) :
    shed r names targets (scaleDownRoleIterated sort m e targets) ≤ budget ∧
      ∀ v, prcForVariant r v ≤ 0 →
        (Optimizer.scaleDownRoleIterated sort m e targets).get v = targets.get v := by
  have hstart : Releases r role names targets budget (e, targets) := by
    refine ⟨hr, ?_, fun _ => le_rfl, fun _ _ => rfl⟩
    simpa [shed] using hbudget
  have hpass : Releases r role names targets budget ((rolesOf m.records).foldl (fun st role =>
      if needsScaleDownForRole st.1 role then
        Optimizer.scaleDownVariantSet m role [] ((sort st.1).sort (variantsForRole m.records role)) st
      else st) (e, targets)) := by
    refine List.foldlRecOn (motive := Releases r role names targets budget) _ _ hstart ?_
    intro st hst role' _
    split_ifs
    · refine hst.scaleDownVariantSet hnames m (fun hne vc hvc hmem => hne ?_) []
      obtain ⟨hrecord, hrole⟩ := List.mem_filter.mp ((sort st.1).mem_sort.mp hvc)
      exact (hroles vc hrecord hmem).symm.trans (beq_iff_eq.mp hrole)
    · exact hst
  exact ⟨(le_add_of_nonneg_left (le_max_left _ _)).trans hpass.within, hpass.kept⟩

end Pass

end LlmScaler.Optimizer
