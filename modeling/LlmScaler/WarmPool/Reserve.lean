import LlmScaler.WarmPool.Policy

/-!
# What the plan's phases do with the Pods

Each return is of an instance that serves or is awake with nothing using it. The Pods that the
borrows and the admissions use, with those that stay free, are the Pods that were free before:
each phase only moves Pods from the free ones to its own.
-/

namespace LlmScaler.WarmPool

open LlmScaler.Core List

def Membership.key (m : Membership) : Borrow := ⟨m.pod, m.model.variant⟩

variable {variant : String}

theorem knownModel_variant {variants : List VariantDemand} {full : ModelRef}
    (h : knownModel variants variant = some full) : full.variant = variant := by
  obtain ⟨v, hv, rfl⟩ := Option.map_eq_some_iff.mp h
  simpa using find?_some hv

@[simp] theorem key_withKnownModel (variants : List VariantDemand) (a : Action) :
    (withKnownModel variants a).key = a.key := by
  unfold withKnownModel
  cases h : knownModel variants a.model.variant with
  | none => rfl
  | some full =>
    by_cases hl : full.poolLabels.isEmpty = true
    · simp [hl]
    · simp [hl, Action.key, knownModel_variant h]

section Returns

variable {input : Input} (o : Orders input) (cfg : Config)

variable {r : Action}

theorem returnsFor_from {v : VariantDemand} (h : r ∈ returnsFor o cfg v) :
    ∃ m ∈ lent input.memberships v.model.variant, r = ⟨m.pod, m.model⟩ := by
  obtain ⟨⟨m, i⟩, hm, rfl⟩ := mem_map.mp h
  refine ⟨m, ?_, rfl⟩
  rw [← o.oldest.mem_sort]
  exact fst_mem_of_mem_zipIdx (mem_filter.mp hm).1

variable {m : Membership}

theorem returnsFor_of_expired {v : VariantDemand} (hm : m ∈ lent input.memberships v.model.variant)
    (he : expired input cfg m = true) : ⟨m.pod, m.model⟩ ∈ returnsFor o cfg v := by
  rw [← o.oldest.mem_sort] at hm
  obtain ⟨i, hi, rfl⟩ := mem_iff_getElem.mp hm
  apply mem_map.mpr
  refine ⟨(_, i), mem_filter.mpr ⟨?_, by simp [he]⟩, rfl⟩
  rw [mem_zipIdx_iff_getElem?]
  exact getElem?_eq_getElem hi

theorem askedReturns_from (h : r ∈ askedReturns o cfg) :
    ∃ v ∈ input.variants, ∃ m ∈ lent input.memberships v.model.variant, r.key = m.key := by
  obtain ⟨r', hr', rfl⟩ := mem_map.mp h
  obtain ⟨v, hv, hr'⟩ := mem_flatMap.mp hr'
  obtain ⟨m, hm, rfl⟩ := returnsFor_from o cfg hr'
  exact ⟨v, hv, m, hm, key_withKnownModel _ _⟩

theorem knownOrphans_from (h : r ∈ knownOrphans input) :
    ∃ m ∈ input.memberships, m.state = .waking ∧ r.key = m.key := by
  obtain ⟨r', hr', rfl⟩ := mem_map.mp h
  rw [orphanReturns, Sorting.mem_sort] at hr'
  obtain ⟨m, hm, rfl⟩ := mem_map.mp hr'
  obtain ⟨hm, hw⟩ := mem_filter.mp hm
  exact ⟨m, hm, by simpa using hw, key_withKnownModel _ _⟩

theorem exists_knownOrphan (hm : m ∈ input.memberships) (hw : m.state = .waking) :
    ∃ r ∈ knownOrphans input, r.key = m.key := by
  refine ⟨withKnownModel input.variants ⟨m.pod, m.model⟩, mem_map_of_mem ?_,
    key_withKnownModel _ _⟩
  rw [orphanReturns, Sorting.mem_sort]
  exact mem_map.mpr ⟨m, mem_filter.mpr ⟨hm, by simp [hw]⟩, rfl⟩

private theorem firstInTheWay_from {returned ps : List NamespacedName}
    (h : r ∈ firstInTheWay input returned ps) :
    ∃ m ∈ input.memberships, m.state = .serving ∧ r.key = m.key := by
  induction ps with
  | nil => simp [firstInTheWay] at h
  | cons p ps ih =>
    unfold firstInTheWay at h
    split at h
    · exact ih h
    · split at h
      · exact ih h
      · obtain ⟨m, hm, rfl⟩ := mem_map.mp h
        obtain ⟨hm, hs⟩ := mem_filter.mp hm
        obtain ⟨hmem, rfl⟩ := mem_inPod.mp hm
        have hs : m.model.variant ≠ input.wantAwake ∧ m.state = .serving := by simpa using hs
        exact ⟨m, hmem, hs.2, rfl⟩

theorem intentReturns_from {returned : List NamespacedName} (h : r ∈ intentReturns o returned) :
    ∃ m ∈ input.memberships, m.state = .serving ∧ r.key = m.key := by
  unfold intentReturns at h
  split_ifs at h
  · simp at h
  · simp at h
  · simp at h
  · exact firstInTheWay_from h

theorem mem_lent {all : List Membership} :
    m ∈ lent all variant ↔ m ∈ all ∧ m.state = .serving ∧ m.model.variant = variant := by
  simp [lent]

theorem allReturns_from (h : r ∈ allReturns o cfg) :
    ∃ m ∈ input.memberships, (m.state = .serving ∨ m.state = .waking) ∧ r.key = m.key := by
  rcases mem_append.mp h with h | h
  · rcases mem_append.mp h with h | h
    · obtain ⟨v, _, m, hm, hr⟩ := askedReturns_from o cfg h
      obtain ⟨hm, hs, _⟩ := mem_lent.mp hm
      exact ⟨m, hm, .inl hs, hr⟩
    · obtain ⟨m, hm, hw, hr⟩ := knownOrphans_from h
      exact ⟨m, hm, .inr hw, hr⟩
  · obtain ⟨m, hm, hs, hr⟩ := intentReturns_from o h
    exact ⟨m, hm, .inl hs, hr⟩

theorem mem_dropped_of_not_borrowed {returns orphans borrows : List Action} (hr : r ∈ returns)
    (hb : ∀ b ∈ borrows, b.key ≠ r.key) :
    r ∈ dropOrphanReturnsSupersededByBorrows returns orphans borrows := by
  unfold dropOrphanReturnsSupersededByBorrows
  split_ifs
  · exact hr
  · refine mem_filter.mpr ⟨hr, ?_⟩
    simpa using .inr hb

theorem mem_of_mem_dropped {returns orphans borrows : List Action}
    (hr : r ∈ dropOrphanReturnsSupersededByBorrows returns orphans borrows) : r ∈ returns := by
  unfold dropOrphanReturnsSupersededByBorrows at hr
  split_ifs at hr
  · exact hr
  · exact (mem_filter.mp hr).1

end Returns

section Free

variable {input : Input} (o : Orders input) (cfg : Config)

variable {p : NamespacedName}

theorem mem_freePods {returning : List NamespacedName} :
    p ∈ freePods input returning ↔ p ∈ pods input.memberships ∧ p ∉ input.admitting ∧
      (isFree (inPod input.memberships p) = true ∨ p ∈ returning) := by
  rw [freePods, mem_filter, Bool.and_eq_true, Bool.or_eq_true]
  simp only [Bool.not_eq_true', contains_eq_mem, decide_eq_false_iff_not, decide_eq_true_eq]

theorem nodup_freePods (returning : List NamespacedName) : (freePods input returning).Nodup :=
  (nodup_pods _).filter _

variable {free : List NamespacedName}

theorem mem_holding :
    p ∈ holding o free variant ↔ p ∈ free ∧ holds (inPod input.memberships p) variant = true := by
  rw [holding, Sorting.mem_sort, mem_filter]

theorem taken_perm (hf : free.Nodup) (v : VariantDemand) :
    (taken o free v ++ free.filter fun p => !(taken o free v).contains p).Perm free := by
  have hsub : (taken o free v).Sublist (holding o free v.model.variant) := take_sublist _ _
  have hnd : (taken o free v).Nodup :=
    (((o.emptiest.perm _).nodup_iff).mpr (hf.filter _)).sublist hsub
  refine Perm.trans (Perm.append_right _ ?_)
    (filter_append_perm (fun p => (taken o free v).contains p) free)
  apply (perm_ext_iff_of_nodup hnd (hf.filter _)).mpr
  intro p
  simp only [mem_filter, contains_eq_mem, decide_eq_true_eq, iff_and_self]
  intro hp
  exact ((mem_holding o).mp (hsub.subset hp)).1

theorem borrowFor_perm {free₀ : List NamespacedName} {s : Borrowing}
    (hnd : free₀.Nodup) (h : (s.borrow.map Action.pod ++ s.free).Perm free₀) (v : VariantDemand) :
    (((borrowFor o s v).borrow.map Action.pod) ++ (borrowFor o s v).free).Perm free₀ := by
  unfold borrowFor
  split_ifs
  · exact h
  · exact h
  · exact h
  all_goals
    have hfree : s.free.Nodup := ((h.nodup_iff).mpr hnd).of_append_right
    have hpods : ((taken o s.free v).map fun p => (⟨p, v.model⟩ : Action)).map Action.pod =
        taken o s.free v := by simp [Function.comp_def]
    rw [map_append, hpods, append_assoc]
    exact ((taken_perm o hfree v).append_left _).trans h

theorem borrows_perm :
    ((borrows o cfg).borrow.map Action.pod ++ (borrows o cfg).free).Perm
      (freePods input ((allReturns o cfg).map Action.pod)) := by
  unfold borrows
  generalize hf : freePods input ((allReturns o cfg).map Action.pod) = free₀
  have hnd : free₀.Nodup := hf ▸ nodup_freePods _
  exact foldlRecOn (motive := fun s : Borrowing => (s.borrow.map Action.pod ++ s.free).Perm free₀)
    _ _ (Perm.refl _) fun s h v _ => borrowFor_perm o hnd h v

variable (shapeOf : String → Shape)

theorem roomiestFreePodWithout_mem {emptyOnly : Bool}
    (h : roomiestFreePodWithout o cfg free variant emptyOnly = some p) : p ∈ free := by
  have hp := mem_of_head? h
  rw [Sorting.mem_sort] at hp
  exact (mem_filter.mp hp).1

theorem admitCopies_perm {free₀ : List NamespacedName} (emptyOnly : Bool) (v : VariantDemand)
    (budget : Nat) {s : Admitting} (h : (s.admits.map Action.pod ++ s.free).Perm free₀) :
    (((admitCopies shapeOf o cfg emptyOnly v budget s).admits.map Action.pod) ++
      (admitCopies shapeOf o cfg emptyOnly v budget s).free).Perm free₀ := by
  induction budget generalizing s with
  | zero => exact h
  | succ budget ih =>
    unfold admitCopies
    split_ifs
    · cases ht : roomiestFreePodWithout o cfg s.free v.model.variant emptyOnly with
      | none => exact h
      | some target =>
        cases hd : doesNotFit shapeOf v.model (inPod input.memberships target) cfg with
        | some why =>
          simp only [hd]
          exact h
        | none =>
          simp only [hd]
          apply ih
          have hmem := roomiestFreePodWithout_mem o cfg ht
          rw [map_append, append_assoc]
          exact ((perm_cons_erase hmem).symm.append_left _).trans h
    · exact h

theorem admissions_perm (free : List NamespacedName) (emptyOnly : Bool) :
    ((admissions shapeOf o cfg free emptyOnly).admits.map Action.pod ++
      (admissions shapeOf o cfg free emptyOnly).free).Perm free := by
  exact foldlRecOn (motive := fun s : Admitting => (s.admits.map Action.pod ++ s.free).Perm free)
    _ _ (Perm.refl _) fun s h v _ => admitCopies_perm o cfg shapeOf emptyOnly v s.budget h

theorem plan_pods_subperm :
    List.Subperm (((decidePlan shapeOf o cfg).borrow ++ (decidePlan shapeOf o cfg).admits).map
      Action.pod) (freePods input ((allReturns o cfg).map Action.pod)) := by
  have hb := borrows_perm o cfg
  have ha := admissions_perm o cfg shapeOf (borrows o cfg).free
    (!(borrows o cfg).blocked.isEmpty)
  rw [map_append]
  refine List.Subperm.trans ?_ hb.subperm
  apply (subperm_append_left _).mpr
  exact (sublist_append_left _ _).subperm.trans ha.subperm

end Free

end LlmScaler.WarmPool
