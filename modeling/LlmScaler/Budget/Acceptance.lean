import LlmScaler.Budget.Accept

/-!
# The placement check by the allowlists

The two budgets `fitsGPUBudget` reads, that of the cluster and that of a namespace the providers
hold, are merges of allowlists, so what it accepts is read off the allowlists that key them.
-/

namespace LlmScaler.Budget

open Core Accelerator List

/-- The allowlists of the providers that bound the whole cluster. -/
def clusterPools (constraints : List ResourceConstraints) : List Pools :=
  (clusterBounds constraints).map (·.pools)

/-- The figures `mergeConstraints` gives its keys. -/
def clusterMergeFigure (allowlists : List Pools) (name : String) : Option ℕ∞ :=
  if materialized allowlists name then clusterAllowlistsBound poolBound allowlists name else none

variable {allowlists : List Pools}

theorem mergeFigure_cluster (hne : allowlists ≠ []) :
    MergeFigure allowlists (clusterMergeFigure allowlists) where
  materialized k hk := by
    by_contra hm
    rw [clusterMergeFigure, if_neg hm] at hk
    cases hk
  isSome k hk hm := by
    rw [clusterMergeFigure, if_pos hm,
      clusterAllowlistsBound_eq poolBound hne (ne_default_of_isNamed hk)]
    rfl
  eq_zero k hk a ha hlists := by
    rw [clusterMergeFigure]
    split_ifs
    · rw [clusterAllowlistsBound_eq poolBound hne (ne_default_of_isNamed hk), Option.getD_some]
      have hle := clusterFigure_le poolBound ha hk
      rwa [freeOf_of_not_lists poolBound hlists, nonpos_iff_eq_zero] at hle
    · rfl

variable {k : String}

theorem clusterMergeFigure_getD (hne : allowlists ≠ []) (hk : isNamed k = true) :
    (clusterMergeFigure allowlists k).getD 0 = clusterFigure poolBound allowlists k := by
  rw [clusterMergeFigure]
  split_ifs with hm
  · rw [clusterAllowlistsBound_eq poolBound hne (ne_default_of_isNamed hk), Option.getD_some]
  · obtain ⟨a, ha, hlists⟩ := exists_not_lists hm
    have hle := clusterFigure_le poolBound ha hk
    rw [freeOf_of_not_lists poolBound hlists, nonpos_iff_eq_zero] at hle
    rw [hle, Option.getD_none]

variable {constraints : List ResourceConstraints}

theorem mergeConstraints_eq (declared : List String) (hne : clusterPools constraints ≠ []) :
    mergeConstraints constraints declared =
      some (mergeNames (mergedNames (clusterPools constraints) declared)
        (clusterMergeFigure (clusterPools constraints))) :=
  if_neg hne

theorem mergeConstraints_eq_none (declared : List String) (h : clusterPools constraints = []) :
    mergeConstraints constraints declared = none :=
  if_pos h

/-- The figure of a named key of a cluster merge is that of the allowlists: clamping changes
nothing. -/
theorem figureAt_cluster (hne : allowlists ≠ []) {names : List String} (hk : isNamed k = true)
    (hkey : k ∈ (mergeNames names (clusterMergeFigure allowlists)).keys) :
    figureAt (mergeNames names (clusterMergeFigure allowlists)) k =
      clusterFigure poolBound allowlists k := by
  rw [← clusterMergeFigure_getD hne hk]
  apply le_antisymm
  · exact ((le_figureAt_mergeNames hkey).mp le_rfl).1
  · rw [le_figureAt_mergeNames hkey]
    refine ⟨le_rfl, fun f _ hproduct => ?_⟩
    have hf : isNamed f = true := isNamed_of_covers hk (covers_iff.mpr (.inr hproduct))
    rw [clusterMergeFigure_getD hne hk, clusterMergeFigure_getD hne hf]
    exact clusterFigure_mono poolBound allowlists hproduct

/-- What the cluster budget allows a declared name is what the cluster bounds leave it. -/
theorem clusterBudgetFor_getD (constraints : List ResourceConstraints) {declared : List String}
    (hk : isNamed k = true) (hd : k ∈ declared) :
    (clusterBudgetFor (mergeConstraints constraints declared) k).getD ⊤ =
      clusterFigure poolBound (clusterPools constraints) k := by
  by_cases hne : clusterPools constraints = []
  · rw [mergeConstraints_eq_none declared hne, hne]
    rfl
  · rw [mergeConstraints_eq declared hne]
    have hmerge := mergeFigure_cluster hne
    have hzero : ∀ {k}, isNamed k = true → materialized (clusterPools constraints) k ≠ true →
        clusterFigure poolBound (clusterPools constraints) k = 0 := by
      intro k hk hm
      rw [← clusterMergeFigure_getD hne hk, clusterMergeFigure, if_neg hm, Option.getD_none]
    rw [clusterBudgetFor]
    cases hfind : findBudgetKey (mergeNames (mergedNames (clusterPools constraints) declared)
        (clusterMergeFigure (clusterPools constraints))) k with
    | none =>
      simp only [if_neg (ne_default_of_isNamed hk), Option.getD_some]
      refine (hzero hk fun hm => ?_).symm
      obtain ⟨k', hk', hfold⟩ := hmerge.exists_key declared hk hm (.inl ⟨k, hd, rfl⟩)
      obtain ⟨key, hkey, _⟩ := findBudgetKey_of_fold hk' hfold
      rw [hfind] at hkey
      cases hkey
    | some key =>
      have hkey := findBudgetKey_mem hfind
      have hkeyNamed := isNamed_of_findBudgetKey hk hfind
      simp only [Option.getD_some]
      rcases hmerge.found hk hd hfind with hfold | hempty
      · rw [figureAt_cluster hne hkeyNamed hkey]
        exact clusterFigure_congr poolBound _ hkeyNamed hfold
      · rw [hempty]
        by_cases hm : materialized (clusterPools constraints) k = true
        · obtain ⟨k', hk', hfold⟩ := hmerge.exists_key declared hk hm (.inl ⟨k, hd, rfl⟩)
          have hsame : fold key = fold k := by
            obtain ⟨key', hkey', hfold'⟩ := findBudgetKey_of_fold hk' hfold
            rw [hfind] at hkey'
            cases hkey'
            exact hfold'
          rw [← clusterFigure_congr poolBound _ hkeyNamed hsame, ← figureAt_cluster hne hkeyNamed hkey,
            hempty]
        · exact (hzero hk hm).symm

variable {k' : String}

section Namespace

variable {pools cluster : List Pools} {k : String}

private theorem closedFamilyBudget_eq (hne : pools ≠ []) (hk : isNamed k = true) :
    closedFamilyBudget (pools ++ cluster) k = clusterFigure poolBound (pools ++ cluster) k := by
  rw [closedFamilyBudget, clusterAllowlistsBound_eq poolBound (by simp [hne])
    (ne_default_of_isNamed hk), Option.getD_some]

/-- Whether the figure of a family in a namespace is what its products may take together. -/
def closedInNamespace (pools cluster : List Pools) (name : String) : Bool :=
  closesFamily pools name || closesFamily cluster name && listsProduct pools name

theorem namespaceFigure_eq (hne : pools ≠ []) (hk : isNamed k = true) :
    namespaceFigure pools cluster k =
      if closedInNamespace pools cluster k then clusterFigure poolBound (pools ++ cluster) k
      else tightest (pools.map (freeOf poolBound · k)) := by
  rw [namespaceFigure, closedFamilyBudget_eq hne hk, closedInNamespace]
  by_cases hclosed : closesFamily pools k = true
  · simp only [hclosed, if_true, Bool.true_or]
  · simp only [hclosed, if_false, Bool.false_eq_true, Bool.false_or]

theorem namespaceFigure_le (cluster : List Pools) (hk : isNamed k = true) {a : Pools}
    (ha : a ∈ pools) : namespaceFigure pools cluster k ≤ freeOf poolBound a k := by
  rw [namespaceFigure_eq (ne_nil_of_mem ha) hk]
  split_ifs
  · exact clusterFigure_le poolBound (mem_append_left _ ha) hk
  · exact tightest_le (mem_map_of_mem ha)

theorem closedInNamespace_congr (pools cluster : List Pools) (hk : isNamed k = true)
    (h : fold k = fold k') :
    closedInNamespace pools cluster k = closedInNamespace pools cluster k' := by
  have hlists : listsProduct pools k = listsProduct pools k' := by
    have htest : (isProductOf · k) = (isProductOf · k') := funext fun p => isProductOf_congr rfl h
    rw [listsProduct, listsProduct, htest]
  rw [closedInNamespace, closedInNamespace, closesFamily_congr pools hk h,
    closesFamily_congr cluster hk h, hlists]

theorem namespaceFigure_congr (hne : pools ≠ []) (hk : isNamed k = true) (h : fold k = fold k') :
    namespaceFigure pools cluster k = namespaceFigure pools cluster k' := by
  have hfree : ∀ a : Pools, freeOf poolBound a k = freeOf poolBound a k' := by
    intro a
    rw [freeOf, freeOf, allowlistBound_congr poolBound a h]
  rw [namespaceFigure_eq hne hk, namespaceFigure_eq hne (by rwa [← isNamed_congr h]),
    closedInNamespace_congr pools cluster hk h, clusterFigure_congr poolBound _ hk h]
  simp only [hfree]

/-- The figures `mergeNamespace` gives its keys. -/
def namespaceMergeFigure (pools cluster : List Pools) (name : String) : Option ℕ∞ :=
  if materialized pools name then some (namespaceFigure pools cluster name) else none

theorem mergeFigure_namespace : MergeFigure pools (namespaceMergeFigure pools cluster) where
  materialized k hk := by
    by_contra hm
    rw [namespaceMergeFigure, if_neg hm] at hk
    cases hk
  isSome k hk hm := by
    rw [namespaceMergeFigure, if_pos hm]
    rfl
  eq_zero k hk a ha hlists := by
    rw [namespaceMergeFigure]
    split_ifs
    · have hle := namespaceFigure_le cluster hk ha
      rwa [freeOf_of_not_lists poolBound hlists, nonpos_iff_eq_zero] at hle
    · rfl

theorem mem_heldNamespaces {ns : String} :
    ns ∈ heldNamespaces constraints ↔ namespaceHolders constraints ns ≠ [] := by
  rw [heldNamespaces, mem_dedup, mem_flatMap]
  constructor
  · rintro ⟨c, hc, hmem⟩
    cases hheld : c.namespacePools with
    | none => simp [hheld] at hmem
    | some held =>
      simp only [hheld] at hmem
      obtain ⟨a, ha⟩ := GoMap.mem_keys.mp hmem
      refine ne_nil_of_mem (a := a) (mem_filterMap.mpr ⟨c, hc, ?_⟩)
      rw [hheld]
      exact ha
  · intro hne
    obtain ⟨a, ha⟩ := exists_mem_of_ne_nil _ hne
    obtain ⟨c, hc, hbind⟩ := mem_filterMap.mp ha
    obtain ⟨held, hheld, hfind⟩ := Option.bind_eq_some_iff.mp hbind
    refine ⟨c, hc, ?_⟩
    simp only [hheld]
    exact GoMap.mem_keys.mpr ⟨a, hfind⟩

theorem find?_mergeNamespaceConstraints (constraints : List ResourceConstraints)
    (declared : List String) (ns : String) :
    (mergeNamespaceConstraints constraints declared).find? ns =
      if namespaceHolders constraints ns = [] then none
      else some (mergeNames (mergedNames (namespaceHolders constraints ns) declared)
        (namespaceMergeFigure (namespaceHolders constraints ns) (clusterPools constraints))) := by
  have hnodup : (((heldNamespaces constraints).map fun ns =>
      (ns, mergeNamespace (namespaceHolders constraints ns) (clusterPools constraints)
        declared)).map Prod.fst).Nodup := by
    rw [map_map]
    exact (map_id (heldNamespaces constraints)).symm ▸ nodup_dedup _
  ext v
  rw [mergeNamespaceConstraints]
  refine (GoMap.find?_ofList hnodup).trans ?_
  simp only [mem_map, Prod.mk.injEq, mem_heldNamespaces]
  constructor
  · rintro ⟨ns', hheld, rfl, rfl⟩
    rw [if_neg hheld]
    rfl
  · intro h
    split_ifs at h with hheld
    exact ⟨ns, hheld, rfl, (Option.some_inj.mp h)⟩

end Namespace

section Fits

variable {constraints : List ResourceConstraints} {ns : String}

/-- The allowlists that key the budget of a namespace: those that hold it, or those of the
cluster when none does. -/
def keyingPools (constraints : List ResourceConstraints) (ns : String) : List Pools :=
  if namespaceHolders constraints ns = [] then clusterPools constraints
  else namespaceHolders constraints ns

/-- What the providers leave a name in a namespace. -/
def freeIn (constraints : List ResourceConstraints) (ns name : String) : ℕ∞ :=
  (if namespaceHolders constraints ns = [] then ⊤
    else namespaceFigure (namespaceHolders constraints ns) (clusterPools constraints) name) ⊓
    clusterFigure poolBound (clusterPools constraints) name

theorem freeIn_congr (hk : isNamed k = true) (h : fold k = fold k') :
    freeIn constraints ns k = freeIn constraints ns k' := by
  rw [freeIn, freeIn, clusterFigure_congr poolBound _ hk h]
  split_ifs with hheld
  · rfl
  · rw [namespaceFigure_congr hheld hk h]

theorem gpuBudgets_of_held (hheld : namespaceHolders constraints ns ≠ [])
    (declared : List String) :
    gpuBudgets constraints ns declared =
      (some ((mergeNames (mergedNames (namespaceHolders constraints ns) declared)
        (namespaceMergeFigure (namespaceHolders constraints ns) (clusterPools constraints))).mapValues
        fun accType budget =>
          budget ⊓ (clusterBudgetFor (mergeWithAllowanceKeys constraints declared)
            accType).getD ⊤), true) := by
  have hne : constraints.isEmpty = false := by
    rw [isEmpty_eq_false_iff]
    rintro rfl
    exact hheld rfl
  have hfind := find?_mergeNamespaceConstraints constraints declared ns
  rw [if_neg hheld] at hfind
  unfold gpuBudgets
  simp only [hne, Bool.false_eq_true, if_false, hfind]
  congr 3
  ext accType budget : 2
  cases clusterBudgetFor (mergeWithAllowanceKeys constraints declared) accType with
  | none => exact (inf_top_eq budget).symm
  | some cv => rfl

theorem gpuBudgets_of_not_held (hheld : namespaceHolders constraints ns = [])
    (declared : List String) :
    gpuBudgets constraints ns declared = (mergeConstraints constraints declared, false) := by
  unfold gpuBudgets
  by_cases hempty : constraints.isEmpty = true
  · rw [if_pos hempty, isEmpty_iff.mp hempty]
    rfl
  · rw [if_neg hempty, find?_mergeNamespaceConstraints, if_pos hheld]

theorem mem_allowanceKeys {declared : List String} {figure : String → Option ℕ∞}
    (h : k ∈ (mergeNames (mergedNames (namespaceHolders constraints ns) declared) figure).keys) :
    k ∈ declared ++ namespaceKeys constraints := by
  have hspelled := mem_of_mem_distinctSpellings (mem_keys_mergeNames.mp h).1
  rcases mem_append.mp hspelled with hd | hlisted
  · exact mem_append_left _ (mem_filter.mp hd).1
  · obtain ⟨a, ha, hk⟩ := mem_flatMap.mp hlisted
    obtain ⟨c, hc, hbind⟩ := mem_filterMap.mp ha
    obtain ⟨held, hheld, hfind⟩ := Option.bind_eq_some_iff.mp hbind
    refine mem_append_right _ (mem_flatMap.mpr ⟨c, hc, ?_⟩)
    simp only [hheld]
    exact mem_flatMap.mpr ⟨⟨ns, a⟩, GoMap.mem_entries.mpr hfind, hk⟩

/-- A demand of named accelerators is permitted in a namespace exactly when the allowlists that
key its budget admit the names and what the providers leave each key holds what is demanded under
it. -/
theorem fitsGPUBudget_iff {demand : Demand} (hnamed : ∀ n ∈ demand.keys, isNamed n = true) :
    fitsGPUBudget constraints ns demand = true ↔
      Accepts (keyingPools constraints ns) (freeIn constraints ns) demand := by
  unfold fitsGPUBudget
  by_cases hheld : namespaceHolders constraints ns = []
  · rw [gpuBudgets_of_not_held hheld, keyingPools, if_pos hheld]
    by_cases hne : clusterPools constraints = []
    · rw [mergeConstraints_eq_none _ hne, hne]
      refine iff_of_true rfl ⟨fun _ _ _ _ => rfl, fun k _ _ _ => ?_⟩
      rw [freeIn, if_pos hheld, hne]
      exact le_top
    · rw [mergeConstraints_eq _ hne]
      refine (mergeFigure_cluster hne).drawable_iff (fun _ => ⊤) hnamed rfl ?_ ?_
        fun k k' hk h => freeIn_congr hk h
      · exact fun k _ _ => (inf_top_eq _).symm
      · intro k _ hk
        rw [freeIn, if_pos hheld, top_inf_eq, inf_top_eq, clusterMergeFigure_getD hne hk]
  · rw [gpuBudgets_of_held hheld, keyingPools, if_neg hheld]
    have hcluster : ∀ k ∈ (mergeNames (mergedNames (namespaceHolders constraints ns) demand.keys)
        (namespaceMergeFigure (namespaceHolders constraints ns) (clusterPools constraints))).keys,
        isNamed k = true → (clusterBudgetFor (mergeWithAllowanceKeys constraints demand.keys)
          k).getD ⊤ = clusterFigure poolBound (clusterPools constraints) k :=
      fun k hk hnamed => clusterBudgetFor_getD constraints hnamed (mem_allowanceKeys hk)
    refine mergeFigure_namespace.drawable_iff
      (clusterFigure poolBound (clusterPools constraints)) hnamed
      (GoMap.keys_mapValues _ _) ?_ ?_ fun k k' hk h => freeIn_congr hk h
    · intro k hkey hk
      rw [GoMap.keys_mapValues] at hkey
      rw [figureAt_mapValues hkey, hcluster k hkey hk]
    · intro k hkey hk
      rw [GoMap.keys_mapValues] at hkey
      have hm := mergeFigure_namespace.materialized k (mem_keys_mergeNames.mp hkey).2
      rw [freeIn, if_neg hheld, namespaceMergeFigure, if_pos hm, Option.getD_some]

end Fits

end LlmScaler.Budget
