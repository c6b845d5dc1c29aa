import LlmScaler.Budget.Withhold

/-!
# The wakes of one tick

Each wake is judged on the constraints with the tick's earlier wakes withheld. Where every provider
charges a name to the one finite pool that bounds it, what the providers leave a name in the
namespace falls by what the earlier wakes demand under it.
-/

namespace LlmScaler.Budget

open Core Accelerator List GoMap

variable {constraints : List ResourceConstraints} {ns : String} {promised demand : Demand}

/-- The allowlists that bound a namespace: those that hold it and those of the cluster. -/
def boundingPools (constraints : List ResourceConstraints) (ns : String) : List Pools :=
  namespaceHolders constraints ns ++ clusterPools constraints

variable {a : Pools}

theorem mem_boundingPools (h : a ∈ keyingPools constraints ns) :
    a ∈ boundingPools constraints ns := by
  unfold keyingPools at h
  split_ifs at h
  · exact mem_append_right _ h
  · exact mem_append_left _ h

variable {k : String}

theorem freeIn_le (ha : a ∈ boundingPools constraints ns) (hk : isNamed k = true) :
    freeIn constraints ns k ≤ freeOf poolBound a k := by
  rcases mem_append.mp ha with hheld | hcluster
  · rw [freeIn, if_neg (ne_nil_of_mem hheld)]
    exact inf_le_of_left_le (namespaceFigure_le _ hk hheld)
  · exact inf_le_of_right_le (clusterFigure_le poolBound hcluster hk)

theorem freeIn_of_unbounded (h : keyingPools constraints ns = []) (k : String) :
    freeIn constraints ns k = ⊤ := by
  have hheld : namespaceHolders constraints ns = [] := by
    by_contra hheld
    rw [keyingPools, if_neg hheld] at h
    exact hheld h
  rw [keyingPools, if_pos hheld] at h
  rw [freeIn, if_pos hheld, h]
  rfl

variable {n : String} {need : ℕ}

theorem need_le_demandUnder (h : demand.find? n = some need) (hcover : covers k n = true) :
    need ≤ demandUnder demand k := by
  apply single_le_sum (fun _ _ => Nat.zero_le _)
  exact mem_map.mpr ⟨⟨n, need⟩, mem_filter.mpr ⟨mem_entries.mpr h, hcover⟩, rfl⟩

variable {f : String}

/-- What is demanded under a key is demanded under the keys that cover its demanded names. -/
theorem demandUnder_le_sum {keys : List String}
    (h : ∀ n need, demand.find? n = some need → need ≠ 0 → covers f n = true → ∃ q ∈ keys,
      covers q n = true) :
    demandUnder demand f ≤ (keys.map (demandUnder demand)).sum := by
  have hkey : ∀ e ∈ demand.entries.filter (covers f ·.1), e.2 ≠ 0 →
      ∃ q ∈ keys, (fun q (e : DemandEntry) => covers q e.1) q e = true := by
    intro e he hne
    obtain ⟨he, hcover⟩ := mem_filter.mp he
    exact h e.1 e.2 (mem_entries.mp he) hne hcover
  refine (sum_le_sum_groups hkey).trans (sum_le_sum fun q _ => ?_)
  exact ((filter_sublist.filter _).map _).sum_le_sum fun _ _ => Nat.zero_le _

variable {wakes : TickWakes}

section Accepted

variable (hnamed : ∀ n ∈ promised.keys, isNamed n = true)
  (hfits : Accepts (keyingPools constraints ns) (freeIn constraints ns) promised)

include hnamed hfits

theorem within_product {p : String} (hproduct : isFamily p = false) :
    (demandUnder promised p : ℕ∞) ≤ freeIn constraints ns p := by
  by_cases hzero : demandUnder promised p = 0
  · rw [hzero]
    exact zero_le
  · obtain ⟨n, need, hn, hneed, hcover⟩ := exists_of_demandUnder_ne_zero hzero
    have hmem : n ∈ promised.keys := mem_keys.mpr ⟨need, hn⟩
    have hfold : fold p = fold n := by
      refine (covers_iff.mp hcover).resolve_right fun hnp => ?_
      rw [(isProductOf_iff.mp hnp).1] at hproduct
      cases hproduct
    refine hfits.within p (isNamed_of_covers (hnamed n hmem) hcover) (.inl ⟨n, hmem, hfold.symm⟩) ?_
    rw [materialized_congr _ hfold]
    exact hfits.admitted n need hn hneed

theorem lists_of_accepts (ha : a ∈ boundingPools constraints ns) (hn : promised.find? n = some need)
    (hneed : need ≠ 0) : Lists a n := by
  by_contra hlists
  have hmem : n ∈ promised.keys := mem_keys.mpr ⟨need, hn⟩
  have hle : (demandUnder promised n : ℕ∞) ≤ freeOf poolBound a n :=
    (hfits.within n (hnamed n hmem) (.inl ⟨n, hmem, rfl⟩) (hfits.admitted n need hn hneed)).trans
      (freeIn_le ha (hnamed n hmem))
  rw [freeOf_of_not_lists poolBound hlists, nonpos_iff_eq_zero, Nat.cast_eq_zero] at hle
  have hneedLe := need_le_demandUnder hn (covers_self n)
  omega

variable (hcharged : ∀ a ∈ boundingPools constraints ns, ∀ n ∈ promised.keys,
  chargedWhereBounded a n = true)

include hcharged

/-- A name demanded under a family an allowlist does not list itself is a product with a key in
that allowlist. -/
private theorem exists_productKey (ha : a ∈ boundingPools constraints ns)
    (hfamily : isFamily f = true) (hown : ¬ OwnLists a f) (hn : promised.find? n = some need)
    (hneed : need ≠ 0) (hcover : covers f n = true) : ∃ q ∈ productKeys a f, fold q = fold n := by
  have hproduct : isProductOf n f = true := by
    refine (covers_iff.mp hcover).resolve_left fun hfold => hown ?_
    have hcharge := hcharged a ha n (mem_keys.mpr ⟨need, hn⟩)
    exact (OwnLists.congr hfold).mpr
      ((chargedWhereBounded_iff.mp hcharge).1 (isFamily_congr hfold ▸ hfamily))
  obtain ⟨q, hq, hfold⟩ := (lists_of_accepts hnamed hfits ha hn hneed).own_of_not_own hproduct hown
  exact ⟨q, mem_productKeys.mpr ⟨hq, by rwa [isProductOf_congr hfold rfl]⟩, hfold⟩

private theorem groupSpent_productKeys (ha : a ∈ boundingPools constraints ns)
    (hf : isNamed f = true) (hfamily : isFamily f = true) (hown : ¬ OwnLists a f) :
    GroupSpent (demandUnder promised) (productKeys a f) (boundAt poolBound a) f where
  within p hp := by
    obtain ⟨hmem, hproduct⟩ := mem_productKeys.mp hp
    calc (demandUnder promised p : ℕ∞)
        ≤ freeIn constraints ns p :=
          within_product hnamed hfits (isProductOf_iff.mp hproduct).2.1
      _ ≤ freeOf poolBound a p := freeIn_le ha (isNamed_of_isProductOf hf hproduct)
      _ ≤ boundAt poolBound a p := freeOf_le poolBound hmem (covers_self p)
  total := by
    apply demandUnder_le_sum
    intro n need hn hneed hcover
    obtain ⟨q, hq, hfold⟩ :=
      exists_productKey hnamed hfits hcharged ha hfamily hown hn hneed hcover
    exact ⟨q, hq, covers_of_fold_eq hfold⟩

private theorem groupSpent_productsOf {allowlists : List Pools}
    (hsub : ∀ a ∈ allowlists, a ∈ boundingPools constraints ns) (hf : isNamed f = true)
    (hcloses : closesFamily allowlists f = true) :
    GroupSpent (demandUnder promised) (productsOf allowlists f)
      (fun p => tightest (allowlists.map (clusterFreeOf poolBound · p))) f where
  within p hp := by
    have hproduct := mem_productsOf hp
    rw [le_tightest, forall_mem_map]
    intro a ha
    calc (demandUnder promised p : ℕ∞)
        ≤ freeIn constraints ns p :=
          within_product hnamed hfits (isProductOf_iff.mp hproduct).2.1
      _ ≤ freeOf poolBound a p := freeIn_le (hsub a ha) (isNamed_of_isProductOf hf hproduct)
      _ ≤ clusterFreeOf poolBound a p := freeOf_le_clusterFreeOf poolBound a p
  total := by
    obtain ⟨hfamily, _, a, ha, hown⟩ := closesFamily_iff.mp hcloses
    apply demandUnder_le_sum
    intro n need hn hneed hcover
    obtain ⟨q, hq, hfold⟩ :=
      exists_productKey hnamed hfits hcharged (hsub a ha) hfamily hown hn hneed hcover
    obtain ⟨p, hp, hpq⟩ := exists_mem_productsOf ha hq
    exact ⟨p, hp, covers_of_fold_eq (hpq.trans hfold)⟩

omit hnamed hfits in
private theorem spentFrom_bounding (ha : a ∈ boundingPools constraints ns) :
    SpentFrom poolBound (demandUnder promised) a (chargeAll promised.entries a) :=
  spentFrom_chargeAll fun e he =>
    hcharged a ha e.1 (mem_keys.mpr ⟨e.2, mem_entries.mp he⟩)

/-- Charging the promises lowers what allowlists leave a name together by what is promised under
it. -/
private theorem clusterFigure_charged {allowlists : List Pools}
    (hsub : ∀ a ∈ allowlists, a ∈ boundingPools constraints ns) (hk : isNamed k = true) :
    clusterFigure poolBound (allowlists.map (chargeAll promised.entries)) k ≤
      clusterFigure poolBound allowlists k - demandUnder promised k := by
  have hle := clusterFigure_spent (f := id) (g := chargeAll promised.entries)
    (fun a ha => spentFrom_bounding hcharged (hsub a ha))
    (fun q n hcover => demandUnder_mono promised hcover) k
    (fun a ha hfamily hown _ =>
      groupSpent_productKeys hnamed hfits hcharged (hsub a ha) hk hfamily hown)
    (fun hcloses => by
      rw [map_id] at hcloses ⊢
      exact groupSpent_productsOf hnamed hfits hcharged hsub hk hcloses)
  rwa [map_id] at hle

omit hnamed hfits in
private theorem closedInNamespace_charged (k : String) :
    closedInNamespace ((namespaceHolders constraints ns).map (chargeAll promised.entries))
        ((clusterPools constraints).map (chargeAll promised.entries)) k =
      closedInNamespace (namespaceHolders constraints ns) (clusterPools constraints) k := by
  have hspent : ∀ a ∈ boundingPools constraints ns,
      SpentFrom poolBound (demandUnder promised) a (chargeAll promised.entries a) :=
    fun a ha => spentFrom_bounding hcharged ha
  have hcloses : ∀ l : List Pools, (∀ a ∈ l, a ∈ boundingPools constraints ns) →
      closesFamily (l.map (chargeAll promised.entries)) k = closesFamily l k := by
    intro l hl
    have hmap := closesFamily_map (f := id) (g := chargeAll promised.entries)
      (fun a ha => hspent a (hl a ha)) k
    rwa [map_id] at hmap
  have hlists : listsProduct ((namespaceHolders constraints ns).map (chargeAll promised.entries)) k =
      listsProduct (namespaceHolders constraints ns) k := by
    rw [Bool.eq_iff_iff, listsProduct, listsProduct, any_map, any_eq_true,
      any_eq_true]
    refine exists_congr fun a => and_congr_right fun ha => ?_
    rw [Function.comp, (hspent a (mem_append_left _ ha)).keys]
  rw [closedInNamespace, closedInNamespace, hlists,
    hcloses _ fun a ha => mem_append_left _ ha,
    hcloses _ fun a ha => mem_append_right _ ha]

private theorem namespaceFigure_charged (hheld : namespaceHolders constraints ns ≠ [])
    (hk : isNamed k = true) :
    namespaceFigure ((namespaceHolders constraints ns).map (chargeAll promised.entries))
        ((clusterPools constraints).map (chargeAll promised.entries)) k ≤
      namespaceFigure (namespaceHolders constraints ns) (clusterPools constraints) k -
        demandUnder promised k := by
  have hheld' : (namespaceHolders constraints ns).map (chargeAll promised.entries) ≠ [] := by
    simpa using hheld
  rw [namespaceFigure_eq hheld hk, namespaceFigure_eq hheld' hk,
    closedInNamespace_charged hcharged, ← map_append]
  split_ifs
  · exact clusterFigure_charged hnamed hfits hcharged (fun a ha => ha) hk
  · rw [map_map]
    apply tightest_sub_le
    intro a ha
    have hbounding : a ∈ boundingPools constraints ns := mem_append_left _ ha
    exact (spentFrom_bounding hcharged hbounding).freeOf_le
      (fun q n hcover => demandUnder_mono promised hcover) fun hfamily hown _ =>
        groupSpent_productKeys hnamed hfits hcharged hbounding hk hfamily hown

/-- Withholding the promises lowers what the providers leave a name by what is promised under
it. -/
theorem freeIn_withheld (hns : ns ≠ "") (hwakes : WakesOf ns wakes promised)
    (hk : isNamed k = true) :
    freeIn (withholdPromised constraints wakes) ns k ≤
      freeIn constraints ns k - demandUnder promised k := by
  have hcluster : clusterFigure poolBound
      ((clusterPools constraints).map (chargeAll promised.entries)) k ≤
      clusterFigure poolBound (clusterPools constraints) k - demandUnder promised k :=
    clusterFigure_charged hnamed hfits hcharged (fun a ha => mem_append_right _ ha) hk
  rw [freeIn, freeIn, namespaceHolders_withheld constraints hns hwakes,
    clusterPools_withheld constraints hns hwakes]
  by_cases hheld : namespaceHolders constraints ns = []
  · rw [hheld, map_nil, if_pos rfl, if_pos rfl, top_inf_eq, top_inf_eq]
    exact hcluster
  · have hheld' : (namespaceHolders constraints ns).map (chargeAll promised.entries) ≠ [] := by
      simpa using hheld
    rw [if_neg hheld, if_neg hheld']
    exact inf_sub_le (namespaceFigure_charged hnamed hfits hcharged hheld hk) hcluster

end Accepted

theorem demandUnder_addDemand (promised demand : Demand) (k : String) :
    demandUnder (addDemand promised demand) k = demandUnder promised k + demandUnder demand k :=
  sumWhere_foldl_add (fun e : DemandEntry => e.1) (·.2) demand.entries promised (covers k)

theorem mem_keys_addDemand {promised demand : Demand} :
    n ∈ (addDemand promised demand).keys ↔ n ∈ promised.keys ∨ n ∈ demand.keys := by
  have hfold : ∀ (entries : List DemandEntry) (m : Demand),
      n ∈ (entries.foldl (fun m e => m.modify e.1 (· + e.2)) m).keys ↔
        n ∈ m.keys ∨ n ∈ entries.keys := by
    intro entries
    induction entries with
    | nil => simp
    | cons e entries ih =>
      intro m
      rw [foldl_cons, ih, GoMap.modify, mem_keys_set, keys_cons, mem_cons,
        or_assoc, or_left_comm]
  exact hfold demand.entries promised

/-- Whether something is demanded under every name. -/
def Positive (demand : Demand) : Prop := ∀ n need, demand.find? n = some need → need ≠ 0

theorem Positive.addDemand (h : Positive promised) (h' : Positive demand) :
    Positive (addDemand promised demand) := by
  refine foldlRecOn (motive := Positive) _ _ h fun m hm e he n need hn => ?_
  simp only [GoMap.modify, find?_set] at hn
  split_ifs at hn
  · cases hn
    have := h' e.1 e.2 (mem_entries.mp he)
    omega
  · exact hm n need hn

/-- A demand of the kind the check is settled for: positive, of named accelerators, each charged
by every provider where it is bounded. -/
structure Placeable (constraints : List ResourceConstraints) (ns : String) (demand : Demand) :
    Prop where
  named : ∀ n ∈ demand.keys, isNamed n = true
  positive : Positive demand
  charged : ∀ a ∈ boundingPools constraints ns, ∀ n ∈ demand.keys,
    chargedWhereBounded a n = true

theorem Placeable.addDemand (h : Placeable constraints ns promised)
    (h' : Placeable constraints ns demand) :
    Placeable constraints ns (addDemand promised demand) where
  named n hn := (mem_keys_addDemand.mp hn).elim (h.named n) (h'.named n)
  positive := h.positive.addDemand h'.positive
  charged a ha n hn := (mem_keys_addDemand.mp hn).elim (h.charged a ha n) (h'.charged a ha n)

theorem placeable_empty (constraints : List ResourceConstraints) (ns : String) :
    Placeable constraints ns ∅ where
  named _ hn := absurd hn not_mem_nil
  positive _ _ hn := by cases hn
  charged _ _ _ hn := absurd hn not_mem_nil

section Step

variable {wakes : TickWakes} (hns : ns ≠ "") (hwakes : WakesOf ns wakes promised)

include hns hwakes

theorem keyingPools_withheld :
    keyingPools (withholdPromised constraints wakes) ns =
      (keyingPools constraints ns).map (chargeAll promised.entries) := by
  rw [keyingPools, keyingPools, namespaceHolders_withheld constraints hns hwakes,
    clusterPools_withheld constraints hns hwakes]
  by_cases hheld : namespaceHolders constraints ns = []
  · rw [if_pos hheld, hheld, map_nil, if_pos rfl]
  · rw [if_neg hheld, if_neg (by simpa using hheld)]

variable (h : Placeable constraints ns promised)

include h

omit hns hwakes in
private theorem spentFrom_keying (ha : a ∈ keyingPools constraints ns) :
    SpentFrom poolBound (demandUnder promised) a (chargeAll promised.entries a) :=
  spentFrom_bounding h.charged (mem_boundingPools ha)

private theorem exists_ownLists_withheld :
    (∃ a ∈ keyingPools (withholdPromised constraints wakes) ns, OwnLists a k) ↔
      ∃ a ∈ keyingPools constraints ns, OwnLists a k := by
  rw [keyingPools_withheld hns hwakes]
  simp only [mem_map, exists_exists_and_eq_and]
  exact exists_congr fun a => and_congr_right fun ha =>
    (spentFrom_keying h ha).ownLists k

theorem materialized_withheld (k : String) :
    materialized (keyingPools (withholdPromised constraints wakes) ns) k =
      materialized (keyingPools constraints ns) k := by
  rw [Bool.eq_iff_iff, materialized_iff, materialized_iff,
    exists_ownLists_withheld hns hwakes h, keyingPools_withheld hns hwakes, forall_mem_map]
  refine or_congr_right (forall₂_congr fun a ha => ?_)
  exact (spentFrom_keying h ha).lists k

private theorem keyed_withheld (hne : keyingPools constraints ns ≠ [])
    (hkeyed : Keyed (keyingPools constraints ns) (addDemand promised demand) k)
    (hdemanded : demandUnder demand k ≠ 0) :
    Keyed (keyingPools (withholdPromised constraints wakes) ns) demand k := by
  rw [Keyed, exists_ownLists_withheld hns hwakes h]
  rcases hkeyed with ⟨n, hn, hfold⟩ | hown
  · rcases mem_keys_addDemand.mp hn with hn | hn
    · obtain ⟨m, need, hm, _, hcover⟩ := exists_of_demandUnder_ne_zero hdemanded
      rcases covers_iff.mp hcover with hkm | hproduct
      · exact .inl ⟨m, mem_keys.mpr ⟨need, hm⟩, hkm.symm⟩
      · -- the key is a family promised before, so every provider lists it
        obtain ⟨a, ha⟩ := exists_mem_of_ne_nil _ hne
        have hfamily : isFamily n = true := by
          rw [isFamily_congr hfold]
          exact (isProductOf_iff.mp hproduct).1
        have hcharge := h.charged a (mem_boundingPools ha) n hn
        exact .inr ⟨a, ha, (OwnLists.congr hfold).mp
          ((chargedWhereBounded_iff.mp hcharge).1 hfamily)⟩
    · exact .inl ⟨n, hn, hfold⟩
  · exact .inr hown

variable (h' : Placeable constraints ns demand)
  (hfits : Accepts (keyingPools constraints ns) (freeIn constraints ns) promised)
  (hnext : Accepts (keyingPools (withholdPromised constraints wakes) ns)
    (freeIn (withholdPromised constraints wakes) ns) demand)

include h' hfits hnext

theorem accepts_addDemand :
    Accepts (keyingPools constraints ns) (freeIn constraints ns) (addDemand promised demand) where
  admitted n need hn hneed := by
    rcases mem_keys_addDemand.mp (mem_keys.mpr ⟨need, hn⟩) with hmem | hmem
    · obtain ⟨need', hn'⟩ := GoMap.mem_keys.mp hmem
      exact hfits.admitted n need' hn' (h.positive n need' hn')
    · obtain ⟨need', hn'⟩ := GoMap.mem_keys.mp hmem
      rw [← materialized_withheld hns hwakes h]
      exact hnext.admitted n need' hn' (h'.positive n need' hn')
  within k hk hkeyed hm := by
    rw [demandUnder_addDemand, Nat.cast_add]
    by_cases hdemanded : demandUnder demand k = 0
    · -- nothing new is demanded under the key, which the promises then had a key for
      rw [hdemanded, Nat.cast_zero, add_zero]
      refine hfits.within k hk ?_ hm
      rcases hkeyed with ⟨n, hn, hfold⟩ | hown
      · rcases mem_keys_addDemand.mp hn with hn | hn
        · exact .inl ⟨n, hn, hfold⟩
        · obtain ⟨need, hneed⟩ := GoMap.mem_keys.mp hn
          have hle := need_le_demandUnder hneed (covers_of_fold_eq hfold.symm)
          exact absurd (by omega : need = 0) (h'.positive n need hneed)
      · exact .inr hown
    · by_cases hne : keyingPools constraints ns = []
      · rw [freeIn_of_unbounded hne]
        exact le_top
      have hkeyed' := keyed_withheld hns hwakes h hne hkeyed hdemanded
      have hle : (demandUnder demand k : ℕ∞) ≤ freeIn constraints ns k - demandUnder promised k :=
        (hnext.within k hk hkeyed' (by rwa [materialized_withheld hns hwakes h])).trans
          (freeIn_withheld h.named hfits h.charged hns hwakes hk)
      rw [add_comm]
      exact (le_sub_iff.mp hle).resolve_left (by exact_mod_cast hdemanded)

end Step

/-- What holds of the wakes of a namespace after each of them. -/
structure Fitting (constraints : List ResourceConstraints) (ns : String) (wakes : TickWakes)
    (promised : Demand) : Prop where
  wakes : WakesOf ns wakes promised
  placeable : Placeable constraints ns promised
  fits : fitsGPUBudget constraints ns promised = true

theorem WakesOf.promised_eq (h : WakesOf ns wakes promised) :
    (wakes.find? ns).getD ∅ = promised := by
  rcases h with ⟨rfl, rfl⟩ | rfl
  · rfl
  · rw [find?_set, if_pos rfl, Option.getD_some]

theorem fitting_empty : Fitting constraints ns ∅ ∅ where
  wakes := .inl ⟨rfl, rfl⟩
  placeable := placeable_empty constraints ns
  fits := by
    rw [fitsGPUBudget_iff (placeable_empty constraints ns).named]
    refine ⟨fun n need hn => (by cases hn), fun k _ _ _ => ?_⟩
    exact zero_le

theorem WakesOf.debit (h : WakesOf ns wakes promised) :
    WakesOf ns (debitTick wakes ns demand) (addDemand promised demand) := by
  refine .inr ?_
  rw [debitTick, h.promised_eq]
  rcases h with ⟨rfl, rfl⟩ | rfl
  · rfl
  · exact set_set _ _ _ _

theorem Fitting.step (hns : ns ≠ "") (h : Fitting constraints ns wakes promised)
    (h' : Placeable constraints ns demand) :
    ∃ promised', Fitting constraints ns (decideWake constraints ns wakes demand) promised' := by
  unfold decideWake
  split_ifs with hnext
  · refine ⟨addDemand promised demand, h.wakes.debit, h.placeable.addDemand h', ?_⟩
    rw [fitsGPUBudget_iff (h.placeable.addDemand h').named]
    exact accepts_addDemand hns h.wakes h.placeable h'
      ((fitsGPUBudget_iff h.placeable.named).mp h.fits) ((fitsGPUBudget_iff h'.named).mp hnext)
  · exact ⟨promised, h⟩

theorem Fitting.run (hns : ns ≠ "") {demands : List Demand}
    (hdemands : ∀ demand ∈ demands, Placeable constraints ns demand)
    (h : Fitting constraints ns wakes promised) :
    ∃ promised', Fitting constraints ns
      (demands.foldl (decideWake constraints ns) wakes) promised' :=
  foldlRecOn (motive := fun wakes => ∃ promised', Fitting constraints ns wakes promised') _ _
    ⟨promised, h⟩ fun _ ⟨_, hwakes⟩ demand hmem => hwakes.step hns (hdemands demand hmem)

/-- Whether a demand is positive, of named accelerators, and charged by every provider where it is
bounded. -/
def placeable (constraints : List ResourceConstraints) (ns : String) (demand : Demand) : Bool :=
  demand.entries.all fun e => decide (e.2 ≠ 0) && isNamed e.1 &&
    (boundingPools constraints ns).all (chargedWhereBounded · e.1)

theorem placeable_iff : placeable constraints ns demand = true ↔
    Placeable constraints ns demand := by
  simp only [placeable, all_eq_true, Bool.and_eq_true, decide_eq_true_eq]
  constructor
  · intro h
    have hkey : ∀ n ∈ demand.keys, ∃ need, (⟨n, need⟩ : DemandEntry) ∈ demand.entries := by
      intro n hn
      obtain ⟨need, hneed⟩ := GoMap.mem_keys.mp hn
      exact ⟨need, mem_entries.mpr hneed⟩
    refine ⟨fun n hn => ?_, fun n need hn => ?_, fun a ha n hn => ?_⟩
    · obtain ⟨need, he⟩ := hkey n hn
      exact (h _ he).1.2
    · exact (h _ (mem_entries.mpr hn)).1.1
    · obtain ⟨need, he⟩ := hkey n hn
      exact (h _ he).2 a ha
  · rintro h ⟨n, need⟩ he
    have hn := mem_entries.mp he
    have hmem : n ∈ demand.keys := mem_keys.mpr ⟨need, hn⟩
    exact ⟨⟨h.positive n need hn, h.named n hmem⟩, fun a ha => h.charged a ha n hmem⟩

/-- The wakes of one tick fit together: what was accepted one after another is accepted at once. -/
theorem wakes_fit_together (hns : ns ≠ "") {demands : List Demand}
    (h : ∀ demand ∈ demands, placeable constraints ns demand = true) :
    fitsGPUBudget constraints ns
      (((demands.foldl (decideWake constraints ns) ∅).find? ns).getD ∅) = true := by
  obtain ⟨promised, hfitting⟩ := fitting_empty.run hns
    fun demand hdemand => placeable_iff.mp (h demand hdemand)
  rw [hfitting.wakes.promised_eq]
  exact hfitting.fits

/-- Two wakes on one product of a family key fill it. -/
theorem wakes_fit_together_two : let constraints : List ResourceConstraints :=
      [⟨GoMap.ofList [("H100", ⟨8, 0⟩)], none, false, 0, 8⟩]
    let demands : List Demand := [GoMap.ofList [("NVIDIA-H100-80GB-HBM3", 4)],
      GoMap.ofList [("NVIDIA-H100-SXM5-80GB", 4)]]
    (∀ demand ∈ demands, placeable constraints "team" demand = true) ∧
      demandUnder (((demands.foldl (decideWake constraints "team") ∅).find? "team").getD ∅)
        "H100" = 8 ∧
      fitsGPUBudget constraints "team"
        (((demands.foldl (decideWake constraints "team") ∅).find? "team").getD ∅) = true :=
  ⟨by decide, by decide, wakes_fit_together (by decide) (by decide)⟩

/-- Two wakes accepted one after the other that do not fit together: the first is charged to the
product key it matches, and the family key still shows all its GPUs to the second. -/
theorem wakes_spend_twice : let constraints : List ResourceConstraints :=
      [⟨GoMap.ofList [("H100", ⟨8, 0⟩), ("NVIDIA-H100-80GB-HBM3", ⟨4, 0⟩)], none, false, 0, 12⟩]
    let first : Demand := GoMap.ofList [("NVIDIA-H100-80GB-HBM3", 4)]
    let second : Demand := GoMap.ofList [("NVIDIA-H100-SXM5-80GB", 8)]
    let wakes := [first, second].foldl (decideWake constraints "team") ∅
    fitsGPUBudget constraints "team" first = true ∧
      fitsGPUBudget (withholdPromised constraints (debitTick ∅ "team" first)) "team" second =
        true ∧
      demandUnder ((wakes.find? "team").getD ∅) "H100" = 12 ∧
      fitsGPUBudget constraints "team" ((wakes.find? "team").getD ∅) = false := by
  decide

end LlmScaler.Budget
