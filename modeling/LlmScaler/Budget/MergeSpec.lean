import LlmScaler.Core.Lists
import LlmScaler.Budget.Merge

/-!
# What a merge holds

A merged budget has one key per spelling, a figure under each, and products clamped to their
families. A name every allowlist admits has a key of its own; a name some allowlist does not
admit finds a key that holds nothing, or none.
-/

namespace LlmScaler.Budget

open Core Accelerator GoMap

variable {name : String}

theorem isSome_allowlistBound {pools : Pools} :
    (allowlistBound poolBound pools name).isSome = true ↔ Lists pools name := by
  by_cases hlists : Lists pools name
  · by_cases hown : OwnLists pools name ∨ Lists pools name ∧ isFamily name = false
    · simp [allowlistBound_of_own poolBound hown, hlists]
    · push Not at hown
      simp [allowlistBound_of_products poolBound hown.1 hlists
        ((Bool.not_eq_false _).mp (hown.2 hlists)), hlists]
  · simp [allowlistBound_of_not_lists poolBound hlists, hlists]

variable {allowlists : List Pools}

theorem hasKey_iff : hasKey allowlists name = true ↔ ∃ a ∈ allowlists, OwnLists a name := by
  simp only [hasKey, List.any_eq_true, equalFold_iff, OwnLists]

theorem materialized_iff :
    materialized allowlists name = true ↔
      (∃ a ∈ allowlists, OwnLists a name) ∨ ∀ a ∈ allowlists, Lists a name := by
  simp only [materialized, Bool.or_eq_true, hasKey_iff, List.all_eq_true, isSome_allowlistBound]

theorem exists_not_lists (h : ¬ materialized allowlists name = true) :
    ∃ a ∈ allowlists, ¬ Lists a name := by
  rw [materialized_iff] at h
  push Not at h
  exact h.2

variable {m n : String}

theorem OwnLists.congr {a : Pools} (h : fold n = fold m) : OwnLists a n ↔ OwnLists a m := by
  rw [OwnLists, OwnLists, h]

theorem mem_of_mem_distinctSpellings {names : List String} (h : n ∈ distinctSpellings names) :
    n ∈ names :=
  (List.mem_insertionSort (· ≤ ·)).mp (mem_of_mem_dropSpellings h)

theorem exists_mem_distinctSpellings {names : List String} (h : n ∈ names) :
    ∃ m ∈ distinctSpellings names, fold m = fold n :=
  exists_mem_dropSpellings ((List.mem_insertionSort (· ≤ ·)).mpr h)

theorem distinctSpellings_nodup (names : List String) :
    ((distinctSpellings names).map fold).Nodup :=
  dropSpellings_nodup _

@[simp] theorem keys_clampProducts (b : Figures) : (clampProducts b).keys = b.keys :=
  keys_mapValues _ _

variable {b : Figures} {k : String}

theorem figureAt_of_find {v : ℕ∞} (h : b.find? k = some v) : figureAt b k = v := by
  rw [figureAt, h, Option.getD_some]

theorem find_of_mem (h : k ∈ b.keys) : b.find? k = some (figureAt b k) := by
  obtain ⟨v, hv⟩ := mem_keys.mp h
  rw [hv, figureAt_of_find hv]

theorem figureAt_mapValues (h : k ∈ b.keys) (f : String → ℕ∞ → ℕ∞) :
    figureAt (b.mapValues f) k = f k (figureAt b k) := by
  rw [figureAt, find?_mapValues, find_of_mem h, Option.map_some, Option.getD_some]

theorem le_figureAt_clampProducts (h : k ∈ b.keys) {x : ℕ∞} :
    x ≤ figureAt (clampProducts b) k ↔
      x ≤ figureAt b k ∧ ∀ f ∈ b.keys, isProductOf k f = true → x ≤ figureAt b f := by
  have hbound : ∀ f, boundAt id b f = figureAt b f := by
    intro f
    rw [boundAt, figureAt, Option.map_id, id]
  rw [clampProducts, figureAt_mapValues h]
  split_ifs with hfamily
  · have hnone : ∀ f, isProductOf k f = false := by
      intro f
      rw [isProductOf, hfamily, Bool.not_true, Bool.and_false, Bool.false_and]
    simp [hnone]
  · rw [le_inf_iff, le_tightest_boundsWhere]
    simp only [hbound]

section MergeNames

variable {names : List String} {figure : String → Option ℕ∞}

private theorem nodup_pairs : ((((distinctSpellings names).filterMap fun name =>
    (figure name).map (name, ·))).map Prod.fst).Nodup := by
  have hsub := map_filterMap_sublist (g := fun name => (figure name).map (name, ·))
    (f := Prod.fst) (k := id) (fun name e he => ?_) (distinctSpellings names)
  · rw [List.map_id] at hsub
    exact hsub.nodup (List.Nodup.of_map _ (distinctSpellings_nodup names))
  · obtain ⟨v, _, rfl⟩ := Option.map_eq_some_iff.mp he
    rfl

private theorem find_pairs {v : ℕ∞} :
    (GoMap.ofList ((distinctSpellings names).filterMap fun name =>
      (figure name).map (name, ·))).find? k = some v ↔
      k ∈ distinctSpellings names ∧ figure k = some v := by
  rw [find?_ofList nodup_pairs]
  simp [List.mem_filterMap]

theorem mem_keys_mergeNames : k ∈ (mergeNames names figure).keys ↔
    k ∈ distinctSpellings names ∧ (figure k).isSome = true := by
  rw [mergeNames, keys_clampProducts, mem_keys]
  simp only [find_pairs, Option.isSome_iff_exists, exists_and_left]

theorem distinctKeys_mergeNames : DistinctKeys (mergeNames names figure) := by
  intro k hk k' hk' hfold
  exact List.inj_on_of_nodup_map (distinctSpellings_nodup names) (mem_keys_mergeNames.mp hk).1
    (mem_keys_mergeNames.mp hk').1 hfold

theorem le_figureAt_mergeNames (hk : k ∈ (mergeNames names figure).keys) {x : ℕ∞} :
    x ≤ figureAt (mergeNames names figure) k ↔ x ≤ (figure k).getD 0 ∧
      ∀ f ∈ (mergeNames names figure).keys, isProductOf k f = true → x ≤ (figure f).getD 0 := by
  have hfigure : ∀ f ∈ (mergeNames names figure).keys,
      figureAt (GoMap.ofList ((distinctSpellings names).filterMap fun name =>
        (figure name).map (name, ·))) f = (figure f).getD 0 := by
    intro f hf
    obtain ⟨hmem, hsome⟩ := mem_keys_mergeNames.mp hf
    obtain ⟨v, hv⟩ := Option.isSome_iff_exists.mp hsome
    rw [figureAt_of_find (find_pairs.mpr ⟨hmem, hv⟩), hv, Option.getD_some]
  have hkeys : (mergeNames names figure).keys =
      (GoMap.ofList ((distinctSpellings names).filterMap fun name =>
        (figure name).map (name, ·))).keys := keys_clampProducts _
  rw [mergeNames, le_figureAt_clampProducts (hkeys ▸ hk), hfigure k hk]
  refine and_congr_right fun _ => forall_congr' fun f => ?_
  rw [keys_clampProducts, ← hkeys]
  exact forall_congr' fun hf => by rw [hfigure f hf]

end MergeNames

theorem Lists.congr {a : Pools} (h : fold n = fold m) : Lists a n ↔ Lists a m := by
  rw [Accelerator.Lists, Accelerator.Lists]
  simp only [covers_congr rfl h, covers_congr h rfl]

theorem materialized_congr (own : List Pools) (h : fold n = fold m) :
    materialized own n = materialized own m := by
  rw [Bool.eq_iff_iff, materialized_iff, materialized_iff]
  simp only [OwnLists.congr h, Lists.congr h]

/-- The keys of a merge over the allowlists `own`: the names declared and the keys they list. -/
def mergedNames (own : List Pools) (declared : List String) : List String :=
  resolvedNames declared ++ own.flatMap AList.keys

/-- The figures of a merge over the allowlists `own`: each name it materializes has one, and a
name an allowlist does not admit has nothing. -/
structure MergeFigure (own : List Pools) (figure : String → Option ℕ∞) : Prop where
  materialized : ∀ k, (figure k).isSome = true → materialized own k = true
  isSome : ∀ k, isNamed k = true → Budget.materialized own k = true → (figure k).isSome = true
  eq_zero : ∀ k, isNamed k = true → ∀ a ∈ own, ¬ Lists a k → (figure k).getD 0 = 0

variable {own : List Pools} {figure : String → Option ℕ∞}

theorem MergeFigure.exists_key (h : MergeFigure own figure) (declared : List String)
    (hn : isNamed n = true) (hm : Budget.materialized own n = true)
    (hkey : (∃ d ∈ declared, fold d = fold n) ∨ ∃ a ∈ own, OwnLists a n) :
    ∃ k ∈ (mergeNames (mergedNames own declared) figure).keys, fold k = fold n := by
  have hmem : ∃ m ∈ mergedNames own declared, fold m = fold n := by
    rcases hkey with ⟨d, hd, hfold⟩ | ⟨a, ha, q, hq, hfold⟩
    · refine ⟨d, List.mem_append_left _ (List.mem_filter.mpr ⟨hd, ?_⟩), hfold⟩
      exact isAcceleratorResolved_of_isNamed (isNamed_congr hfold ▸ hn)
    · exact ⟨q, List.mem_append_right _ (List.mem_flatMap.mpr ⟨a, ha, hq⟩), hfold⟩
  obtain ⟨m, hm', hfold⟩ := hmem
  obtain ⟨k, hk, hkfold⟩ := exists_mem_distinctSpellings hm'
  have hkn : fold k = fold n := hkfold.trans hfold
  refine ⟨k, mem_keys_mergeNames.mpr ⟨hk, h.isSome k ?_ ?_⟩, hkn⟩
  · rwa [isNamed_congr hkn]
  · rwa [materialized_congr own hkn]

theorem MergeFigure.found (h : MergeFigure own figure) {declared : List String} {key : String}
    (hn : isNamed n = true) (hd : n ∈ declared)
    (hfind : findBudgetKey (mergeNames (mergedNames own declared) figure) n = some key) :
    fold key = fold n ∨ figureAt (mergeNames (mergedNames own declared) figure) key = 0 := by
  by_cases hm : Budget.materialized own n = true
  · obtain ⟨k, hk, hfold⟩ := h.exists_key declared hn hm (.inl ⟨n, hd, rfl⟩)
    obtain ⟨k', hk', hfold'⟩ := findBudgetKey_of_fold hk hfold
    rw [hk'] at hfind
    cases hfind
    exact .inl hfold'
  · -- some allowlist does not admit the name, so it admits no key the name could fall back to
    obtain ⟨a, ha, hlists⟩ := exists_not_lists hm
    have hkey := findBudgetKey_mem hfind
    have hle : figureAt (mergeNames (mergedNames own declared) figure) key ≤ (figure key).getD 0 :=
      ((le_figureAt_mergeNames hkey).mp le_rfl).1
    rcases findBudgetKey_cases hfind with hfold | ⟨hproduct, _⟩ | ⟨hproduct, hsibling⟩
    · exact .inl hfold
    · refine .inr (nonpos_iff_eq_zero.mp (hle.trans_eq ?_))
      refine h.eq_zero key (isNamed_of_isProductOf hn hproduct) a ha fun hkeyLists => hlists ?_
      exact hkeyLists.of_covers (covers_iff.mpr (.inr hproduct))
    · refine .inr (nonpos_iff_eq_zero.mp (hle.trans_eq ?_))
      have hcover : covers key n = true := covers_iff.mpr (.inr hproduct)
      have hnamed : isNamed key = true := isNamed_of_covers hn hcover
      refine h.eq_zero key hnamed a ha ?_
      rintro ⟨q, hq, hkin⟩
      rcases hkin with hkin | hkin
      · exact hlists ⟨q, hq, .inl (covers_trans hkin hcover)⟩
      · rcases covers_iff.mp hkin with hfold | hqkey
        · exact hlists ⟨q, hq, .inl (by rwa [← covers_congr hfold rfl])⟩
        · -- a product of the found family would have been seen as a sibling
          have hown : OwnLists a q := ⟨q, hq, rfl⟩
          obtain ⟨k, hk, hfold⟩ := h.exists_key declared
            (isNamed_of_isProductOf hnamed hqkey)
            (materialized_iff.mpr (.inl ⟨a, ha, hown⟩)) (.inr ⟨a, ha, hown⟩)
          have hno := hsibling k hk
          rw [isProductOf_congr hfold rfl, hqkey] at hno
          cases hno

end LlmScaler.Budget
