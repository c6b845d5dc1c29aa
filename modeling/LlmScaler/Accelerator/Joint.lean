import LlmScaler.Accelerator.Allowlist

/-!
# Several allowlists together

A name may take what every allowlist leaves it, and a family some allowlist lists only through
products no more than its products may take together. A product never may take more than its family,
so a merge of allowlists is clamped by construction.
-/

namespace LlmScaler.Accelerator

open Core List

variable {ν : Type*} (bound : ν → ℕ∞)

/-- The GPUs several cluster-wide allowlists leave to `name` together. -/
def clusterFigure (allowlists : List (GoMap String ν)) (name : String) : ℕ∞ :=
  (clusterAllowlistsBound bound allowlists name).getD ⊤

theorem tightestOf_getD (allowlists : List (GoMap String ν)) (name : String) :
    (tightestOf bound allowlists name).getD ⊤ =
      tightest (allowlists.map (clusterFreeOf bound · name)) := by
  have hfilter : tightest (allowlists.filterMap (clusterAllowlistBound bound · name)) =
      tightest (allowlists.map (clusterFreeOf bound · name)) := by
    induction allowlists with
    | nil => rfl
    | cons a l ih =>
      rw [map_cons, tightest_cons, ← ih, clusterFreeOf]
      cases hbound : clusterAllowlistBound bound a name with
      | none => simp [hbound]
      | some free => simp [hbound]
  rw [← hfilter]
  unfold tightestOf
  split
  · next hnil => rw [hnil, Option.getD_none, tightest_nil]
  · next hcons => rw [hcons, Option.getD_some]

variable {allowlists : List (GoMap String ν)} {name : String}

theorem tightestOf_ne_none (hne : allowlists ≠ []) (hname : name ≠ defaultAcceleratorName) :
    tightestOf bound allowlists name ≠ none := by
  obtain ⟨a, l, rfl⟩ := exists_cons_of_ne_nil hne
  have hbound : ∃ free, clusterAllowlistBound bound a name = some free := by
    unfold clusterAllowlistBound
    cases allowlistBound bound a name with
    | some free => exact ⟨free, rfl⟩
    | none => exact ⟨0, if_neg hname⟩
  obtain ⟨free, hfree⟩ := hbound
  simp [tightestOf, hfree]

variable {p : String}

theorem mem_productsOf (h : p ∈ productsOf allowlists name) : isProductOf p name = true := by
  obtain ⟨a, _, hp⟩ := mem_flatMap.mp (mem_of_mem_dropSpellings h)
  exact (mem_productKeys.mp hp).2

theorem exists_mem_productsOf {a : GoMap String ν} {q : String} (ha : a ∈ allowlists)
    (hq : q ∈ productKeys a name) : ∃ p ∈ productsOf allowlists name, fold p = fold q :=
  exists_mem_dropSpellings (mem_flatMap.mpr ⟨a, ha, hq⟩)

theorem ne_default_of_isProductOf {f : String} (h : isProductOf p f = true) :
    p ≠ defaultAcceleratorName := by
  rintro rfl
  have hfamily := (isProductOf_iff.mp h).2.1
  revert hfamily
  decide

theorem closesFamily_iff :
    closesFamily allowlists name = true ↔ isFamily name = true ∧
      isAcceleratorResolved name = true ∧ ∃ a ∈ allowlists, ¬ OwnLists a name := by
  simp only [closesFamily, Bool.and_eq_true, any_eq_true, Bool.not_eq_true',
    ← Bool.not_eq_true, equalFold_iff, OwnLists, and_assoc]

variable (allowlists) {k k' : String}

theorem closesFamily_congr (hk : isNamed k = true) (h : fold k = fold k') :
    closesFamily allowlists k = closesFamily allowlists k' := by
  have hk' : isNamed k' = true := by rwa [← isNamed_congr h]
  rw [Bool.eq_iff_iff, closesFamily_iff, closesFamily_iff, isFamily_congr h,
    isAcceleratorResolved_of_isNamed hk, isAcceleratorResolved_of_isNamed hk']
  simp only [OwnLists, h]

/-- What the products of a family may take together. -/
def productsFigure (allowlists : List (GoMap String ν)) (name : String) : ℕ∞ :=
  ((productsOf allowlists name).map fun p =>
    tightest (allowlists.map (clusterFreeOf bound · p))).sum

theorem clusterFigure_eq (name : String) :
    clusterFigure bound allowlists name =
      tightest (allowlists.map (clusterFreeOf bound · name)) ⊓
        if closesFamily allowlists name then productsFigure bound allowlists name else ⊤ := by
  rw [← tightestOf_getD, clusterFigure, clusterAllowlistsBound]
  by_cases hcloses : closesFamily allowlists name = true
  · obtain ⟨_, hresolved, a, ha, _⟩ := closesFamily_iff.mp hcloses
    have hne : allowlists ≠ [] := ne_nil_of_mem ha
    have hname := ne_default_of_isAcceleratorResolved hresolved
    obtain ⟨free, hfree⟩ := Option.ne_none_iff_exists'.mp (tightestOf_ne_none bound hne hname)
    have hproducts : ((productsOf allowlists name).map fun p =>
        (tightestOf bound allowlists p).getD 0).sum = productsFigure bound allowlists name := by
      refine congrArg List.sum (map_congr_left fun p hp => ?_)
      obtain ⟨v, hv⟩ := Option.ne_none_iff_exists'.mp
        (tightestOf_ne_none bound hne (ne_default_of_isProductOf (mem_productsOf hp)))
      rw [← tightestOf_getD, hv, Option.getD_some, Option.getD_some]
    rw [hfree, Option.getD_some, if_pos hcloses]
    simp only [hcloses, if_true, Option.getD_some, hproducts]
  · rw [if_neg hcloses, inf_top_eq]
    cases tightestOf bound allowlists name with
    | none => rfl
    | some free => simp only [hcloses, if_false, Bool.false_eq_true, Option.getD_some]

/-- A product may take no more than its family, under several allowlists together as well. -/
theorem clusterFigure_mono {f : String} (h : isProductOf p f = true) :
    clusterFigure bound allowlists p ≤ clusterFigure bound allowlists f := by
  have hp : p ≠ defaultAcceleratorName := ne_default_of_isProductOf h
  have hproduct : closesFamily allowlists p = false := by
    simp [closesFamily, (isProductOf_iff.mp h).2.1]
  rw [clusterFigure_eq, clusterFigure_eq bound allowlists f, hproduct]
  apply inf_le_of_left_le
  apply le_inf
  · rw [le_tightest, forall_mem_map]
    intro a ha
    calc tightest (allowlists.map (clusterFreeOf bound · p))
        ≤ clusterFreeOf bound a p := tightest_le (mem_map_of_mem ha)
      _ = freeOf bound a p := clusterFreeOf_eq bound (.inr hp)
      _ ≤ freeOf bound a f := freeOf_mono bound h
      _ ≤ clusterFreeOf bound a f := freeOf_le_clusterFreeOf bound a f
  · split_ifs with hcloses
    · obtain ⟨_, _, a, ha, hown⟩ := closesFamily_iff.mp hcloses
      by_cases hlists : Lists a p
      · obtain ⟨q, hq, hfold⟩ := hlists.own_of_not_own h hown
        have hmem : q ∈ productKeys a f :=
          mem_productKeys.mpr ⟨hq, by rwa [isProductOf_congr hfold rfl]⟩
        obtain ⟨p', hp', hfold'⟩ := exists_mem_productsOf ha hmem
        have hsame : tightest (allowlists.map (clusterFreeOf bound · p)) =
            tightest (allowlists.map (clusterFreeOf bound · p')) := by
          refine congrArg tightest (map_congr_left fun b _ => ?_)
          rw [clusterFreeOf_eq bound (.inr hp), clusterFreeOf_eq bound
            (.inr (ne_default_of_isProductOf (mem_productsOf hp'))), freeOf, freeOf,
            allowlistBound_congr bound b (hfold'.trans hfold)]
        rw [hsame]
        exact single_le_sum (fun _ _ => zero_le) _ (mem_map_of_mem hp')
      · have hzero : clusterFreeOf bound a p = 0 := by
          rw [clusterFreeOf_eq bound (.inr hp), freeOf_of_not_lists bound hlists]
        exact (tightest_le (mem_map_of_mem ha)).trans (hzero.trans_le zero_le)
    · exact le_top

theorem clusterFigure_congr (hk : isNamed k = true) (h : fold k = fold k') :
    clusterFigure bound allowlists k = clusterFigure bound allowlists k' := by
  have hk' : isNamed k' = true := by rwa [← isNamed_congr h]
  have hfree : ∀ a : GoMap String ν, clusterFreeOf bound a k = clusterFreeOf bound a k' := by
    intro a
    rw [clusterFreeOf_eq bound (.inr (ne_default_of_isNamed hk)),
      clusterFreeOf_eq bound (.inr (ne_default_of_isNamed hk')), freeOf, freeOf,
      allowlistBound_congr bound a h]
  have hcloses : closesFamily allowlists k = closesFamily allowlists k' :=
    closesFamily_congr allowlists hk h
  have hproducts : productsOf allowlists k = productsOf allowlists k' := by
    have htest : (isProductOf · k) = (isProductOf · k') := funext fun p => isProductOf_congr rfl h
    rw [productsOf, productsOf, htest]
  simp only [clusterFigure_eq, hfree, hcloses, productsFigure, hproducts]

variable {allowlists}

theorem clusterFigure_le {a : GoMap String ν} (ha : a ∈ allowlists) (hk : isNamed k = true) :
    clusterFigure bound allowlists k ≤ freeOf bound a k := by
  rw [clusterFigure_eq, ← clusterFreeOf_eq bound (.inr (ne_default_of_isNamed hk))]
  exact inf_le_of_left_le (tightest_le (mem_map_of_mem ha))

theorem clusterAllowlistsBound_eq (hne : allowlists ≠ []) (hk : k ≠ defaultAcceleratorName) :
    clusterAllowlistsBound bound allowlists k = some (clusterFigure bound allowlists k) := by
  have hsome : ∃ v, clusterAllowlistsBound bound allowlists k = some v := by
    obtain ⟨free, hfree⟩ := Option.ne_none_iff_exists'.mp (tightestOf_ne_none bound hne hk)
    rw [clusterAllowlistsBound, hfree]
    by_cases hcloses : closesFamily allowlists k = true
    · simp only [hcloses, if_true]
      exact ⟨_, rfl⟩
    · simp only [hcloses, if_false, Bool.false_eq_true]
      exact ⟨_, rfl⟩
  obtain ⟨v, hv⟩ := hsome
  rw [clusterFigure, hv, Option.getD_some]

/-- One allowlist is another with `spent k` taken from what it leaves under each key `k`. -/
structure SpentFrom (spent : String → ℕ) (before after : GoMap String ν) : Prop where
  keys : after.keys = before.keys
  /-- Each key is drawn down by at least what was spent under it. -/
  drawn : ∀ q ∈ before.keys, boundAt bound after q ≤ boundAt bound before q - spent q

variable {bound} {spent : String → ℕ} {before after : GoMap String ν}

theorem SpentFrom.ownLists (h : SpentFrom bound spent before after) (name : String) :
    OwnLists after name ↔ OwnLists before name := by
  rw [OwnLists, OwnLists, h.keys]

theorem SpentFrom.lists (h : SpentFrom bound spent before after) (name : String) :
    Lists after name ↔ Lists before name := by
  rw [Lists, Lists, h.keys]

/-- What a group of products was drawn on covers what was spent under their family, and none of
them is overdrawn. -/
structure GroupSpent (spent : String → ℕ) (products : List String) (figure : String → ℕ∞)
    (name : String) : Prop where
  within : ∀ p ∈ products, (spent p : ℕ∞) ≤ figure p
  /-- All that was spent under the family was spent under one of its products. -/
  total : spent name ≤ (products.map spent).sum

/-- What was spent under a family whose products an allowlist lists. -/
abbrev ProductsSpent (bound : ν → ℕ∞) (spent : String → ℕ) (before : GoMap String ν)
    (name : String) : Prop :=
  isFamily name = true → ¬ OwnLists before name → Lists before name →
    GroupSpent spent (productKeys before name) (boundAt bound before) name

section Spent

variable (hspent : ∀ k n, covers k n = true → spent n ≤ spent k)
include hspent

theorem SpentFrom.freeOf_le (h : SpentFrom bound spent before after)
    (hproducts : ProductsSpent bound spent before name) :
    freeOf bound after name ≤ freeOf bound before name - spent name := by
  by_cases hlists : Lists before name
  · by_cases hown : OwnLists before name ∨ Lists before name ∧ isFamily name = false
    · have hown' : OwnLists after name ∨ Lists after name ∧ isFamily name = false := by
        rwa [h.ownLists, h.lists]
      have hkeys : coverKeys after name = coverKeys before name := by
        rw [coverKeys, coverKeys, h.keys]
      rw [freeOf_of_own bound hown, freeOf_of_own bound hown', hkeys]
      apply tightest_sub_le
      intro q hq
      obtain ⟨hmem, hcover⟩ := mem_coverKeys.mp hq
      calc boundAt bound after q ≤ boundAt bound before q - spent q := h.drawn q hmem
        _ ≤ boundAt bound before q - spent name := by
          apply tsub_le_tsub_left
          exact_mod_cast hspent q name hcover
    · push Not at hown
      have hfamily : isFamily name = true := (Bool.not_eq_false _).mp (hown.2 hlists)
      have hgroup := hproducts hfamily hown.1 hlists
      have hkeys : productKeys after name = productKeys before name := by
        rw [productKeys, productKeys, h.keys]
      rw [freeOf_of_products bound hown.1 hlists hfamily, freeOf_of_products bound
        (fun ho => hown.1 ((h.ownLists name).mp ho)) ((h.lists name).mpr hlists) hfamily, hkeys]
      refine (sum_sub_le hgroup.within fun q hq => h.drawn q (mem_productKeys.mp hq).1).trans ?_
      apply tsub_le_tsub_left
      exact_mod_cast hgroup.total
  · rw [freeOf_of_not_lists bound fun hl => hlists ((h.lists name).mp hl)]
    exact zero_le

theorem SpentFrom.clusterFreeOf_le (h : SpentFrom bound spent before after)
    (hproducts : ProductsSpent bound spent before name) :
    clusterFreeOf bound after name ≤ clusterFreeOf bound before name - spent name := by
  by_cases hname : Lists before name ∨ name ≠ defaultAcceleratorName
  · have hname' : Lists after name ∨ name ≠ defaultAcceleratorName := by
      rwa [h.lists]
    rw [clusterFreeOf_eq bound hname, clusterFreeOf_eq bound hname']
    exact h.freeOf_le hspent hproducts
  · push Not at hname
    have htop : clusterFreeOf bound before name = ⊤ := by
      rw [clusterFreeOf, clusterAllowlistBound, allowlistBound_of_not_lists bound hname.1]
      simp only [hname.2, if_true, Option.getD_none]
    rw [htop]
    exact le_top

end Spent

section Joint

variable {ι : Type*} {l : List ι} {f g : ι → GoMap String ν}
  (h : ∀ i ∈ l, SpentFrom bound spent (f i) (g i))
include h

theorem closesFamily_map (name : String) :
    closesFamily (l.map g) name = closesFamily (l.map f) name := by
  have hown : (∃ a ∈ l.map g, ¬ OwnLists a name) ↔ ∃ a ∈ l.map f, ¬ OwnLists a name := by
    simp only [mem_map, exists_exists_and_eq_and]
    exact exists_congr fun i => and_congr_right fun hi => not_congr ((h i hi).ownLists name)
  rw [Bool.eq_iff_iff, closesFamily_iff, closesFamily_iff, hown]

theorem productsOf_map (name : String) :
    productsOf (l.map g) name = productsOf (l.map f) name := by
  have hkeys : (l.map g).flatMap (fun a => a.keys.filter (isProductOf · name)) =
      (l.map f).flatMap fun a => a.keys.filter (isProductOf · name) := by
    rw [flatMap_map, flatMap_map]
    exact flatMap_congr fun i hi => by rw [(h i hi).keys]
  rw [productsOf, productsOf, hkeys]

/-- What several allowlists leave a name together falls by what was spent under the name. -/
theorem clusterFigure_spent (hspent : ∀ k n, covers k n = true → spent n ≤ spent k) (name : String)
    (hproducts : ∀ i ∈ l, ProductsSpent bound spent (f i) name)
    (hcloses : closesFamily (l.map f) name = true →
      GroupSpent spent (productsOf (l.map f) name)
        (fun p => tightest ((l.map f).map (clusterFreeOf bound · p))) name) :
    clusterFigure bound (l.map g) name ≤ clusterFigure bound (l.map f) name - spent name := by
  have htightest : ∀ p, (∀ i ∈ l, ProductsSpent bound spent (f i) p) →
      tightest ((l.map g).map (clusterFreeOf bound · p)) ≤
        tightest ((l.map f).map (clusterFreeOf bound · p)) - spent p := by
    intro p hp
    rw [map_map, map_map]
    apply tightest_sub_le
    intro i hi
    exact (h i hi).clusterFreeOf_le hspent (hp i hi)
  rw [clusterFigure_eq, clusterFigure_eq, closesFamily_map h]
  split_ifs with hclosed
  · have hgroup := hcloses hclosed
    have hsum : productsFigure bound (l.map g) name ≤
        productsFigure bound (l.map f) name - spent name := by
      rw [productsFigure, productsFigure, productsOf_map h]
      refine (sum_sub_le hgroup.within fun p hp => htightest p fun i _ hfamily => ?_).trans ?_
      · rw [(isProductOf_iff.mp (mem_productsOf hp)).2.1] at hfamily
        cases hfamily
      · apply tsub_le_tsub_left
        exact_mod_cast hgroup.total
    exact inf_sub_le (htightest name hproducts) hsum
  · rw [inf_top_eq, inf_top_eq]
    exact htightest name hproducts

end Joint

end LlmScaler.Accelerator
