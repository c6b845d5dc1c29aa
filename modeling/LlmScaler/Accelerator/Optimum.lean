import LlmScaler.Accelerator.Joint

/-!
# The figure of a name as an optimum

GPUs used under a name are lots of its products, or of the product itself. They fit an allowlist
when every key bounds what it covers and a product no key admits gets none. What several allowlists
leave a name together is the largest number of GPUs whose lots fit every one of them, reached on
listed products where a family is closed and on a product no allowlist names where it is not.
-/

namespace LlmScaler.Accelerator

open Core List

variable {ν : Type*} (bound : ν → ℕ∞)

/-- A number of GPUs of one product. -/
structure Lot where
  product : String
  gpus : ℕ

def totalOf (lots : List Lot) : ℕ := (lots.map Lot.gpus).sum

def coveredBy (key : String) (lots : List Lot) : ℕ :=
  totalOf (lots.filter fun lot => covers key lot.product)

/-- Whether a product's GPUs are used under `name`: one of a family's products, or the product that
`name` itself is. -/
def UsedUnder (name product : String) : Prop :=
  isProductOf product name = true ∨ isFamily name = false ∧ fold product = fold name

structure Fits (allowlist : GoMap String ν) (lots : List Lot) : Prop where
  bounded : ∀ q ∈ allowlist.keys, (coveredBy q lots : ℕ∞) ≤ boundAt bound allowlist q
  admits : ∀ lot ∈ lots, (∀ q ∈ allowlist.keys, covers q lot.product = false) → lot.gpus = 0

/-- The numbers of GPUs that can be used under `name` within all allowlists at once. -/
def usable (allowlists : List (GoMap String ν)) (name : String) : Set ℕ :=
  {n | ∃ lots : List Lot, (∀ lot ∈ lots, UsedUnder name lot.product) ∧
    (∀ a ∈ allowlists, Fits bound a lots) ∧ totalOf lots = n}

variable {name : String}

theorem UsedUnder.covers {product : String} (h : UsedUnder name product) :
    covers name product = true := by
  rcases h with hproduct | ⟨_, hfold⟩
  · exact covers_iff.mpr (.inr hproduct)
  · exact covers_of_fold_eq hfold.symm

variable {lots : List Lot}

theorem coveredBy_eq_totalOf {key : String} (h : ∀ lot ∈ lots, covers key lot.product = true) :
    coveredBy key lots = totalOf lots := by
  rw [coveredBy, filter_eq_self.mpr h]

theorem totalOf_filter_le (test : Lot → Bool) (lots : List Lot) :
    totalOf (lots.filter test) ≤ totalOf lots :=
  (filter_sublist.map Lot.gpus).sum_le_sum fun _ _ => Nat.zero_le _

section Fit

variable {bound} {a : GoMap String ν} {lots : List Lot}

theorem Fits.filter (h : Fits bound a lots) (test : Lot → Bool) :
    Fits bound a (lots.filter test) where
  bounded q hq := by
    refine le_trans ?_ (h.bounded q hq)
    rw [coveredBy, filter_comm]
    exact_mod_cast totalOf_filter_le test _
  admits lot hlot := h.admits lot (mem_of_mem_filter hlot)

theorem Fits.exists_covers (h : Fits bound a lots) {lot : Lot} (hlot : lot ∈ lots)
    (hgpus : lot.gpus ≠ 0) : ∃ q ∈ a.keys, covers q lot.product = true := by
  by_contra hnone
  push Not at hnone
  exact hgpus (h.admits lot hlot fun q hq => (Bool.not_eq_true _).mp (hnone q hq))

/-- A lot that counts is of a product the allowlist names, where it does not name the family. -/
theorem Fits.exists_productKey (h : Fits bound a lots) {lot : Lot} (hlot : lot ∈ lots)
    (hgpus : lot.gpus ≠ 0) (hname : UsedUnder name lot.product) (hfamily : isFamily name = true)
    (hown : ¬ OwnLists a name) : ∃ q ∈ productKeys a name, fold lot.product = fold q := by
  have hproduct : isProductOf lot.product name = true := by
    refine hname.resolve_right fun hself => ?_
    rw [hself.1] at hfamily
    cases hfamily
  obtain ⟨q, hq, hcover⟩ := h.exists_covers hlot hgpus
  have hlists : Lists a lot.product := ⟨q, hq, .inl hcover⟩
  obtain ⟨q', hq', hfold⟩ := hlists.own_of_not_own hproduct hown
  exact ⟨q', mem_productKeys.mpr ⟨hq', by rwa [isProductOf_congr hfold rfl]⟩, hfold.symm⟩

/-- Keys that take in every lot that counts bound the whole by the sum of their bounds. -/
theorem Fits.totalOf_le_sum (h : Fits bound a lots) {keys : List String}
    (hkeys : ∀ q ∈ keys, q ∈ a.keys)
    (hcover : ∀ lot ∈ lots, lot.gpus ≠ 0 → ∃ q ∈ keys, covers q lot.product = true) :
    (totalOf lots : ℕ∞) ≤ (keys.map (boundAt bound a)).sum := by
  exact sum_le_sum_limits hcover fun q hq => h.bounded q (hkeys q hq)

/-- Lots that fit an allowlist take no more than it leaves the name they are used under. -/
theorem Fits.totalOf_le (h : Fits bound a lots) (hname : ∀ lot ∈ lots, UsedUnder name lot.product) :
    (totalOf lots : ℕ∞) ≤ freeOf bound a name := by
  by_cases hlists : Lists a name
  · by_cases hown : OwnLists a name ∨ Lists a name ∧ isFamily name = false
    · rw [freeOf_of_own bound hown, le_tightest_coverKeys]
      intro q hq hcover
      rw [← coveredBy_eq_totalOf fun lot hlot => covers_trans hcover (hname lot hlot).covers]
      exact h.bounded q hq
    · push Not at hown
      have hfamily : isFamily name = true := (Bool.not_eq_false _).mp (hown.2 hlists)
      rw [freeOf_of_products bound hown.1 hlists hfamily]
      apply h.totalOf_le_sum
      · exact fun q hq => (mem_productKeys.mp hq).1
      · intro lot hlot hgpus
        obtain ⟨q, hq, hfold⟩ := h.exists_productKey hlot hgpus (hname lot hlot) hfamily hown.1
        exact ⟨q, hq, covers_of_fold_eq hfold.symm⟩
  · have hzero : totalOf lots = 0 := by
      rw [totalOf, sum_eq_zero_iff, forall_mem_map]
      intro lot hlot
      apply h.admits lot hlot
      intro q hq
      rw [← Bool.not_eq_true]
      intro hcover
      have hlot' : Lists a lot.product := ⟨q, hq, .inl hcover⟩
      exact hlists (hlot'.of_covers (hname lot hlot).covers)
    rw [hzero, Nat.cast_zero]
    exact zero_le

end Fit

variable {bound}

variable {allowlists : List (GoMap String ν)}

section Together

variable (hname : ∀ lot ∈ lots, UsedUnder name lot.product)
  (hfits : ∀ a ∈ allowlists, Fits bound a lots)
include hname hfits

private theorem totalOf_le_tightest :
    (totalOf lots : ℕ∞) ≤ tightest (allowlists.map (clusterFreeOf bound · name)) := by
  rw [le_tightest, forall_mem_map]
  intro a ha
  exact ((hfits a ha).totalOf_le hname).trans (freeOf_le_clusterFreeOf bound a name)

private theorem totalOf_le_productsFigure (hcloses : closesFamily allowlists name = true) :
    (totalOf lots : ℕ∞) ≤ productsFigure bound allowlists name := by
  obtain ⟨hfamily, _, a, ha, hown⟩ := closesFamily_iff.mp hcloses
  have hlisted : ∀ lot ∈ lots, lot.gpus ≠ 0 →
      ∃ p ∈ productsOf allowlists name, decide (fold lot.product = fold p) = true := by
    intro lot hlot hgpus
    obtain ⟨q, hq, hfold⟩ :=
      (hfits a ha).exists_productKey hlot hgpus (hname lot hlot) hfamily hown
    obtain ⟨p, hp, hfold'⟩ := exists_mem_productsOf ha hq
    exact ⟨p, hp, decide_eq_true (hfold.trans hfold'.symm)⟩
  refine sum_le_sum_limits hlisted fun p hp => ?_
  refine totalOf_le_tightest ?_ fun a ha => (hfits a ha).filter _
  intro lot hlot
  refine .inr ⟨(isProductOf_iff.mp (mem_productsOf hp)).2.1, ?_⟩
  exact of_decide_eq_true (mem_filter.mp hlot).2

theorem totalOf_le_clusterFigure : (totalOf lots : ℕ∞) ≤ clusterFigure bound allowlists name := by
  rw [clusterFigure_eq]
  apply le_inf (totalOf_le_tightest hname hfits)
  split_ifs with hcloses
  · exact totalOf_le_productsFigure hname hfits hcloses
  · exact le_top

end Together

variable {a : GoMap String ν} {p : String}

theorem exists_covers_of_le {n : ℕ} (hp : isFamily p = false) (hn : n ≠ 0)
    (h : (n : ℕ∞) ≤ freeOf bound a p) : ∃ q ∈ a.keys, covers q p = true := by
  have hlists : Lists a p := by
    by_contra hnot
    rw [freeOf_of_not_lists bound hnot, nonpos_iff_eq_zero, Nat.cast_eq_zero] at h
    exact hn h
  obtain ⟨q, hq, hcover | hcover⟩ := hlists
  · exact ⟨q, hq, hcover⟩
  · rcases covers_iff.mp hcover with hfold | hproduct
    · exact ⟨q, hq, covers_of_fold_eq hfold.symm⟩
    · rw [(isProductOf_iff.mp hproduct).1] at hp
      cases hp

theorem fits_single {n : ℕ} (hp : isFamily p = false) (h : (n : ℕ∞) ≤ freeOf bound a p) :
    Fits bound a [⟨p, n⟩] where
  bounded q hq := by
    by_cases hcover : covers q p = true
    · rw [coveredBy_eq_totalOf (forall_mem_singleton.mpr hcover)]
      exact h.trans (freeOf_le bound hq hcover)
    · simp [coveredBy, hcover, totalOf]
  admits lot hlot hnone := by
    rw [mem_singleton] at hlot
    subst hlot
    by_contra hn
    obtain ⟨q, hq, hcover⟩ := exists_covers_of_le hp hn h
    rw [hnone q hq] at hcover
    cases hcover

theorem exists_unlisted (allowlists : List (GoMap String ν)) (h : isFamily name = true) :
    ∃ p, isProductOf p name = true ∧
      ∀ a ∈ allowlists, ∀ q ∈ a.keys, fold q ≠ fold p := by
  let lengths := allowlists.flatMap fun a => a.keys.map fun q => (fold q).length
  obtain ⟨p, hp, hlength⟩ := exists_isProductOf_length h lengths.sum
  refine ⟨p, hp, fun a ha q hq hfold => ?_⟩
  have hmem : (fold q).length ∈ lengths :=
    mem_flatMap.mpr ⟨a, ha, mem_map_of_mem hq⟩
  have hle : (fold q).length ≤ lengths.sum := single_le_sum (fun _ _ => Nat.zero_le _) _ hmem
  rw [hfold] at hle
  exact Nat.not_le_of_lt hlength hle

/-- An allowlist that lists a family leaves a product it does not list what it leaves the
family. -/
theorem freeOf_unlisted (hown : OwnLists a name) (hp : isProductOf p name = true)
    (hnone : ∀ q ∈ a.keys, fold q ≠ fold p) : freeOf bound a p = freeOf bound a name := by
  apply le_antisymm (freeOf_mono bound hp)
  have hlists : Lists a p := by
    obtain ⟨q, hq, hfold⟩ := hown
    exact ⟨q, hq, .inl (by rw [covers_congr hfold rfl]; exact covers_iff.mpr (.inr hp))⟩
  rw [freeOf_of_own bound (.inr ⟨hlists, (isProductOf_iff.mp hp).2.1⟩), le_tightest_coverKeys]
  intro q hq hcover
  have hproduct : isProductOf p q = true := (covers_iff.mp hcover).resolve_left (hnone q hq)
  exact freeOf_le bound hq (covers_of_fold_eq (fold_eq_of_isProductOf hproduct hp))

/-- Lots of distinct products, each within what an allowlist leaves its product and together within
what it leaves their family, fit it. -/
theorem fits_products (hname : ∀ lot ∈ lots, isProductOf lot.product name = true)
    (hdistinct : (lots.map fun lot => fold lot.product).Nodup)
    (hlot : ∀ lot ∈ lots, (lot.gpus : ℕ∞) ≤ freeOf bound a lot.product)
    (htotal : (totalOf lots : ℕ∞) ≤ freeOf bound a name) : Fits bound a lots where
  bounded q hq := by
    by_cases hfamily : fold q = fold name
    · refine le_trans ?_ (htotal.trans (freeOf_le bound hq (covers_of_fold_eq hfamily)))
      exact_mod_cast totalOf_filter_le _ lots
    · -- a product key covers its own spellings alone, and no two lots share one
      have hsame : ∀ lot ∈ lots.filter fun lot => covers q lot.product,
          fold lot.product = fold q ∧ (lot.gpus : ℕ∞) ≤ boundAt bound a q := by
        intro lot hl
        obtain ⟨hmem, hcover⟩ := mem_filter.mp hl
        refine ⟨((covers_iff.mp hcover).resolve_right fun hproduct => hfamily ?_).symm,
          (hlot lot hmem).trans (freeOf_le bound hq hcover)⟩
        exact fold_eq_of_isProductOf hproduct (hname lot hmem)
      have hnodup := hdistinct.sublist ((filter_sublist
        (p := fun lot : Lot => covers q lot.product)).map fun lot => fold lot.product)
      rw [coveredBy]
      generalize (lots.filter fun lot => covers q lot.product) = covered at hsame hnodup ⊢
      match covered with
      | [] => simp [totalOf]
      | [lot] =>
        have hle := (hsame lot mem_cons_self).2
        simpa only [totalOf, map_cons, map_nil, sum_singleton] using hle
      | lot :: lot' :: rest =>
        simp only [map_cons, nodup_cons, mem_cons, not_or] at hnodup
        have hlot' := hsame lot' (mem_cons_of_mem _ mem_cons_self)
        exact absurd ((hsame lot mem_cons_self).1.trans hlot'.1.symm) hnodup.1.1
  admits lot hl hnone := by
    by_contra hn
    obtain ⟨q, hq, hcover⟩ := exists_covers_of_le (isProductOf_iff.mp (hname lot hl)).2.1 hn
      (hlot lot hl)
    rw [hnone q hq] at hcover
    cases hcover

variable {allowlists : List (GoMap String ν)} {name : String} {n : ℕ}

section Usable

variable (h : (n : ℕ∞) ≤ clusterFigure bound allowlists name)
  (hfree : ∀ a ∈ allowlists, clusterFigure bound allowlists name ≤ freeOf bound a name)
include h hfree

private theorem usable_product (hname : isFamily name = false) :
    n ∈ usable bound allowlists name := by
  refine ⟨[⟨name, n⟩], ?_, fun a ha => fits_single hname (h.trans (hfree a ha)), ?_⟩
  · exact forall_mem_singleton.mpr (.inr ⟨hname, rfl⟩)
  · simp [totalOf]

private theorem usable_open (hfamily : isFamily name = true)
    (hown : ∀ a ∈ allowlists, OwnLists a name) : n ∈ usable bound allowlists name := by
  obtain ⟨p, hp, hnone⟩ := exists_unlisted allowlists hfamily
  refine ⟨[⟨p, n⟩], forall_mem_singleton.mpr (.inl hp), fun a ha => ?_, by simp [totalOf]⟩
  apply fits_single (isProductOf_iff.mp hp).2.1
  rw [freeOf_unlisted (hown a ha) hp (hnone a ha)]
  exact h.trans (hfree a ha)

private theorem usable_closed (hcloses : closesFamily allowlists name = true) :
    n ∈ usable bound allowlists name := by
  have hproducts : (n : ℕ∞) ≤ productsFigure bound allowlists name := by
    rw [clusterFigure_eq, if_pos hcloses] at h
    exact h.trans inf_le_right
  obtain ⟨shares, hfst, hshare, hsum⟩ := exists_shares hproducts
  let lots : List Lot := shares.map fun e => ⟨e.1, e.2⟩
  have hmem : ∀ lot ∈ lots, isProductOf lot.product name = true ∧
      (lot.gpus : ℕ∞) ≤ tightest (allowlists.map (clusterFreeOf bound · lot.product)) := by
    refine forall_mem_map.mpr fun e he => ?_
    have hfst' : e.1 ∈ productsOf allowlists name := hfst ▸ mem_map_of_mem he
    exact ⟨mem_productsOf hfst', hshare e he⟩
  have htotal : totalOf lots = n := by
    rw [totalOf, map_map]
    exact hsum
  refine ⟨lots, fun lot hlot => .inl (hmem lot hlot).1, fun a ha => ?_, htotal⟩
  apply fits_products fun lot hlot => (hmem lot hlot).1
  · have hnodup := dropSpellings_nodup (allowlists.flatMap fun a => a.keys.filter (isProductOf · name))
    rw [← productsOf, ← hfst, map_map] at hnodup
    rw [map_map]
    exact hnodup
  · intro lot hlot
    obtain ⟨hproduct, hle⟩ := hmem lot hlot
    rw [← clusterFreeOf_eq bound (.inr (ne_default_of_isProductOf hproduct))]
    exact hle.trans (tightest_le (mem_map_of_mem ha))
  · rw [htotal]
    exact h.trans (hfree a ha)

end Usable

theorem mem_usable_iff (hname : isAcceleratorResolved name = true) :
    n ∈ usable bound allowlists name ↔ (n : ℕ∞) ≤ clusterFigure bound allowlists name := by
  constructor
  · rintro ⟨lots, hlots, hfits, rfl⟩
    exact totalOf_le_clusterFigure hlots hfits
  · intro h
    have hdefault := ne_default_of_isAcceleratorResolved hname
    have hfree : ∀ a ∈ allowlists, clusterFigure bound allowlists name ≤ freeOf bound a name := by
      intro a ha
      rw [clusterFigure_eq, ← clusterFreeOf_eq bound (.inr hdefault)]
      exact inf_le_of_left_le (tightest_le (mem_map_of_mem ha))
    by_cases hfamily : isFamily name = true
    · by_cases hcloses : closesFamily allowlists name = true
      · exact usable_closed h hfree hcloses
      · refine usable_open h hfree hfamily fun a ha => ?_
        by_contra hown
        exact hcloses (closesFamily_iff.mpr ⟨hfamily, hname, a, ha, hown⟩)
    · exact usable_product h hfree ((Bool.not_eq_true _).mp hfamily)

/-- The bound several allowlists put together on a resolved name is the largest number of GPUs that
can be used under it within all of them, unlimited exactly when there is no largest one; no
allowlist at all puts no bound. -/
theorem clusterAllowlistsBound_isGreatest (hname : isAcceleratorResolved name = true) :
    (clusterAllowlistsBound bound allowlists name = none ↔ allowlists = []) ∧
    (allowlists ≠ [] →
      (∀ m : ℕ, clusterAllowlistsBound bound allowlists name = some (m : ℕ∞) ↔
        IsGreatest (usable bound allowlists name) m) ∧
      (clusterAllowlistsBound bound allowlists name = some ⊤ ↔
        ¬ ∃ m, IsGreatest (usable bound allowlists name) m)) := by
  have hdefault : name ≠ defaultAcceleratorName := ne_default_of_isAcceleratorResolved hname
  have hbound : allowlists ≠ [] →
      clusterAllowlistsBound bound allowlists name = some (clusterFigure bound allowlists name) :=
    fun hne => clusterAllowlistsBound_eq bound hne hdefault
  have hgreatest : ∀ m : ℕ, clusterFigure bound allowlists name = m ↔
      IsGreatest (usable bound allowlists name) m := by
    intro m
    constructor
    · intro hfigure
      constructor
      · exact (mem_usable_iff hname).mpr hfigure.ge
      · intro n hn
        rw [mem_usable_iff hname, hfigure] at hn
        exact_mod_cast hn
    · rintro ⟨hmem, hupper⟩
      apply le_antisymm _ ((mem_usable_iff hname).mp hmem)
      by_contra hlt
      have hsucc : m + 1 ∈ usable bound allowlists name :=
        (mem_usable_iff hname).mpr (by exact_mod_cast Order.add_one_le_of_lt (not_le.mp hlt))
      exact absurd (hupper hsucc) (Nat.not_succ_le_self m)
  refine ⟨⟨fun hnone => ?_, ?_⟩, fun hne => ⟨fun m => ?_, ?_⟩⟩
  · by_contra hne
    rw [hbound hne] at hnone
    cases hnone
  · rintro rfl
    rfl
  · rw [hbound hne, Option.some_inj, hgreatest]
  · rw [hbound hne, Option.some_inj, not_exists]
    constructor
    · intro htop m hm
      rw [← hgreatest, htop] at hm
      exact ENat.top_ne_natCast m hm
    · intro hnone
      by_contra htop
      obtain ⟨m, hm⟩ := ENat.ne_top_iff_exists.mp htop
      exact hnone m ((hgreatest m).mp hm.symm)

/-- Two products that two allowlists bound the other way around: 2 GPUs of each fit both. -/
theorem clusterAllowlistsBound_isGreatest_four :
    IsGreatest (usable id
      [GoMap.ofList [("NVIDIA-H100-80GB-HBM3", 8), ("NVIDIA-H100-PCIE-80GB", 2)],
        GoMap.ofList [("NVIDIA-H100-80GB-HBM3", 2), ("NVIDIA-H100-PCIE-80GB", 8)]] "H100") 4 :=
  (((clusterAllowlistsBound_isGreatest (by decide)).2 (cons_ne_nil _ _)).1 4).mp (by decide)

/-- Without an allowlist the result is not unlimited, though any number of GPUs can be used. -/
theorem no_allowlists_not_unlimited :
    clusterAllowlistsBound id ([] : List (GoMap String ℕ∞)) "H100" ≠ some ⊤ ∧
      ¬ ∃ m, IsGreatest (usable id ([] : List (GoMap String ℕ∞)) "H100") m := by
  constructor
  · exact Option.some_ne_none ⊤ |>.symm
  · rintro ⟨m, _, hupper⟩
    have hsucc : m + 1 ∈ usable id ([] : List (GoMap String ℕ∞)) "H100" :=
      (mem_usable_iff (by decide)).mpr le_top
    exact absurd (hupper hsucc) (Nat.not_succ_le_self m)

end LlmScaler.Accelerator
