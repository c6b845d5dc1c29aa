import LlmScaler.Core.GoMap
import LlmScaler.Accelerator.Name

/-!
# Keys of a map of accelerators

`findKey` charges a name to one key of an allowlist; `findBudgetKey` finds the key of a merged
budget a name is spent from. Both read the keys only. `findBudgetKey` never lets a product fall
back to its family key past a listed sibling, and never charges a family to one of several
products.
-/

namespace LlmScaler.Accelerator

open Core List GoMap

/-- `slices.Min` of a list of names, if it is not empty. -/
def smallest (names : List String) : Option String := (names.insertionSort (· ≤ ·)).head?

variable {k : String} {names : List String}

theorem smallest_mem (h : smallest names = some k) : k ∈ names :=
  (mem_insertionSort (· ≤ ·)).mp (mem_of_head? h)

theorem smallest_eq_none : smallest names = none ↔ names = [] := by
  rw [smallest, head?_eq_none_iff]
  constructor
  · intro h
    have hlength := length_insertionSort (· ≤ ·) names
    rw [h] at hlength
    exact length_eq_zero_iff.mp hlength.symm
  · rintro rfl
    rfl

theorem exists_smallest (h : k ∈ names) : ∃ m, smallest names = some m := by
  rw [← Option.ne_none_iff_exists']
  intro hnone
  rw [smallest_eq_none.mp hnone] at h
  cases h

theorem smallest_le (h : smallest names = some k) : ∀ n ∈ names, k ≤ n := by
  intro n hn
  have hsorted := pairwise_insertionSort (· ≤ ·) names
  rw [← mem_insertionSort (· ≤ ·)] at hn
  unfold smallest at h
  cases hl : names.insertionSort (· ≤ ·) with
  | nil =>
    rw [hl] at hn
    cases hn
  | cons a l =>
    rw [hl] at h hn hsorted
    cases h
    rcases mem_cons.mp hn with rfl | hn
    · exact String.le_refl _
    · exact rel_of_pairwise_cons hsorted hn

theorem smallest_of_subset {part : List String} (h : smallest names = some k) (hk : k ∈ part)
    (hpart : ∀ n ∈ part, n ∈ names) : smallest part = some k := by
  obtain ⟨m, hm⟩ := exists_smallest hk
  rw [hm]
  exact congrArg some (String.le_antisymm (smallest_le hm k hk)
    (smallest_le h m (hpart m (smallest_mem hm))))

variable {ν : Type*}

/-- The key of `known` that names the same accelerator as `name`: the name itself, else its short
name, else the smallest key that `sameName` matches. -/
def findKey (known : GoMap String ν) (name : String) : Option String :=
  if known.has name then some name
  else if normalizeAcceleratorName name ≠ name ∧ known.has (normalizeAcceleratorName name) then
    some (normalizeAcceleratorName name)
  else smallest (known.keys.filter (sameName · name))

variable {known : GoMap String ν} {name : String}

theorem findKey_mem (h : findKey known name = some k) : k ∈ known.keys := by
  unfold findKey at h
  split_ifs at h with hname hshort
  · cases h
    exact has_iff_mem_keys.mp hname
  · cases h
    exact has_iff_mem_keys.mp hshort.2
  · exact mem_of_mem_filter (smallest_mem h)

variable {μ : Type*}

theorem findKey_of_keys {known' : GoMap String μ} (h : known'.keys = known.keys) (name : String) :
    findKey known' name = findKey known name := by
  have hhas : ∀ n, known'.has n = known.has n := by
    intro n
    rw [Bool.eq_iff_iff, has_iff_mem_keys, has_iff_mem_keys, h]
  simp only [findKey, hhas, h]

/-- What a key is to the name looked up, in the order the cases are tried. -/
inductive Kin
  | caseEqual
  | product
  | family
  | sibling
  | stranger
  deriving DecidableEq

def kinOf (key name : String) : Kin :=
  if equalFold key name then .caseEqual
  else if isProductOf key name then .product
  else if isProductOf name key then .family
  else if !isFamily name && !isFamily key && equalFold (family key) (family name) then .sibling
  else .stranger

def kinKeys (known : GoMap String ν) (name : String) (kin : Kin) : List String :=
  known.keys.filter fun key => kinOf key name == kin

/-- Whether names are all one name, ignoring case. -/
def oneSpelling : List String → Bool
  | [] => true
  | n :: rest => rest.all (equalFold · n)

/-- The key of a budget map that what a workload declares as `name` is spent from. -/
def findBudgetKey (known : GoMap String ν) (name : String) : Option String :=
  if known.has name then some name
  else if kinKeys known name .caseEqual ≠ [] then smallest (kinKeys known name .caseEqual)
  else if kinKeys known name .product ≠ [] then
    if oneSpelling (kinKeys known name .product) then smallest (kinKeys known name .product)
    else none
  else if kinKeys known name .family ≠ [] ∧ kinKeys known name .sibling = [] then
    smallest (kinKeys known name .family)
  else none

variable {key : String}

theorem mem_kinKeys {kin : Kin} :
    key ∈ kinKeys known name kin ↔ key ∈ known.keys ∧ kinOf key name = kin := by
  simp [kinKeys]

theorem kinOf_eq_caseEqual : kinOf key name = .caseEqual ↔ fold key = fold name := by
  rw [← equalFold_iff]
  unfold kinOf
  split_ifs <;> simp_all

theorem kinOf_eq_product : kinOf key name = .product ↔ isProductOf key name = true := by
  constructor
  · unfold kinOf
    split_ifs <;> simp_all
  · intro h
    have hfold : equalFold key name = false := by
      rw [← Bool.not_eq_true, equalFold_iff]
      exact fold_ne_of_isProductOf h
    simp [kinOf, hfold, h]

theorem kinOf_eq_family : kinOf key name = .family ↔ isProductOf name key = true := by
  constructor
  · unfold kinOf
    split_ifs <;> simp_all
  · intro h
    have hfold : equalFold key name = false := by
      rw [← Bool.not_eq_true, equalFold_iff]
      exact fun heq => fold_ne_of_isProductOf h heq.symm
    have hproduct : isProductOf key name = false := by
      rw [← Bool.not_eq_true]
      exact fun h' => not_isProductOf_isProductOf h h'
    simp [kinOf, hfold, hproduct, h]

theorem kinOf_eq_sibling {f : String} (hkey : isProductOf key f = true)
    (hname : isProductOf name f = true) (hne : fold key ≠ fold name) :
    kinOf key name = .sibling := by
  have hk := isProductOf_iff.mp hkey
  have hn := isProductOf_iff.mp hname
  have hfold : equalFold key name = false := by
    rwa [← Bool.not_eq_true, equalFold_iff]
  have hproduct : isProductOf key name = false := by
    rw [isProductOf, hn.2.1]
    rfl
  have hfamily : isProductOf name key = false := by
    rw [isProductOf, hk.2.1]
    rfl
  have hsame : equalFold (family key) (family name) = true :=
    equalFold_iff.mpr (hk.2.2.trans hn.2.2.symm)
  simp [kinOf, hfold, hproduct, hfamily, hk.2.1, hn.2.1, hsame]

/-- No two keys of the map differ only in case. -/
def DistinctKeys (known : GoMap String ν) : Prop :=
  ∀ k ∈ known.keys, ∀ k' ∈ known.keys, fold k = fold k' → k = k'

theorem findBudgetKey_mem (h : findBudgetKey known name = some k) : k ∈ known.keys := by
  unfold findBudgetKey at h
  split_ifs at h with hname
  · cases h
    exact has_iff_mem_keys.mp hname
  all_goals exact (mem_kinKeys.mp (smallest_mem h)).1

theorem findBudgetKey_of_keys {known' : GoMap String μ} (h : known'.keys = known.keys)
    (name : String) : findBudgetKey known' name = findBudgetKey known name := by
  have hhas : known'.has name = known.has name := by
    rw [Bool.eq_iff_iff, has_iff_mem_keys, has_iff_mem_keys, h]
  have hkin : ∀ kin, kinKeys known' name kin = kinKeys known name kin := by
    intro kin
    rw [kinKeys, kinKeys, h]
  simp only [findBudgetKey, hhas, hkin]

theorem findBudgetKey_of_fold (hkey : key ∈ known.keys) (hfold : fold key = fold name) :
    ∃ k, findBudgetKey known name = some k ∧ fold k = fold name := by
  have hmem : key ∈ kinKeys known name .caseEqual :=
    mem_kinKeys.mpr ⟨hkey, kinOf_eq_caseEqual.mpr hfold⟩
  unfold findBudgetKey
  by_cases hname : known.has name = true
  · exact ⟨name, by rw [if_pos hname], rfl⟩
  · rw [if_neg hname, if_pos (ne_nil_of_mem hmem)]
    obtain ⟨k, hk⟩ := exists_smallest hmem
    exact ⟨k, hk, kinOf_eq_caseEqual.mp (mem_kinKeys.mp (smallest_mem hk)).2⟩

theorem oneSpelling_iff : oneSpelling names = true ↔ ∀ a ∈ names, ∀ b ∈ names, fold a = fold b := by
  cases names with
  | nil => simp [oneSpelling]
  | cons n rest =>
    simp only [oneSpelling, all_eq_true, equalFold_iff]
    constructor
    · intro h
      have hn : ∀ a ∈ n :: rest, fold a = fold n := forall_mem_cons.mpr ⟨rfl, h⟩
      exact fun a ha b hb => (hn a ha).trans (hn b hb).symm
    · intro h a ha
      exact h a (mem_cons_of_mem n ha) n mem_cons_self

/-- A key found that is not the name up to case is the one product the map lists of it, or its
family where the map lists no sibling. -/
theorem findBudgetKey_cases (h : findBudgetKey known name = some k) :
    fold k = fold name ∨
    (isProductOf k name = true ∧
      ∀ p ∈ known.keys, isProductOf p name = true → fold p = fold k) ∨
    (isProductOf name k = true ∧ ∀ p ∈ known.keys, isProductOf p k = false) := by
  unfold findBudgetKey at h
  split_ifs at h with hname hcase hproduct hone hfamily
  · cases h
    exact .inl rfl
  · exact .inl (kinOf_eq_caseEqual.mp (mem_kinKeys.mp (smallest_mem h)).2)
  · have hk := smallest_mem h
    refine .inr (.inl ⟨kinOf_eq_product.mp (mem_kinKeys.mp hk).2, fun p hp hpn => ?_⟩)
    exact oneSpelling_iff.mp hone p (mem_kinKeys.mpr ⟨hp, kinOf_eq_product.mpr hpn⟩) k hk
  · have hk := (mem_kinKeys.mp (smallest_mem h)).2
    refine .inr (.inr ⟨kinOf_eq_family.mp hk, fun p hp => ?_⟩)
    rw [← Bool.not_eq_true]
    intro hpk
    by_cases hfold : fold p = fold name
    · exact hcase (ne_nil_of_mem
        (mem_kinKeys.mpr ⟨hp, kinOf_eq_caseEqual.mpr hfold⟩))
    · have hsibling := kinOf_eq_sibling hpk (kinOf_eq_family.mp hk) hfold
      exact (ne_nil_of_mem (mem_kinKeys.mpr ⟨hp, hsibling⟩)) hfamily.2

/-- A name the map does not list itself finds the one product of it that the map lists. -/
theorem findBudgetKey_of_product (hown : ∀ k ∈ known.keys, fold k ≠ fold name)
    (hkey : key ∈ known.keys) (hproduct : isProductOf key name = true)
    (hone : ∀ p ∈ known.keys, isProductOf p name = true → fold p = fold key) :
    ∃ k, findBudgetKey known name = some k ∧ fold k = fold key := by
  have hname : ¬ known.has name = true := fun h => hown name (has_iff_mem_keys.mp h) rfl
  have hcase : ¬ kinKeys known name .caseEqual ≠ [] := by
    intro hne
    obtain ⟨k, hk⟩ := exists_mem_of_ne_nil _ hne
    obtain ⟨hmem, hkin⟩ := mem_kinKeys.mp hk
    exact hown k hmem (kinOf_eq_caseEqual.mp hkin)
  have hmem : key ∈ kinKeys known name .product :=
    mem_kinKeys.mpr ⟨hkey, kinOf_eq_product.mpr hproduct⟩
  have hfold : ∀ p ∈ kinKeys known name .product, fold p = fold key := by
    intro p hp
    obtain ⟨hpmem, hkin⟩ := mem_kinKeys.mp hp
    exact hone p hpmem (kinOf_eq_product.mp hkin)
  have hspelling : oneSpelling (kinKeys known name .product) = true :=
    oneSpelling_iff.mpr fun a ha b hb => (hfold a ha).trans (hfold b hb).symm
  obtain ⟨k, hk⟩ := exists_smallest hmem
  refine ⟨k, ?_, hfold k (smallest_mem hk)⟩
  rw [findBudgetKey, if_neg hname, if_neg hcase, if_pos (ne_nil_of_mem hmem), if_pos hspelling,
    hk]

theorem findBudgetKey_of_subset {part : GoMap String μ} (hpart : ∀ k ∈ part.keys, k ∈ known.keys)
    (h : findBudgetKey known name = some k) (hk : k ∈ part.keys) :
    findBudgetKey part name = some k := by
  have hkin : ∀ kin, ∀ n ∈ kinKeys part name kin, n ∈ kinKeys known name kin := by
    intro kin n hn
    obtain ⟨hmem, hkin⟩ := mem_kinKeys.mp hn
    exact mem_kinKeys.mpr ⟨hpart n hmem, hkin⟩
  have hnil : ∀ kin, ¬ kinKeys known name kin ≠ [] → ¬ kinKeys part name kin ≠ [] := by
    intro kin hempty hne
    obtain ⟨n, hn⟩ := exists_mem_of_ne_nil _ hne
    exact hempty (ne_nil_of_mem (hkin kin n hn))
  have hhas : ¬ known.has name = true → ¬ part.has name = true := by
    rw [has_iff_mem_keys, has_iff_mem_keys]
    exact mt (hpart name)
  have hsmallest : ∀ kin, smallest (kinKeys known name kin) = some k →
      k ∈ kinKeys part name kin ∧ smallest (kinKeys part name kin) = some k := by
    intro kin h
    have hmem := mem_kinKeys.mpr ⟨hk, (mem_kinKeys.mp (smallest_mem h)).2⟩
    exact ⟨hmem, smallest_of_subset h hmem (hkin kin)⟩
  unfold findBudgetKey at h ⊢
  split_ifs at h with hname hcase hproduct hone hfamily
  · cases h
    rw [if_pos (has_iff_mem_keys.mpr hk)]
  · obtain ⟨hmem, h⟩ := hsmallest .caseEqual h
    rwa [if_neg (hhas hname), if_pos (ne_nil_of_mem hmem)]
  · obtain ⟨hmem, h⟩ := hsmallest .product h
    have hspelling : oneSpelling (kinKeys part name .product) = true := by
      rw [oneSpelling_iff] at hone ⊢
      intro a ha b hb
      exact hone a (hkin _ a ha) b (hkin _ b hb)
    rwa [if_neg (hhas hname), if_neg (hnil _ hcase), if_pos (ne_nil_of_mem hmem),
      if_pos hspelling]
  · obtain ⟨hmem, h⟩ := hsmallest .family h
    have hsibling : kinKeys part name .sibling = [] := by
      by_contra hne
      exact hnil _ (fun hne => hne hfamily.2) hne
    rwa [if_neg (hhas hname), if_neg (hnil _ hcase), if_neg (hnil _ hproduct),
      if_pos ⟨ne_nil_of_mem hmem, hsibling⟩]

theorem isNamed_of_findBudgetKey (hname : isNamed name = true)
    (h : findBudgetKey known name = some k) : isNamed k = true := by
  rcases findBudgetKey_cases h with hfold | ⟨hproduct, _⟩ | ⟨hproduct, _⟩
  · rwa [isNamed_congr hfold]
  · exact isNamed_of_isProductOf hname hproduct
  · exact isNamed_of_covers hname (covers_iff.mpr (.inr hproduct))

end LlmScaler.Accelerator
