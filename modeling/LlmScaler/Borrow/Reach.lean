import LlmScaler.Budget.Spend
import LlmScaler.Borrow.Draw

/-!
# The two budgets of a borrowing namespace

A borrowing namespace has its guaranteed budget and its reach, the same allowlists with each limit
raised by the borrowing cap. The guaranteed budget is merged with the declared accelerators as keys
and the reach without, so the key a placement is spent under, a key of the reach, need not be the
key its guaranteed figure stands under. The two agree all the same: a debit under the one takes
from every key that covers the other.
-/

namespace LlmScaler.Borrow

open LlmScaler.Core LlmScaler.Accelerator LlmScaler.Budget

/-- How the key an accelerator is spent under stands to its key in the guaranteed budget. -/
inductive KeysAgree (b : Figures) (acc spent : String) : Prop
  | denied (h : budgetKey b acc ∉ b.keys)
  | covered (h : covers (budgetKey b acc) spent = true)
  /-- The one spent under is the family of the guaranteed key, which holds as much. -/
  | shared (f : String) (hf : f ∈ b.keys) (hk : budgetKey b acc ∈ b.keys)
      (hcover : covers f spent = true) (hproduct : isProductOf (budgetKey b acc) f = true)
      (heq : figureAt b (budgetKey b acc) = figureAt b f)

variable {b : Figures} {f k : String}

theorem figureAt_debitBudget_eq (hdistinct : DistinctKeys b) (hk : k ∈ b.keys) (hf : f ∈ b.keys)
    (hproduct : isProductOf k f = true) (heq : figureAt b k = figureAt b f) (key : String) (n : ℕ) :
    figureAt (debitBudget b key n) k = figureAt (debitBudget b key n) f := by
  unfold debitBudget
  split_ifs
  · exact heq
  · set lowered := b.mapValues fun other v => if covers other key then v - n else v with hlowered
    have hkeys : lowered.keys = b.keys := GoMap.keys_mapValues _ _
    have hfamily : ∀ g ∈ b.keys, isProductOf k g = true → g = f := fun g hg hkg =>
      hdistinct g hg f hf (fold_eq_of_isProductOf hkg hproduct)
    have hle : figureAt lowered f ≤ figureAt lowered k := by
      rw [hlowered, figureAt_mapValues hk, figureAt_mapValues hf, heq]
      by_cases hcover : covers k key = true
      · have htrans : covers f key = true :=
          covers_trans (covers_iff.mpr (.inr hproduct)) hcover
        rw [if_pos hcover, if_pos htrans]
      · rw [if_neg hcover]
        split_ifs
        · exact tsub_le_self
        · exact le_rfl
    rw [figureAt_clampProducts_family (by rwa [hkeys]) (isProductOf_iff.mp hproduct).1]
    refine eq_of_forall_le_iff fun x => ?_
    rw [le_figureAt_clampProducts (by rwa [hkeys]), hkeys]
    constructor
    · intro hx
      exact hx.2 f hf hproduct
    · intro hx
      refine ⟨hx.trans hle, fun g hg hkg => ?_⟩
      rw [hfamily g hg hkg]
      exact hx

theorem figureAt_debitAll_eq (hdistinct : DistinctKeys b) (hk : k ∈ b.keys) (hf : f ∈ b.keys)
    (hproduct : isProductOf k f = true) (heq : figureAt b k = figureAt b f)
    (spends : List (String × ℕ)) :
    figureAt (debitAll b spends) k = figureAt (debitAll b spends) f := by
  induction spends generalizing b with
  | nil => exact heq
  | cons s spends ih =>
    have hkeys : (debitBudget b s.1 s.2).keys = b.keys := keys_debitBudget b s.1 s.2
    refine ih (by rwa [DistinctKeys, hkeys]) (by rwa [hkeys]) (by rwa [hkeys]) ?_
    exact figureAt_debitBudget_eq hdistinct hk hf hproduct heq s.1 s.2

theorem KeysAgree.debitAll {acc spent : String} (h : KeysAgree b acc spent)
    (hdistinct : DistinctKeys b) (spends : List (String × ℕ)) :
    KeysAgree (debitAll b spends) acc spent := by
  have hkeys : (Budget.debitAll b spends).keys = b.keys := keys_debitAll b spends
  have hkey : budgetKey (Budget.debitAll b spends) acc = budgetKey b acc :=
    budgetKey_of_keys hkeys acc
  cases h with
  | denied hdenied => exact .denied (by rwa [hkey, hkeys])
  | covered hcovered => exact .covered (by rwa [hkey])
  | shared f hf hk hcover hproduct heq =>
    refine .shared f (by rwa [hkeys]) (by rwa [hkey, hkeys]) hcover (by rwa [hkey]) ?_
    rw [hkey]
    exact figureAt_debitAll_eq hdistinct hk hf hproduct heq spends

section Merge

variable {own : List Pools}

/-- Some allowlist lists the name itself. -/
def Owned (own : List Pools) (name : String) : Prop := ∃ a ∈ own, OwnLists a name

theorem Owned.congr {n m : String} (h : fold n = fold m) : Owned own n ↔ Owned own m := by
  simp only [Owned, OwnLists.congr h]

theorem Owned.exists_key {name : String} (h : Owned own name) (cluster : List Pools)
    (declared : List String) :
    ∃ k ∈ (mergeNamespace own cluster declared).keys, fold k = fold name := by
  obtain ⟨a, ha, q, hq, hfold⟩ := h
  obtain ⟨k, hk, hkq⟩ := exists_mem_distinctSpellings
    (List.mem_append_right (resolvedNames declared) (List.mem_flatMap.mpr ⟨a, ha, hq⟩))
  have hm : materialized own k = true := materialized_iff.mpr (.inl ⟨a, ha, q, hq, hkq.symm⟩)
  refine ⟨k, mem_keys_mergeNames.mpr ⟨hk, ?_⟩, hkq.trans hfold⟩
  rw [if_pos hm]
  rfl

variable {cluster : List Pools}

theorem owned_or_listed {declared : List String}
    (h : k ∈ (mergeNamespace own cluster declared).keys) : Owned own k ∨ ∀ a ∈ own, Lists a k := by
  obtain ⟨_, hsome⟩ := mem_keys_mergeNames.mp h
  split_ifs at hsome with hm
  · exact materialized_iff.mp hm
  · cases hsome

theorem owned_of_mem_keys (h : k ∈ (mergeNamespace own cluster []).keys) : Owned own k := by
  obtain ⟨hk, _⟩ := mem_keys_mergeNames.mp h
  obtain ⟨a, ha, hmem⟩ := List.mem_flatMap.mp (mem_of_mem_distinctSpellings hk)
  exact ⟨a, ha, k, hmem, rfl⟩

/-- A product every allowlist admits by its family's key, of which none lists a product, is left
what the family is left. -/
theorem freeOf_eq_family {a : Pools} (hk : ¬ OwnLists a k) (hf : OwnLists a f)
    (hproduct : isProductOf k f = true) : freeOf poolBound a k = freeOf poolBound a f := by
  have hlists : Lists a k := by
    obtain ⟨q, hq, hfold⟩ := hf
    exact ⟨q, hq, .inl (covers_iff.mpr (.inr (by rwa [isProductOf_congr rfl hfold])))⟩
  have hfamily := (isProductOf_iff.mp hproduct).2.1
  have hcover : coverKeys a k = coverKeys a f := by
    refine List.filter_congr fun q hq => ?_
    rw [Bool.eq_iff_iff, covers_iff, covers_iff]
    constructor
    · rintro (hfold | hkq)
      · exact absurd ⟨q, hq, hfold⟩ hk
      · exact .inl (fold_eq_of_isProductOf hkq hproduct)
    · rintro (hfold | hfq)
      · exact .inr (by rwa [isProductOf_congr rfl hfold])
      · exact (not_isProductOf_isProductOf hproduct hfq).elim
  rw [freeOf_of_own poolBound (.inr ⟨hlists, hfamily⟩), freeOf_of_own poolBound (.inl hf), hcover]

theorem namespaceFigure_eq_family (hk : ¬ Owned own k) (hf : ∀ a ∈ own, OwnLists a f)
    (hproduct : isProductOf k f = true) (hnone : ∀ p, Owned own p → isProductOf p f = false) :
    namespaceFigure own cluster k = namespaceFigure own cluster f := by
  have hclosed : ∀ allowlists : List Pools, closesFamily allowlists k = false := by
    intro allowlists
    rw [closesFamily, (isProductOf_iff.mp hproduct).2.1]
    rfl
  have hopen : closesFamily own f = false := by
    rw [closesFamily, Bool.and_eq_false_iff]
    refine .inr (List.any_eq_false.mpr fun a ha => ?_)
    obtain ⟨q, hq, hfold⟩ := hf a ha
    simpa using ⟨q, hq, equalFold_iff.mpr hfold⟩
  have hlists : listsProduct own f = false := by
    refine List.any_eq_false.mpr fun a ha => ?_
    rw [Bool.not_eq_true, List.any_eq_false]
    intro p hp
    rw [Bool.not_eq_true]
    exact hnone p ⟨a, ha, p, hp, rfl⟩
  rw [namespaceFigure, namespaceFigure, hclosed, hclosed, hopen, hlists]
  simp only [Bool.false_and, Bool.and_false, Bool.false_eq_true, if_false]
  refine congrArg tightest (List.map_congr_left fun a ha => ?_)
  exact freeOf_eq_family (fun hown => hk ⟨a, ha, hown⟩) (hf a ha) hproduct

theorem figureAt_merge_eq_family {declared : List String}
    (hk : k ∈ (mergeNamespace own cluster declared).keys)
    (hf : f ∈ (mergeNamespace own cluster declared).keys) (hown : ¬ Owned own k)
    (hproduct : isProductOf k f = true) (hnone : ∀ p, Owned own p → isProductOf p f = false) :
    figureAt (mergeNamespace own cluster declared) k =
      figureAt (mergeNamespace own cluster declared) f := by
  have hlists := (owned_or_listed hk).resolve_left hown
  have hfamily : ∀ a ∈ own, OwnLists a f := by
    intro a ha
    by_contra hnot
    exact hown ⟨a, ha, (hlists a ha).own_of_not_own hproduct hnot⟩
  have hfigure : ∀ n ∈ (mergeNamespace own cluster declared).keys,
      ((if materialized own n then some (namespaceFigure own cluster n) else none).getD 0) =
        namespaceFigure own cluster n := by
    intro n hn
    obtain ⟨_, hsome⟩ := mem_keys_mergeNames.mp hn
    split_ifs at hsome ⊢ with hm
    · rfl
    · cases hsome
  have hmerge : ∀ (n : String) (x : ℕ∞), n ∈ (mergeNamespace own cluster declared).keys →
      (x ≤ figureAt (mergeNamespace own cluster declared) n ↔
        x ≤ namespaceFigure own cluster n ∧
          ∀ g ∈ (mergeNamespace own cluster declared).keys, isProductOf n g = true →
            x ≤ namespaceFigure own cluster g) := by
    intro n x hn
    rw [mergeNamespace, le_figureAt_mergeNames hn, hfigure n hn]
    exact and_congr_right fun _ => forall₂_congr fun g hg => by rw [hfigure g hg]
  refine eq_of_forall_le_iff fun x => ?_
  rw [hmerge k x hk, hmerge f x hf, namespaceFigure_eq_family hown hfamily hproduct hnone]
  refine and_congr_right fun hx => ⟨fun _ g _ hfg => ?_, fun _ g hg hkg => ?_⟩
  · exact (not_isProductOf_isProductOf hproduct hfg).elim
  · have hsame : g = f := distinctKeys_mergeNames g hg f hf (fold_eq_of_isProductOf hkg hproduct)
    rw [hsame]
    exact hx

theorem fold_budgetKey {acc : String} (hk : k ∈ b.keys) (hfold : fold k = fold acc) :
    fold (budgetKey b acc) = fold acc := by
  obtain ⟨k', hfound, hfold'⟩ := findBudgetKey_of_fold hk hfold
  rw [budgetKey, hfound]
  exact hfold'

variable {reach cluster : List Pools} {declared : List String} {acc k : String}

theorem keysAgree_of_family (hkey : budgetKey (mergeNamespace own cluster declared) acc = k)
    (hproduct : isProductOf acc k = true) :
    KeysAgree (mergeNamespace own cluster declared) acc
      (budgetKey (mergeNamespace reach cluster []) acc) := by
  refine .covered ?_
  have hcover : covers k acc = true := covers_iff.mpr (.inr hproduct)
  rw [hkey, budgetKey]
  cases hspent : findBudgetKey (mergeNamespace reach cluster []) acc with
  | none => exact hcover
  | some e =>
    rw [Option.getD_some]
    rcases findBudgetKey_cases hspent with hfold | ⟨hpe, _⟩ | ⟨hpe, _⟩
    · rwa [covers_congr rfl hfold]
    · exact (not_isProductOf_isProductOf hpe hproduct).elim
    · exact covers_of_fold_eq (fold_eq_of_isProductOf hproduct hpe)

variable (hsame : ∀ name, Owned reach name ↔ Owned own name)
include hsame

theorem owned_of_mem_reach {q : String} (hq : q ∈ (mergeNamespace reach cluster []).keys) :
    Owned own q :=
  (hsame q).mp (owned_of_mem_keys hq)

section Key

variable (hacc : ¬ Owned own acc) (hk : k ∈ (mergeNamespace own cluster declared).keys)
  (hkey : budgetKey (mergeNamespace own cluster declared) acc = k)
include hacc hk hkey

theorem keysAgree_of_declared (hfold : fold k = fold acc) :
    KeysAgree (mergeNamespace own cluster declared) acc
      (budgetKey (mergeNamespace reach cluster []) acc) := by
  have hown : ¬ Owned own k := fun h => hacc ((Owned.congr hfold).mp h)
  rw [budgetKey.eq_1 (mergeNamespace reach cluster [])]
  cases hspent : findBudgetKey (mergeNamespace reach cluster []) acc with
  | none => exact .covered (covers_of_fold_eq (by rw [hkey, hfold, Option.getD_none]))
  | some e =>
    rw [Option.getD_some]
    rcases findBudgetKey_cases hspent with hfold' | ⟨hproduct, _⟩ | ⟨hproduct, hnone⟩
    · exact .covered (covers_of_fold_eq (by rw [hkey, hfold, hfold']))
    · refine .covered (covers_iff.mpr (.inr ?_))
      rwa [hkey, isProductOf_congr rfl hfold]
    · -- spent under its family, of which no allowlist lists a product
      obtain ⟨f, hf, hfe⟩ :=
        (owned_of_mem_reach hsame (findBudgetKey_mem hspent)).exists_key cluster declared
      have hkf : isProductOf k f = true := by rwa [isProductOf_congr hfold hfe]
      have hlisted : ∀ p, Owned own p → isProductOf p f = false := by
        intro p hp
        obtain ⟨p', hp', hpp⟩ := ((hsame p).mpr hp).exists_key cluster []
        rw [← isProductOf_congr hpp hfe.symm]
        exact hnone p' hp'
      rw [← hkey] at hk hown hkf
      exact .shared f hf hk (covers_of_fold_eq hfe) hkf
        (figureAt_merge_eq_family hk hf hown hkf hlisted)

theorem keysAgree_of_product (hne : own ≠ []) (hproduct : isProductOf k acc = true)
    (hone : ∀ p ∈ (mergeNamespace own cluster declared).keys, isProductOf p acc = true →
      fold p = fold k) :
    KeysAgree (mergeNamespace own cluster declared) acc
      (budgetKey (mergeNamespace reach cluster []) acc) := by
  have hown : Owned own k := by
    rcases owned_or_listed hk with hown | hlists
    · exact hown
    · obtain ⟨a, ha⟩ := List.exists_mem_of_ne_nil own hne
      exact ⟨a, ha, (hlists a ha).own_of_not_own hproduct fun h => hacc ⟨a, ha, h⟩⟩
  obtain ⟨k', hk', hfold'⟩ := ((hsame k).mpr hown).exists_key cluster []
  have hspent : ∃ e, findBudgetKey (mergeNamespace reach cluster []) acc = some e ∧
      fold e = fold k' := by
    apply findBudgetKey_of_product
    · intro q hq hqacc
      exact hacc ((Owned.congr hqacc).mp (owned_of_mem_reach hsame hq))
    · exact hk'
    · rwa [isProductOf_congr hfold' rfl]
    · intro p hp hpacc
      obtain ⟨p', hp', hpp⟩ := (owned_of_mem_reach hsame hp).exists_key cluster declared
      rw [← hpp, hone p' hp' (by rwa [isProductOf_congr hpp rfl]), hfold']
  obtain ⟨e, hspent, hfold⟩ := hspent
  refine .covered (covers_of_fold_eq ?_)
  rw [hkey, budgetKey, hspent]
  exact (hfold.trans hfold').symm

end Key

/-- The guaranteed budget and the reach of a namespace agree on every accelerator, when the
allowlists of the reach list the same names. -/
theorem keysAgree_merge (hne : own ≠ []) (cluster : List Pools) (declared : List String) (acc : String) :
    KeysAgree (mergeNamespace own cluster declared) acc
      (budgetKey (mergeNamespace reach cluster []) acc) := by
  by_cases hacc : Owned own acc
  · obtain ⟨k, hk, hfold⟩ := hacc.exists_key cluster declared
    obtain ⟨k', hk', hfold'⟩ := ((hsame acc).mpr hacc).exists_key cluster []
    exact .covered (covers_of_fold_eq
      ((fold_budgetKey hk hfold).trans (fold_budgetKey hk' hfold').symm))
  · cases hfound : findBudgetKey (mergeNamespace own cluster declared) acc with
    | none =>
      refine .denied fun hmem => ?_
      rw [budgetKey, hfound, Option.getD_none] at hmem
      obtain ⟨k, hk, _⟩ := findBudgetKey_of_fold hmem rfl
      rw [hfound] at hk
      cases hk
    | some k =>
      have hk := findBudgetKey_mem hfound
      have hkey : budgetKey (mergeNamespace own cluster declared) acc = k := by
        rw [budgetKey, hfound, Option.getD_some]
      rcases findBudgetKey_cases hfound with hfold | ⟨hproduct, hone⟩ | ⟨hproduct, _⟩
      · exact keysAgree_of_declared hsame hacc hk hkey hfold
      · exact keysAgree_of_product hsame hacc hk hkey hne hproduct hone
      · exact keysAgree_of_family hkey hproduct

end Merge

/-- What one provider gives a namespace it holds. -/
structure NamespaceHolder where
  pools : Pools
  /-- What the namespace may borrow past it, nothing when the provider counts no borrowing. -/
  borrow : GoMap String NamespaceBorrow

/-- `reachPools`: each limit raised by its cap. -/
def NamespaceHolder.reachPools (h : NamespaceHolder) : Pools :=
  h.pools.mapValues fun accType p =>
    match h.borrow.find? accType with
    | some b => { p with limit := p.limit + b.cap }
    | none => p

/-- The budgets of a borrowing namespace in a pass. -/
structure NsBudget where
  guaranteed : Figures
  reach : Figures
  clamped : Clamped guaranteed
  distinct : DistinctKeys guaranteed
  agree : ∀ acc, KeysAgree guaranteed acc (budgetKey reach acc)

theorem owned_reachPools (holders : List NamespaceHolder) (name : String) :
    Owned (holders.map NamespaceHolder.reachPools) name ↔
      Owned (holders.map NamespaceHolder.pools) name := by
  simp only [Owned, OwnLists, List.mem_map, exists_exists_and_eq_and, NamespaceHolder.reachPools,
    GoMap.keys_mapValues]

/-- The budgets a namespace starts a pass with: the guaranteed one merged with the declared
accelerators as keys, the reach without. -/
def nsBudget (holders : List NamespaceHolder) (hne : holders ≠ []) (cluster : List Pools)
    (declared : List String) : NsBudget where
  guaranteed := mergeNamespace (holders.map NamespaceHolder.pools) cluster declared
  reach := mergeNamespace (holders.map NamespaceHolder.reachPools) cluster []
  clamped := clamped_mergeNames _ _
  distinct := distinctKeys_mergeNames
  agree := keysAgree_merge (owned_reachPools holders) (fun h => hne (List.map_eq_nil_iff.mp h))
    cluster declared

/-- `debitBudget` on both budgets, for each key spent under. -/
def NsBudget.debit (b : NsBudget) (spends : List (String × ℕ)) : NsBudget where
  guaranteed := debitAll b.guaranteed spends
  reach := debitAll b.reach spends
  clamped := b.clamped.debitAll spends
  distinct := by
    rw [DistinctKeys, keys_debitAll]
    exact b.distinct
  agree acc := by
    rw [budgetKey_of_keys (keys_debitAll b.reach spends)]
    exact (b.agree acc).debitAll b.distinct spends

/-- A key's figure falls with that of a key that covers all that is spent for a key it covers: it is
itself that key, or a product that holds as much as its family. -/
theorem NsBudget.exists_debited (b : NsBudget) {key : String} (hk : k ∈ b.guaranteed.keys)
    (hkey : key ∈ b.guaranteed.keys) (hcover : covers k key = true) :
    ∃ f ∈ b.guaranteed.keys, figureAt b.guaranteed f = figureAt b.guaranteed k ∧
      (∀ spends, figureAt (b.debit spends).guaranteed k ≤ figureAt (b.debit spends).guaranteed f) ∧
      ∀ acc, budgetKey b.guaranteed acc = key → covers f (budgetKey b.reach acc) = true := by
  by_cases hshared : fold k = fold key ∧ ∃ f ∈ b.guaranteed.keys, isProductOf key f = true ∧
      figureAt b.guaranteed key = figureAt b.guaranteed f
  · obtain ⟨hfold, f, hf, hproduct, heq⟩ := hshared
    obtain rfl := b.distinct k hk key hkey hfold
    refine ⟨f, hf, heq.symm, fun spends => ?_, fun acc hacc => ?_⟩
    · exact (figureAt_debitAll_eq b.distinct hk hf hproduct heq spends).le
    · cases b.agree acc with
      | denied hdenied => exact absurd (hacc ▸ hk) hdenied
      | covered hcovered =>
        rw [hacc] at hcovered
        exact covers_trans (covers_iff.mpr (.inr hproduct)) hcovered
      | shared f' _ _ hcover' hproduct' _ =>
        rw [hacc] at hproduct'
        rwa [covers_congr (fold_eq_of_isProductOf hproduct hproduct') rfl]
  · refine ⟨k, hk, rfl, fun _ => le_rfl, fun acc hacc => ?_⟩
    cases b.agree acc with
    | denied hdenied => exact absurd (hacc ▸ hkey) hdenied
    | covered hcovered =>
      rw [hacc] at hcovered
      exact covers_trans hcover hcovered
    | shared f hf _ hcover' hproduct heq =>
      rw [hacc] at hproduct heq
      rcases covers_iff.mp hcover with hfold | hproduct'
      · exact absurd ⟨hfold, f, hf, hproduct, heq⟩ hshared
      · rwa [covers_congr (fold_eq_of_isProductOf hproduct' hproduct) rfl]

end LlmScaler.Borrow
