import LlmScaler.Budget.Acceptance
import LlmScaler.Budget.Debits

/-!
# Spending a demand entry by entry

The optimizer spends one entry after another, each read with `budgetOf` and debited with
`debitBudget` at its key; the placement check adds the demand up per covering key once. On a budget
where no key holds more than the keys that cover it both accept the same demands.
-/

namespace LlmScaler.Budget

open Core Accelerator GoMap

/-- Spends entries one after another, and whether each one finds enough. -/
def spendsInTurn : Option Figures → List (String × ℕ) → Bool
  | _, [] => true
  | budgets, (name, need) :: rest =>
    decide ((need : ℕ∞) ≤ budgetOf budgets name) &&
      spendsInTurn (budgets.map fun b => debitBudget b (budgetKey b name) need) rest

def keyed (b : Figures) (entries : List (String × ℕ)) : List (String × ℕ) :=
  entries.map fun e => (budgetKey b e.1, e.2)

/-- What the keys that entries are spent under hold, every key that covers them holds. -/
def CoveringHolds (b : Figures) (entries : List (String × ℕ)) : Prop :=
  ∀ e ∈ entries, ∀ key, findBudgetKey b e.1 = some key → ∀ k ∈ b.keys, covers k key = true →
    figureAt b key ≤ figureAt b k

@[simp] theorem keyed_cons (b : Figures) (e : String × ℕ) (entries : List (String × ℕ)) :
    keyed b (e :: entries) = (budgetKey b e.1, e.2) :: keyed b entries := rfl

theorem keyed_of_keys {b b' : Figures} (h : b'.keys = b.keys) (entries : List (String × ℕ)) :
    keyed b' entries = keyed b entries :=
  List.map_congr_left fun e _ => by rw [budgetKey_of_keys h]

theorem spendsInTurn_none (entries : List (String × ℕ)) : spendsInTurn none entries = true := by
  induction entries with
  | nil => rfl
  | cons e entries ih =>
    rw [spendsInTurn, Bool.and_eq_true, decide_eq_true_eq]
    exact ⟨le_top, ih⟩

private theorem le_budgetOf {b : Figures} {name : String} {need : ℕ} (hneed : need ≠ 0) :
    (need : ℕ∞) ≤ budgetOf (some b) name ↔
      ∃ key, findBudgetKey b name = some key ∧ (need : ℕ∞) ≤ figureAt b key := by
  rw [budgetOf]
  cases hfind : findBudgetKey b name with
  | none => simp [hneed]
  | some key => simp

private theorem spentWhere_le_of_isProductOf {k f : String} (h : isProductOf k f = true)
    (spends : List (String × ℕ)) :
    spentWhere (covers k ·) spends ≤ spentWhere (covers f ·) spends :=
  spentWhere_mono fun _ _ hcover => covers_trans (covers_iff.mpr (.inr h)) hcover

private theorem forall_le_debit {b : Figures} {key : String} {need : ℕ} (hneed : need ≠ 0)
    (hholds : ∀ k ∈ b.keys, covers k key = true → (need : ℕ∞) ≤ figureAt b k)
    (spends : List (String × ℕ)) :
    (∀ k ∈ b.keys, (spentWhere (covers k ·) spends : ℕ∞) ≤ figureAt (debitBudget b key need) k) ↔
      ∀ k ∈ b.keys, (spentWhere (covers k ·) ((key, need) :: spends) : ℕ∞) ≤ figureAt b k := by
  have hboth : ∀ k ∈ b.keys,
      (spentWhere (covers k ·) spends : ℕ∞) ≤ figureAt b k - taken key need k ↔
        (spentWhere (covers k ·) ((key, need) :: spends) : ℕ∞) ≤ figureAt b k := by
    intro k hk
    rw [spentWhere_cons, Nat.add_comm, Nat.cast_add, le_sub_iff]
    constructor
    · rintro (hzero | hle)
      · -- nothing is spent on the key afterwards, so it has to hold this entry alone
        rw [hzero, zero_add]
        split_ifs with hcover
        · exact hholds k hk hcover
        · exact zero_le
      · exact hle
    · exact .inr
  constructor
  · intro h k hk
    exact (hboth k hk).mp ((le_figureAt_debitBudget hk key hneed).mp (h k hk)).1
  · intro h k hk
    refine (le_figureAt_debitBudget hk key hneed).mpr ⟨(hboth k hk).mpr (h k hk), ?_⟩
    intro f hf hproduct
    refine le_trans ?_ ((hboth f hf).mpr (h f hf))
    exact_mod_cast spentWhere_le_of_isProductOf hproduct spends

/-- Entries spent one after another all find enough exactly when each has a key and every key
holds all that is spent under the keys it covers. -/
theorem spendsInTurn_iff {b : Figures} (hdistinct : DistinctKeys b)
    {entries : List (String × ℕ)} (hholds : CoveringHolds b entries) :
    spendsInTurn (some b) entries = true ↔
      (∀ e ∈ entries, e.2 ≠ 0 → ∃ key, findBudgetKey b e.1 = some key) ∧
        ∀ k ∈ b.keys, (spentWhere (covers k ·) (keyed b entries) : ℕ∞) ≤ figureAt b k := by
  induction entries generalizing b with
  | nil => simp [spendsInTurn, keyed]
  | cons e entries ih =>
    obtain ⟨name, need⟩ := e
    obtain ⟨hhead, htail⟩ := List.forall_mem_cons.mp hholds
    rw [spendsInTurn, Bool.and_eq_true, decide_eq_true_eq, Option.map_some, List.forall_mem_cons]
    by_cases hneed : need = 0
    · have hsame : debitBudget b (budgetKey b name) need = b := if_pos hneed
      rw [hsame, ih hdistinct htail]
      simp only [hneed, keyed_cons, spentWhere_cons, ite_self, Nat.zero_add, ne_eq,
        not_true_eq_false, Nat.cast_zero, zero_le, true_and, false_implies]
    rw [le_budgetOf hneed]
    have hkeys := keys_debitBudget b (budgetKey b name) need
    have hdistinct' : DistinctKeys (debitBudget b (budgetKey b name) need) := by
      rwa [DistinctKeys, hkeys]
    have hholds' : CoveringHolds (debitBudget b (budgetKey b name) need) entries :=
      fun e _ key hkey k hk hcover => (clamped_debitBudget b _ hneed).le hdistinct' hk
        (findBudgetKey_mem hkey) hcover
    rw [ih hdistinct' hholds', keyed_of_keys hkeys, hkeys]
    simp only [findBudgetKey_of_keys hkeys]
    constructor
    · rintro ⟨⟨key, hkey, hle⟩, hfound, hwithin⟩
      have hbudget : budgetKey b name = key := by rw [budgetKey, hkey, Option.getD_some]
      rw [hbudget] at hwithin
      refine ⟨⟨fun _ => ⟨key, hkey⟩, hfound⟩, ?_⟩
      rw [keyed_cons, hbudget]
      exact (forall_le_debit hneed (fun k hk hcover => hle.trans (hhead key hkey k hk hcover))
        (keyed b entries)).mp hwithin
    · rintro ⟨⟨hown, hfound⟩, hwithin⟩
      obtain ⟨key, hkey⟩ := hown hneed
      have hbudget : budgetKey b name = key := by rw [budgetKey, hkey, Option.getD_some]
      rw [keyed_cons, hbudget] at hwithin
      have hle : ∀ k ∈ b.keys, covers k key = true → (need : ℕ∞) ≤ figureAt b k := by
        intro k hk hcover
        refine le_trans ?_ (hwithin k hk)
        rw [spentWhere_cons, if_pos hcover]
        exact_mod_cast Nat.le_add_right _ _
      refine ⟨⟨key, hkey, hle key (findBudgetKey_mem hkey) (covers_self key)⟩, hfound, ?_⟩
      rw [hbudget]
      exact (forall_le_debit hneed hle (keyed b entries)).mpr hwithin

section Check

variable {constraints : List ResourceConstraints} {ns : String} {demand : Demand}

/-- In the budgets of a namespace no two keys are spellings of one name, and no key of a named
accelerator holds more than the keys that cover it. -/
private theorem gpuBudgets_covering {declared : List String} {b : Figures}
    (hb : (gpuBudgets constraints ns declared).1 = some b) :
    DistinctKeys b ∧ ∀ key ∈ b.keys, isNamed key = true → ∀ k ∈ b.keys, covers k key = true →
      figureAt b key ≤ figureAt b k := by
  by_cases hheld : namespaceHolders constraints ns = []
  · rw [gpuBudgets_of_not_held hheld] at hb
    by_cases hne : clusterPools constraints = []
    · rw [mergeConstraints_eq_none _ hne] at hb
      cases hb
    · rw [mergeConstraints_eq _ hne] at hb
      cases hb
      exact ⟨distinctKeys_mergeNames, fun key hkey _ k hk hcover =>
        (clamped_mergeNames _ _).le distinctKeys_mergeNames hk hkey hcover⟩
  · rw [gpuBudgets_of_held hheld] at hb
    cases hb
    refine ⟨?_, fun key hkey hnamed k hk hcover => ?_⟩
    · rw [DistinctKeys, keys_mapValues]
      exact distinctKeys_mergeNames
    · rw [keys_mapValues] at hkey hk
      have hknamed := isNamed_of_covers hnamed hcover
      rw [figureAt_mapValues hkey, figureAt_mapValues hk]
      refine inf_le_inf ((clamped_mergeNames _ _).le distinctKeys_mergeNames hk hkey hcover) ?_
      rw [mergeWithAllowanceKeys, clusterBudgetFor_getD constraints hnamed (mem_allowanceKeys hkey),
        clusterBudgetFor_getD constraints hknamed (mem_allowanceKeys hk)]
      rcases covers_iff.mp hcover with hfold | hproduct
      · exact (clusterFigure_congr poolBound _ hknamed hfold).ge
      · exact clusterFigure_mono poolBound _ hproduct

private theorem spentWhere_keyed {b : Figures} {entries : List (String × ℕ)}
    (hperm : entries.Perm (GoMap.bindings demand)) (k : String) :
    spentWhere (covers k ·) (keyed b entries) = drawnUnder b demand.entries k := by
  have hkeyed := ((hperm.map fun e => (budgetKey b e.1, e.2)).filter fun s => covers k s.1).map
    Prod.snd
  rw [spentWhere, keyed, hkeyed.sum_eq, drawnUnder, GoMap.bindings, List.map_map, List.filter_map,
    List.map_map]
  rfl

/-- The check accepts a demand exactly when its entries, spent one after another on the budgets the
check reads, always find enough; one order of the entries does exactly when every order does. -/
theorem fitsGPUBudget_iff_spendsInTurn (constraints : List ResourceConstraints) (ns : String)
    (demand : Demand) (hnamed : ∀ n ∈ demand.keys, isNamed n = true) :
    (∀ entries : List (String × ℕ), entries.Perm (GoMap.bindings demand) →
      (fitsGPUBudget constraints ns demand = true ↔
        spendsInTurn (gpuBudgets constraints ns demand.keys).1 entries = true)) ∧
    ((∃ entries : List (String × ℕ), entries.Perm (GoMap.bindings demand) ∧
        spendsInTurn (gpuBudgets constraints ns demand.keys).1 entries = true) ↔
      ∀ entries : List (String × ℕ), entries.Perm (GoMap.bindings demand) →
        spendsInTurn (gpuBudgets constraints ns demand.keys).1 entries = true) := by
  have heach : ∀ entries : List (String × ℕ), entries.Perm (GoMap.bindings demand) →
      (fitsGPUBudget constraints ns demand = true ↔
        spendsInTurn (gpuBudgets constraints ns demand.keys).1 entries = true) := by
    intro entries hperm
    unfold fitsGPUBudget
    cases hb : gpuBudgets constraints ns demand.keys with
    | mk budgets nsScoped =>
      cases budgets with
      | none => exact iff_of_true rfl (spendsInTurn_none entries)
      | some b =>
        obtain ⟨hdistinct, hcovering⟩ := gpuBudgets_covering (congrArg Prod.fst hb)
        have hmem : ∀ e ∈ entries, e.1 ∈ demand.keys := fun e he =>
          mem_keys.mpr ⟨e.2, mem_bindings.mp (hperm.mem_iff.mp he)⟩
        have hholds : CoveringHolds b entries := fun e he key hkey k hk hcover =>
          hcovering key (findBudgetKey_mem hkey)
            (isNamed_of_findBudgetKey (hnamed e.1 (hmem e he)) hkey) k hk hcover
        rw [spendsInTurn_iff hdistinct hholds, drawable_iff_drawn
          fun n hn => ne_default_of_isNamed (hnamed n hn)]
        simp only [spentWhere_keyed hperm]
        refine and_congr_left fun _ => ?_
        constructor
        · intro h e he hneed
          exact h ⟨e.1, e.2⟩ (mem_entries.mpr (mem_bindings.mp (hperm.mem_iff.mp he)))
            hneed
        · intro h e he hneed
          exact h (e.1, e.2) (hperm.mem_iff.mpr (mem_bindings.mpr (mem_entries.mp he)))
            hneed
  refine ⟨heach, ?_, ?_⟩
  · rintro ⟨entries, hperm, hspends⟩ entries' hperm'
    exact (heach entries' hperm').mp ((heach entries hperm).mpr hspends)
  · intro h
    exact ⟨GoMap.bindings demand, List.Perm.refl _, h _ (List.Perm.refl _)⟩

/-- A cluster quota of two products of a family, and one of the family in a namespace. -/
private def familyQuotas : List ResourceConstraints :=
  [{ pools := GoMap.ofList [("NVIDIA-H100-80GB-HBM3", ⟨8, 0⟩), ("NVIDIA-H100-PCIE-80GB", ⟨8, 0⟩)]
     namespacePools := none, namespaceScoped := false, totalUsed := 0, totalAvail := 16 },
   { pools := ∅, namespacePools := some (GoMap.ofList [("chat", GoMap.ofList [("H100", ⟨12, 0⟩)])])
     namespaceScoped := true, totalUsed := 0, totalAvail := 12 }]

/-- Two products that fit their own figures and not their family's are refused either way. -/
theorem fitsGPUBudget_iff_spendsInTurn_family :
    fitsGPUBudget familyQuotas "chat"
        (GoMap.ofList [("NVIDIA-H100-80GB-HBM3", 8), ("NVIDIA-H100-PCIE-80GB", 8)]) = false ∧
      ¬ spendsInTurn (gpuBudgets familyQuotas "chat"
        (GoMap.ofList [("NVIDIA-H100-80GB-HBM3", 8), ("NVIDIA-H100-PCIE-80GB", 8)]).keys).1
        [("NVIDIA-H100-PCIE-80GB", 8), ("NVIDIA-H100-80GB-HBM3", 8)] = true := by
  have hrefused : fitsGPUBudget familyQuotas "chat"
      (GoMap.ofList [("NVIDIA-H100-80GB-HBM3", 8), ("NVIDIA-H100-PCIE-80GB", 8)]) = false := by
    decide
  refine ⟨hrefused, fun hspends => ?_⟩
  have hfits := ((fitsGPUBudget_iff_spendsInTurn familyQuotas "chat"
    (GoMap.ofList [("NVIDIA-H100-80GB-HBM3", 8), ("NVIDIA-H100-PCIE-80GB", 8)]) (by decide)).1 _
    (List.Perm.swap _ _ _)).mpr hspends
  rw [hrefused] at hfits
  cases hfits

/-- A cluster quota of two products whose family is spelled like a placeholder, and a namespace
allowance of one of them and of the placeholder. -/
private def placeholderQuotas : List ResourceConstraints :=
  [{ pools := GoMap.ofList [("nvidia-unresolved-a", ⟨8, 0⟩), ("nvidia-unresolved-b", ⟨8, 0⟩)]
     namespacePools := none, namespaceScoped := false, totalUsed := 0, totalAvail := 16 },
   { pools := ∅
     namespacePools := some (GoMap.ofList
       [("chat", GoMap.ofList [("unresolved", ⟨10, 0⟩), ("nvidia-unresolved-a", ⟨10, 0⟩)])])
     namespaceScoped := true, totalUsed := 0, totalAvail := 10 }]

/-- A product of a placeholder counts as resolved, and is spent though the check refuses it: the
placeholder's own key, never merged with the cluster's sum, holds nothing. -/
theorem spendsInTurn_of_refused :
    isAcceleratorResolved "nvidia-unresolved-a" = true ∧
      fitsGPUBudget placeholderQuotas "chat" (GoMap.ofList [("nvidia-unresolved-a", 5)]) = false ∧
      spendsInTurn (gpuBudgets placeholderQuotas "chat"
        (GoMap.ofList [("nvidia-unresolved-a", 5)]).keys).1 [("nvidia-unresolved-a", 5)] = true := by
  decide

end Check

end LlmScaler.Budget
