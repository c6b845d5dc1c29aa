import LlmScaler.Core.Tally
import LlmScaler.Budget.MergeSpec

/-!
# Spending a budget

A budget is clamped when no product has more than its family. Merges and debits clamp, so what a
product's key holds every key that covers it holds as well. A debit takes what was spent from
every key that covers the one it was spent under.
-/

namespace LlmScaler.Budget

open Core Accelerator GoMap

/-- No product has more than its family. -/
def Clamped (b : Figures) : Prop :=
  ∀ p ∈ b.keys, ∀ f ∈ b.keys, isProductOf p f = true → figureAt b p ≤ figureAt b f

variable {b : Figures}

theorem figureAt_clampProducts_family {f : String} (hf : f ∈ b.keys) (hfamily : isFamily f = true) :
    figureAt (clampProducts b) f = figureAt b f := by
  rw [clampProducts, figureAt_mapValues hf, if_pos hfamily]

theorem clamped_clampProducts (b : Figures) : Clamped (clampProducts b) := by
  intro p hp f hf hproduct
  rw [keys_clampProducts] at hp hf
  rw [figureAt_clampProducts_family hf (isProductOf_iff.mp hproduct).1]
  exact ((le_figureAt_clampProducts hp).mp le_rfl).2 f hf hproduct

theorem clamped_mergeNames (names : List String) (figure : String → Option ℕ∞) :
    Clamped (mergeNames names figure) :=
  clamped_clampProducts _

variable {k : String}

theorem Clamped.le (h : Clamped b) (hdistinct : DistinctKeys b) {s : String} (hk : k ∈ b.keys)
    (hs : s ∈ b.keys) (hcover : covers k s = true) : figureAt b s ≤ figureAt b k := by
  rcases covers_iff.mp hcover with hfold | hproduct
  · rw [hdistinct k hk s hs hfold]
  · exact h s hs k hk hproduct

@[simp] theorem keys_debitBudget (b : Figures) (key : String) (n : ℕ) :
    (debitBudget b key n).keys = b.keys := by
  unfold debitBudget
  split_ifs
  · rfl
  · rw [keys_clampProducts, keys_mapValues]

theorem Clamped.debitBudget (h : Clamped b) (key : String) (n : ℕ) :
    Clamped (debitBudget b key n) := by
  unfold Budget.debitBudget
  split_ifs
  · exact h
  · exact clamped_clampProducts _

theorem clamped_debitBudget (b : Figures) (key : String) {n : ℕ} (hn : n ≠ 0) :
    Clamped (debitBudget b key n) := by
  rw [debitBudget, if_neg hn]
  exact clamped_clampProducts _

theorem figureAt_debitBudget_le (hk : k ∈ b.keys) (key : String) (n : ℕ) :
    figureAt (debitBudget b key n) k ≤
      figureAt b k - (if covers k key then n else 0 : ℕ) := by
  unfold debitBudget
  by_cases hn : n = 0
  · rw [if_pos hn, hn, ite_self, Nat.cast_zero, tsub_zero]
  · rw [if_neg hn]
    have hle := ((le_figureAt_clampProducts (b := b.mapValues fun other v =>
      if covers other key then v - n else v) (by rwa [keys_mapValues])).mp le_rfl).1
    refine hle.trans_eq ?_
    rw [figureAt_mapValues hk]
    split_ifs <;> simp

theorem budgetKey_of_keys {b' : Figures} (h : b'.keys = b.keys) (name : String) :
    budgetKey b' name = budgetKey b name := by
  rw [budgetKey, budgetKey, findBudgetKey_of_keys h]

/-- Debits made one after another. -/
def debitAll (b : Figures) (spends : List (String × ℕ)) : Figures :=
  spends.foldl (fun b s => debitBudget b s.1 s.2) b

def spentWhere (test : String → Bool) (spends : List (String × ℕ)) : ℕ :=
  ((spends.filter fun s => test s.1).map Prod.snd).sum

@[simp] theorem spentWhere_nil (test : String → Bool) : spentWhere test [] = 0 := rfl

theorem spentWhere_cons (test : String → Bool) (s : String × ℕ) (spends : List (String × ℕ)) :
    spentWhere test (s :: spends) = (if test s.1 then s.2 else 0) + spentWhere test spends := by
  unfold spentWhere
  rw [List.filter_cons]
  split_ifs <;> simp

theorem spentWhere_mono {test test' : String → Bool} {spends : List (String × ℕ)}
    (h : ∀ s ∈ spends, test s.1 = true → test' s.1 = true) :
    spentWhere test spends ≤ spentWhere test' spends := by
  induction spends with
  | nil => exact Nat.le_refl _
  | cons s spends ih =>
    rw [List.forall_mem_cons] at h
    rw [spentWhere_cons, spentWhere_cons]
    apply Nat.add_le_add
    · split_ifs with htest htest'
      · exact Nat.le_refl _
      · exact absurd (h.1 htest) htest'
      · exact Nat.zero_le _
      · exact Nat.le_refl _
    · exact ih h.2

@[simp] theorem keys_debitAll (b : Figures) (spends : List (String × ℕ)) :
    (debitAll b spends).keys = b.keys := by
  induction spends generalizing b with
  | nil => rfl
  | cons s spends ih => exact (ih _).trans (keys_debitBudget b s.1 s.2)

theorem Clamped.debitAll (h : Clamped b) (spends : List (String × ℕ)) :
    Clamped (debitAll b spends) := by
  induction spends generalizing b with
  | nil => exact h
  | cons s spends ih => exact ih (h.debitBudget s.1 s.2)

theorem figureAt_debitAll_le (hk : k ∈ b.keys) (spends : List (String × ℕ)) :
    figureAt (debitAll b spends) k ≤ figureAt b k - (spentWhere (covers k ·) spends : ℕ) := by
  induction spends generalizing b with
  | nil => exact le_of_eq (by simp [debitAll])
  | cons s spends ih =>
    calc figureAt (debitAll b (s :: spends)) k
        ≤ figureAt (debitBudget b s.1 s.2) k - (spentWhere (covers k ·) spends : ℕ) :=
          ih (by rwa [keys_debitBudget])
      _ ≤ figureAt b k - (if covers k s.1 then s.2 else 0 : ℕ) -
            (spentWhere (covers k ·) spends : ℕ) :=
          tsub_le_tsub_right (figureAt_debitBudget_le hk s.1 s.2) _
      _ = figureAt b k - (spentWhere (covers k ·) (s :: spends) : ℕ) := by
          rw [tsub_tsub, spentWhere_cons, Nat.cast_add]

theorem figureAt_debitAll_mono (hk : k ∈ b.keys) (spends : List (String × ℕ)) :
    figureAt (debitAll b spends) k ≤ figureAt b k :=
  (figureAt_debitAll_le hk spends).trans tsub_le_self

/-- What was spent under each key, in the order the source debits it. -/
def sortedSpends (spent : GoMap String ℕ) : List (String × ℕ) :=
  (spent.keys.insertionSort (· ≤ ·)).map fun key => (key, spent.get key)

theorem spentWhere_sortedSpends (test : String → Bool) (spent : GoMap String ℕ) :
    spentWhere test (sortedSpends spent) = spent.sumWhere test := by
  have hperm : ((sortedSpends spent).filter fun s => test s.1).Perm
      ((spent.keys.map fun key => (key, spent.get key)).filter fun s => test s.1) :=
    ((List.perm_insertionSort (· ≤ ·) spent.keys).map _).filter _
  rw [spentWhere, (hperm.map Prod.snd).sum_eq, GoMap.sumWhere, entries_eq_map_keys,
    List.filter_map, List.filter_map, List.map_map, List.map_map]
  rfl

end LlmScaler.Budget
