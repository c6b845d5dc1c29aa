import Mathlib

/-!
# Sums over lists grouped by a key

Grouping a list by distinct keys counts no element twice. Groups that miss nothing of the list count
all of it.
-/

namespace LlmScaler.Core

open List

variable {α κ : Type*} [DecidableEq κ]

theorem sum_indicator_le {ks : List κ} (h : ks.Nodup) (x : κ) (n : Nat) :
    (ks.map fun k => if k = x then n else 0).sum ≤ n := by
  rw [sum_map_eq_nsmul_single x _ fun k hk _ => if_neg hk, if_pos rfl]
  exact (Nat.mul_le_mul_right n (nodup_iff_count_le_one.mp h x)).trans_eq (one_mul n)

/-- The sums over the groups, element by element. -/
theorem sum_groups_eq {κ : Type*} (ks : List κ) (test : κ → α → Bool) (f : α → Nat)
    (as : List α) : (ks.map fun k => ((as.filter (test k)).map f).sum).sum =
      (as.map fun a => (ks.map fun k => if test k a then f a else 0).sum).sum := by
  induction as with
  | nil => simp
  | cons a as ih =>
    rw [map_cons, sum_cons, ← ih, ← sum_map_add]
    refine congrArg sum (map_congr_left fun k _ => ?_)
    by_cases hk : test k a = true
    · rw [filter_cons_of_pos hk, if_pos hk, map_cons, sum_cons]
    · rw [filter_cons_of_neg hk, if_neg hk, Nat.zero_add]

theorem sum_groups_le {ks : List κ} (h : ks.Nodup) (key : α → κ) (f : α → Nat) (as : List α) :
    (ks.map fun k => ((as.filter (key · = k)).map f).sum).sum ≤ (as.map f).sum := by
  rw [sum_groups_eq ks fun k a => key a = k]
  refine sum_le_sum fun a _ => ?_
  simp only [decide_eq_true_eq, eq_comm (a := key a)]
  exact sum_indicator_le h (key a) (f a)

theorem sum_le_sum_groups {α κ : Type*} {ks : List κ} {test : κ → α → Bool} {f : α → Nat}
    {as : List α} (h : ∀ a ∈ as, f a ≠ 0 → ∃ k ∈ ks, test k a = true) :
    (as.map f).sum ≤ (ks.map fun k => ((as.filter (test k)).map f).sum).sum := by
  rw [sum_groups_eq]
  refine sum_le_sum fun a ha => ?_
  by_cases hf : f a = 0
  · rw [hf]
    exact Nat.zero_le _
  · obtain ⟨k, hk, htest⟩ := h a ha hf
    have hmem := mem_map_of_mem (f := fun k => if test k a then f a else 0) hk
    simp only [htest, if_true] at hmem
    exact single_le_sum (fun _ _ => Nat.zero_le _) _ hmem

end LlmScaler.Core
