import LlmScaler.Core.Sums

/-!
# Limits

A limit is a natural number or no bound at all. Several limits hold together as the tightest of
them, and a group of limits holds as their sum, which bounds nothing when one of them does not.
What is spent is subtracted, never below zero.
-/

namespace LlmScaler.Core

open List

variable {α : Type*}

/-- The smaller of two limits is the one of their linear order, which computes; the complete lattice
of `ℕ∞` does not. -/
instance (priority := high) instSemilatticeInfLimit : SemilatticeInf ℕ∞ :=
  instDistribLatticeOfLinearOrder.toSemilatticeInf

/-- The larger of two limits, likewise. -/
instance (priority := high) instSemilatticeSupLimit : SemilatticeSup ℕ∞ :=
  instDistribLatticeOfLinearOrder.toSemilatticeSup

/-- The tightest of several limits; no limit bounds nothing. -/
def tightest (limits : List ℕ∞) : ℕ∞ := limits.foldr (· ⊓ ·) ⊤

@[simp] theorem tightest_nil : tightest [] = ⊤ := rfl

@[simp] theorem tightest_cons (a : ℕ∞) (l : List ℕ∞) : tightest (a :: l) = a ⊓ tightest l := rfl

theorem le_tightest {x : ℕ∞} {l : List ℕ∞} : x ≤ tightest l ↔ ∀ a ∈ l, x ≤ a := by
  induction l with
  | nil => simp
  | cons a l ih => rw [tightest_cons, le_inf_iff, ih, forall_mem_cons]

theorem tightest_le {l : List ℕ∞} {a : ℕ∞} (h : a ∈ l) : tightest l ≤ a :=
  le_tightest.mp le_rfl a h

/-- What is left after spending allows nothing, or what it allows beside what was spent. -/
theorem le_sub_iff {a b : ℕ∞} {n : ℕ} : a ≤ b - n ↔ a = 0 ∨ a + n ≤ b := by
  induction b using ENat.recTopCoe with
  | top => simp
  | coe b =>
    induction a using ENat.recTopCoe with
    | top => simp
    | coe a =>
      norm_cast
      omega

theorem inf_sub_le {a a' b b' : ℕ∞} {n : ℕ} (ha : a' ≤ a - n) (hb : b' ≤ b - n) :
    a' ⊓ b' ≤ a ⊓ b - n := by
  rw [le_sub_iff, or_iff_not_imp_left]
  intro hpos
  apply le_inf
  · exact (le_sub_iff.mp (inf_le_of_left_le ha)).resolve_left hpos
  · exact (le_sub_iff.mp (inf_le_of_right_le hb)).resolve_left hpos

theorem tightest_sub_le {l : List α} {f g : α → ℕ∞} {n : ℕ} (h : ∀ a ∈ l, g a ≤ f a - n) :
    tightest (l.map g) ≤ tightest (l.map f) - n := by
  rw [le_sub_iff, or_iff_not_imp_left]
  intro hpos
  rw [le_tightest, forall_mem_map]
  intro a ha
  have hle : tightest (l.map g) ≤ f a - n := (tightest_le (mem_map_of_mem ha)).trans (h a ha)
  exact (le_sub_iff.mp hle).resolve_left hpos

/-- Spending under each of a group of limits, none of them overspent, is spending the sum. -/
theorem sum_sub_le {l : List α} {f g : α → ℕ∞} {d : α → ℕ} (hd : ∀ a ∈ l, (d a : ℕ∞) ≤ f a)
    (h : ∀ a ∈ l, g a ≤ f a - d a) :
    (l.map g).sum ≤ (l.map f).sum - ((l.map d).sum : ℕ) := by
  apply ENat.le_sub_of_add_le_right (ENat.natCast_ne_top _)
  induction l with
  | nil => simp
  | cons a l ih =>
    have hhead : g a + d a ≤ f a := by
      calc g a + d a ≤ f a - d a + d a := by gcongr; exact h a mem_cons_self
        _ = f a := tsub_add_cancel_of_le (hd a mem_cons_self)
    have htail := ih (fun b hb => hd b (mem_cons_of_mem a hb))
      fun b hb => h b (mem_cons_of_mem a hb)
    rw [map_cons, map_cons, map_cons, sum_cons, sum_cons, sum_cons,
      Nat.cast_add, add_add_add_comm]
    exact add_le_add hhead htail

/-- Groups that take in every element that counts, each within its limit, bound the list by the sum
of the limits. -/
theorem sum_le_sum_limits {κ : Type*} {ks : List κ} {test : κ → α → Bool} {f : α → ℕ}
    {limit : κ → ℕ∞} {as : List α} (hcover : ∀ a ∈ as, f a ≠ 0 → ∃ k ∈ ks, test k a = true)
    (hlimit : ∀ k ∈ ks, (((as.filter (test k)).map f).sum : ℕ∞) ≤ limit k) :
    ((as.map f).sum : ℕ∞) ≤ (ks.map limit).sum := by
  calc ((as.map f).sum : ℕ∞)
      ≤ ((ks.map fun k => ((as.filter (test k)).map f).sum).sum : ℕ) := by
        exact_mod_cast sum_le_sum_groups hcover
    _ ≤ (ks.map limit).sum := by
        clear hcover
        induction ks with
        | nil => simp
        | cons k ks ih =>
          obtain ⟨hk, hks⟩ := forall_mem_cons.mp hlimit
          rw [map_cons, map_cons, sum_cons, sum_cons, Nat.cast_add]
          exact add_le_add hk (ih hks)

theorem exists_shares {l : List α} {f : α → ℕ∞} {n : ℕ} (h : (n : ℕ∞) ≤ (l.map f).sum) :
    ∃ shares : List (α × ℕ), shares.map Prod.fst = l ∧ (∀ e ∈ shares, (e.2 : ℕ∞) ≤ f e.1) ∧
      (shares.map Prod.snd).sum = n := by
  induction l generalizing n with
  | nil =>
    rw [map_nil, sum_nil, nonpos_iff_eq_zero, Nat.cast_eq_zero] at h
    exact ⟨[], rfl, fun e he => absurd he not_mem_nil, h.symm⟩
  | cons a l ih =>
    obtain ⟨m, hmf, hmn, hrest⟩ : ∃ m : ℕ, (m : ℕ∞) ≤ f a ∧ m ≤ n ∧
        ((n - m : ℕ) : ℕ∞) ≤ (l.map f).sum := by
      rw [map_cons, sum_cons] at h
      by_cases hn : (n : ℕ∞) ≤ f a
      · exact ⟨n, hn, le_rfl, by simp⟩
      · obtain ⟨m, hm⟩ := ENat.ne_top_iff_exists.mp (ne_top_of_lt (not_le.mp hn))
        rw [← hm, not_le, Nat.cast_lt] at hn
        rw [← hm] at h
        refine ⟨m, hm.le, hn.le, ?_⟩
        rw [ENat.natCast_sub]
        exact tsub_le_iff_left.mpr h
    obtain ⟨shares, hfst, hle, hsum⟩ := ih hrest
    refine ⟨(a, m) :: shares, by rw [map_cons, hfst], ?_, ?_⟩
    · exact forall_mem_cons.mpr ⟨hmf, hle⟩
    · rw [map_cons, sum_cons, hsum]
      omega

end LlmScaler.Core
