import LlmScaler.Budget.Spend

/-!
# Debits repeated

Debits under one key add up, whatever is clamped between them. A debit never raises a figure and
keeps the order of two budgets, so leaving out some of a list of debits leaves at least as much
under every key.
-/

namespace LlmScaler.Budget

open Core Accelerator GoMap

theorem figures_ext {b b' : Figures} (hkeys : b.keys = b'.keys)
    (h : ∀ k ∈ b.keys, figureAt b k = figureAt b' k) : b = b' := by
  have hget : ∀ {b : Figures} {k : String}, k ∈ b.keys → b.get k = figureAt b k := by
    intro b k hk
    rw [get_of_find? (find_of_mem hk)]
  refine ext_keys hkeys fun k hk => ?_
  rw [hget hk, hget (hkeys ▸ hk), h k hk]

theorem figureAt_eq_zero {b : Figures} {k : String} (h : k ∉ b.keys) : figureAt b k = 0 := by
  cases hfind : b.find? k with
  | none => rw [figureAt, hfind, Option.getD_none]
  | some v => exact absurd (mem_keys.mpr ⟨v, hfind⟩) h

def taken (key : String) (n : ℕ) (k : String) : ℕ := if covers k key then n else 0

theorem taken_add (key : String) (m n : ℕ) (k : String) :
    taken key (m + n) k = taken key m k + taken key n k := by
  unfold taken
  split_ifs <;> rfl

theorem taken_le_of_isProductOf {p f : String} (h : isProductOf p f = true) (key : String)
    (n : ℕ) : taken key n p ≤ taken key n f := by
  unfold taken
  by_cases hp : covers p key = true
  · rw [if_pos hp, if_pos (covers_trans (covers_iff.mpr (.inr h)) hp)]
  · rw [if_neg hp]
    exact Nat.zero_le _

theorem le_figureAt_debitBudget {b : Figures} {k : String} (hk : k ∈ b.keys) (key : String)
    {n : ℕ} (hn : n ≠ 0) {x : ℕ∞} :
    x ≤ figureAt (debitBudget b key n) k ↔ x ≤ figureAt b k - taken key n k ∧
      ∀ f ∈ b.keys, isProductOf k f = true → x ≤ figureAt b f - taken key n f := by
  have hlowered : ∀ f ∈ b.keys, figureAt (b.mapValues fun other v =>
      if covers other key then v - n else v) f = figureAt b f - taken key n f := by
    intro f hf
    rw [figureAt_mapValues hf, taken]
    split_ifs <;> simp
  rw [debitBudget, if_neg hn, le_figureAt_clampProducts (by rwa [keys_mapValues]),
    keys_mapValues, hlowered k hk]
  constructor
  · rintro ⟨hown, hfamilies⟩
    refine ⟨hown, fun f hf hproduct => ?_⟩
    rw [← hlowered f hf]
    exact hfamilies f hf hproduct
  · rintro ⟨hown, hfamilies⟩
    refine ⟨hown, fun f hf hproduct => ?_⟩
    rw [hlowered f hf]
    exact hfamilies f hf hproduct

theorem debitBudget_debitBudget (b : Figures) (key : String) (m n : ℕ) :
    debitBudget (debitBudget b key m) key n = debitBudget b key (m + n) := by
  by_cases hm : m = 0
  · have hnone : debitBudget b key 0 = b := if_pos rfl
    rw [hm, Nat.zero_add, hnone]
  by_cases hn : n = 0
  · rw [hn, Nat.add_zero, debitBudget, if_pos rfl]
  have hmn : m + n ≠ 0 := by omega
  refine figures_ext (by simp only [keys_debitBudget]) fun k hk => ?_
  simp only [keys_debitBudget] at hk
  refine eq_of_forall_le_iff fun x => ?_
  rw [le_figureAt_debitBudget (by rwa [keys_debitBudget]) key hn,
    le_figureAt_debitBudget hk key hmn, keys_debitBudget]
  have hsub : ∀ f, figureAt b f - taken key m f - taken key n f =
      figureAt b f - taken key (m + n) f := by
    intro f
    rw [tsub_tsub, taken_add, Nat.cast_add]
  constructor
  · rintro ⟨hown, hfamilies⟩
    constructor
    · rw [← hsub]
      exact hown.trans (tsub_le_tsub_right ((le_figureAt_debitBudget hk key hm).mp le_rfl).1 _)
    · intro f hf hproduct
      rw [← hsub]
      exact (hfamilies f hf hproduct).trans
        (tsub_le_tsub_right ((le_figureAt_debitBudget hf key hm).mp le_rfl).1 _)
  · rintro ⟨hown, hfamilies⟩
    -- what the first debit clamped a product to is a figure of its family, and the second debit
    -- takes no more from the product than from the family
    have hafter : ∀ q ∈ b.keys, ∀ y : ℕ∞, y ≤ figureAt b q - taken key (m + n) q →
        (∀ f ∈ b.keys, isProductOf q f = true → y ≤ figureAt b f - taken key (m + n) f) →
        y ≤ figureAt (debitBudget b key m) q - taken key n q := by
      intro q hq y hqown hqfamilies
      rw [le_sub_iff]
      by_cases hy : y = 0
      · exact .inl hy
      · refine .inr ((le_figureAt_debitBudget hq key hm).mpr ⟨?_, fun f hf hproduct => ?_⟩)
        · rw [← hsub, le_sub_iff] at hqown
          exact hqown.resolve_left hy
        · have hfamily := hqfamilies f hf hproduct
          rw [← hsub, le_sub_iff] at hfamily
          refine le_trans ?_ (hfamily.resolve_left hy)
          gcongr
          exact taken_le_of_isProductOf hproduct key n
    refine ⟨hafter k hk x hown hfamilies, fun f hf hproduct => ?_⟩
    refine hafter f hf x (hfamilies f hf hproduct) fun g _ hfg => ?_
    exact (not_isProductOf_isProductOf hproduct hfg).elim

theorem debitAll_append (b : Figures) (xs ys : List (String × ℕ)) :
    debitAll b (xs ++ ys) = debitAll (debitAll b xs) ys :=
  List.foldl_append

/-- A budget with the keys of another and nowhere more than it. -/
structure Within (b b' : Figures) : Prop where
  keys : b.keys = b'.keys
  figureAt_le : ∀ k, figureAt b k ≤ figureAt b' k

theorem Within.refl (b : Figures) : Within b b := ⟨rfl, fun _ => le_rfl⟩

theorem Within.trans {b b' b'' : Figures} (h : Within b b') (h' : Within b' b'') : Within b b'' :=
  ⟨h.keys.trans h'.keys, fun k => (h.figureAt_le k).trans (h'.figureAt_le k)⟩

theorem debitBudget_within (b : Figures) (key : String) (n : ℕ) :
    Within (debitBudget b key n) b := by
  refine ⟨keys_debitBudget b key n, fun k => ?_⟩
  by_cases hk : k ∈ b.keys
  · exact (figureAt_debitBudget_le hk key n).trans tsub_le_self
  · rw [figureAt_eq_zero (by rwa [keys_debitBudget])]
    exact zero_le

theorem Within.debitBudget {b b' : Figures} (h : Within b b') (key : String) (n : ℕ) :
    Within (debitBudget b key n) (debitBudget b' key n) := by
  refine ⟨by rw [keys_debitBudget, keys_debitBudget, h.keys], fun k => ?_⟩
  by_cases hn : n = 0
  · rw [Budget.debitBudget, Budget.debitBudget, if_pos hn, if_pos hn]
    exact h.figureAt_le k
  by_cases hk : k ∈ b.keys
  · obtain ⟨hown, hfamilies⟩ := (le_figureAt_debitBudget hk key hn).mp le_rfl
    refine (le_figureAt_debitBudget (h.keys ▸ hk) key hn).mpr ⟨?_, fun f hf hproduct => ?_⟩
    · exact hown.trans (tsub_le_tsub_right (h.figureAt_le k) _)
    · exact (hfamilies f (h.keys ▸ hf) hproduct).trans (tsub_le_tsub_right (h.figureAt_le f) _)
  · rw [figureAt_eq_zero (by rwa [keys_debitBudget])]
    exact zero_le

theorem Within.debitAll {b b' : Figures} (h : Within b b') {xs ys : List (String × ℕ)}
    (hsub : ys.Sublist xs) : Within (debitAll b xs) (debitAll b' ys) := by
  induction hsub generalizing b b' with
  | slnil => exact h
  | cons x _ ih => exact ih ((debitBudget_within b x.1 x.2).trans h)
  | cons_cons x _ ih => exact ih (h.debitBudget x.1 x.2)

end LlmScaler.Budget
