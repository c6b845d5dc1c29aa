import Mathlib

/-!
# Sorting a slice

`sort.Slice` orders a slice by a comparison and leaves the order of equal elements unspecified. A
`Sorting` is any function that does so: results that hold for each of them hold whatever the
order of equal elements.
-/

namespace LlmScaler.Core

open List

/-- A function that sorts by a comparison. -/
structure Sorting {α : Type*} (less : α → α → Bool) where
  sort : List α → List α
  perm : ∀ l, (sort l).Perm l
  sorted : ∀ l, (sort l).Pairwise fun a b => less b a = false

theorem pairwise_insertionSort_key {α κ : Type*} [LinearOrder κ] (key : α → κ) (l : List α) :
    (l.insertionSort fun b c => key b ≤ key c).Pairwise fun b c => key b ≤ key c := by
  have : Std.Total fun a b : α => key a ≤ key b := ⟨fun a b => le_total _ _⟩
  have : IsTrans α fun a b : α => key a ≤ key b := ⟨fun a b c => le_trans⟩
  exact pairwise_insertionSort _ l

namespace Sorting

variable {α : Type*} {less : α → α → Bool} (s : Sorting less)

@[simp] theorem mem_sort {a : α} {l : List α} : a ∈ s.sort l ↔ a ∈ l := (s.perm l).mem_iff

/-- Sorting by a key, equal elements in their given order. -/
def byKey {κ : Type*} [LinearOrder κ] (key : α → κ) :
    Sorting fun a b => decide (key a < key b) where
  sort l := l.insertionSort fun a b => key a ≤ key b
  perm l := perm_insertionSort _ l
  sorted l := (pairwise_insertionSort_key key l).imp fun h => decide_eq_false (not_lt.mpr h)

end Sorting

section Selection

variable {α κ : Type*} [LinearOrder κ] (key : α → κ) (p : α → Bool)

private theorem filter_orderedInsert (a : α) {l : List α}
    (h : l.Pairwise fun b c => key b ≤ key c) :
    (l.orderedInsert (fun b c => key b ≤ key c) a).filter p =
      if p a then (l.filter p).orderedInsert (fun b c => key b ≤ key c) a else l.filter p := by
  induction l with
  | nil => by_cases hp : p a = true <;> simp [hp]
  | cons b l ih =>
    obtain ⟨hb, hl⟩ := pairwise_cons.mp h
    by_cases hab : key a ≤ key b
    · rw [orderedInsert_cons_of_le (fun b c : α => key b ≤ key c) l hab, filter_cons]
      split_ifs with hp
      · -- everything the selection keeps stands behind `b`, so `a` goes first
        have hall : ∀ c ∈ (b :: l).filter p, key a ≤ key c := by
          intro c hc
          rcases mem_cons.mp (mem_filter.mp hc).1 with rfl | hc
          · exact hab
          · exact hab.trans (hb c hc)
        cases hf : (b :: l).filter p with
        | nil => rfl
        | cons c cs =>
          rw [orderedInsert_cons_of_le (fun b c : α => key b ≤ key c) cs
            (hall c (by simp [hf]))]
      · rfl
    · rw [orderedInsert_of_not_le (fun b c : α => key b ≤ key c) l hab, filter_cons,
        ih hl, filter_cons]
      by_cases hpa : p a = true
      · by_cases hpb : p b = true
        · rw [if_pos hpb, if_pos hpa, if_pos hpa, if_pos hpb,
            orderedInsert_of_not_le (fun b c : α => key b ≤ key c) _ hab]
        · rw [if_neg hpb, if_pos hpa, if_pos hpa, if_neg hpb]
      · by_cases hpb : p b = true
        · rw [if_pos hpb, if_neg hpa, if_neg hpa, if_pos hpb]
        · rw [if_neg hpb, if_neg hpa, if_neg hpa, if_neg hpb]

theorem filter_insertionSort (l : List α) :
    (l.insertionSort fun b c => key b ≤ key c).filter p =
      (l.filter p).insertionSort fun b c => key b ≤ key c := by
  induction l with
  | nil => rfl
  | cons a l ih =>
    rw [insertionSort_cons, filter_orderedInsert key p a (pairwise_insertionSort_key key l),
      filter_cons, ih]
    split_ifs with hp
    · rw [insertionSort_cons]
    · rfl

end Selection

end LlmScaler.Core
