import Mathlib

/-!
# Matching the elements of one list to distinct ones of another

A backtracking search finds a matching whenever there is one. Where an element is matched to any
that is not smaller, it is enough to compare the two lists in descending order, one by one.
-/

namespace LlmScaler.Core

open List

variable {α β : Type*}

/-- Each element of a list is related to one of its own in another. -/
def Matches (R : α → β → Prop) (as : List α) (bs : List β) : Prop :=
  ∃ picked, picked <+~ bs ∧ Forall₂ R as picked

section Order

variable {R : α → β → Prop} {as as' : List α} {bs bs' : List β}

theorem Matches.perm_left (h : Matches R as bs) (hperm : as'.Perm as) : Matches R as' bs := by
  obtain ⟨picked, hsub, hR⟩ := h
  obtain ⟨picked', hR', hperm'⟩ := perm_comp_forall₂ hperm hR
  exact ⟨picked', hperm'.subperm.trans hsub, hR'⟩

theorem matches_perm_left (hperm : as.Perm as') : Matches R as bs ↔ Matches R as' bs :=
  ⟨fun h => h.perm_left hperm.symm, fun h => h.perm_left hperm⟩

theorem matches_perm_right (hperm : bs.Perm bs') : Matches R as bs ↔ Matches R as bs' :=
  exists_congr fun _ => and_congr_left fun _ => hperm.subperm_left

end Order

section Assign

variable [DecidableEq β] (R : α → β → Bool)

/-- One of the others for each element: the first that leaves one for each element after it. -/
def assign : List α → List β → Option (List β)
  | [], _ => some []
  | a :: as, bs => bs.findSome? fun b =>
    if R a b then (assign as (bs.erase b)).map (b :: ·) else none

variable {R} {as : List α} {bs picked : List β}

theorem assign_spec (h : assign R as bs = some picked) :
    picked <+~ bs ∧ Forall₂ (fun a b => R a b = true) as picked := by
  induction as generalizing bs picked with
  | nil =>
    cases h
    exact ⟨nil_subperm, .nil⟩
  | cons a as ih =>
    obtain ⟨b, hb, hif⟩ := exists_of_findSome?_eq_some h
    split_ifs at hif with hR
    obtain ⟨ps, hps, rfl⟩ := Option.map_eq_some_iff.mp hif
    obtain ⟨hsub, hfits⟩ := ih hps
    exact ⟨((subperm_cons b).mpr hsub).trans (perm_cons_erase hb).symm.subperm, .cons hR hfits⟩

/-- The search finds a matching exactly when there is one. -/
theorem assign_isSome_iff :
    (assign R as bs).isSome = true ↔ Matches (fun a b => R a b = true) as bs := by
  constructor
  · intro h
    obtain ⟨picked, hpicked⟩ := Option.isSome_iff_exists.mp h
    exact ⟨picked, assign_spec hpicked⟩
  · rintro ⟨picked, hsub, hfits⟩
    induction hfits generalizing bs with
    | nil => rfl
    | @cons a b as ps hR _ ih =>
      rw [assign, findSome?_isSome_iff]
      refine ⟨b, hsub.subset mem_cons_self, ?_⟩
      rw [if_pos hR, Option.isSome_map]
      exact ih (erase_cons_head b ps ▸ hsub.erase b)

end Assign

section Descending

variable [LinearOrder α] {as bs : List α}

/-- No more elements reach a figure than of those they are matched to. -/
theorem Matches.countP_le (h : Matches (· ≤ ·) as bs) (t : α) :
    as.countP (t ≤ ·) ≤ bs.countP (t ≤ ·) := by
  obtain ⟨picked, hsub, hle⟩ := h
  refine le_trans ?_ (hsub.countP_le _)
  clear hsub
  induction hle with
  | nil => exact le_rfl
  | @cons a b as bs hab _ ih =>
    rw [countP_cons, countP_cons]
    by_cases ht : t ≤ a
    · simpa [ht, ht.trans hab] using ih
    · simp only [ht, decide_false, Bool.false_eq_true, if_false]
      omega

/-- In descending order the first of the others is not smaller than the first. -/
theorem zip_le_of_countP (has : as.Pairwise (· ≥ ·)) (hbs : bs.Pairwise (· ≥ ·))
    (h : ∀ t, as.countP (t ≤ ·) ≤ bs.countP (t ≤ ·)) : ∀ p ∈ as.zip bs, p.1 ≤ p.2 := by
  induction as generalizing bs with
  | nil => simp
  | cons a as ih =>
    cases bs with
    | nil => simp
    | cons b bs =>
      obtain ⟨ha, has⟩ := pairwise_cons.mp has
      obtain ⟨hb, hbs⟩ := pairwise_cons.mp hbs
      have hab : a ≤ b := by
        have hpos : 0 < (b :: bs).countP (a ≤ ·) := lt_of_lt_of_le (by simp) (h a)
        obtain ⟨c, hc, hac⟩ := countP_pos_iff.mp hpos
        rcases mem_cons.mp hc with rfl | hc
        · exact of_decide_eq_true hac
        · exact (of_decide_eq_true hac).trans (hb c hc)
      rw [zip_cons_cons, forall_mem_cons]
      refine ⟨hab, ih has hbs fun t => ?_⟩
      by_cases ht : t ≤ a
      · simpa [countP_cons, ht, ht.trans hab] using h t
      · rw [countP_eq_zero.mpr fun c hc => by simpa using (ha c hc).trans_lt (not_le.mp ht)]
        exact Nat.zero_le _

/-- In descending order the elements are matched one by one. -/
theorem matches_le_iff (has : as.Pairwise (· ≥ ·)) (hbs : bs.Pairwise (· ≥ ·)) :
    Matches (· ≤ ·) as bs ↔ as.length ≤ bs.length ∧ ∀ p ∈ as.zip bs, p.1 ≤ p.2 := by
  constructor
  · intro h
    obtain ⟨picked, hsub, hle⟩ := id h
    exact ⟨hle.length_eq.trans_le hsub.length_le, zip_le_of_countP has hbs h.countP_le⟩
  · rintro ⟨hlen, hle⟩
    refine ⟨bs.take as.length, (take_sublist _ _).subperm, ?_⟩
    rw [zip_eq_zip_take_min, min_eq_left hlen, take_length] at hle
    exact forall₂_iff_zip.mpr ⟨(length_take_of_le hlen).symm, fun hmem => hle _ hmem⟩

end Descending

end LlmScaler.Core
