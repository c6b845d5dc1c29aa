import Mathlib

/-!
# Loops over a list

The figures of the elements that meet a test, added up; and the loop that updates the first element
it can and leaves the rest.
-/

namespace LlmScaler.Core

open List

variable {α : Type*}

/-- The sum of a figure over the elements that meet a test. -/
def sumIf (test : α → Bool) (f : α → Int) (l : List α) : Int := ((l.filter test).map f).sum

variable {a : α} {l l' : List α}

section SumIf

variable {test : α → Bool} {f : α → Int}

@[simp] theorem sumIf_nil : sumIf test f [] = 0 := rfl

theorem sumIf_cons (a : α) (l : List α) :
    sumIf test f (a :: l) = (if test a then f a else 0) + sumIf test f l := by
  unfold sumIf
  by_cases h : test a = true
  · simp [h]
  · simp [h]

theorem sumIf_append (l l' : List α) :
    sumIf test f (l ++ l') = sumIf test f l + sumIf test f l' := by
  simp [sumIf]

theorem sumIf_eq_sum_map (l : List α) :
    sumIf test f l = (l.map fun a => if test a then f a else 0).sum := by
  induction l with
  | nil => rfl
  | cons a l ih => rw [sumIf_cons, ih, map_cons, sum_cons]

theorem sumIf_nonneg (h : ∀ a ∈ l, test a = true → 0 ≤ f a) : 0 ≤ sumIf test f l :=
  sum_nonneg (forall_mem_map.mpr fun a ha => h a (mem_of_mem_filter ha) (of_mem_filter ha))

theorem sumIf_congr {test' : α → Bool} {f' : α → Int} (ht : ∀ a ∈ l, test a = test' a)
    (hf : ∀ a ∈ l, test a = true → f a = f' a) : sumIf test f l = sumIf test' f' l := by
  rw [sumIf_eq_sum_map, sumIf_eq_sum_map]
  refine congrArg sum (map_congr_left fun a ha => ?_)
  rw [← ht a ha]
  split_ifs with h
  · exact hf a ha h
  · rfl

theorem sumIf_set {i : ℕ} {b : α} (h : l[i]? = some a) :
    sumIf test f (l.set i b) = sumIf test f l - (if test a then f a else 0) +
      (if test b then f b else 0) := by
  induction l generalizing i with
  | nil => cases h
  | cons c l ih =>
    cases i with
    | zero =>
      obtain rfl : c = a := Option.some.inj h
      rw [set_cons_zero, sumIf_cons, sumIf_cons]
      omega
    | succ i =>
      rw [set_cons_succ, sumIf_cons, sumIf_cons, ih h]
      omega

theorem sumIf_modify {g : α → α} (ht : ∀ a, test (g a) = test a) (hf : ∀ a, f (g a) = f a)
    (l : List α) (i : ℕ) : sumIf test f (l.modify i g) = sumIf test f l := by
  rw [modify_eq_set_getElem?]
  cases h : l[i]? with
  | none => rfl
  | some a =>
    show sumIf test f (l.set i (g a)) = sumIf test f l
    rw [sumIf_set h, ht, hf]
    omega

theorem sumIf_perm (h : l.Perm l') : sumIf test f l = sumIf test f l' :=
  ((h.filter test).map f).sum_eq

theorem sumIf_sublist (h : l.Sublist l') (hf : ∀ a ∈ l', test a = true → 0 ≤ f a) :
    sumIf test f l ≤ sumIf test f l' :=
  ((h.filter test).map f).sum_le_sum
    (forall_mem_map.mpr fun a ha => hf a (mem_of_mem_filter ha) (of_mem_filter ha))

theorem sumIf_subset (hnodup : l.Nodup) (hsub : l ⊆ l') (hf : ∀ a ∈ l', test a = true → 0 ≤ f a) :
    sumIf test f l ≤ sumIf test f l' := by
  obtain ⟨l'', hperm, hsublist⟩ := subperm_of_subset hnodup hsub
  rw [← sumIf_perm hperm]
  exact sumIf_sublist hsublist hf

theorem sumIf_mono {test' : α → Bool} (ht : ∀ a ∈ l, test a = true → test' a = true)
    (hf : ∀ a ∈ l, test' a = true → 0 ≤ f a) : sumIf test f l ≤ sumIf test' f l := by
  rw [sumIf_eq_sum_map, sumIf_eq_sum_map]
  refine sum_le_sum fun a ha => ?_
  by_cases h : test a = true
  · rw [if_pos h, if_pos (ht a ha h)]
  · rw [if_neg h]
    split_ifs with h'
    · exact hf a ha h'
    · exact le_rfl

end SumIf

theorem sum_map_of_subset {M : Type*} [AddCommMonoid M] [DecidableEq α] {s : List α} (hl : l.Nodup)
    (hs : s.Nodup) (hsub : s ⊆ l) {f : α → M} (hf : ∀ a ∈ l, a ∉ s → f a = 0) :
    (s.map f).sum = (l.map f).sum := by
  rw [← sum_toFinset f hs, ← sum_toFinset f hl]
  refine Finset.sum_subset (fun a ha => ?_) fun a ha hnot => ?_
  · exact mem_toFinset.mpr (hsub (mem_toFinset.mp ha))
  · exact hf a (mem_toFinset.mp ha) fun h => hnot (mem_toFinset.mpr h)

theorem sum_map_indicator [DecidableEq α] {s : List α} (hl : l.Nodup) (hs : s.Nodup)
    (hsub : s ⊆ l) :
    (l.map fun a => if a ∈ s then 1 else 0).sum = s.length := by
  rw [← sum_map_of_subset hl hs hsub fun a _ hnot => if_neg hnot,
    map_congr_left fun a ha => if_pos ha]
  simp

theorem sum_map_add_at {κ M : Type*} [AddCommMonoid M] (key : α → κ) (hnodup : (l.map key).Nodup)
    (ha : a ∈ l) {f g : α → M} {d : M} (hsame : ∀ b ∈ l, key b ≠ key a → g b = f b)
    (hat : g a = f a + d) : (l.map g).sum = (l.map f).sum + d := by
  obtain ⟨before, after, rfl⟩ := append_of_mem ha
  rw [map_append, map_cons] at hnodup
  have hnot := nodup_middle.mp hnodup
  rw [nodup_cons, mem_append, not_or] at hnot
  have hpart : ∀ part : List α, part ⊆ before ++ a :: after → key a ∉ part.map key →
      part.map g = part.map f := by
    intro part hsub hkey
    refine map_congr_left fun b hb => hsame b (hsub hb) fun heq => hkey ?_
    rw [← heq]
    exact mem_map_of_mem hb
  have hbefore := hpart before (subset_append_left _ _) hnot.1.1
  have hafter := hpart after (fun b hb => mem_append_right _ (mem_cons_of_mem a hb))
    hnot.1.2
  rw [map_append, map_append, map_cons, map_cons, hbefore, hafter, hat,
    sum_append, sum_append, sum_cons, sum_cons, add_right_comm (f a) d]
  simp only [add_assoc]

theorem eq_of_length_le_one (h : l.length ≤ 1) {b : α} (ha : a ∈ l) (hb : b ∈ l) : a = b := by
  obtain ⟨c, hc⟩ := length_eq_one_iff.mp (le_antisymm h (length_pos_of_mem ha))
  rw [hc, mem_singleton] at ha hb
  rw [ha, hb]

/-- A figure that each pass raises by an amount of its element is raised by the sum. -/
theorem foldl_raises {σ M : Type*} [AddMonoid M] {f : σ → α → σ} {v : σ → M} {w : α → M}
    (h : ∀ s a, v (f s a) = v s + w a) (l : List α) (s : σ) :
    v (l.foldl f s) = v s + (l.map w).sum := by
  induction l generalizing s with
  | nil => simp
  | cons a l ih => rw [foldl_cons, ih, h, map_cons, sum_cons, add_assoc]

/-- What the pass over an element establishes, and every other pass keeps, holds of every element at
the end. -/
theorem foldl_establishes {σ : Type*} {f : σ → α → σ} {P : α → σ → Prop}
    (hkeep : ∀ a s b, P a s → P a (f s b)) (hset : ∀ s a, P a (f s a)) (l : List α) (s : σ) :
    ∀ a ∈ l, P a (l.foldl f s) := by
  induction l generalizing s with
  | nil =>
    intro a ha
    cases ha
  | cons b l ih =>
    intro a ha
    rw [foldl_cons]
    rcases mem_cons.mp ha with rfl | ha
    · exact foldlRecOn l f (hset s a) fun s hs b _ => hkeep a s b hs
    · exact ih (f s b) a ha

/-- A pass over distinct keys reaches an element in a state that keeps `I`, and keeps what it leaves
there to the end. -/
theorem foldl_at {σ κ : Type*} {key : α → κ} {f : σ → α → σ} {I Q : σ → Prop}
    (hnodup : (l.map key).Nodup) (ha : a ∈ l) {s : σ} (hs : I s) (hI : ∀ s, I s → ∀ b, I (f s b))
    (hat : ∀ s, I s → Q (f s a)) (hother : ∀ s, Q s → ∀ b, key b ≠ key a → Q (f s b)) :
    Q (l.foldl f s) := by
  obtain ⟨before, after, rfl⟩ := append_of_mem ha
  rw [map_append, map_cons, nodup_append, nodup_cons] at hnodup
  rw [foldl_append, foldl_cons]
  have hbefore : I (before.foldl f s) := foldlRecOn before f hs fun s hs b _ => hI s hs b
  refine foldlRecOn after f (hat _ hbefore) fun s hs b hb => hother s hs b fun heq => ?_
  exact hnodup.2.1.1 (heq ▸ mem_map_of_mem hb)

/-- Where one element of a list without repetitions alone yields anything, the list yields that. -/
theorem flatMap_eq_of_nodup {β : Type*} (h : l.Nodup) (ha : a ∈ l) {f : α → List β}
    (hf : ∀ x ∈ l, x ≠ a → f x = []) : l.flatMap f = f a := by
  obtain ⟨before, after, rfl⟩ := append_of_mem ha
  have hnot := nodup_middle.mp h
  rw [nodup_cons, mem_append, not_or] at hnot
  have hbefore : before.flatMap f = [] := flatMap_eq_nil_iff.mpr fun x hx =>
    hf x (mem_append_left _ hx) (ne_of_mem_of_not_mem hx hnot.1.1)
  have hafter : after.flatMap f = [] := flatMap_eq_nil_iff.mpr fun x hx =>
    hf x (mem_append_right _ (mem_cons_of_mem a hx)) (ne_of_mem_of_not_mem hx hnot.1.2)
  rw [flatMap_append, flatMap_cons, hbefore, hafter, nil_append, append_nil]

theorem map_filterMap_sublist {β γ : Type*} {g : α → Option β} {f : β → γ} {k : α → γ}
    (h : ∀ a b, g a = some b → f b = k a) (l : List α) :
    ((l.filterMap g).map f).Sublist (l.map k) := by
  induction l with
  | nil => exact .slnil
  | cons a l ih =>
    rw [filterMap_cons, map_cons]
    cases hg : g a with
    | none => exact ih.cons _
    | some b =>
      rw [← h a b hg]
      exact ih.cons_cons _

theorem exists_of_forall₂ {β : Type*} {R : α → β → Prop} {l' : List β} (h : Forall₂ R l l') {b : β}
    (hb : b ∈ l') : ∃ a ∈ l, R a b := by
  induction h with
  | nil => exact absurd hb not_mem_nil
  | cons hR _ ih =>
    rcases mem_cons.mp hb with rfl | hb
    · exact ⟨_, mem_cons_self, hR⟩
    · obtain ⟨a, ha, hRa⟩ := ih hb
      exact ⟨a, mem_cons_of_mem _ ha, hRa⟩

theorem forall₂_comp {β γ : Type*} {R : α → β → Prop} {S : β → γ → Prop} {T : α → γ → Prop}
    (hRS : ∀ a b c, R a b → S b c → T a c) {l' : List β} {l'' : List γ} (h : Forall₂ R l l')
    (h' : Forall₂ S l' l'') : Forall₂ T l l'' := by
  induction h generalizing l'' with
  | nil =>
    cases h'
    exact .nil
  | cons hab _ ih =>
    cases h' with
    | cons hbc h' => exact .cons (hRS _ _ _ hab hbc) (ih h')

section UpdateFirst

variable {β : Type*} (f : α → Option (β × α))

/-- The first element that `f` updates is replaced, with what the update gave. -/
def updateFirst : List α → Option (β × List α)
  | [] => none
  | a :: l =>
    match f a with
    | some (b, a') => some (b, a' :: l)
    | none => (updateFirst l).map fun r => (r.1, a :: r.2)

variable {f}

theorem updateFirst_eq_some {b : β} (h : updateFirst f l = some (b, l')) :
    ∃ before a a' after, l = before ++ a :: after ∧ l' = before ++ a' :: after ∧
      f a = some (b, a') := by
  induction l generalizing l' with
  | nil => cases h
  | cons a l ih =>
    unfold updateFirst at h
    cases hf : f a with
    | some r =>
      obtain ⟨b', a'⟩ := r
      simp only [hf] at h
      cases h
      exact ⟨[], a, a', l, rfl, rfl, hf⟩
    | none =>
      simp only [hf] at h
      obtain ⟨⟨b', l''⟩, hr, heq⟩ := Option.map_eq_some_iff.mp h
      obtain ⟨rfl, rfl⟩ := Prod.mk.inj heq
      obtain ⟨before, x, x', after, rfl, rfl, hx⟩ := ih hr
      exact ⟨a :: before, x, x', after, rfl, rfl, hx⟩

theorem forall₂_updateFirst {R : α → α → Prop} (hrefl : ∀ a, R a a)
    (hf : ∀ a b a', f a = some (b, a') → R a a') {b : β} (h : updateFirst f l = some (b, l')) :
    Forall₂ R l l' := by
  obtain ⟨before, a, a', after, rfl, rfl, ha⟩ := updateFirst_eq_some h
  have hsame : ∀ l : List α, Forall₂ R l l := fun l =>
    forall₂_same.mpr fun x _ => hrefl x
  exact rel_append (hsame before) (.cons (hf a b a' ha) (hsame after))

end UpdateFirst

end LlmScaler.Core
