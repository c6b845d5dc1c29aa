import Mathlib

/-!
# Merging several readings of one thing

Readings are merged two at a time, in some order and grouping. A figure that a merge joins in a
semilattice depends only on which readings were merged. Keyed entries are merged entry by entry: the
entry of a key already there is joined, a new one is appended.
-/

namespace LlmScaler.Core

open List

/-- How readings are merged two at a time. -/
inductive Grouping (α : Type*) where
  | one (a : α)
  | both (left right : Grouping α)

namespace Grouping

variable {α : Type*}

def readings : Grouping α → List α
  | one a => [a]
  | both left right => left.readings ++ right.readings

def first : Grouping α → α
  | one a => a
  | both left _ => left.first

theorem first_mem_readings (g : Grouping α) : g.first ∈ g.readings := by
  induction g with
  | one a => exact mem_cons_self
  | both left _ ih _ => exact mem_append_left _ ih

def merged (merge : α → α → α) : Grouping α → α
  | one a => a
  | both left right => merge (left.merged merge) (right.merged merge)

/-- Readings merged one after the other into a first one. -/
def chain (a : α) (as : List α) : Grouping α := as.foldl (fun g b => both g (one b)) (one a)

theorem mem_readings_chain {a b : α} {as : List α} :
    b ∈ (chain a as).readings ↔ b = a ∨ b ∈ as := by
  have hfold : ∀ g : Grouping α, b ∈ (as.foldl (fun g b => both g (one b)) g).readings ↔
      b ∈ g.readings ∨ b ∈ as := by
    induction as with
    | nil => simp
    | cons c as ih =>
      intro g
      rw [foldl_cons, ih, readings, readings]
      simp [or_assoc]
  rw [chain, hfold, readings, mem_singleton]

theorem first_chain (a : α) (as : List α) : (chain a as).first = a := by
  exact foldlRecOn (motive := fun g : Grouping α => g.first = a) _ _ rfl fun _ hg _ _ => hg

variable {β : Type*} [SemilatticeSup β] {v : α → β} {merge : α → α → α}

/-- What bounds a merge in a figure the merge joins bounds every reading, and the other way. -/
theorem value_merged_le (hmerge : ∀ a b, v (merge a b) = v a ⊔ v b) (g : Grouping α)
    (x : β) : v (g.merged merge) ≤ x ↔ ∀ a ∈ g.readings, v a ≤ x := by
  induction g with
  | one a => simp [merged, readings]
  | both left right ihl ihr =>
    rw [merged, hmerge, sup_le_iff, ihl, ihr, readings, forall_mem_append]

theorem value_le_merged (hmerge : ∀ a b, v (merge a b) = v a ⊔ v b) {g : Grouping α}
    {a : α} (ha : a ∈ g.readings) : v a ≤ v (g.merged merge) :=
  (value_merged_le hmerge g _).mp le_rfl a ha

/-- A figure the merge joins is the same in every order and grouping of the same readings, however
often each is merged. -/
theorem value_merged_congr (hmerge : ∀ a b, v (merge a b) = v a ⊔ v b)
    {g g' : Grouping α} (h : ∀ a, a ∈ g.readings ↔ a ∈ g'.readings) :
    v (g.merged merge) = v (g'.merged merge) := by
  refine eq_of_forall_ge_iff fun x => ?_
  rw [value_merged_le hmerge, value_merged_le hmerge]
  exact forall_congr' fun a => imp_congr_left (h a)

theorem merged_induction {P : α → Prop} (hmerge : ∀ a b, P a → P b → P (merge a b))
    {g : Grouping α} (h : ∀ a ∈ g.readings, P a) : P (g.merged merge) := by
  induction g with
  | one a => exact h a mem_cons_self
  | both left right ihl ihr =>
    exact hmerge _ _ (ihl fun a ha => h a (mem_append_left _ ha))
      (ihr fun a ha => h a (mem_append_right _ ha))

end Grouping

/-- A figure that may be missing, the missing one below every other. -/
def orBot {α β : Type*} (f : α → β) : Option α → WithBot β
  | none => ⊥
  | some a => f a

section OrBot

variable {α β : Type*} {f : α → β}

@[simp] theorem orBot_none : orBot f none = ⊥ := rfl

@[simp] theorem orBot_some (a : α) : orBot f (some a) = f a := rfl

theorem orBot_merge [SemilatticeSup β] {join : α → α → α} (hjoin : ∀ a b, f (join a b) = f a ⊔ f b)
    (o o' : Option α) : orBot f (Option.merge join o o') = orBot f o ⊔ orBot f o' := by
  cases o with
  | none => cases o' <;> simp
  | some a =>
    cases o' with
    | none => simp
    | some b => simp [hjoin]

theorem orBot_injective (hf : Function.Injective f) : Function.Injective (orBot f) := by
  intro o o' h
  cases o with
  | none =>
    cases o' with
    | none => rfl
    | some b => exact absurd h WithBot.bot_ne_coe
  | some a =>
    cases o' with
    | none => exact absurd h WithBot.coe_ne_bot
    | some b => rw [hf (WithBot.coe_injective h)]

end OrBot

section Keyed

variable {α κ : Type*} [DecidableEq κ] (key : α → κ) (join : α → α → α)

/-- An entry joined into the one of its key, or appended. -/
def upsert : List α → α → List α
  | [], a => [a]
  | o :: os, a => if key o = key a then join o a :: os else o :: upsert os a

def entryAt (l : List α) (k : κ) : Option α := l.find? fun a => key a = k

variable {key join}

@[simp] theorem entryAt_nil (k : κ) : entryAt key [] k = none := rfl

theorem entryAt_cons (a : α) (l : List α) (k : κ) :
    entryAt key (a :: l) k = if key a = k then some a else entryAt key l k := by
  unfold entryAt
  by_cases h : key a = k
  · rw [if_pos h, find?_cons_of_pos (by simpa using h)]
  · rw [if_neg h, find?_cons_of_neg (by simpa using h)]

theorem mem_of_entryAt {l : List α} {k : κ} {a : α} (h : entryAt key l k = some a) :
    a ∈ l ∧ key a = k :=
  ⟨mem_of_find?_eq_some h, by simpa using find?_some h⟩

theorem entryAt_eq_none {l : List α} {k : κ} : entryAt key l k = none ↔ ∀ a ∈ l, key a ≠ k := by
  simp [entryAt]

theorem entryAt_eq_some {l : List α} (hl : (l.map key).Nodup) {k : κ} {a : α} :
    entryAt key l k = some a ↔ a ∈ l ∧ key a = k := by
  refine ⟨mem_of_entryAt, ?_⟩
  rintro ⟨ha, rfl⟩
  cases hb : entryAt key l (key a) with
  | none => exact absurd rfl (entryAt_eq_none.mp hb a ha)
  | some b =>
    obtain ⟨hmem, hkey⟩ := mem_of_entryAt hb
    rw [inj_on_of_nodup_map hl hmem ha hkey]

section Upsert

variable (hjoin : ∀ o a, key (join o a) = key o)
include hjoin

theorem entryAt_upsert (l : List α) (a : α) (k : κ) :
    entryAt key (upsert key join l a) k =
      if key a = k then Option.merge join (entryAt key l k) (some a) else entryAt key l k := by
  induction l with
  | nil => simp [upsert, entryAt_cons]
  | cons o os ih =>
    unfold upsert
    by_cases h : key o = key a
    · rw [if_pos h, entryAt_cons, entryAt_cons, hjoin]
      by_cases hk : key o = k
      · rw [if_pos hk, if_pos hk, if_pos (h.symm.trans hk)]
        rfl
      · rw [if_neg hk, if_neg fun hak => hk (h.trans hak), if_neg hk]
    · rw [if_neg h, entryAt_cons, entryAt_cons, ih]
      by_cases hk : key o = k
      · rw [if_pos hk, if_pos hk, if_neg fun hak => h (hk.trans hak.symm)]
      · rw [if_neg hk, if_neg hk]

theorem mem_keys_upsert (l : List α) (a : α) (k : κ) :
    k ∈ (upsert key join l a).map key ↔ k ∈ l.map key ∨ k = key a := by
  induction l with
  | nil => simp [upsert]
  | cons o os ih =>
    unfold upsert
    split_ifs with h
    · simp only [map_cons, mem_cons, hjoin, h]
      tauto
    · rw [map_cons, mem_cons, ih, map_cons, mem_cons, or_assoc]

theorem nodup_upsert {l : List α} (hl : (l.map key).Nodup) (a : α) :
    ((upsert key join l a).map key).Nodup := by
  induction l with
  | nil => exact nodup_singleton _
  | cons o os ih =>
    rw [map_cons, nodup_cons] at hl
    unfold upsert
    split_ifs with h
    · rw [map_cons, nodup_cons, hjoin]
      exact hl
    · rw [map_cons, nodup_cons, mem_keys_upsert hjoin, not_or]
      exact ⟨⟨hl.1, h⟩, ih hl.2⟩

theorem nodup_foldl_upsert {l : List α} (hl : (l.map key).Nodup) (more : List α) :
    ((more.foldl (upsert key join) l).map key).Nodup := by
  induction more generalizing l with
  | nil => exact hl
  | cons a more ih => exact ih (nodup_upsert hjoin hl a)

/-- Entries of distinct keys merged into a list: what both have is joined, what one has kept. -/
theorem entryAt_foldl_upsert (l : List α) {more : List α} (hmore : (more.map key).Nodup) (k : κ) :
    entryAt key (more.foldl (upsert key join) l) k =
      Option.merge join (entryAt key l k) (entryAt key more k) := by
  induction more generalizing l with
  | nil => simp
  | cons a more ih =>
    rw [map_cons, nodup_cons] at hmore
    rw [foldl_cons, ih _ hmore.2, entryAt_upsert hjoin, entryAt_cons]
    by_cases hk : key a = k
    · have hnone : entryAt key more k = none := by
        rw [entryAt_eq_none]
        intro b hb hbk
        exact hmore.1 (mem_map.mpr ⟨b, hb, hbk.trans hk.symm⟩)
      rw [if_pos hk, if_pos hk, hnone, Option.merge_none_right]
    · rw [if_neg hk, if_neg hk]

end Upsert

theorem perm_of_entryAt {l l' : List α} (hl : (l.map key).Nodup) (hl' : (l'.map key).Nodup)
    (h : ∀ k, entryAt key l k = entryAt key l' k) : l.Perm l' := by
  rw [perm_ext_iff_of_nodup hl.of_map hl'.of_map]
  intro a
  have hmem : ∀ {m : List α}, (m.map key).Nodup → (a ∈ m ↔ entryAt key m (key a) = some a) :=
    fun hm => ⟨fun ha => (entryAt_eq_some hm).mpr ⟨ha, rfl⟩, fun ha => (mem_of_entryAt ha).1⟩
  rw [hmem hl, hmem hl', h]

/-- Two lists whose entries are told apart by a figure have the same entry where they have the same
figure. -/
theorem entryAt_eq_of_orBot {β : Type*} {f : α → β} {l l' : List α} {k : κ}
    (hext : ∀ a ∈ l, ∀ a' ∈ l', key a = key a' → f a = f a' → a = a')
    (h : orBot f (entryAt key l k) = orBot f (entryAt key l' k)) :
    entryAt key l k = entryAt key l' k := by
  cases ha : entryAt key l k with
  | none =>
    cases ha' : entryAt key l' k with
    | none => rfl
    | some a' =>
      rw [ha, ha'] at h
      exact absurd h WithBot.bot_ne_coe
  | some a =>
    cases ha' : entryAt key l' k with
    | none =>
      rw [ha, ha'] at h
      exact absurd h WithBot.coe_ne_bot
    | some a' =>
      rw [ha, ha'] at h
      obtain ⟨hmem, hkey⟩ := mem_of_entryAt ha
      obtain ⟨hmem', hkey'⟩ := mem_of_entryAt ha'
      rw [hext a hmem a' hmem' (hkey.trans hkey'.symm) (WithBot.coe_injective h)]

theorem entryAt_perm {l l' : List α} (hl : (l.map key).Nodup) (h : l.Perm l') (k : κ) :
    entryAt key l k = entryAt key l' k := by
  have hl' : (l'.map key).Nodup := (h.map key).nodup_iff.mp hl
  refine Option.ext fun a => ?_
  rw [entryAt_eq_some hl, entryAt_eq_some hl', h.mem_iff]

end Keyed

/-- Entries of distinct keys that each have a partner of their key, counting as much, add up to no
more than the partners' list. -/
theorem sum_le_of_partners {α κ : Type*} {key : α → κ} {l l' : List α} (hl : (l.map key).Nodup) {f g : α → Int}
    (hg : ∀ a ∈ l', 0 ≤ g a) (h : ∀ a ∈ l, ∃ a' ∈ l', key a' = key a ∧ f a ≤ g a') :
    (l.map f).sum ≤ (l'.map g).sum := by
  induction l generalizing l' with
  | nil =>
    exact sum_nonneg (forall_mem_map.mpr hg)
  | cons a l ih =>
    rw [map_cons, nodup_cons] at hl
    obtain ⟨⟨a', ha', hkey, hle⟩, hrest⟩ := forall_mem_cons.mp h
    obtain ⟨before, after, rfl⟩ := append_of_mem ha'
    have htail : (l.map f).sum ≤ ((before ++ after).map g).sum := by
      apply ih hl.2
      · exact fun b hb => hg b (by simp only [mem_append, mem_cons] at hb ⊢; tauto)
      · intro b hb
        obtain ⟨b', hb', hkey', hle'⟩ := hrest b hb
        refine ⟨b', ?_, hkey', hle'⟩
        -- the partner of a later entry is another one, since the keys differ
        have hne : b' ≠ a' := by
          rintro rfl
          exact hl.1 (mem_map.mpr ⟨b, hb, hkey'.symm.trans hkey⟩)
        simp only [mem_append, mem_cons] at hb' ⊢
        tauto
    rw [map_append, sum_append] at htail
    rw [map_cons, sum_cons, map_append, sum_append, map_cons,
      sum_cons]
    omega

end LlmScaler.Core
