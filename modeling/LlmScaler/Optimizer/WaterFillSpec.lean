import LlmScaler.Core.Tally
import LlmScaler.Optimizer.WaterFill

/-!
# What the water-fill gives

Whole pools are split by whole headrooms, so what remains after a round is a whole number as long as
the slack of the comparisons, added up over the claimants, stays below one GPU. The shares then add
up to the pool or to all the headroom.
-/

namespace LlmScaler.Optimizer

open Core List GoMap

def RescaleInput.weight (m : RescaleInput) : ℚ := min (m.priority * m.demand) maxShareWeight

/-- The GPUs a claimant can take above its floor. -/
def RescaleInput.headroom (m : RescaleInput) : ℕ := m.capGPUs - m.floorGPUs

theorem RescaleInput.active_eq (m : RescaleInput) :
    m.active = if 0 < m.weight ∧ 0 < m.headroom then some ⟨m.id, m.weight, m.headroom⟩ else none :=
  rfl

def totalHeadroom (act : List Active) : ℕ := (act.map (·.headroom)).sum

theorem cast_totalHeadroom (act : List Active) :
    (totalHeadroom act : ℚ) = (act.map fun a => (a.headroom : ℚ)).sum := by
  rw [totalHeadroom, Nat.cast_list_sum, map_map]
  rfl

/-- Claimants that the slack of the comparisons cannot add up to a GPU over. -/
structure Crowd (act : List Active) : Prop where
  nodup : (act.map (·.id)).Nodup
  weight : ∀ a ∈ act, 0 < a.weight
  slack : act.length * shareSlack < 1

section Shares

variable {st : Filling}

theorem totalWeight_pos {act : List Active} (h : ∀ a ∈ act, 0 < a.weight) (hne : act ≠ []) :
    0 < totalWeight act := by
  apply sum_pos
  · intro w hw
    obtain ⟨a, ha, rfl⟩ := mem_map.mp hw
    exact h a ha
  · simpa using hne

theorem sum_share (st : Filling) (act : List Active) :
    (act.map st.share).sum = st.remaining * totalWeight act / totalWeight st.act := by
  unfold totalWeight
  induction act with
  | nil => simp
  | cons a act ih =>
    rw [map_cons, sum_cons, ih, Filling.share, map_cons, sum_cons, totalWeight]
    ring

theorem sum_share_act (h : ∀ a ∈ st.act, 0 < a.weight) (hne : st.act ≠ []) :
    (st.act.map st.share).sum = st.remaining := by
  rw [sum_share, mul_div_assoc, div_self (totalWeight_pos h hne).ne', mul_one]

theorem sum_share_le (h : ∀ a ∈ st.act, 0 < a.weight) (hrem : 0 ≤ st.remaining)
    {act : List Active} (hsub : act.Sublist st.act) :
    (act.map st.share).sum ≤ st.remaining := by
  by_cases hne : st.act = []
  · rw [hne, sublist_nil] at hsub
    simpa [hsub] using hrem
  · have hle : totalWeight act ≤ totalWeight st.act := by
      exact (hsub.map _).sum_le_sum (forall_mem_map.mpr fun a ha => (h a ha).le)
    rw [sum_share, div_le_iff₀ (totalWeight_pos h hne)]
    exact mul_le_mul_of_nonneg_left hle hrem

/-- Claimants at their caps take no more than what remains: all figures are whole, and the slack
of the comparisons is less than one GPU. -/
theorem totalHeadroom_le_of_capped (hst : Crowd st.act) {r : ℕ} (hr : st.remaining = r)
    {act : List Active} (hsub : act.Sublist st.act) (hcapped : ∀ a ∈ act, st.capped a = true) :
    totalHeadroom act ≤ r := by
  have hshares := sum_share_le hst.weight (by rw [hr]; exact Nat.cast_nonneg r) hsub
  have hbelow : (totalHeadroom act : ℚ) - act.length * shareSlack ≤ (act.map st.share).sum := by
    clear hsub hshares
    unfold totalHeadroom
    induction act with
    | nil => simp
    | cons a act ih =>
      obtain ⟨ha, hact⟩ := forall_mem_cons.mp hcapped
      have hcap : (a.headroom : ℚ) - shareSlack ≤ st.share a := of_decide_eq_true ha
      have := ih hact
      simp only [map_cons, sum_cons, Nat.cast_add, length_cons, Nat.cast_one] at *
      linarith
  have hlength : (act.length : ℚ) * shareSlack ≤ st.act.length * shareSlack := by
    have : (act.length : ℚ) ≤ st.act.length := by exact_mod_cast hsub.length_le
    exact mul_le_mul_of_nonneg_right this (by norm_num [shareSlack])
  have hlt : (totalHeadroom act : ℚ) < r + 1 := by
    have := hst.slack
    rw [hr] at hshares
    linarith
  exact Nat.lt_succ_iff.mp (by exact_mod_cast hlt)

end Shares

/-- What the rounds so far have done: the claimants served are at their caps, no later than a
lighter one of the same headroom, and the rest of the pool remains. -/
structure Serving (act : List Active) (pool : ℕ) (served : List Active) (st : Filling) :
    Prop where
  perm : (served ++ st.act).Perm act
  full : ∀ a ∈ served, st.extra.find? a.id = some (a.headroom : ℚ)
  keys : ∀ k ∈ st.extra.keys, ∃ a ∈ served, a.id = k
  /-- What remains is whole, and with what is served it is the pool. -/
  remaining : ∃ r : ℕ, st.remaining = r ∧ r + totalHeadroom served = pool
  /-- A claimant waits no longer than a lighter one with its headroom. -/
  ordered : ∀ a ∈ served, ∀ b ∈ st.act, a.headroom = b.headroom → b.weight ≤ a.weight

theorem totalHeadroom_append (a b : List Active) :
    totalHeadroom (a ++ b) = totalHeadroom a + totalHeadroom b := by
  simp [totalHeadroom]

theorem Crowd.of_perm {act act' : List Active} (h : Crowd act) (hperm : act'.Perm act) :
    Crowd act' where
  nodup := (hperm.map _).nodup_iff.mpr h.nodup
  weight a ha := h.weight a (hperm.mem_iff.mp ha)
  slack := by
    rw [hperm.length_eq]
    exact h.slack

theorem Crowd.of_sublist {act act' : List Active} (h : Crowd act) (hsub : act'.Sublist act) :
    Crowd act' where
  nodup := h.nodup.sublist (hsub.map _)
  weight a ha := h.weight a (hsub.subset ha)
  slack := by
    have hlength : (act'.length : ℚ) ≤ act.length := by exact_mod_cast hsub.length_le
    exact lt_of_le_of_lt (mul_le_mul_of_nonneg_right hlength (by norm_num [shareSlack])) h.slack

namespace Serving

variable {act served : List Active} {pool : ℕ} {st : Filling}

theorem crowd (h : Serving act pool served st) (hact : Crowd act) : Crowd (served ++ st.act) :=
  hact.of_perm h.perm

theorem waiting (h : Serving act pool served st) (hact : Crowd act) : Crowd st.act :=
  (h.crowd hact).of_sublist (sublist_append_right _ _)

theorem id_ne (h : Serving act pool served st) (hact : Crowd act) {a b : Active}
    (ha : a ∈ served) (hb : b ∈ st.act) : a.id ≠ b.id := by
  have hnodup := (h.crowd hact).nodup
  rw [map_append, nodup_append] at hnodup
  exact hnodup.2.2 _ (mem_map_of_mem ha) _ (mem_map_of_mem hb)

theorem init (act : List Active) (pool : ℕ) : Serving act pool [] ⟨act, ∅, pool⟩ where
  perm := Perm.refl _
  full _ ha := absurd ha not_mem_nil
  keys _ hk := absurd hk not_mem_nil
  remaining := ⟨pool, rfl, rfl⟩
  ordered _ ha := absurd ha not_mem_nil

theorem capped_mono (hst : Crowd st.act) (hrem : 0 ≤ st.remaining) {a b : Active}
    (ha : a ∈ st.act) (hhead : a.headroom = b.headroom) (hle : a.weight ≤ b.weight)
    (hcap : st.capped a = true) : st.capped b = true := by
  have hcap' : (a.headroom : ℚ) - shareSlack ≤ st.share a := of_decide_eq_true hcap
  refine decide_eq_true (hhead ▸ hcap'.trans ?_)
  unfold Filling.share
  have htotal := totalWeight_pos hst.weight (ne_nil_of_mem ha)
  gcongr

theorem again (h : Serving act pool served st) (hact : Crowd act) {st' : Filling}
    (hbody : fillBody st = .again st') :
    Serving act pool (served ++ st.act.filter st.capped) st' ∧ st'.act.length < st.act.length := by
  dsimp only [fillBody] at hbody
  split_ifs at hbody with hdone hcapped
  cases hbody
  have hwaiting := h.waiting hact
  have hfilter : (st.act.filter st.capped).Sublist st.act := filter_sublist
  have hnodup : ((st.act.filter st.capped).map (·.id)).Nodup :=
    hwaiting.nodup.sublist (hfilter.map _)
  obtain ⟨hbound, hother⟩ := find?_foldl_set (·.id) (fun a : Active => (a.headroom : ℚ))
    hnodup st.extra
  obtain ⟨r, hr, hpool⟩ := h.remaining
  have hle : totalHeadroom (st.act.filter st.capped) ≤ r :=
    totalHeadroom_le_of_capped hwaiting hr hfilter fun a ha => (mem_filter.mp ha).2
  refine ⟨?_, ?_⟩
  · constructor
    · refine Perm.trans ?_ h.perm
      rw [append_assoc]
      exact (filter_append_perm st.capped st.act).append_left served
    · intro a ha
      rcases mem_append.mp ha with ha | ha
      · rw [hother, h.full a ha]
        intro hmem
        obtain ⟨b, hb, hid⟩ := mem_map.mp hmem
        exact h.id_ne hact ha (hfilter.subset hb) hid.symm
      · exact hbound a ha
    · intro k hk
      by_cases hmem : k ∈ (st.act.filter st.capped).map (·.id)
      · obtain ⟨a, ha, rfl⟩ := mem_map.mp hmem
        exact ⟨a, mem_append_right _ ha, rfl⟩
      · obtain ⟨v, hv⟩ := GoMap.mem_keys.mp hk
        rw [hother k hmem] at hv
        obtain ⟨a, ha, hid⟩ := h.keys k (mem_keys.mpr ⟨v, hv⟩)
        exact ⟨a, mem_append_left _ ha, hid⟩
    · refine ⟨r - totalHeadroom (st.act.filter st.capped), ?_, ?_⟩
      · rw [hr, Nat.cast_sub hle]
        rfl
      · rw [totalHeadroom_append]
        omega
    · intro a ha b hb hhead
      obtain ⟨hb, hnot⟩ := mem_filter.mp hb
      rcases mem_append.mp ha with ha | ha
      · exact h.ordered a ha b hb hhead
      · obtain ⟨ha, hcap⟩ := mem_filter.mp ha
        by_contra hlt
        have := capped_mono hwaiting (by rw [hr]; exact Nat.cast_nonneg r) ha hhead
          (not_le.mp hlt).le hcap
        rw [this] at hnot
        cases hnot
  · obtain ⟨a, ha⟩ := exists_mem_of_ne_nil _ fun hnil => hcapped (isEmpty_iff.mpr hnil)
    obtain ⟨hmem, hcap⟩ := mem_filter.mp ha
    exact length_filter_lt_length_iff_exists.mpr ⟨a, hmem, by rw [hcap]; decide⟩

end Serving

structure Split (act : List Active) (pool : ℕ) (extra : GoMap String ℚ) : Prop where
  keys : ∀ k ∈ extra.keys, k ∈ act.map (·.id)
  within : ∀ a ∈ act, 0 ≤ extra.get a.id ∧ extra.get a.id ≤ a.headroom
  /-- All of the pool is given, or all the headroom is filled. -/
  total : (act.map fun a => extra.get a.id).sum = (min pool (totalHeadroom act) : ℕ)
  /-- Of two claimants with one headroom the heavier gets more, or is at its cap, or the lighter
  gets nothing. -/
  ordered : ∀ a ∈ act, ∀ b ∈ act, a.headroom = b.headroom → a.weight < b.weight →
    extra.get a.id < extra.get b.id ∨ extra.get b.id = b.headroom ∨ a.id ∉ extra.keys

namespace Serving

variable {act served : List Active} {pool : ℕ} {st : Filling}

theorem totalHeadroom_eq (h : Serving act pool served st) :
    totalHeadroom act = totalHeadroom served + totalHeadroom st.act := by
  rw [← totalHeadroom_append]
  exact ((h.perm.map _).sum_eq).symm

theorem get_served (h : Serving act pool served st) {a : Active} (ha : a ∈ served) :
    st.extra.get a.id = a.headroom :=
  get_of_find? (h.full a ha)

theorem find?_waiting (h : Serving act pool served st) (hact : Crowd act) {a : Active}
    (ha : a ∈ st.act) : a.id ∉ st.extra.keys := by
  intro hmem
  obtain ⟨b, hb, hid⟩ := h.keys a.id hmem
  exact h.id_ne hact hb ha hid

private theorem sum_map_headroom {extra : GoMap String ℚ} {l : List Active}
    (h : ∀ a ∈ l, extra.get a.id = a.headroom) :
    (l.map fun a => extra.get a.id).sum = (totalHeadroom l : ℚ) := by
  rw [cast_totalHeadroom, map_congr_left h]

theorem split_of_done (h : Serving act pool served st) (hact : Crowd act)
    (hdone : st.act = [] ∨ st.remaining = 0) : Split act pool st.extra where
  keys k hk := by
    obtain ⟨a, ha, rfl⟩ := h.keys k hk
    exact mem_map_of_mem (h.perm.mem_iff.mp (mem_append_left _ ha))
  within a ha := by
    rcases mem_append.mp (h.perm.mem_iff.mpr ha) with ha | ha
    · rw [h.get_served ha]
      exact ⟨Nat.cast_nonneg _, le_rfl⟩
    · rw [get_of_not_mem_keys (h.find?_waiting hact ha)]
      exact ⟨le_rfl, Nat.cast_nonneg _⟩
  total := by
    have hwaiting : (st.act.map fun a => st.extra.get a.id).sum = 0 := by
      refine sum_eq_zero (forall_mem_map.mpr fun a ha => ?_)
      exact get_of_not_mem_keys (h.find?_waiting hact ha)
    rw [← (h.perm.map _).sum_eq, map_append, sum_append, hwaiting, add_zero,
      sum_map_headroom fun a ha => h.get_served ha, Nat.cast_inj, h.totalHeadroom_eq]
    obtain ⟨r, hr, hpool⟩ := h.remaining
    rcases hdone with hnil | hzero
    · rw [hnil]
      simp only [totalHeadroom, map_nil, sum_nil] at *
      omega
    · rw [hr, Nat.cast_eq_zero] at hzero
      omega
  ordered a ha b hb hhead hlt := by
    rcases mem_append.mp (h.perm.mem_iff.mpr hb) with hb | hb
    · exact .inr (.inl (h.get_served hb))
    · rcases mem_append.mp (h.perm.mem_iff.mpr ha) with ha | ha
      · exact absurd hlt (not_lt.mpr (h.ordered a ha b hb hhead))
      · exact .inr (.inr (h.find?_waiting hact ha))

theorem split_of_shared (h : Serving act pool served st) (hact : Crowd act) (hne : st.act ≠ [])
    (hnone : ∀ a ∈ st.act, st.capped a = false) (hrem : 0 < st.remaining) :
    Split act pool (st.act.foldl (fun extra a => extra.set a.id (st.share a)) st.extra) := by
  have hwaiting := h.waiting hact
  obtain ⟨hbound, hother⟩ := find?_foldl_set (·.id) st.share hwaiting.nodup st.extra
  have hshared : ∀ a ∈ st.act, (st.act.foldl (fun extra a => extra.set a.id (st.share a))
      st.extra).get a.id = st.share a := fun a ha => get_of_find? (hbound a ha)
  have hserved : ∀ a ∈ served, (st.act.foldl (fun extra a => extra.set a.id (st.share a))
      st.extra).get a.id = a.headroom := by
    intro a ha
    apply get_of_find?
    rw [hother, h.full a ha]
    intro hmem
    obtain ⟨b, hb, hid⟩ := mem_map.mp hmem
    exact h.id_ne hact ha hb hid.symm
  have hbelow : ∀ a ∈ st.act, st.share a < a.headroom := by
    intro a ha
    have hlt := of_decide_eq_false (hnone a ha)
    rw [not_le] at hlt
    refine hlt.trans_le ?_
    rw [sub_le_self_iff]
    norm_num [shareSlack]
  have htotal := totalWeight_pos hwaiting.weight hne
  constructor
  · intro k hk
    by_cases hmem : k ∈ st.act.map (·.id)
    · obtain ⟨a, ha, rfl⟩ := mem_map.mp hmem
      exact mem_map_of_mem (h.perm.mem_iff.mp (mem_append_right _ ha))
    · obtain ⟨v, hv⟩ := GoMap.mem_keys.mp hk
      rw [hother k hmem] at hv
      obtain ⟨a, ha, rfl⟩ := h.keys k (mem_keys.mpr ⟨v, hv⟩)
      exact mem_map_of_mem (h.perm.mem_iff.mp (mem_append_left _ ha))
  · intro a ha
    rcases mem_append.mp (h.perm.mem_iff.mpr ha) with ha | ha
    · rw [hserved a ha]
      exact ⟨Nat.cast_nonneg _, le_rfl⟩
    · rw [hshared a ha]
      exact ⟨div_nonneg (mul_nonneg hrem.le (hwaiting.weight a ha).le) htotal.le, (hbelow a ha).le⟩
  · obtain ⟨r, hr, hpool⟩ := h.remaining
    have hsum : (st.act.map fun a => (st.act.foldl (fun extra a => extra.set a.id (st.share a))
        st.extra).get a.id).sum = r := by
      rw [map_congr_left hshared, sum_share_act hwaiting.weight hne, hr]
    have hlt : (r : ℚ) < totalHeadroom st.act := by
      rw [← hr, ← sum_share_act hwaiting.weight hne, cast_totalHeadroom]
      exact sum_lt_sum_of_ne_nil hne _ _ hbelow
    have hlt' : r < totalHeadroom st.act := by exact_mod_cast hlt
    rw [← (h.perm.map _).sum_eq, map_append, sum_append, hsum, sum_map_headroom hserved,
      ← Nat.cast_add, Nat.cast_inj, h.totalHeadroom_eq]
    omega
  · intro a ha b hb hhead hlt
    rcases mem_append.mp (h.perm.mem_iff.mpr hb) with hb | hb
    · exact .inr (.inl (hserved b hb))
    · rcases mem_append.mp (h.perm.mem_iff.mpr ha) with ha | ha
      · exact absurd hlt (not_lt.mpr (h.ordered a ha b hb hhead))
      · left
        rw [hshared a ha, hshared b hb]
        unfold Filling.share
        gcongr

end Serving

theorem split_waterFill {inputs : List RescaleInput} (pool : ℕ)
    (hact : Crowd (inputs.filterMap RescaleInput.active)) :
    Split (inputs.filterMap RescaleInput.active) pool (waterFill inputs pool) := by
  have hbody : ∀ st : Filling,
      (∃ served, Serving (inputs.filterMap RescaleInput.active) pool served st) →
      ∀ st', fillBody st = .again st' →
        (∃ served, Serving (inputs.filterMap RescaleInput.active) pool served st') ∧
          st'.act.length < st.act.length := by
    rintro st ⟨served, hserving⟩ st' hst
    obtain ⟨hnext, hlt⟩ := hserving.again hact hst
    exact ⟨⟨_, hnext⟩, hlt⟩
  obtain ⟨last, ⟨served, hserving⟩, hlast⟩ :=
    loop_stops hbody ⟨[], Serving.init _ _⟩ (Nat.lt_succ_self _)
  rw [waterFill]
  generalize loop fillBody ((inputs.filterMap RescaleInput.active).length + 1)
    ⟨inputs.filterMap RescaleInput.active, ∅, pool⟩ = out at hlast
  obtain ⟨r, hr, -⟩ := hserving.remaining
  dsimp only [fillBody] at hlast
  split_ifs at hlast with hdone hcapped
  · cases hlast
    refine hserving.split_of_done hact ?_
    rcases hdone with hnil | hsmall | hweight
    · exact .inl (isEmpty_iff.mp hnil)
    · right
      have hlt : (r : ℚ) < 1 := by
        rw [← hr]
        exact lt_of_le_of_lt hsmall (by norm_num [shareSlack])
      have hlt' : r < 1 := by exact_mod_cast hlt
      rw [hr, Nat.lt_one_iff.mp hlt', Nat.cast_zero]
    · left
      by_contra hne
      exact absurd (totalWeight_pos (hserving.waiting hact).weight hne) (not_lt.mpr hweight)
  · cases hlast
    rw [not_or, not_or, not_le] at hdone
    refine hserving.split_of_shared hact (fun hnil => hdone.1 (isEmpty_iff.mpr hnil)) ?_ ?_
    · intro a ha
      rw [← Bool.not_eq_true]
      intro hcap
      have := isEmpty_iff.mp hcapped
      rw [filter_eq_nil_iff] at this
      exact this a ha hcap
    · exact lt_trans (by norm_num [shareSlack]) hdone.2.1

end LlmScaler.Optimizer
