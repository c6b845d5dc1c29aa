import LlmScaler.Optimizer.WaterFillSpec

/-!
# Whole targets of a water-fill

The shares of a split are rounded down, and what that leaves is handed out by largest remainder.
Remainders are below one, so more claimants have one than there are GPUs left over, and a claimant
with a remainder is below its cap: all the GPUs left over are handed out, each to another claimant.
-/

namespace LlmScaler.Optimizer

open Core List GoMap

variable {f : ℚ} {k : String}

section Apportion

variable {capOf : GoMap String ℕ}

def belowCap (capOf out : GoMap String ℕ) (o : String × ℚ) : Bool :=
  !(capOf.find? o.1).any (· ≤ out.get o.1)

def remainderOrder (remainder : GoMap String ℚ) : List (String × ℚ) :=
  (Sorting.byKey fun o : String × ℚ => toLex (OrderDual.toDual o.2, o.1)).sort
    (remainder.entries.map fun e => (e.1, e.2))

/-- Who is given one of the units left over. -/
def handedOut (out : GoMap String ℕ) (remainder : GoMap String ℚ) (leftover : ℕ)
    (capOf : GoMap String ℕ) : List String :=
  (((remainderOrder remainder).filter (belowCap capOf out)).take leftover).map Prod.fst

private theorem get_foldl_handout {order : List (String × ℚ)} (h : (order.map Prod.fst).Nodup)
    (out : GoMap String ℕ) (left : ℕ) (k : String) :
    (order.foldl (fun (st : GoMap String ℕ × ℕ) o =>
        if st.2 = 0 ∨ (capOf.find? o.1).any (· ≤ st.1.get o.1) then st
        else (st.1.modify o.1 (· + 1), st.2 - 1)) (out, left)).1.get k =
      out.get k +
        if k ∈ ((order.filter (belowCap capOf out)).take left).map Prod.fst then 1 else 0 := by
  induction order generalizing out left with
  | nil => simp
  | cons o order ih =>
    rw [map_cons, nodup_cons] at h
    rw [foldl_cons]
    by_cases hcap : (capOf.find? o.1).any (· ≤ out.get o.1) = true
    · have hskip : belowCap capOf out o = false := by rw [belowCap, hcap, Bool.not_true]
      rw [if_pos (.inr hcap), ih h.2, filter_cons, hskip]
      rfl
    · have hkeep : belowCap capOf out o = true := by
        rw [belowCap, Bool.not_eq_true] at *
        rw [hcap, Bool.not_false]
      cases left with
      | zero =>
        rw [if_pos (.inl rfl), ih h.2]
        simp
      | succ left =>
        rw [if_neg (by rintro (hzero | hcap'); exacts [Nat.succ_ne_zero _ hzero, hcap hcap']),
          ih h.2]
        -- the others are below their caps as before
        have hsame : order.filter (belowCap capOf (out.modify o.1 (· + 1))) =
            order.filter (belowCap capOf out) := by
          apply filter_congr
          intro p hp
          have hne : p.1 ≠ o.1 := fun heq => h.1 (heq ▸ mem_map_of_mem hp)
          rw [belowCap, belowCap, get_modify, if_neg hne]
        rw [hsame, filter_cons, hkeep, if_pos rfl, take_succ_cons, map_cons,
          get_modify]
        have hnot : o.1 ∉ ((order.filter (belowCap capOf out)).take left).map Prod.fst := by
          intro hmem
          obtain ⟨p, hp, heq⟩ := mem_map.mp hmem
          exact h.1 (heq ▸ mem_map_of_mem (mem_of_mem_filter (mem_of_mem_take hp)))
        dsimp only
        rw [Nat.add_sub_cancel]
        by_cases hk : k = o.1
        · subst hk
          rw [if_pos rfl, if_neg hnot, if_pos mem_cons_self]
        · rw [if_neg hk]
          simp only [mem_cons, hk, false_or]

theorem perm_remainderOrder (remainder : GoMap String ℚ) :
    (remainderOrder remainder).Perm (remainder.entries.map fun e => (e.1, e.2)) :=
  Sorting.perm _ _

theorem nodup_remainderOrder (remainder : GoMap String ℚ) :
    ((remainderOrder remainder).map Prod.fst).Nodup := by
  rw [((perm_remainderOrder remainder).map Prod.fst).nodup_iff]
  exact nodup_bindings remainder

theorem mem_remainderOrder {remainder : GoMap String ℚ} :
    (k, f) ∈ remainderOrder remainder ↔ remainder.find? k = some f := by
  rw [(perm_remainderOrder remainder).mem_iff]
  exact mem_bindings

theorem get_apportionLeftover (out : GoMap String ℕ) (remainder : GoMap String ℚ) (leftover : ℕ)
    (k : String) :
    (apportionLeftover out remainder leftover capOf).get k =
      out.get k + if k ∈ handedOut out remainder leftover capOf then 1 else 0 :=
  get_foldl_handout (nodup_remainderOrder remainder) out leftover k

variable {out : GoMap String ℕ} {remainder : GoMap String ℚ} {leftover : ℕ}

theorem nodup_handedOut : (handedOut out remainder leftover capOf).Nodup :=
  (nodup_remainderOrder remainder).sublist
    (((take_sublist _ _).trans filter_sublist).map _)

theorem mem_handedOut (h : k ∈ handedOut out remainder leftover capOf) :
    ∃ f, remainder.find? k = some f ∧ belowCap capOf out (k, f) = true := by
  obtain ⟨⟨k, f⟩, hmem, rfl⟩ := mem_map.mp h
  obtain ⟨hmem, hbelow⟩ := mem_filter.mp (mem_of_mem_take hmem)
  exact ⟨f, mem_remainderOrder.mp hmem, hbelow⟩

theorem handedOut_of_lt {k' : String} {f' : ℚ} (hk : remainder.find? k = some f)
    (hk' : remainder.find? k' = some f') (hlt : f < f')
    (hbelow : belowCap capOf out (k', f') = true) (h : k ∈ handedOut out remainder leftover capOf) :
    k' ∈ handedOut out remainder leftover capOf := by
  unfold handedOut at *
  obtain ⟨⟨k, g⟩, hmem, rfl⟩ := mem_map.mp h
  obtain rfl : f = g := by
    have := mem_remainderOrder.mp (mem_of_mem_filter (mem_of_mem_take hmem))
    rw [hk] at this
    exact Option.some.inj this
  have hsorted : ((remainderOrder remainder).filter (belowCap capOf out)).Pairwise fun a b =>
      decide (toLex (OrderDual.toDual b.2, b.1) < toLex (OrderDual.toDual a.2, a.1)) = false :=
    (Sorting.sorted _ _).sublist filter_sublist
  have hmem' : (k', f') ∈ (remainderOrder remainder).filter (belowCap capOf out) :=
    mem_filter.mpr ⟨mem_remainderOrder.mpr hk', hbelow⟩
  rw [← take_append_drop leftover ((remainderOrder remainder).filter _)] at hsorted hmem'
  rcases mem_append.mp hmem' with hmem' | hmem'
  · exact mem_map_of_mem hmem'
  · have := (pairwise_append.mp hsorted).2.2 _ hmem _ hmem'
    rw [decide_eq_false_iff_not, Prod.Lex.toLex_lt_toLex, not_or] at this
    exact absurd hlt this.1

/-- Every unit is handed out when the remainders add up to their number and everyone with a
remainder is below its cap. -/
theorem length_handedOut (hrange : ∀ k f, remainder.find? k = some f → 0 ≤ f ∧ f < 1)
    (hsum : (remainder.entries.map fun e => e.2).sum = leftover)
    (hbelow : ∀ k f, remainder.find? k = some f → 0 < f → belowCap capOf out (k, f) = true) :
    (handedOut out remainder leftover capOf).length = leftover := by
  have hcount : ∀ l : List (String × ℚ), (∀ o ∈ l, 0 ≤ o.2 ∧ o.2 < 1) →
      (∀ o ∈ l, 0 < o.2 → belowCap capOf out o = true) →
      (l.map Prod.snd).sum ≤ (l.filter (belowCap capOf out)).length := by
    intro l
    induction l with
    | nil => simp
    | cons o l ih =>
      intro hl hpos
      obtain ⟨ho, hl⟩ := forall_mem_cons.mp hl
      obtain ⟨hpo, hpl⟩ := forall_mem_cons.mp hpos
      have := ih hl hpl
      rw [map_cons, sum_cons, filter_cons]
      by_cases hfrac : 0 < o.2
      · rw [if_pos (hpo hfrac), length_cons, Nat.cast_succ]
        linarith
      · have hzero : o.2 = 0 := le_antisymm (not_lt.mp hfrac) ho.1
        rw [hzero, zero_add]
        refine this.trans ?_
        split_ifs
        · simp
        · exact le_rfl
  have hfound : ∀ o ∈ remainderOrder remainder, remainder.find? o.1 = some o.2 :=
    fun o ho => mem_remainderOrder.mp ho
  have hle := hcount (remainderOrder remainder) (fun o ho => hrange _ _ (hfound o ho))
    fun o ho => hbelow _ _ (hfound o ho)
  rw [((perm_remainderOrder remainder).map _).sum_eq, map_map] at hle
  have hle' : leftover ≤ ((remainderOrder remainder).filter (belowCap capOf out)).length := by
    rw [← Nat.cast_le (α := ℚ), ← hsum]
    exact hle
  rw [handedOut, length_map, length_take, min_eq_left hle']

end Apportion

section Targets

variable {inputs : List RescaleInput} {pool budget : ℕ}

def sumFloor (inputs : List RescaleInput) : ℕ := (inputs.map (·.floorGPUs)).sum

/-- The claimants' headroom together, of those that have weight. -/
def weightedHeadroom (inputs : List RescaleInput) : ℕ :=
  ((inputs.filter fun m => 0 < m.weight).map (·.headroom)).sum

/-- The claimants the pool is split among. -/
abbrev claimants (inputs : List RescaleInput) : List Active :=
  inputs.filterMap RescaleInput.active

theorem mem_claimants {a : Active} :
    a ∈ claimants inputs ↔
      ∃ m ∈ inputs, (0 < m.weight ∧ 0 < m.headroom) ∧ a = ⟨m.id, m.weight, m.headroom⟩ := by
  rw [claimants, mem_filterMap]
  refine exists_congr fun m => and_congr_right fun _ => ?_
  rw [RescaleInput.active_eq]
  split_ifs with h
  · rw [Option.some_inj, eq_comm, and_iff_right h]
  · simp [h]

theorem totalHeadroom_claimants (inputs : List RescaleInput) :
    totalHeadroom (claimants inputs) = weightedHeadroom inputs := by
  unfold totalHeadroom weightedHeadroom
  induction inputs with
  | nil => rfl
  | cons m inputs ih =>
    rw [claimants, filterMap_cons, RescaleInput.active_eq, filter_cons]
    by_cases hw : 0 < m.weight
    · by_cases hh : 0 < m.headroom
      · simp only [hw, hh, and_self, if_true, map_cons, sum_cons, ih, decide_true]
      · simp only [hw, hh, and_false, if_false, if_true, map_cons, sum_cons, ih,
          decide_true]
        rw [Nat.eq_zero_of_not_pos hh, zero_add]
    · simp only [hw, false_and, if_false, ih, decide_false, Bool.false_eq_true]

theorem map_id_claimants (inputs : List RescaleInput) :
    ((claimants inputs).map (·.id)).Sublist (inputs.map (·.id)) := by
  refine map_filterMap_sublist (fun m a h => ?_) inputs
  rw [RescaleInput.active_eq] at h
  split_ifs at h
  cases h
  rfl

def floorsOf (inputs : List RescaleInput) : GoMap String ℕ :=
  inputs.foldl (fun t m => t.set m.id m.floorGPUs) ∅

def capsOf (inputs : List RescaleInput) : GoMap String ℕ :=
  inputs.foldl (fun t m => t.set m.id m.capGPUs) ∅

def wholesOf (extra : GoMap String ℚ) (targets : GoMap String ℕ) : GoMap String ℕ :=
  extra.entries.foldl (fun t e => t.modify e.1 (· + ⌊e.2⌋.toNat)) targets

/-- What rounding down leaves of the shares. -/
def remaindersOf (extra : GoMap String ℚ) : GoMap String ℚ := extra.mapValues fun _ e => e - ⌊e⌋

/-- The GPUs rounding down leaves over. -/
def leftoverOf (extra : GoMap String ℚ) : ℕ :=
  (roundGPUs (extra.entries.map fun e => e.2).sum -
    (extra.entries.map fun e => ⌊e.2⌋).sum).toNat

theorem roundExtras_eq (extra : GoMap String ℚ) (targets : GoMap String ℕ) :
    roundExtras inputs extra targets =
      apportionLeftover (wholesOf extra targets) (remaindersOf extra) (leftoverOf extra)
        (capsOf inputs) :=
  rfl

theorem get_wholesOf (extra : GoMap String ℚ) (targets : GoMap String ℕ) (k : String) :
    (wholesOf extra targets).get k = targets.get k + ⌊extra.get k⌋.toNat := by
  have hstep : ∀ (t : GoMap String ℕ) (e : Sigma fun _ : String => ℚ) (k : String),
      (t.modify e.1 (· + ⌊e.2⌋.toNat)).get k =
        if k = e.1 then t.get k + ⌊e.2⌋.toNat else t.get k := by
    intro t e k
    rw [get_modify]
    split_ifs with h
    · rw [h]
    · rfl
  rw [wholesOf, view_foldl_entries (m := fun t => GoMap.get t)
    (f := fun _ (v : ℚ) (n : ℕ) => n + ⌊v⌋.toNat) hstep]
  cases hf : extra.find? k with
  | none =>
    have hzero : extra.get k = 0 := get_of_find?_none hf
    rw [hzero, Int.floor_zero]
    rfl
  | some v =>
    rw [get_of_find? hf]
    rfl

theorem get_remaindersOf (extra : GoMap String ℚ) (k : String) :
    (remaindersOf extra).get k = extra.get k - ⌊extra.get k⌋ := by
  rw [remaindersOf, get_mapValues]
  cases hf : extra.find? k with
  | none =>
    have hzero : extra.get k = 0 := get_of_find?_none hf
    rw [hzero, Int.floor_zero, Int.cast_zero, sub_zero]
    rfl
  | some v =>
    rw [get_of_find? hf]
    rfl

variable (hids : (inputs.map (·.id)).Nodup)

include hids

variable {m : RescaleInput}

theorem get_floorsOf (hm : m ∈ inputs) : (floorsOf inputs).get m.id = m.floorGPUs :=
  get_of_find? ((find?_foldl_set RescaleInput.id RescaleInput.floorGPUs hids ∅).1 m hm)

theorem find?_capsOf (hm : m ∈ inputs) : (capsOf inputs).find? m.id = some m.capGPUs :=
  (find?_foldl_set RescaleInput.id RescaleInput.capGPUs hids ∅).1 m hm

theorem eq_of_id_eq {m' : RescaleInput} (hm : m ∈ inputs) (hm' : m' ∈ inputs) (h : m.id = m'.id) :
    m = m' :=
  inj_on_of_nodup_map hids hm hm' h

theorem belowCap_iff {extra : GoMap String ℚ} (hm : m ∈ inputs) (f : ℚ) :
    belowCap (capsOf inputs) (wholesOf extra (floorsOf inputs)) (m.id, f) = true ↔
      m.floorGPUs + ⌊extra.get m.id⌋.toNat < m.capGPUs := by
  rw [belowCap, find?_capsOf hids hm, get_wholesOf, get_floorsOf hids hm]
  simp

variable {extra : GoMap String ℚ} (hsplit : Split (claimants inputs) pool extra)

include hsplit

omit hids in
theorem Split.mem_ids {k : String} (hk : k ∈ extra.keys) : k ∈ inputs.map (·.id) :=
  (map_id_claimants inputs).subset (hsplit.keys k hk)

theorem Split.claimant_of_mem_keys (hm : m ∈ inputs) (hk : m.id ∈ extra.keys) :
    (⟨m.id, m.weight, m.headroom⟩ : Active) ∈ claimants inputs := by
  obtain ⟨a, ha, hid⟩ := mem_map.mp (hsplit.keys _ hk)
  obtain ⟨m', hm', hpos, rfl⟩ := mem_claimants.mp ha
  rw [← eq_of_id_eq hids hm' hm hid]
  exact ha

theorem Split.range (hm : m ∈ inputs) : 0 ≤ extra.get m.id ∧ extra.get m.id ≤ m.headroom := by
  by_cases hk : m.id ∈ extra.keys
  · exact hsplit.within _ (hsplit.claimant_of_mem_keys hids hm hk)
  · rw [get_of_not_mem_keys hk]
    exact ⟨le_rfl, Nat.cast_nonneg _⟩

theorem Split.floor_le (hm : m ∈ inputs) : ⌊extra.get m.id⌋.toNat ≤ m.headroom := by
  have := Int.floor_le_floor (hsplit.range hids hm).2
  rw [Int.floor_natCast] at this
  omega

theorem Split.sum_extra :
    ((inputs.map (·.id)).map extra.get).sum = (min pool (weightedHeadroom inputs) : ℕ) := by
  have hnodup : ((claimants inputs).map (·.id)).Nodup := hids.sublist (map_id_claimants inputs)
  rw [sum_map_get rfl hids fun _ => hsplit.mem_ids, ← sum_map_get rfl hnodup hsplit.keys,
    map_map, ← totalHeadroom_claimants]
  exact hsplit.total

theorem Split.sum_remainders :
    ((remaindersOf extra).entries.map fun e => e.2).sum = leftoverOf extra := by
  have hsub : ∀ l : List (Sigma fun _ : String => ℚ),
      (l.map fun e => e.2 - (⌊e.2⌋ : ℚ)).sum =
        (l.map fun e => e.2).sum - ((l.map fun e => ⌊e.2⌋).sum : ℤ) := by
    intro l
    induction l with
    | nil => simp
    | cons e l ih =>
      simp only [map_cons, sum_cons, ih, Int.cast_add]
      ring
  have htotal : (extra.entries.map fun e => e.2).sum = (min pool (weightedHeadroom inputs) : ℕ) := by
    rw [← hsplit.sum_extra hids]
    exact (sum_map_get rfl hids fun _ => hsplit.mem_ids).symm
  have hsum : ((remaindersOf extra).entries.map fun e => e.2).sum =
      (extra.entries.map fun e => e.2).sum - ((extra.entries.map fun e => ⌊e.2⌋).sum : ℤ) := by
    rw [← hsub, remaindersOf, GoMap.mapValues, map_map]
    rfl
  have hnonneg : 0 ≤ ((remaindersOf extra).entries.map fun e => e.2).sum := by
    rw [hsum, ← hsub]
    exact sum_nonneg (forall_mem_map.mpr fun e _ => sub_nonneg.mpr (Int.floor_le _))
  rw [hsum, htotal] at hnonneg
  rw [hsum, leftoverOf, htotal]
  generalize min pool (weightedHeadroom inputs) = n at hnonneg ⊢
  generalize (extra.entries.map fun e => ⌊e.2⌋).sum = whole at hnonneg ⊢
  have hround : roundGPUs (n : ℚ) = n := by
    rw [roundGPUs, Int.floor_eq_iff]
    constructor
    · simp
    · rw [Int.cast_natCast]
      linarith
  have hle : whole ≤ n := by
    rw [sub_nonneg] at hnonneg
    exact_mod_cast hnonneg
  have hnat : ((n - whole).toNat : ℤ) = n - whole := Int.toNat_of_nonneg (by omega)
  rw [hround]
  exact_mod_cast hnat.symm

/-- Who takes one of the GPUs left over. -/
def rounders (inputs : List RescaleInput) (extra : GoMap String ℚ) : List String :=
  handedOut (wholesOf extra (floorsOf inputs)) (remaindersOf extra) (leftoverOf extra)
    (capsOf inputs)

omit hsplit in
/-- A target is the floor, the whole GPUs of the share, and one for a remainder rounded up. -/
theorem get_roundExtras (hm : m ∈ inputs) :
    (roundExtras inputs extra (floorsOf inputs)).get m.id =
      m.floorGPUs + ⌊extra.get m.id⌋.toNat + if m.id ∈ rounders inputs extra then 1 else 0 := by
  rw [roundExtras_eq, get_apportionLeftover, get_wholesOf, get_floorsOf hids hm]
  rfl

omit hsplit in
theorem lt_cap_of_rounder (hm : m ∈ inputs) (h : m.id ∈ rounders inputs extra) :
    m.floorGPUs + ⌊extra.get m.id⌋.toNat < m.capGPUs := by
  obtain ⟨f, -, hbelow⟩ := mem_handedOut h
  exact (belowCap_iff hids hm f).mp hbelow

omit hids hsplit in
theorem find?_remaindersOf (h : (remaindersOf extra).find? k = some f) :
    k ∈ extra.keys ∧ f = extra.get k - ⌊extra.get k⌋ := by
  constructor
  · have hk := mem_keys.mpr ⟨f, h⟩
    rwa [remaindersOf, keys_mapValues] at hk
  · rw [← get_remaindersOf, get_of_find? h]

omit hids hsplit in
theorem find?_remaindersOf_of_mem (hk : k ∈ extra.keys) :
    (remaindersOf extra).find? k = some (extra.get k - ⌊extra.get k⌋) := by
  obtain ⟨v, hv⟩ := GoMap.mem_keys.mp hk
  rw [remaindersOf, find?_mapValues, hv, get_of_find? hv]
  rfl

theorem Split.below_of_remainder (hm : m ∈ inputs) (hcap : m.floorGPUs ≤ m.capGPUs)
    (hpos : 0 < extra.get m.id - ⌊extra.get m.id⌋) :
    m.floorGPUs + ⌊extra.get m.id⌋.toNat < m.capGPUs := by
  obtain ⟨hnonneg, hle⟩ := hsplit.range hids hm
  have hlt : (⌊extra.get m.id⌋ : ℚ) < (m.headroom : ℤ) := by
    rw [Int.cast_natCast]
    linarith
  have hlt' : ⌊extra.get m.id⌋ < (m.headroom : ℤ) := by exact_mod_cast hlt
  have := Int.floor_nonneg.mpr hnonneg
  unfold RescaleInput.headroom at hlt'
  omega

theorem Split.length_rounders (hcaps : ∀ m ∈ inputs, m.floorGPUs ≤ m.capGPUs) :
    (rounders inputs extra).length = leftoverOf extra := by
  apply length_handedOut
  · intro k f hf
    obtain ⟨-, rfl⟩ := find?_remaindersOf hf
    exact ⟨sub_nonneg.mpr (Int.floor_le _), by linarith [Int.lt_floor_add_one (extra.get k)]⟩
  · exact hsplit.sum_remainders hids
  · intro k f hf hpos
    obtain ⟨hk, rfl⟩ := find?_remaindersOf hf
    obtain ⟨m, hm, rfl⟩ := mem_map.mp (hsplit.mem_ids hk)
    exact (belowCap_iff hids hm _).mpr (hsplit.below_of_remainder hids hm (hcaps m hm) hpos)

variable (hcaps : ∀ m ∈ inputs, m.floorGPUs ≤ m.capGPUs)

include hcaps

theorem Split.floor_le_target (hm : m ∈ inputs) :
    m.floorGPUs ≤ (roundExtras inputs extra (floorsOf inputs)).get m.id ∧
      (roundExtras inputs extra (floorsOf inputs)).get m.id ≤ m.capGPUs := by
  rw [get_roundExtras hids hm]
  refine ⟨by omega, ?_⟩
  have hle := hsplit.floor_le hids hm
  have hcap := hcaps m hm
  unfold RescaleInput.headroom at hle
  split_ifs with h
  · exact lt_cap_of_rounder hids hm h
  · omega

theorem Split.sum_rounders :
    ((inputs.map (·.id)).map fun k => if k ∈ rounders inputs extra then 1 else 0).sum =
      leftoverOf extra := by
  rw [← hsplit.length_rounders hids hcaps]
  apply sum_map_indicator hids nodup_handedOut
  intro k hk
  obtain ⟨f, hf, -⟩ := mem_handedOut hk
  exact hsplit.mem_ids (find?_remaindersOf hf).1

theorem Split.sum_targets :
    (inputs.map fun m => (roundExtras inputs extra (floorsOf inputs)).get m.id).sum =
      sumFloor inputs + min pool (weightedHeadroom inputs) := by
  have hextra := hsplit.sum_extra hids
  have hone := hsplit.sum_rounders hids hcaps
  have hleft : ((inputs.map (·.id)).map fun k => extra.get k - (⌊extra.get k⌋ : ℚ)).sum =
      leftoverOf extra := by
    rw [← hsplit.sum_remainders hids]
    have hkeys : ∀ k ∈ (remaindersOf extra).keys, k ∈ inputs.map (·.id) := by
      intro k hk
      rw [remaindersOf, keys_mapValues] at hk
      exact hsplit.mem_ids hk
    rw [← sum_map_get rfl hids hkeys]
    exact congrArg List.sum (map_congr_left fun k _ => (get_remaindersOf extra k).symm)
  -- the whole GPUs are the shares less the remainders
  have hwhole : (inputs.map fun m => ⌊extra.get m.id⌋.toNat).sum + leftoverOf extra =
      min pool (weightedHeadroom inputs) := by
    rw [← Nat.cast_inj (R := ℚ), ← hextra, Nat.cast_add, ← hleft, Nat.cast_list_sum, map_map,
      map_map, map_map, ← sum_map_add]
    refine congrArg List.sum (map_congr_left fun m hm => ?_)
    have hfloor : ((⌊extra.get m.id⌋.toNat : ℤ) : ℚ) = ⌊extra.get m.id⌋ := by
      rw [Int.toNat_of_nonneg (Int.floor_nonneg.mpr (hsplit.range hids hm).1)]
    rw [Int.cast_natCast] at hfloor
    simp only [Function.comp_apply, hfloor]
    ring
  rw [← hwhole, ← hone, map_map, sumFloor, ← sum_map_add, ← sum_map_add]
  refine congrArg List.sum (map_congr_left fun m hm => ?_)
  rw [get_roundExtras hids hm, Nat.add_assoc]
  rfl

theorem Split.target_mono {m' : RescaleInput} (hm : m ∈ inputs) (hm' : m' ∈ inputs)
    (hfloor : m.floorGPUs = m'.floorGPUs) (hcap : m.capGPUs = m'.capGPUs)
    (hweight : m.weight < m'.weight) :
    (roundExtras inputs extra (floorsOf inputs)).get m.id ≤
      (roundExtras inputs extra (floorsOf inputs)).get m'.id := by
  have hge := (hsplit.floor_le_target hids hcaps hm').1
  have hle := (hsplit.floor_le_target hids hcaps hm).2
  have hhead : m.headroom = m'.headroom := by
    rw [RescaleInput.headroom, RescaleInput.headroom, hfloor, hcap]
  by_cases hk : m.id ∈ extra.keys
  · have hclaim := hsplit.claimant_of_mem_keys hids hm hk
    obtain ⟨n, hn, hpos, heq⟩ := mem_claimants.mp hclaim
    obtain rfl : m = n := eq_of_id_eq hids hm hn (congrArg Active.id heq)
    have hclaim' : (⟨m'.id, m'.weight, m'.headroom⟩ : Active) ∈ claimants inputs :=
      mem_claimants.mpr ⟨m', hm', ⟨hpos.1.trans hweight, hhead ▸ hpos.2⟩, rfl⟩
    rcases hsplit.ordered _ hclaim _ hclaim' hhead hweight with hlt | hfull | hnot
    · have hlt : extra.get m.id < extra.get m'.id := hlt
      have hmono := Int.floor_le_floor hlt.le
      have hnonneg := Int.floor_nonneg.mpr (hsplit.range hids hm).1
      rw [get_roundExtras hids hm, get_roundExtras hids hm', hfloor]
      rcases hmono.lt_or_eq with hless | hsame
      · split_ifs
        all_goals omega
      · -- the whole parts agree, so the heavier claimant has the larger remainder
        rw [hsame]
        by_cases hup : m.id ∈ rounders inputs extra
        · have hup' : m'.id ∈ rounders inputs extra := by
            have hk' : m'.id ∈ extra.keys := by
              by_contra hnot
              have hzero : extra.get m'.id = 0 := get_of_not_mem_keys hnot
              exact absurd (hsplit.range hids hm).1 (not_le.mpr (hzero ▸ hlt))
            refine handedOut_of_lt (find?_remaindersOf_of_mem hk) (find?_remaindersOf_of_mem hk')
              ?_ ?_ hup
            · rw [hsame]
              linarith
            · rw [belowCap_iff hids hm', ← hsame, ← hfloor, ← hcap]
              exact lt_cap_of_rounder hids hm hup
          rw [if_pos hup, if_pos hup']
        · rw [if_neg hup]
          omega
    · have hfull : extra.get m'.id = m'.headroom := hfull
      refine hle.trans ?_
      rw [get_roundExtras hids hm', hfull, Int.floor_natCast, Int.toNat_natCast, hcap]
      unfold RescaleInput.headroom
      omega
    · exact absurd hk hnot
  · refine le_trans (le_of_eq ?_) (hfloor ▸ hge)
    have hzero : extra.get m.id = 0 := get_of_not_mem_keys hk
    have hup : m.id ∉ rounders inputs extra := by
      intro hup
      obtain ⟨f, hf, -⟩ := mem_handedOut hup
      exact hk (find?_remaindersOf hf).1
    rw [get_roundExtras hids hm, hzero, if_neg hup, Int.floor_zero]
    rfl

end Targets

section Budget

variable {inputs : List RescaleInput} {budget : ℕ}

theorem crowd_claimants (hids : (inputs.map (·.id)).Nodup)
    (hfew : (claimants inputs).length < 10 ^ 9) : Crowd (claimants inputs) where
  nodup := hids.sublist (map_id_claimants inputs)
  weight a ha := by
    obtain ⟨m, -, hpos, rfl⟩ := mem_claimants.mp ha
    exact hpos.1
  slack := by
    have hfew' : ((claimants inputs).length : ℚ) < 10 ^ 9 := by exact_mod_cast hfew
    rw [shareSlack, mul_one_div, div_lt_one (by norm_num)]
    exact hfew'

theorem computeRescaleTargets_of_le (h : budget ≤ sumFloor inputs) :
    computeRescaleTargets inputs budget =
      (floorsOf inputs, decide (budget < sumFloor inputs)) :=
  if_pos h

theorem computeRescaleTargets_of_lt (h : sumFloor inputs < budget) :
    computeRescaleTargets inputs budget =
      (roundExtras inputs (waterFill inputs (budget - sumFloor inputs)) (floorsOf inputs), false) :=
  if_neg (not_le.mpr h)

/-- Targets lie between floors and caps and add up to the budget, or to the floors with all the
headroom there is weight for; floors over the budget are the targets, and reported; and of two
models with one floor and cap the heavier one has no smaller target. -/
theorem computeRescaleTargets_exact (hids : (inputs.map (·.id)).Nodup)
    (hcaps : ∀ m ∈ inputs, m.floorGPUs ≤ m.capGPUs)
    (hfew : (inputs.filterMap RescaleInput.active).length < 10 ^ 9) (budget : ℕ) :
    let out := computeRescaleTargets inputs budget
    (∀ m ∈ inputs, m.floorGPUs ≤ out.1.get m.id ∧ out.1.get m.id ≤ m.capGPUs) ∧
      (sumFloor inputs ≤ budget → (inputs.map fun m => out.1.get m.id).sum =
        min budget (sumFloor inputs + weightedHeadroom inputs)) ∧
      (budget < sumFloor inputs → ∀ m ∈ inputs, out.1.get m.id = m.floorGPUs) ∧
      (out.2 = true ↔ budget < sumFloor inputs) ∧
      ∀ m ∈ inputs, ∀ m' ∈ inputs, m.floorGPUs = m'.floorGPUs → m.capGPUs = m'.capGPUs →
        m.weight < m'.weight → out.1.get m.id ≤ out.1.get m'.id := by
  intro out
  rcases le_or_gt budget (sumFloor inputs) with hle | hlt
  · have hout : out = _ := computeRescaleTargets_of_le hle
    have hget : ∀ m ∈ inputs, out.1.get m.id = m.floorGPUs := by
      intro m hm
      rw [hout]
      exact get_floorsOf hids hm
    refine ⟨?_, ?_, ?_, ?_, ?_⟩
    · intro m hm
      rw [hget m hm]
      exact ⟨le_rfl, hcaps m hm⟩
    · intro hfits
      rw [map_congr_left hget, min_eq_left (by omega)]
      exact le_antisymm hfits hle
    · exact fun _ => hget
    · rw [hout, decide_eq_true_eq]
    · intro m hm m' hm' hfloor _ _
      rw [hget m hm, hget m' hm', hfloor]
  · have hout : out = _ := computeRescaleTargets_of_lt hlt
    have hsplit := split_waterFill (budget - sumFloor inputs) (crowd_claimants hids hfew)
    rw [hout]
    refine ⟨?_, ?_, ?_, ?_, ?_⟩
    · exact fun m hm => hsplit.floor_le_target hids hcaps hm
    · intro _
      rw [hsplit.sum_targets hids hcaps]
      omega
    · exact fun hover => absurd hover (not_lt.mpr hlt.le)
    · exact iff_of_false Bool.false_ne_true (not_lt.mpr hlt.le)
    · exact fun m hm m' hm' => hsplit.target_mono hids hcaps hm hm'

/-- Two models contend for five GPUs. -/
theorem computeRescaleTargets_exact_pair :
    let inputs : List RescaleInput := [⟨"a", 1, 2, 1, 4⟩, ⟨"b", 2, 3, 1, 4⟩]
    (inputs.map (·.id)).Nodup ∧ (∀ m ∈ inputs, m.floorGPUs ≤ m.capGPUs) ∧
      (inputs.filterMap RescaleInput.active).length < 10 ^ 9 ∧
      (inputs.map fun m => (computeRescaleTargets inputs 5).1.get m.id).sum = 5 := by
  have hids : (([⟨"a", 1, 2, 1, 4⟩, ⟨"b", 2, 3, 1, 4⟩] : List RescaleInput).map (·.id)).Nodup := by
    decide
  have hcaps : ∀ m ∈ ([⟨"a", 1, 2, 1, 4⟩, ⟨"b", 2, 3, 1, 4⟩] : List RescaleInput),
      m.floorGPUs ≤ m.capGPUs := by
    decide
  have hfew : (([⟨"a", 1, 2, 1, 4⟩, ⟨"b", 2, 3, 1, 4⟩] : List RescaleInput).filterMap
      RescaleInput.active).length < 10 ^ 9 := by
    decide +kernel
  refine ⟨hids, hcaps, hfew, ?_⟩
  exact ((computeRescaleTargets_exact hids hcaps hfew 5).2.1 (by decide)).trans
    (by decide +kernel)

/-- A model that can take one GPU. -/
def small (i : ℕ) : RescaleInput := ⟨String.ofList (List.replicate i 'a'), 1, 1, 0, 1⟩

theorem small_id_injective : Function.Injective fun i => (small i).id := by
  intro i j h
  have hlist : List.replicate i 'a' = List.replicate j 'a' := String.ofList_injective h
  simpa using congrArg List.length hlist

theorem nodup_small (n : ℕ) : (((List.range n).map small).map (·.id)).Nodup := by
  rw [map_map]
  exact nodup_range.map small_id_injective

theorem small_active (i : ℕ) : (small i).active = some ⟨(small i).id, 1, 1⟩ := by
  have hweight : (small i).weight = 1 := by
    rw [RescaleInput.weight, small, one_mul]
    exact min_eq_left (one_le_pow₀ (by norm_num))
  have hhead : (small i).headroom = 1 := rfl
  rw [RescaleInput.active_eq, hweight, hhead, if_pos ⟨one_pos, one_pos⟩]

theorem claimants_small (n : ℕ) :
    claimants ((List.range n).map small) =
      (List.range n).map fun i => ⟨(small i).id, 1, 1⟩ := by
  rw [claimants, filterMap_map]
  refine filterMap_eq_map_iff_forall_eq_some.mpr ?_
  intro i _
  rw [Function.comp_apply, small_active]

theorem find?_waterFill_small {n : ℕ} (hn : 10 ^ 9 ≤ n) {i : ℕ} (hi : i < n) :
    (waterFill ((List.range n).map small) (n - 1)).find? (small i).id = some 1 := by
  have hn' : (10 ^ 9 : ℚ) ≤ n := by exact_mod_cast hn
  have hact := claimants_small n
  set act := (List.range n).map fun i => (⟨(small i).id, 1, 1⟩ : Active) with hdef
  have hlength : act.length = n := by simp [hdef]
  have hweight : totalWeight act = n := by
    rw [totalWeight, hdef, map_map, sum_eq_card_nsmul _ (1 : ℚ)]
    · simp
    · intro x hx
      obtain ⟨j, -, rfl⟩ := mem_map.mp hx
      rfl
  have hremaining : ((n - 1 : ℕ) : ℚ) = n - 1 := by
    rw [Nat.cast_sub (by omega), Nat.cast_one]
  have hcapped : ∀ a ∈ act, Filling.capped ⟨act, ∅, (n - 1 : ℕ)⟩ a = true := by
    refine forall_mem_map.mpr fun j _ => decide_eq_true ?_
    rw [Filling.share, hweight, hremaining, shareSlack, mul_one, Nat.cast_one,
      le_div_iff₀ (by linarith)]
    linarith
  have hall : act.filter (Filling.capped ⟨act, ∅, (n - 1 : ℕ)⟩) = act :=
    filter_eq_self.mpr hcapped
  have hnone : act.filter (fun a => !Filling.capped ⟨act, ∅, (n - 1 : ℕ)⟩ a) = [] := by
    rw [filter_eq_nil_iff]
    intro a ha
    rw [hcapped a ha]
    exact Bool.false_ne_true
  have hfirst : fillBody ⟨act, ∅, (n - 1 : ℕ)⟩ =
      .again ⟨[], act.foldl (fun extra a => extra.set a.id a.headroom) ∅,
        (n - 1 : ℕ) - ((act.map (·.headroom)).sum : ℕ)⟩ := by
    have hne : act.isEmpty = false := by
      rw [isEmpty_eq_false_iff, ← length_pos_iff, hlength]
      omega
    unfold fillBody
    dsimp only
    rw [hall, hnone, hne, hweight, hremaining, if_neg, if_neg Bool.false_ne_true]
    rw [not_or, not_or, not_le, not_le, shareSlack]
    refine ⟨Bool.false_ne_true, by linarith, by linarith⟩
  have hsecond : ∀ extra remaining,
      fillBody ⟨[], extra, remaining⟩ = .stop ⟨[], extra, remaining⟩ :=
    fun _ _ => if_pos (.inl rfl)
  have hfuel : act.length = (n - 1) + 1 := by omega
  rw [waterFill, show ((List.range n).map small).filterMap RescaleInput.active = act from hact, loop_again
    hfirst, hfuel, loop_stop (hsecond _ _)]
  have hnodup : (act.map (·.id)).Nodup := by
    have := nodup_small n
    rw [map_map] at this
    rw [hdef, map_map]
    exact this
  exact (find?_foldl_set Active.id (fun a => (a.headroom : ℚ)) hnodup ∅).1 _
    (mem_map.mpr ⟨i, mem_range.mpr hi, rfl⟩)

/-- A billion models with one GPU of headroom each take a billion GPUs of a budget with one
fewer. -/
theorem computeRescaleTargets_over_budget :
    ∃ (inputs : List RescaleInput) (budget : ℕ), (inputs.map (·.id)).Nodup ∧
      (∀ m ∈ inputs, m.floorGPUs ≤ m.capGPUs) ∧ sumFloor inputs ≤ budget ∧
      budget < (inputs.map fun m => (computeRescaleTargets inputs budget).1.get m.id).sum := by
  obtain ⟨n, hn⟩ : ∃ n, n = 10 ^ 9 := ⟨_, rfl⟩
  have hids := nodup_small n
  have hfloor : sumFloor ((List.range n).map small) = 0 := by
    rw [sumFloor, map_map]
    exact sum_eq_zero fun x hx => by
      obtain ⟨i, -, rfl⟩ := mem_map.mp hx
      rfl
  have hone : ∀ m ∈ (List.range n).map small,
      1 ≤ (computeRescaleTargets ((List.range n).map small) (n - 1)).1.get m.id := by
    intro m hm
    rw [computeRescaleTargets_of_lt (by omega), get_roundExtras hids hm, hfloor]
    obtain ⟨i, hi, rfl⟩ := mem_map.mp hm
    rw [Nat.sub_zero, get_of_find? (find?_waterFill_small hn.ge (mem_range.mp hi)),
      Int.floor_one, Int.toNat_one]
    omega
  refine ⟨(List.range n).map small, n - 1, hids, ?_, by omega, ?_⟩
  · intro m hm
    obtain ⟨i, -, rfl⟩ := mem_map.mp hm
    exact Nat.zero_le _
  · have hle := card_nsmul_le_sum (((List.range n).map small).map fun m =>
      (computeRescaleTargets ((List.range n).map small) (n - 1)).1.get m.id) 1
        (forall_mem_map.mpr hone)
    rw [length_map, length_map, length_range, nsmul_one] at hle
    have : n ≤ _ := hle
    omega

end Budget

end LlmScaler.Optimizer
