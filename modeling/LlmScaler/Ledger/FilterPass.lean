import LlmScaler.Ledger.ReleasePass

/-!
# What the filter computes

For a transfer still releasing, the filter's verdict depends on its row alone
(`Cycle.releasingEnd`), so the releasing transfers it keeps, those it ends and the
wrong-pod ends are filters of the rows. Filling transfers are judged with running
sums; here they only have to keep their order and their fixed part.
-/

namespace LlmScaler.Ledger

open LlmScaler.Core Cycle

/-- How the filter ends a row still releasing, if it does. -/
def Cycle.releasingEnd (c : Cycle) (r : Row) : Option ShareTransferEnd :=
  if c.broken r.t then some ⟨r.t, .aborted, r.ok && !r.t.plannedRunning⟩
  else if r.wrongPod && !r.t.plannedUnknown then some ⟨r.t, .wrongPod, false⟩
  else if r.t.deadline ≤ c.now ∧ r.t.isSetPrimary ∧ r.ok then some ⟨r.t, .aborted, true⟩
  else if r.t.deadline ≤ c.now then some ⟨r.t, .aborted, false⟩
  else none

/-- The filling transfer as the filter keeps it: its base is taken when first seen. -/
def Cycle.reseen (c : Cycle) (t : ShareTransfer) : ShareTransfer :=
  { t with
    receiverBase := c.rheld.get t.receiver, receiverBaseUnset := false, fillingSince := c.now }

theorem Cycle.releasingEnd_transfer {c : Cycle} {r : Row} {e : ShareTransferEnd}
    (h : c.releasingEnd r = some e) : e.transfer = r.t := by
  unfold Cycle.releasingEnd at h
  split at h
  · cases h; rfl
  split at h
  · cases h; rfl
  split at h
  · cases h; rfl
  split at h
  · cases h; rfl
  · cases h

/-- The wrong-pod ends are exactly the ends recorded with that outcome. -/
def wrongPods (es : List ShareTransferEnd) : List ShareTransfer :=
  (es.filter fun e => e.outcome = .wrongPod).map (·.transfer)

section Step
variable (c : Cycle) (s : Filter) (r : Row)

/-- Backing a donor off changes only when it may give again. -/
@[simp] theorem Filter.backOff_fields (d : String) (now : Int) (tm : ShareTimings) :
    let s' := s.backOff d now tm
    s'.keep = s.keep ∧ s'.ended = s.ended ∧ s'.wrong = s.wrong ∧ s'.filled = s.filled ∧
      s'.got = s.got ∧ s'.rbase = s.rbase := by
  unfold Filter.backOff
  split <;> exact ⟨rfl, rfl, rfl, rfl, rfl, rfl⟩

theorem filterReleasing_spec :
    let s' := filterReleasing c s r
    s'.keep = s.keep ++ (if c.releasingEnd r = none then [r.t] else []) ∧
      s'.ended = s.ended ++ (c.releasingEnd r).toList ∧
      s'.wrong = s.wrong ++ wrongPods (c.releasingEnd r).toList ∧
      s'.filled = s.filled ∧ s'.got = s.got ∧ s'.rbase = s.rbase := by
  intro s'
  simp only [s', filterReleasing, Cycle.releasingEnd]
  by_cases hbroken : c.broken r.t = true
  · simp only [if_pos hbroken]
    simp [Filter.ends, wrongPods]
  by_cases hwrong : (r.wrongPod && !r.t.plannedUnknown) = true
  · simp only [if_neg hbroken, if_pos hwrong]
    simp [Filter.ends, wrongPods]
  by_cases hprimary : r.t.deadline ≤ c.now ∧ r.t.isSetPrimary = true ∧ r.ok = true
  · simp only [if_neg hbroken, if_neg hwrong, if_pos hprimary]
    simp [Filter.ends, wrongPods]
  by_cases hlate : r.t.deadline ≤ c.now
  · simp only [if_neg hbroken, if_neg hwrong, if_neg hprimary, if_pos hlate]
    simp [Filter.ends, wrongPods]
  · simp only [if_neg hbroken, if_neg hwrong, if_neg hprimary, if_neg hlate]
    simp [Filter.keeps, wrongPods]

theorem filterFilling_spec (t : ShareTransfer) :
    let s' := filterFilling c s t
    s'.wrong = s.wrong ∧
      ((∃ u, (u = t ∨ t.receiverBaseUnset = true ∧ u = c.reseen t) ∧ s'.keep = s.keep ++ [u] ∧
          s'.ended = s.ended ∧ s'.filled = s.filled) ∨
        (s'.keep = s.keep ∧ s'.ended = s.ended ++ [⟨t, .done, false⟩] ∧
          s'.filled = s.filled ++ [t]) ∨
        (s'.keep = s.keep ∧ s'.ended = s.ended ++ [⟨t, .fillTimeout, false⟩] ∧
          s'.filled = s.filled)) := by
  intro s'
  simp only [s', filterFilling]
  by_cases hseen : c.rheld.has t.receiver = true ∨ t.receiver = ""
  · by_cases hunset : t.receiverBaseUnset = true
    · simp only [if_pos hseen, if_pos hunset]
      exact ⟨rfl, .inl ⟨_, .inr ⟨hunset, rfl⟩, rfl, rfl, rfl⟩⟩
    by_cases hlanded : (s.tally t).landed c.rheld t.receiver = true
    · simp only [if_pos hseen, if_neg hunset, if_pos hlanded]
      exact ⟨rfl, .inr (.inl ⟨rfl, rfl, rfl⟩)⟩
    by_cases hlate : t.deadline ≤ c.now
    · simp only [if_pos hseen, if_neg hunset, if_neg hlanded, if_pos hlate]
      exact ⟨rfl, .inr (.inr ⟨rfl, rfl, rfl⟩)⟩
    · simp only [if_pos hseen, if_neg hunset, if_neg hlanded, if_neg hlate]
      exact ⟨rfl, .inl ⟨_, .inl rfl, rfl, rfl, rfl⟩⟩
  by_cases hlate : t.deadline ≤ c.now
  · simp only [if_neg hseen, if_pos hlate]
    exact ⟨rfl, .inr (.inr ⟨rfl, rfl, rfl⟩)⟩
  · simp only [if_neg hseen, if_neg hlate]
    exact ⟨rfl, .inl ⟨_, .inl rfl, rfl, rfl, rfl⟩⟩

end Step

section Pass
variable (c : Cycle)

theorem filterStep_releasing {c : Cycle} {r : Row} (s : Filter)
    (h : r.t.state = .releasing) : filterStep c s r = filterReleasing c s r := by
  simp [filterStep, h]

theorem filterStep_filling {c : Cycle} {r : Row} (s : Filter)
    (h : r.t.state = .filling) : filterStep c s r = filterFilling c s r.t := by
  simp [filterStep, h]

theorem filter_keep_releasing (rows : List Row) (s : Filter) :
    (rows.foldl (filterStep c) s).keep.filter (·.state = .releasing) =
      s.keep.filter (·.state = .releasing) ++
        (rows.filter fun r => r.t.state = .releasing ∧ c.releasingEnd r = none).map (·.t) := by
  induction rows generalizing s with
  | nil => simp
  | cons r rows ih =>
    rw [List.foldl_cons, ih]
    cases hstate : r.t.state with
    | releasing =>
      rw [filterStep_releasing s hstate, (filterReleasing_spec c s r).1]
      by_cases hend : c.releasingEnd r = none <;> simp [hstate, hend]
    | filling =>
      rw [filterStep_filling s hstate]
      obtain ⟨-, ⟨u, hu, hk, -, -⟩ | ⟨hk, -, -⟩ | ⟨hk, -, -⟩⟩ := filterFilling_spec c s r.t
      · have hus : u.state = .filling := by rcases hu with rfl | ⟨-, rfl⟩ <;> exact hstate
        simp [hk, hus, hstate]
      · simp [hk, hstate]
      · simp [hk, hstate]

theorem filter_ended_releasing (rows : List Row) (s : Filter) :
    (rows.foldl (filterStep c) s).ended.filter (·.transfer.state = .releasing) =
      s.ended.filter (·.transfer.state = .releasing) ++
        (rows.filter (·.t.state = .releasing)).filterMap c.releasingEnd := by
  induction rows generalizing s with
  | nil => simp
  | cons r rows ih =>
    rw [List.foldl_cons, ih]
    cases hstate : r.t.state with
    | releasing =>
      rw [filterStep_releasing s hstate, (filterReleasing_spec c s r).2.1]
      cases hend : c.releasingEnd r with
      | none => simp [hstate, hend]
      | some e => simp [hstate, hend, releasingEnd_transfer hend]
    | filling =>
      rw [filterStep_filling s hstate]
      obtain ⟨-, ⟨u, hu, -, he, -⟩ | ⟨-, he, -⟩ | ⟨-, he, -⟩⟩ := filterFilling_spec c s r.t <;>
        simp [he, hstate]

theorem filter_ended_filling (rows : List Row) (s : Filter)
    (hs : ∀ e ∈ s.ended, e.transfer.state = .filling → e.outcome = .done ∨ e.outcome = .fillTimeout) :
    ∀ e ∈ (rows.foldl (filterStep c) s).ended, e.transfer.state = .filling →
      e.outcome = .done ∨ e.outcome = .fillTimeout := by
  induction rows generalizing s with
  | nil => exact hs
  | cons r rows ih =>
    refine ih _ fun e he hstate => ?_
    cases hr : r.t.state with
    | releasing =>
      rw [filterStep_releasing s hr, (filterReleasing_spec c s r).2.1, List.mem_append] at he
      rcases he with he | he
      · exact hs e he hstate
      · rw [Option.mem_toList] at he
        rw [releasingEnd_transfer he, hr] at hstate
        cases hstate
    | filling =>
      rw [filterStep_filling s hr] at he
      obtain ⟨-, ⟨u, hu, -, hend, -⟩ | ⟨-, hend, -⟩ | ⟨-, hend, -⟩⟩ := filterFilling_spec c s r.t
      · rw [hend] at he
        exact hs e he hstate
      · rw [hend, List.mem_append, List.mem_singleton] at he
        rcases he with he | rfl
        · exact hs e he hstate
        · exact .inl rfl
      · rw [hend, List.mem_append, List.mem_singleton] at he
        rcases he with he | rfl
        · exact hs e he hstate
        · exact .inr rfl

theorem filter_wrong (rows : List Row) (s : Filter) :
    (rows.foldl (filterStep c) s).wrong = s.wrong ++
      wrongPods ((rows.filter (·.t.state = .releasing)).filterMap c.releasingEnd) := by
  induction rows generalizing s with
  | nil => simp [wrongPods]
  | cons r rows ih =>
    rw [List.foldl_cons, ih]
    cases hstate : r.t.state with
    | releasing =>
      rw [filterStep_releasing s hstate, (filterReleasing_spec c s r).2.2.1]
      cases hend : c.releasingEnd r <;> simp [hstate, hend, wrongPods, List.filter_cons]
      split <;> simp
    | filling =>
      rw [filterStep_filling s hstate, (filterFilling_spec c s r.t).1]
      simp [hstate]

theorem filter_keep_fixed (rows : List Row) (s : Filter) :
    ((rows.foldl (filterStep c) s).keep.map (·.fixed)).Sublist
      (s.keep.map (·.fixed) ++ rows.map (·.t.fixed)) := by
  induction rows generalizing s with
  | nil => simp
  | cons r rows ih =>
    rw [List.foldl_cons]
    refine (ih _).trans ?_
    rw [List.map_cons, ← List.singleton_append, ← List.append_assoc]
    refine List.Sublist.append_right ?_ _
    cases hstate : r.t.state with
    | releasing =>
      rw [filterStep_releasing s hstate, (filterReleasing_spec c s r).1]
      split <;> simp
    | filling =>
      rw [filterStep_filling s hstate]
      obtain ⟨-, ⟨u, hu, hk, -, -⟩ | ⟨hk, -, -⟩ | ⟨hk, -, -⟩⟩ := filterFilling_spec c s r.t
      · have hfixed : u.fixed = r.t.fixed := by rcases hu with rfl | ⟨-, rfl⟩ <;> rfl
        simp [hk, hfixed]
      · simp [hk]
      · simp [hk]

end Pass

end LlmScaler.Ledger
