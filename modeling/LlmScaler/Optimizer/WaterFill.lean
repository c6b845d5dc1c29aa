import LlmScaler.Optimizer.Greedy

/-!
# The priority-weighted water-fill

Rescale splits the GPUs of a group among its models, and a model's GPUs among its roles, in one
way: every claimant is reserved its floor, the rest is split by weight, a claimant whose share
reaches its cap takes the cap and frees the excess for the others, and the shares are rounded to
whole GPUs by largest remainder.
-/

namespace LlmScaler.Optimizer

open Core

/-- `rescaleInput`: one claimant of the water-fill. -/
structure RescaleInput where
  id : String
  priority : ℚ
  demand : ℚ
  floorGPUs : ℕ
  capGPUs : ℕ

/-- A claimant that can take GPUs above its floor. -/
structure Active where
  id : String
  weight : ℚ
  headroom : ℕ

/-- A claimant as the water-fill serves it, if it has weight and headroom. -/
def RescaleInput.active (m : RescaleInput) : Option Active :=
  let hr := m.capGPUs - m.floorGPUs
  let w := min (m.priority * m.demand) maxShareWeight
  if 0 < w ∧ 0 < hr then some ⟨m.id, w, hr⟩ else none

def shareSlack : ℚ := 1 / 10 ^ 9

structure Filling where
  act : List Active
  extra : GoMap String ℚ
  remaining : ℚ

def totalWeight (act : List Active) : ℚ := (act.map (·.weight)).sum

/-- A claimant's share of what remains. -/
def Filling.share (st : Filling) (a : Active) : ℚ := st.remaining * a.weight / totalWeight st.act

/-- Whether a claimant's share reaches its cap. -/
def Filling.capped (st : Filling) (a : Active) : Bool :=
  decide (a.headroom - shareSlack ≤ st.share a)

/-- One round: the claimants at their caps are served, or, when there is none, all are. -/
def fillBody (st : Filling) : Pass Filling :=
  if st.act.isEmpty ∨ st.remaining ≤ shareSlack ∨ totalWeight st.act ≤ 0 then .stop st
  else
    let capped := st.act.filter st.capped
    if capped.isEmpty then
      .stop ⟨[], st.act.foldl (fun extra a => extra.set a.id (st.share a)) st.extra, 0⟩
    else
      .again
        { act := st.act.filter fun a => !st.capped a
          extra := capped.foldl (fun extra a => extra.set a.id a.headroom) st.extra
          remaining := st.remaining - ((capped.map (·.headroom)).sum : ℕ) }

/-- The GPUs of a pool given to each claimant above its floor. -/
def waterFill (inputs : List RescaleInput) (pool : ℕ) : GoMap String ℚ :=
  let act := inputs.filterMap RescaleInput.active
  (loop fillBody (act.length + 1) ⟨act, ∅, pool⟩).extra

theorem waterFill_stops (act : List Active) (pool : ℚ) :
    ∃ last, fillBody last = .stop (loop fillBody (act.length + 1) ⟨act, ∅, pool⟩) := by
  have hbody : ∀ st : Filling, True → ∀ st', fillBody st = .again st' →
      True ∧ st'.act.length < st.act.length := by
    intro st _ st' h
    dsimp only [fillBody] at h
    split_ifs at h with hdone hcapped
    cases h
    refine ⟨trivial, ?_⟩
    obtain ⟨a, ha⟩ := List.exists_mem_of_ne_nil _ fun hnil =>
      hcapped (List.isEmpty_iff.mpr hnil)
    obtain ⟨hmem, hcap⟩ := List.mem_filter.mp ha
    exact List.length_filter_lt_length_iff_exists.mpr ⟨a, hmem, by rw [hcap]; decide⟩
  obtain ⟨last, -, hlast⟩ := loop_stops hbody (s := ⟨act, ∅, pool⟩) trivial
    (Nat.lt_succ_self act.length)
  exact ⟨last, hlast⟩

/-- `apportionLeftover`: whole units handed out one at a time by largest remainder, skipping a
claimant at its cap. -/
def apportionLeftover (out : GoMap String ℕ) (remainder : GoMap String ℚ) (leftover : ℕ)
    (capOf : GoMap String ℕ) : GoMap String ℕ :=
  let order := (Sorting.byKey fun o : String × ℚ => toLex (OrderDual.toDual o.2, o.1)).sort
    (remainder.entries.map fun e => (e.1, e.2))
  (order.foldl (fun (st : GoMap String ℕ × ℕ) o =>
    if st.2 = 0 ∨ (capOf.find? o.1).any (· ≤ st.1.get o.1) then st
    else (st.1.modify o.1 (· + 1), st.2 - 1)) (out, leftover)).1

/-- The nearest whole number of a share, a half rounded up. -/
def roundGPUs (x : ℚ) : ℤ := ⌊x + 1 / 2⌋

/-- `roundExtras`: the shares rounded to whole GPUs, on top of the floors. -/
def roundExtras (inputs : List RescaleInput) (extra : GoMap String ℚ) (targets : GoMap String ℕ) :
    GoMap String ℕ :=
  let capOf := inputs.foldl (fun m i => m.set i.id i.capGPUs) ∅
  let whole := extra.entries.foldl (fun t e => t.modify e.1 (· + ⌊e.2⌋.toNat)) targets
  let remainder := extra.mapValues fun _ e => e - ⌊e⌋
  let totalFrac := (extra.entries.map fun e => e.2).sum
  let sumWhole := (extra.entries.map fun e => ⌊e.2⌋).sum
  apportionLeftover whole remainder (roundGPUs totalFrac - sumWhole).toNat capOf

/-- `computeRescaleTargets`: the GPUs of each claimant, and whether the floors exceed the
budget. -/
def computeRescaleTargets (inputs : List RescaleInput) (budget : ℕ) : GoMap String ℕ × Bool :=
  let targets := inputs.foldl (fun t m => t.set m.id m.floorGPUs) ∅
  let sumFloor := (inputs.map (·.floorGPUs)).sum
  if budget ≤ sumFloor then (targets, decide (budget < sumFloor))
  else (roundExtras inputs (waterFill inputs (budget - sumFloor)) targets, false)

/-- `distributeGPUsByWeight`: a model's GPUs split among its roles under their ceilings, by
weight, or by the fallback when no role has weight. -/
def distributeGPUsByWeight (total : ℕ) (roles : List String) (weight fallback floor : String → ℕ)
    (ceiling : String → Option ℕ) : GoMap String ℕ :=
  match roles with
  | [] => ∅
  | [role] => (∅ : GoMap String ℕ).set role total
  | _ =>
    let remaining := total - (roles.map floor).sum
    let capOf := fun r =>
      match ceiling r with
      | none => floor r + remaining
      | some c => max (min c (floor r + remaining)) (floor r)
    let w := if (roles.map weight).sum = 0 then fallback else weight
    if (roles.map w).sum = 0 then
      (roles.foldl (fun (st : GoMap String ℕ × ℕ) r =>
        let give := min st.2 (capOf r - floor r)
        (st.1.set r (floor r + give), st.2 - give)) (∅, remaining)).1
    else
      (computeRescaleTargets (roles.map fun r => ⟨r, 1, w r, floor r, capOf r⟩) total).1

end LlmScaler.Optimizer
