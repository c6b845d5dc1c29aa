import Mathlib

/-!
# What a role's GPUs serve

The capacity of a role is runs of GPUs that serve alike, and past the last run a GPU serves as
much as one of the best variant. `serves` and `gpusFor` walk the runs from the two axes of one
piecewise linear curve, which rises strictly where the runs have positive length and worth, so
that each inverts the other.
-/

namespace LlmScaler.Optimizer

open List

/-- A run of a role's GPUs that serve alike. -/
structure ShareCapacityStep where
  /-- The run's length, `⊤` for a variant with no ceiling. -/
  gpus : WithTop ℚ
  /-- What one of its GPUs serves, as a fraction of one of the role's best variant. -/
  perGPU : ℚ

/-- A role, by what its GPUs serve in the order it grows them. -/
structure ShareRole where
  capacity : List ShareCapacityStep

/-- The loop of `serves`, `s` being what the GPUs walked serve. -/
def servesLoop (s : ℚ) : List ShareCapacityStep → ℚ → ℚ
  | [], g => s + g
  | st :: sts, g =>
    let take := (min (g : WithTop ℚ) st.gpus).untopD g
    if g - take ≤ 0 then s + take * st.perGPU
    else servesLoop (s + take * st.perGPU) sts (g - take)

/-- The loop of `gpusFor`: the GPUs walked, what is left to serve, and whether every run walked
serves as much as the best. -/
def gpusForLoop (g left : ℚ) (uniform : Bool) : List ShareCapacityStep → ℚ × ℚ × Bool
  | [] => (g, left, uniform)
  | st :: sts =>
    let uniform := uniform && decide (st.perGPU = 1)
    -- a run without end serves all that is left
    if (left : WithTop ℚ) ≤ st.gpus.map (· * st.perGPU) then (g + left / st.perGPU, 0, uniform)
    else
      let n := st.gpus.untopD 0
      gpusForLoop (g + n) (left - n * st.perGPU) uniform sts

namespace ShareRole

/-- `serves`: what `g` GPUs serve, in GPUs of the best variant. -/
def serves (r : ShareRole) (g : ℚ) : ℚ :=
  if r.capacity.length = 0 ∨ ¬ 0 < g then g else servesLoop 0 r.capacity g

/-- `gpusFor`: the GPUs at which the role serves `c`. -/
def gpusFor (r : ShareRole) (c : ℚ) : ℚ :=
  if r.capacity.length = 0 ∨ ¬ 0 < c then c
  else
    let (g, left, uniform) := gpusForLoop 0 c true r.capacity
    if uniform then c else g + left

end ShareRole

/-- `g` GPUs serve `c`: the points of a capacity's curve past the origin. -/
inductive Curve : List ShareCapacityStep → ℚ → ℚ → Prop
  | best {g : ℚ} (hg : 0 < g) : Curve [] g g
  | within {st : ShareCapacityStep} {sts : List ShareCapacityStep} {g : ℚ} (hg : 0 < g)
      (hle : (g : WithTop ℚ) ≤ st.gpus) : Curve (st :: sts) g (g * st.perGPU)
  | past {st : ShareCapacityStep} {sts : List ShareCapacityStep} {n g c : ℚ} (hn : st.gpus = n)
      (h : Curve sts g c) : Curve (st :: sts) (n + g) (n * st.perGPU + c)

/-- Every run has positive length and worth. -/
def Rising (sts : List ShareCapacityStep) : Prop := ∀ st ∈ sts, 0 < st.gpus ∧ 0 < st.perGPU

variable {sts : List ShareCapacityStep} {g g' c c' : ℚ}

namespace Curve

theorem pos (h : Curve sts g c) (hsts : Rising sts) : 0 < g ∧ 0 < c := by
  induction h with
  | best hg => exact ⟨hg, hg⟩
  | within hg _ => exact ⟨hg, mul_pos hg (hsts _ mem_cons_self).2⟩
  | past hn _ ih =>
    obtain ⟨hst, hsts⟩ := forall_mem_cons.mp hsts
    have hpos := WithTop.coe_pos.mp (hn ▸ hst.1)
    exact ⟨add_pos hpos (ih hsts).1, add_pos (mul_pos hpos hst.2) (ih hsts).2⟩

/-- The curve rises strictly. -/
theorem lt_iff_lt (h : Curve sts g c) (h' : Curve sts g' c') (hsts : Rising sts) :
    g < g' ↔ c < c' := by
  induction h generalizing g' c' with
  | best hg =>
    cases h'
    rfl
  | within hg hle =>
    obtain ⟨hst, hsts⟩ := forall_mem_cons.mp hsts
    cases h' with
    | within hg' hle' => exact (mul_lt_mul_iff_left₀ hst.2).symm
    | past hn h' =>
      -- the first point is on the run, the second past its end
      have hrun := WithTop.coe_le_coe.mp (hn ▸ hle)
      have hend := mul_le_mul_of_nonneg_right hrun hst.2.le
      have hpast := h'.pos hsts
      exact iff_of_true (by linarith) (by linarith)
  | past hn h ih =>
    obtain ⟨hst, hsts'⟩ := forall_mem_cons.mp hsts
    cases h' with
    | within hg' hle' =>
      have hrun := WithTop.coe_le_coe.mp (hn ▸ hle')
      have hend := mul_le_mul_of_nonneg_right hrun hst.2.le
      have hpast := h.pos hsts'
      exact iff_of_false (by linarith) (by linarith)
    | past hn' h' =>
      obtain rfl := WithTop.coe_injective (hn.symm.trans hn')
      rw [add_lt_add_iff_left, add_lt_add_iff_left]
      exact ih h' hsts'

end Curve

theorem exists_curve_servesLoop (sts : List ShareCapacityStep) (s : ℚ) (hg : 0 < g) :
    ∃ c, Curve sts g c ∧ servesLoop s sts g = s + c := by
  induction sts generalizing s g with
  | nil => exact ⟨g, .best hg, rfl⟩
  | cons st sts ih =>
    rw [servesLoop]
    by_cases hle : (g : WithTop ℚ) ≤ st.gpus
    · refine ⟨g * st.perGPU, .within hg hle, ?_⟩
      simp [min_eq_left hle]
    · obtain ⟨n, hn, hlt⟩ := WithTop.lt_iff_exists_coe.mp (not_le.mp hle)
      have hpast : 0 < g - n := sub_pos.mpr (WithTop.coe_lt_coe.mp hlt)
      obtain ⟨c, hc, heq⟩ := ih (s + n * st.perGPU) hpast
      refine ⟨n * st.perGPU + c, ?_, ?_⟩
      · simpa using Curve.past hn hc
      · rw [hn, min_eq_right hlt.le]
        simp only [WithTop.untopD_coe, if_neg hpast.not_ge, heq, add_assoc]

/-- What is left fits a run exactly when the GPUs that serve it do. -/
theorem coe_le_map_mul_iff {worth left : ℚ} (hworth : 0 < worth) (n : WithTop ℚ) :
    (left : WithTop ℚ) ≤ n.map (· * worth) ↔ ((left / worth : ℚ) : WithTop ℚ) ≤ n := by
  cases n with
  | top => simp
  | coe n => rw [WithTop.map_coe, WithTop.coe_le_coe, WithTop.coe_le_coe, div_le_iff₀ hworth]

theorem exists_curve_gpusForLoop (hsts : Rising sts) (g : ℚ) {left : ℚ} (hleft : 0 < left)
    (uniform : Bool) : ∃ g', Curve sts g' left ∧
      let y := gpusForLoop g left uniform sts
      y.1 + y.2.1 = g + g' ∧ (y.2.2 = true → uniform = true ∧ g' = left) := by
  induction sts generalizing g left uniform with
  | nil => exact ⟨left, .best hleft, rfl, fun h => ⟨h, rfl⟩⟩
  | cons st sts ih =>
    obtain ⟨⟨-, hworth⟩, hsts⟩ := forall_mem_cons.mp hsts
    rw [gpusForLoop]
    simp only [coe_le_map_mul_iff hworth]
    by_cases hle : ((left / st.perGPU : ℚ) : WithTop ℚ) ≤ st.gpus
    · rw [if_pos hle]
      refine ⟨left / st.perGPU, ?_, add_zero _, ?_⟩
      · have hpoint : Curve (st :: sts) _ _ := .within (div_pos hleft hworth) hle
        simpa [hworth.ne'] using hpoint
      · intro h
        obtain ⟨hu, hone⟩ := Bool.and_eq_true_iff.mp h
        rw [of_decide_eq_true hone, div_one]
        exact ⟨hu, rfl⟩
    · rw [if_neg hle]
      obtain ⟨n, hn, hlt⟩ := WithTop.lt_iff_exists_coe.mp (not_le.mp hle)
      have hpast : 0 < left - n * st.perGPU :=
        sub_pos.mpr ((lt_div_iff₀ hworth).mp (WithTop.coe_lt_coe.mp hlt))
      rw [hn, WithTop.untopD_coe]
      obtain ⟨g', hg', hsum, huniform⟩ :=
        ih hsts (g + n) hpast (uniform && decide (st.perGPU = 1))
      refine ⟨n + g', by simpa using Curve.past hn hg', hsum.trans (add_assoc ..), fun h => ?_⟩
      obtain ⟨hu, heq⟩ := huniform h
      obtain ⟨hu, hone⟩ := Bool.and_eq_true_iff.mp hu
      refine ⟨hu, ?_⟩
      rw [heq, of_decide_eq_true hone]
      ring

namespace ShareRole

variable {r : ShareRole}

/-- `g` GPUs of the role serve `c`; up to the origin a figure serves itself. -/
def OnCurve (r : ShareRole) (g c : ℚ) : Prop := g ≤ 0 ∧ c = g ∨ Curve r.capacity g c

theorem OnCurve.lt_iff_lt (h : r.OnCurve g c) (h' : r.OnCurve g' c') (hr : Rising r.capacity) :
    g < g' ↔ c < c' := by
  rcases h with ⟨hg, rfl⟩ | h <;> rcases h' with ⟨hg', rfl⟩ | h'
  · rfl
  · have := h'.pos hr
    exact iff_of_true (by linarith) (by linarith)
  · have := h.pos hr
    exact iff_of_false (by linarith) (by linarith)
  · exact h.lt_iff_lt h' hr

theorem OnCurve.eq_iff_eq (h : r.OnCurve g c) (h' : r.OnCurve g' c') (hr : Rising r.capacity) :
    g = g' ↔ c = c' := by
  rw [le_antisymm_iff, le_antisymm_iff, ← not_lt, ← not_lt, ← not_lt, ← not_lt,
    h.lt_iff_lt h' hr, h'.lt_iff_lt h hr]

/-- A role whose GPUs all serve alike serves what it holds. -/
theorem onCurve_self (h : r.capacity.length = 0 ∨ ¬ 0 < g) : r.OnCurve g g := by
  rcases le_or_gt g 0 with hg | hg
  · exact .inl ⟨hg, rfl⟩
  · rw [OnCurve, length_eq_zero_iff.mp (h.resolve_right (not_not_intro hg))]
    exact .inr (.best hg)

theorem onCurve_serves (r : ShareRole) (g : ℚ) : r.OnCurve g (r.serves g) := by
  rw [serves]
  split_ifs with h
  · exact onCurve_self h
  · obtain ⟨c, hc, heq⟩ := exists_curve_servesLoop r.capacity 0 (not_not.mp (not_or.mp h).2)
    rw [heq, zero_add]
    exact .inr hc

theorem onCurve_gpusFor (hr : Rising r.capacity) (c : ℚ) : r.OnCurve (r.gpusFor c) c := by
  rw [gpusFor]
  split_ifs with h
  · exact onCurve_self h
  · obtain ⟨g', hg', hsum, huniform⟩ :=
      exists_curve_gpusForLoop hr 0 (not_not.mp (not_or.mp h).2) true
    refine .inr ?_
    dsimp only
    split_ifs with hu
    · rwa [(huniform hu).2] at hg'
    · rwa [hsum, zero_add]

/-- Where every run has positive length and worth, `serves` and `gpusFor` are inverse to each
other and rise strictly. -/
theorem serves_gpusFor_inverse (r : ShareRole)
    (hr : ∀ st ∈ r.capacity, 0 < st.gpus ∧ 0 < st.perGPU) :
    (∀ g, r.gpusFor (r.serves g) = g) ∧ (∀ c, r.serves (r.gpusFor c) = c) ∧
      StrictMono r.serves ∧ StrictMono r.gpusFor := by
  refine ⟨fun g => ?_, fun c => ?_, fun g g' h => ?_, fun c c' h => ?_⟩
  · exact ((onCurve_gpusFor hr _).eq_iff_eq (r.onCurve_serves g) hr).mpr rfl
  · exact ((r.onCurve_serves _).eq_iff_eq (onCurve_gpusFor hr c) hr).mp rfl
  · exact ((r.onCurve_serves g).lt_iff_lt (r.onCurve_serves g') hr).mp h
  · exact ((onCurve_gpusFor hr c).lt_iff_lt (onCurve_gpusFor hr c') hr).mpr h

/-- Two GPUs of the best variant, then any number of one that serves half. -/
def twoThenHalf : ShareRole := ⟨[⟨(2 : ℚ), 1⟩, ⟨⊤, 1 / 2⟩]⟩

theorem serves_gpusFor_inverse_twoThenHalf :
    twoThenHalf.serves 6 = 4 ∧ twoThenHalf.gpusFor 4 = 6 ∧
      (∀ g, twoThenHalf.gpusFor (twoThenHalf.serves g) = g) ∧
      (∀ c, twoThenHalf.serves (twoThenHalf.gpusFor c) = c) ∧
      StrictMono twoThenHalf.serves ∧ StrictMono twoThenHalf.gpusFor := by
  refine ⟨by decide +kernel, by decide +kernel, serves_gpusFor_inverse twoThenHalf ?_⟩
  simp [twoThenHalf]

end ShareRole

end LlmScaler.Optimizer
