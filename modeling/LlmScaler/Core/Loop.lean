import Mathlib

/-!
# Loops with a break

The body of a loop maps the state to a new state and says whether the loop goes on. Fuel bounds
the passes. What every pass keeps holds of the result for any fuel; where each pass that goes on
lowers a measure, enough fuel reaches the pass that breaks.
-/

namespace LlmScaler.Core

variable {σ : Type*}

/-- What one pass through the body of a loop did. -/
inductive Pass (σ : Type*)
  | again (s : σ)
  | stop (s : σ)

def Pass.state : Pass σ → σ
  | .again s => s
  | .stop s => s

/-- A loop of at most `fuel` passes. -/
def loop (body : σ → Pass σ) : ℕ → σ → σ
  | 0, s => s
  | fuel + 1, s =>
    match body s with
    | .again s' => loop body fuel s'
    | .stop s' => s'

variable {body : σ → Pass σ}

theorem loop_again {s s' : σ} (h : body s = .again s') (fuel : ℕ) :
    loop body (fuel + 1) s = loop body fuel s' := by
  rw [loop, h]

theorem loop_stop {s s' : σ} (h : body s = .stop s') (fuel : ℕ) :
    loop body (fuel + 1) s = s' := by
  rw [loop, h]

theorem loop_invariant {Inv : σ → Prop} (hbody : ∀ s, Inv s → Inv (body s).state) {s : σ}
    (h : Inv s) (fuel : ℕ) : Inv (loop body fuel s) := by
  induction fuel generalizing s with
  | zero => exact h
  | succ fuel ih =>
    have hnext := hbody s h
    cases hpass : body s with
    | again s' =>
      rw [loop_again hpass]
      rw [hpass] at hnext
      exact ih hnext
    | stop s' =>
      rw [loop_stop hpass]
      rw [hpass] at hnext
      exact hnext

/-- The states in which a loop of at most `fuel` passes enters its body. -/
def loopStates (body : σ → Pass σ) : ℕ → σ → List σ
  | 0, _ => []
  | fuel + 1, s =>
    match body s with
    | .again s' => s :: loopStates body fuel s'
    | .stop _ => [s]

theorem loopStates_invariant {Inv : σ → Prop}
    (hbody : ∀ s, Inv s → ∀ s', body s = .again s' → Inv s') {s : σ} (h : Inv s) (fuel : ℕ) :
    ∀ t ∈ loopStates body fuel s, Inv t := by
  induction fuel generalizing s with
  | zero =>
    intro t ht
    cases ht
  | succ fuel ih =>
    intro t ht
    unfold loopStates at ht
    cases hpass : body s with
    | again s' =>
      simp only [hpass] at ht
      rcases List.mem_cons.mp ht with rfl | ht
      · exact h
      · exact ih (hbody s h s' hpass) t ht
    | stop s' =>
      simp only [hpass] at ht
      rw [List.mem_singleton.mp ht]
      exact h

theorem loop_stops {Inv : σ → Prop} {measure : σ → ℕ}
    (hbody : ∀ s, Inv s → ∀ s', body s = .again s' → Inv s' ∧ measure s' < measure s) {s : σ}
    (h : Inv s) {fuel : ℕ} (hfuel : measure s < fuel) :
    ∃ last, Inv last ∧ body last = .stop (loop body fuel s) := by
  induction fuel generalizing s with
  | zero => omega
  | succ fuel ih =>
    cases hpass : body s with
    | again s' =>
      obtain ⟨hinv, hlt⟩ := hbody s h s' hpass
      rw [loop_again hpass]
      exact ih hinv (by omega)
    | stop s' =>
      rw [loop_stop hpass]
      exact ⟨s, h, hpass⟩

end LlmScaler.Core
