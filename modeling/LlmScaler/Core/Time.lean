import Mathlib

/-!
# Times

A `time.Time` is an integer number of nanoseconds, or the zero time, which is before every other.
-/

namespace LlmScaler.Core

/-- A `time.Time`; `none` is the zero time. -/
abbrev Time := Option Int

def second : Int := 1000000000

def minute : Int := 60 * second

theorem second_eq : second = 1000000000 := rfl

theorem minute_eq : minute = 60000000000 := rfl

/-- `a.After(b)`. -/
def Time.after : Time → Time → Bool
  | none, _ => false
  | some _, none => true
  | some a, some b => b < a

/-- `now.Sub(t) > ttl`; the zero time is longer ago than any time to live. -/
def Time.expired (now ttl : Int) : Time → Bool
  | none => true
  | some t => ttl < now - t

/-- `Truncate`: the last multiple of a width up to a time. -/
def truncate (width t : Int) : Int := t - t % width

theorem truncate_eq (width t : Int) : truncate width t = width * (t / width) := by
  have := Int.mul_ediv_add_emod t width
  unfold truncate
  omega

section

variable {width t t' : Int}

theorem truncate_mono (hw : 0 < width) (h : t ≤ t') : truncate width t ≤ truncate width t' := by
  rw [truncate_eq, truncate_eq]
  exact Int.mul_le_mul_of_nonneg_left (Int.ediv_le_ediv hw h) (Int.le_of_lt hw)

theorem truncate_le (hw : 0 < width) (t : Int) : truncate width t ≤ t := by
  have := Int.emod_nonneg t (Int.ne_of_gt hw)
  unfold truncate
  omega

theorem lt_truncate_add (hw : 0 < width) (t : Int) : t < truncate width t + width := by
  have := Int.emod_lt_of_pos t hw
  unfold truncate
  omega

theorem truncate_mul (width k : Int) : truncate width (width * k) = width * k := by
  rw [truncate, Int.mul_emod_right]
  omega

theorem truncate_truncate (width t : Int) :
    truncate width (truncate width t) = truncate width t := by
  rw [truncate_eq width t, truncate_mul]

def roundUp (width t : Int) : Int :=
  if truncate width t < t then truncate width t + width else truncate width t

theorem le_roundUp (hw : 0 < width) (t : Int) : t ≤ roundUp width t := by
  have := lt_truncate_add hw t
  unfold roundUp
  split <;> omega

theorem roundUp_lt (hw : 0 < width) (t : Int) : roundUp width t < t + width := by
  have := truncate_le hw t
  unfold roundUp
  split <;> omega

theorem exists_roundUp_eq (width t : Int) : ∃ k, roundUp width t = width * k := by
  unfold roundUp
  rw [truncate_eq]
  split
  · exact ⟨t / width + 1, by rw [Int.mul_add, Int.mul_one]⟩
  · exact ⟨t / width, rfl⟩

theorem roundUp_roundUp (width t : Int) : roundUp width (roundUp width t) = roundUp width t := by
  obtain ⟨k, hk⟩ := exists_roundUp_eq width t
  rw [hk, roundUp, truncate_mul, if_neg (Int.lt_irrefl _)]

theorem roundUp_mono (hw : 0 < width) (h : t ≤ t') : roundUp width t ≤ roundUp width t' := by
  rcases Int.lt_or_eq_of_le (truncate_mono hw h) with hlt | heq
  · -- the later time is in a later span, which starts no earlier than the next one
    have hnext : truncate width t + width ≤ truncate width t' := by
      rw [truncate_eq, truncate_eq] at hlt ⊢
      have hspan : t / width + 1 ≤ t' / width := Int.lt_of_mul_lt_mul_left hlt (Int.le_of_lt hw)
      have := Int.mul_le_mul_of_nonneg_left hspan (Int.le_of_lt hw)
      rwa [Int.mul_add, Int.mul_one] at this
    have hle : roundUp width t ≤ truncate width t + width := by
      unfold roundUp
      split <;> omega
    have := truncate_le hw t'
    have := le_roundUp hw t'
    omega
  · unfold roundUp
    rw [heq]
    split <;> split <;> omega

end

end LlmScaler.Core
