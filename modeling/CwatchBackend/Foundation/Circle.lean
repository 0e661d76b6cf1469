import Mathlib.Algebra.Order.Round
import Mathlib.Tactic.Linarith

/-!
# Distances on a circle

`circularDistance p a b` is the distance between the points that `a` and `b` denote on a circle of
circumference `p`: the least distance between `a` and `b` up to full turns
(`circularDistance_le`).  For numbers that are no more than one turn apart it is their distance or
what is missing to a full turn (`circularDistance_eq_min`).
-/

namespace Foundation

variable {α : Type*} [Field α] [LinearOrder α] [IsStrictOrderedRing α] [FloorRing α]

/-- The distance of `a` and `b` on a circle of circumference `p`. -/
def circularDistance (p a b : α) : α := |a - b - round ((a - b) / p) * p|

variable {p a b : α}

/-- No number of full turns brings the two numbers closer. -/
theorem circularDistance_le (hp : 0 < p) (k : ℤ) : circularDistance p a b ≤ |a - b - k * p| := by
  have hscale : ∀ z : ℤ, |a - b - z * p| = |(a - b) / p - z| * p := by
    intro z
    rw [← abs_of_pos hp, ← abs_mul, abs_of_pos hp, sub_mul, div_mul_cancel₀ _ hp.ne']
  rw [circularDistance, hscale, hscale]
  exact mul_le_mul_of_nonneg_right (round_le _ k) hp.le

/-- Two numbers that are no more than one turn apart. -/
theorem circularDistance_eq_min (hp : 0 < p) (h : |a - b| ≤ p) :
    circularDistance p a b = min |a - b| (p - |a - b|) := by
  obtain ⟨hlo, hhi⟩ := abs_le.mp h
  apply le_antisymm
  · refine le_min ?_ ?_
    · simpa using circularDistance_le (a := a) (b := b) hp 0
    · rcases abs_cases (a - b) with ⟨habs, -⟩ | ⟨habs, -⟩
      · have hturn : circularDistance p a b ≤ |a - b - (1 : ℤ) * p| := circularDistance_le hp 1
        rw [Int.cast_one, one_mul, abs_of_nonpos (by linarith)] at hturn
        linarith
      · have hturn : circularDistance p a b ≤ |a - b - (-1 : ℤ) * p| := circularDistance_le hp (-1)
        rw [Int.cast_neg, Int.cast_one, neg_one_mul, abs_of_nonneg (by linarith)] at hturn
        linarith
  · rw [circularDistance]
    set k := round ((a - b) / p)
    rcases lt_trichotomy k 0 with hk | hk | hk
    · -- A turn backwards leaves at least what is missing to a full turn.
      have hk' : (k : α) * p ≤ -p := by
        have hle : (k : α) ≤ -1 := by exact_mod_cast Int.le_sub_one_of_lt hk
        calc (k : α) * p ≤ -1 * p := mul_le_mul_of_nonneg_right hle hp.le
          _ = -p := neg_one_mul p
      refine (min_le_right _ _).trans ?_
      have hfar := le_abs_self (a - b - k * p)
      have hnear := neg_abs_le (a - b)
      linarith
    · rw [hk, Int.cast_zero, zero_mul, sub_zero]
      exact min_le_left _ _
    · have hk' : p ≤ (k : α) * p := by
        have hle : (1 : α) ≤ k := by exact_mod_cast hk
        calc p = 1 * p := (one_mul p).symm
          _ ≤ (k : α) * p := mul_le_mul_of_nonneg_right hle hp.le
      refine (min_le_right _ _).trans ?_
      have hfar := neg_abs_le (a - b - k * p)
      have hnear := le_abs_self (a - b)
      linarith

/-- The distance exceeds a bound exactly if the numbers are neither too close nor too close to a
full turn. -/
theorem lt_circularDistance_iff (hp : 0 < p) (h : |a - b| ≤ p) {t : α} :
    t < circularDistance p a b ↔ t < |a - b| ∧ |a - b| < p - t := by
  rw [circularDistance_eq_min hp h, lt_min_iff, lt_sub_comm]

end Foundation
