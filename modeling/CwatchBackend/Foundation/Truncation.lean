import Mathlib.Algebra.Order.Floor.Ring
import Mathlib.Data.Rat.Floor
import Mathlib.Tactic.Linarith

/-!
# Truncation towards zero

`truncate a` is the integer part of `a`, cut towards zero: the floor of what is not negative and the
ceiling of what is not positive.  Truncation is monotone and fixes the integers, so it stays between
any integer bounds (`truncate_mem`).

The numbers cut to one integer fill an interval of length one, except those cut to `0`, which fill
the interval between `-1` and `1`.  So two numbers cut to the same or to adjacent integers are less
than two apart, unless they straddle zero (`two_le_abs_sub_iff`).
-/

namespace Foundation

variable {α : Type*} [CommRing α] [LinearOrder α] [FloorRing α] {a b : α}

/-- The integer part of a number, cut towards zero. -/
def truncate (a : α) : ℤ := if 0 ≤ a then ⌊a⌋ else ⌈a⌉

/-- What is not negative is cut to its floor. -/
theorem truncate_of_nonneg (h : 0 ≤ a) : truncate a = ⌊a⌋ := if_pos h

/-- What is not negative lies between its integer part and the next integer. -/
theorem truncate_le_of_nonneg (h : 0 ≤ a) : (truncate a : α) ≤ a ∧ a < truncate a + 1 := by
  rw [truncate_of_nonneg h]
  exact ⟨Int.floor_le a, Int.lt_floor_add_one a⟩

/-- What is not negative is not cut below zero. -/
theorem truncate_nonneg (h : 0 ≤ a) : 0 ≤ truncate a := by
  rw [truncate_of_nonneg h]
  exact Int.floor_nonneg.mpr h

/-- Two numbers straddle zero: they are less than two away from it, one of them less than one, and
two or more away from each other. -/
def Straddles (a b : α) : Prop := |a| < 2 ∧ |b| < 2 ∧ (|a| < 1 ∨ |b| < 1) ∧ 2 ≤ |a - b|

variable [IsStrictOrderedRing α]

/-- What is not positive is cut to its ceiling. -/
theorem truncate_of_nonpos (h : a ≤ 0) : truncate a = ⌈a⌉ := by
  rcases h.eq_or_lt with rfl | hneg
  · simp [truncate]
  · exact if_neg (not_le.mpr hneg)

/-- Integers are not cut. -/
@[simp] theorem truncate_intCast (n : ℤ) : truncate (n : α) = n := by
  unfold truncate
  split
  · exact Int.floor_intCast n
  · exact Int.ceil_intCast n

/-- What is not positive lies between the integer before its integer part and that part. -/
theorem le_truncate_of_nonpos (h : a ≤ 0) : (truncate a : α) - 1 < a ∧ a ≤ truncate a := by
  rw [truncate_of_nonpos h]
  exact ⟨sub_lt_iff_lt_add.mpr (Int.ceil_lt_add_one a), Int.le_ceil a⟩

/-- What is not positive is not cut above zero. -/
theorem truncate_nonpos (h : a ≤ 0) : truncate a ≤ 0 := by
  rw [truncate_of_nonpos h]
  exact Int.ceil_le.mpr (by simpa using h)

/-- Truncation is monotone. -/
theorem truncate_mono (h : a ≤ b) : truncate a ≤ truncate b := by
  rcases le_total 0 a with ha | ha
  · rw [truncate_of_nonneg ha, truncate_of_nonneg (ha.trans h)]
    exact Int.floor_mono h
  · rcases le_total 0 b with hb | hb
    · exact (truncate_nonpos ha).trans (truncate_nonneg hb)
    · rw [truncate_of_nonpos ha, truncate_of_nonpos hb]
      exact Int.ceil_mono h

/-- A number between two integers is cut to an integer between them. -/
theorem truncate_mem {m n : ℤ} (hm : (m : α) ≤ a) (hn : a ≤ n) :
    m ≤ truncate a ∧ truncate a ≤ n := by
  have hlo := truncate_mono hm
  have hhi := truncate_mono hn
  rw [truncate_intCast] at hlo hhi
  exact ⟨hlo, hhi⟩

/-! ### Numbers cut to the same or to adjacent integers -/

omit [FloorRing α] [IsStrictOrderedRing α] in
/-- The order of the two numbers does not matter. -/
theorem straddles_comm : Straddles a b ↔ Straddles b a := by
  rw [Straddles, Straddles, abs_sub_comm, or_comm]
  tauto

/-- Numbers above zero that are cut to adjacent integers are less than two apart. -/
theorem sub_lt_two_of_nonneg (ha : 0 ≤ a) (hb : 0 ≤ b) (h : truncate a - truncate b ≤ 1) :
    a - b < 2 := by
  have hhi := (truncate_le_of_nonneg ha).2
  have hlo := (truncate_le_of_nonneg hb).1
  have hcast : (truncate a : α) - truncate b ≤ 1 := by exact_mod_cast h
  linarith

/-- Numbers below zero that are cut to adjacent integers are less than two apart. -/
theorem sub_lt_two_of_nonpos (ha : a ≤ 0) (hb : b ≤ 0) (h : truncate a - truncate b ≤ 1) :
    a - b < 2 := by
  have hhi := (le_truncate_of_nonpos ha).2
  have hlo := (le_truncate_of_nonpos hb).1
  have hcast : (truncate a : α) - truncate b ≤ 1 := by exact_mod_cast h
  linarith

/-- Numbers on different sides of zero that are cut to adjacent integers straddle zero if they are
two or more apart. -/
theorem straddles_of_nonneg_of_nonpos (ha : 0 ≤ a) (hb : b ≤ 0) (h : truncate a - truncate b ≤ 1)
    (hfar : 2 ≤ a - b) : Straddles a b := by
  have hacut := truncate_nonneg ha
  have hbcut := truncate_nonpos hb
  have hahi := (truncate_le_of_nonneg ha).2
  have hblo := (le_truncate_of_nonpos hb).1
  have hfar' : 2 ≤ |a - b| := hfar.trans (le_abs_self _)
  rw [Straddles, abs_of_nonneg ha, abs_of_nonpos hb]
  -- At most one of the two numbers is not cut to zero.
  obtain ⟨ha0, hb0⟩ | ⟨ha0, hb0⟩ : truncate a ≤ 0 ∧ -1 ≤ truncate b ∨
      truncate a ≤ 1 ∧ 0 ≤ truncate b := by omega
  · have hacast : (truncate a : α) ≤ 0 := by exact_mod_cast ha0
    have hbcast : (-1 : α) ≤ truncate b := by exact_mod_cast hb0
    exact ⟨by linarith, by linarith, Or.inl (by linarith), hfar'⟩
  · have hacast : (truncate a : α) ≤ 1 := by exact_mod_cast ha0
    have hbcast : (0 : α) ≤ truncate b := by exact_mod_cast hb0
    exact ⟨by linarith, by linarith, Or.inr (by linarith), hfar'⟩

/-- Numbers cut to the same or to adjacent integers are two or more apart exactly if they straddle
zero. -/
theorem two_le_abs_sub_iff (h : |truncate a - truncate b| ≤ 1) :
    2 ≤ |a - b| ↔ Straddles a b := by
  refine ⟨fun hfar => ?_, fun hstraddles => hstraddles.2.2.2⟩
  obtain ⟨hlo, hhi⟩ := abs_le.mp h
  have hlo : truncate b - truncate a ≤ 1 := by omega
  rcases le_total 0 a with ha | ha <;> rcases le_total 0 b with hb | hb
  · have hlt : |a - b| < 2 :=
      abs_sub_lt_iff.mpr ⟨sub_lt_two_of_nonneg ha hb hhi, sub_lt_two_of_nonneg hb ha hlo⟩
    exact absurd hfar (not_le.mpr hlt)
  · rw [abs_of_nonneg (sub_nonneg.mpr (hb.trans ha))] at hfar
    exact straddles_of_nonneg_of_nonpos ha hb hhi hfar
  · rw [abs_sub_comm, abs_of_nonneg (sub_nonneg.mpr (ha.trans hb))] at hfar
    exact straddles_comm.mp (straddles_of_nonneg_of_nonpos hb ha hlo hfar)
  · have hlt : |a - b| < 2 :=
      abs_sub_lt_iff.mpr ⟨sub_lt_two_of_nonpos ha hb hhi, sub_lt_two_of_nonpos hb ha hlo⟩
    exact absurd hfar (not_le.mpr hlt)

/-- A rational number is cut to the quotient of its numerator and its denominator, which is cut
towards zero itself. -/
theorem truncate_eq_tdiv (q : ℚ) : truncate q = q.num.tdiv q.den := by
  rcases le_total 0 q with hq | hq
  · rw [truncate_of_nonneg hq, Rat.floor_def', Int.tdiv_eq_ediv_of_nonneg (Rat.num_nonneg.mpr hq)]
  · have hneg : 0 ≤ (-q).num := Rat.num_nonneg.mpr (neg_nonneg.mpr hq)
    have hceil : ⌈q⌉ = -⌊-q⌋ := by rw [Int.floor_neg, neg_neg]
    rw [truncate_of_nonpos hq, hceil, Rat.floor_def', ← Int.tdiv_eq_ediv_of_nonneg hneg,
      Rat.neg_num, Rat.neg_den, Int.neg_tdiv, neg_neg]

end Foundation
