import Mathlib.Algebra.Order.Field.Basic
import Mathlib.Tactic.Linarith

/-!
# Nearness with a tolerance

Two numbers are near if they differ by less than a tolerance, which is a fraction of the first
number, or the fraction itself if the number is small. Since it is taken from the first number, it
matters which one that is, for pairs that differ by more than the one tolerance and by less than the
other.

## Main results

* `near_comm_iff` — for which pairs the order does not matter
* `near_zero_iff` — what is near zero
-/

namespace Tolerance

variable {K : Type*} [Field K] [LinearOrder K] [IsStrictOrderedRing K] {ε x y : K}

/-- The tolerance at `x`. -/
def tol (ε x : K) : K := max (|x| * ε) ε

/-- Two numbers differ by less than the tolerance at the first. -/
def Near (ε x y : K) : Prop := |x - y| < tol ε x

instance : Decidable (Near ε x y) := inferInstanceAs (Decidable (_ < _))

/-- A larger number has a larger tolerance. -/
theorem tol_mono (hε : 0 ≤ ε) (h : |x| ≤ |y|) : tol ε x ≤ tol ε y :=
  max_le_max_right ε (mul_le_mul_of_nonneg_right h hε)

theorem near_comm_iff_of_le (hε : 0 ≤ ε) (h : |x| ≤ |y|) :
    (Near ε x y ↔ Near ε y x) ↔ ¬ (tol ε x ≤ |x - y| ∧ |x - y| < tol ε y) := by
  have hmono := tol_mono hε h
  rw [Near, Near, abs_sub_comm y x]
  constructor
  · rintro hiff ⟨hfar, hnear⟩
    exact absurd (hiff.mpr hnear) (not_lt.mpr hfar)
  · intro hnot
    refine ⟨fun hnear => hnear.trans_le hmono, fun hnear => ?_⟩
    by_contra hfar
    exact hnot ⟨not_lt.mp hfar, hnear⟩

/-- **The order matters** just for pairs that differ by the smaller tolerance or more, and by less
than the larger one. -/
theorem near_comm_iff (hε : 0 ≤ ε) : (Near ε x y ↔ Near ε y x) ↔
    ¬ (min (tol ε x) (tol ε y) ≤ |x - y| ∧ |x - y| < max (tol ε x) (tol ε y)) := by
  rcases le_total |x| |y| with h | h
  · rw [near_comm_iff_of_le hε h, min_eq_left (tol_mono hε h), max_eq_right (tol_mono hε h)]
  · rw [@iff_comm (Near ε x y), near_comm_iff_of_le hε h, min_eq_right (tol_mono hε h),
      max_eq_left (tol_mono hε h), abs_sub_comm y x]

/-- **What is near zero** is smaller than the fraction. -/
theorem near_zero_iff (hε : ε ≤ 1) : Near ε x 0 ↔ |x| < ε := by
  rw [Near, sub_zero, tol, lt_max_iff]
  refine or_iff_right fun h => ?_
  have hle : |x| * ε ≤ |x| := mul_le_of_le_one_right (abs_nonneg x) hε
  exact absurd h (not_lt.mpr hle)

end Tolerance
