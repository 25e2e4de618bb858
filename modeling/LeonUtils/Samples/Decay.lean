import Mathlib.Algebra.BigOperators.Intervals
import Mathlib.Algebra.Order.Field.Basic
import Mathlib.Analysis.SpecificLimits.Basic
import Mathlib.Tactic.FieldSimp
import Mathlib.Tactic.Linarith
import Mathlib.Tactic.Ring

/-!
# Sequences that decay

A sequence of which every step leaves a fraction `a` of what was there and adds a disturbance. What
was there at first decays as the powers of `a` do, and of a disturbance no more is left than of a
constant one as large.

## Main results

* `eq_sum` — the sequence, by its disturbances
* `abs_le` — how large it can be
* `tendsto_zero` — disturbances that vanish leave nothing
-/

namespace Decay

section Field

variable {K : Type*} [Field K] {a : K} {e d : ℕ → K}

/-- What is left of all the disturbances. -/
theorem eq_sum (h : ∀ n, e (n + 1) = a * e n + d n) (n : ℕ) :
    e n = a ^ n * e 0 + ∑ i ∈ Finset.range n, a ^ (n - 1 - i) * d i := by
  induction n with
  | zero => simp
  | succ n ih =>
    have hshift : ∀ i ∈ Finset.range n, a * (a ^ (n - 1 - i) * d i) = a ^ (n - i) * d i := by
      intro i hi
      have hlt := Finset.mem_range.mp hi
      rw [← mul_assoc, ← pow_succ']
      congr 2
      omega
    rw [h, ih, Finset.sum_range_succ, Nat.add_sub_cancel, Nat.sub_self, pow_zero, one_mul, mul_add,
      Finset.mul_sum, Finset.sum_congr rfl hshift, pow_succ']
    ring

variable [LinearOrder K] [IsStrictOrderedRing K] {δ : K}

/-- How large it can be, with disturbances of a bounded size. -/
theorem abs_le (h : ∀ n, e (n + 1) = a * e n + d n) (ha0 : 0 ≤ a) (ha1 : a < 1) {n : ℕ}
    (hd : ∀ i < n, |d i| ≤ δ) : |e n| ≤ a ^ n * |e 0| + δ / (1 - a) * (1 - a ^ n) := by
  have hne : 1 - a ≠ 0 := (sub_pos.mpr ha1).ne'
  induction n with
  | zero => simp
  | succ n ih =>
    have hn := ih fun i hi => hd i (hi.trans n.lt_succ_self)
    calc |e (n + 1)| = |a * e n + d n| := by rw [h]
      _ ≤ |a * e n| + |d n| := abs_add_le _ _
      _ ≤ a * |e n| + δ := by
        rw [abs_mul, abs_of_nonneg ha0]
        exact add_le_add le_rfl (hd n n.lt_succ_self)
      _ ≤ a * (a ^ n * |e 0| + δ / (1 - a) * (1 - a ^ n)) + δ :=
        add_le_add (mul_le_mul_of_nonneg_left hn ha0) le_rfl
      _ = a ^ (n + 1) * |e 0| + δ / (1 - a) * (1 - a ^ (n + 1)) := by
        field_simp
        ring

end Field

open Filter Topology

/-- Disturbances that vanish leave nothing in the end. -/
theorem tendsto_zero {a : ℝ} {e d : ℕ → ℝ} (h : ∀ n, e (n + 1) = a * e n + d n) (ha0 : 0 ≤ a)
    (ha1 : a < 1) (hd : Tendsto d atTop (𝓝 0)) : Tendsto e atTop (𝓝 0) := by
  rw [Metric.tendsto_atTop] at hd ⊢
  intro ε hε
  have hpos : 0 < 1 - a := sub_pos.mpr ha1
  obtain ⟨N, hN⟩ := hd (ε / 2 * (1 - a)) (by positivity)
  -- from `N` on the disturbances are small, and what was there at `N` decays
  have hdecay : Tendsto (fun k => a ^ k * |e N|) atTop (𝓝 (0 * |e N|)) :=
    (tendsto_pow_atTop_nhds_zero_of_lt_one ha0 ha1).mul_const _
  rw [zero_mul, Metric.tendsto_atTop] at hdecay
  obtain ⟨M, hM⟩ := hdecay (ε / 2) (by positivity)
  refine ⟨N + M, fun n hn => ?_⟩
  obtain ⟨k, rfl⟩ := Nat.exists_eq_add_of_le (show N ≤ n by omega)
  have hshift : ∀ i, e (N + (i + 1)) = a * e (N + i) + d (N + i) := fun i => h (N + i)
  have hsmall : ∀ i < k, |d (N + i)| ≤ ε / 2 * (1 - a) := by
    intro i _
    have hlt := hN (N + i) (Nat.le_add_right N i)
    rw [Real.dist_eq, sub_zero] at hlt
    exact hlt.le
  have hle := abs_le (e := fun i => e (N + i)) (d := fun i => d (N + i)) hshift ha0 ha1 hsmall
  have hM := hM k (by omega)
  rw [Real.dist_eq, sub_zero, abs_of_nonneg (by positivity)] at hM
  have hpow : 0 ≤ a ^ k := pow_nonneg ha0 k
  rw [mul_div_assoc, div_self hpos.ne', mul_one] at hle
  rw [Real.dist_eq, sub_zero]
  have hhalf : ε / 2 * (1 - a ^ k) ≤ ε / 2 :=
    mul_le_of_le_one_right (by positivity) (sub_le_self 1 hpow)
  simp only [Nat.add_zero] at hle
  linarith

end Decay
