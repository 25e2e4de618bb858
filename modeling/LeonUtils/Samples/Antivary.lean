import LeonUtils.Samples.Covariance
import Mathlib.Algebra.BigOperators.Fin
import Mathlib.Algebra.Order.Chebyshev

/-!
# Quantities that run against each other

The summed squares of the differences of two quantities are those of the deviations of both from
their means, less twice the summed products, and what the means themselves differ. If one quantity
never rises where the other does, the products take nothing away.

## Main results

* `sum_sub_sq` — what the squared differences are made of
* `comoment_nonpos` — the products of quantities that run against each other
* `comoment_self_le` — the mean is where the squared deviations are least
-/

namespace Samples

variable {α K : Type*} [Field K] [LinearOrder K] [IsStrictOrderedRing K] {f g : α → K} {l : List α}

/-- **The squared differences.** -/
theorem sum_sub_sq (hne : l ≠ []) : (l.map fun a => (g a - f a) * (g a - f a)).sum =
    comoment g g l - 2 * comoment f g l + comoment f f l +
      (mean g l - mean f l) * (mean g l - mean f l) * l.length := by
  have hn : (l.length : K) ≠ 0 := length_cast_ne_zero hne
  have hsplit := sum_sub_mul_sq f g l 1
  simp only [one_mul, mul_one] at hsplit
  rw [hsplit, comoment_eq hne, comoment_eq hne, comoment_eq hne, mean, mean]
  field_simp
  ring

/-- The squared deviations are least from the mean. -/
theorem comoment_self_le (hne : l ≠ []) (a : K) :
    comoment f f l ≤ (l.map fun x => (f x - a) * (f x - a)).sum := by
  have hn : (l.length : K) ≠ 0 := length_cast_ne_zero hne
  have hmore : (l.map fun x => (f x - a) * (f x - a)).sum =
      comoment f f l + (mean f l - a) * (mean f l - a) * l.length := by
    rw [sum_sub_mul_sub, comoment_eq hne, mean]
    field_simp
    ring
  rw [hmore]
  exact le_add_of_nonneg_right (mul_nonneg (mul_self_nonneg _) (Nat.cast_nonneg _))

/-- **Quantities that run against each other.** -/
theorem comoment_nonpos (h : Antivary f g) : comoment f g l ≤ 0 := by
  rcases eq_or_ne l [] with rfl | hne
  · exact le_rfl
  have hpos : (0 : K) < l.length := by exact_mod_cast List.length_pos_iff.mpr hne
  have hle := (h.comp_right l.get).card_mul_sum_le_sum_mul_sum
  simp only [Fintype.card_fin, Function.comp_apply, List.get_eq_getElem] at hle
  have hsum : ∀ u : α → K, ∑ i : Fin l.length, u l[i] = (l.map u).sum := fun u =>
    Fin.sum_univ_fun_getElem l u
  rw [comoment_eq hne, sub_nonpos, le_div_iff₀ hpos, mul_comm, ← hsum, ← hsum, ← hsum]
  exact hle

end Samples
