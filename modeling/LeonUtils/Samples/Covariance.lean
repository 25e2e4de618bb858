import LeonUtils.Samples
import Mathlib.Algebra.Order.Field.Basic
import Mathlib.Data.Nat.Cast.Order.Ring
import Mathlib.Tactic.FieldSimp
import Mathlib.Tactic.Linarith

/-!
# Two quantities sampled together

The products of the deviations of two quantities from their means, summed over a list of samples.
For one quantity it is the sum of the squared deviations; for two, its square is bounded by those of
both, and reaches the bound just if one of them is a line in the other.

## Main definitions

* `mean`, `comoment` — the average, and the summed products of the deviations from it

## Main results

* `comoment_affine` — what scaling and shifting does
* `comoment_sq_le` — the bound
* `rising_line_iff` — when a positive one reaches it
-/

namespace Samples

variable {α K : Type*} [Field K]

def mean (f : α → K) (l : List α) : K := (l.map f).sum / l.length

/-- The summed products of the deviations of two quantities. -/
def comoment (f g : α → K) (l : List α) : K :=
  (l.map fun a => (f a - mean f l) * (g a - mean g l)).sum

section Algebra

variable {f g : α → K} {l : List α}

theorem mean_congr {f' : α → K} (h : ∀ a ∈ l, f a = f' a) : mean f l = mean f' l := by
  rw [mean, mean, List.map_congr_left h]

theorem comoment_congr {f' g' : α → K} (hf : ∀ a ∈ l, f a = f' a) (hg : ∀ a ∈ l, g a = g' a) :
    comoment f g l = comoment f' g' l := by
  rw [comoment, comoment, mean_congr hf, mean_congr hg]
  refine congrArg List.sum (List.map_congr_left fun a ha => ?_)
  rw [hf a ha, hg a ha]

theorem comoment_comm (f g : α → K) (l : List α) : comoment f g l = comoment g f l := by
  simp only [comoment, mul_comm]

theorem comoment_map {β : Type*} (h : β → α) (l : List β) :
    comoment f g (l.map h) = comoment (f ∘ h) (g ∘ h) l := by
  simp only [comoment, mean, List.map_map, List.length_map, Function.comp_def]

theorem comoment_perm {l' : List α} (h : l.Perm l') : comoment f g l = comoment f g l' := by
  have hf : mean f l = mean f l' := by rw [mean, mean, (h.map f).sum_eq, h.length_eq]
  have hg : mean g l = mean g l' := by rw [mean, mean, (h.map g).sum_eq, h.length_eq]
  rw [comoment, comoment, hf, hg, (h.map _).sum_eq]

theorem sum_affine (f : α → K) (l : List α) (c d : K) :
    (l.map fun a => c * f a + d).sum = c * (l.map f).sum + d * l.length := by
  induction l with
  | nil => simp
  | cons a l ih =>
    simp only [List.map_cons, List.sum_cons, ih, List.length_cons, Nat.cast_succ]
    ring

theorem sum_sub_mul_sub (f g : α → K) (l : List α) (a b : K) :
    (l.map fun x => (f x - a) * (g x - b)).sum = (l.map fun x => f x * g x).sum -
      a * (l.map g).sum - b * (l.map f).sum + a * b * l.length := by
  induction l with
  | nil => simp
  | cons x l ih =>
    simp only [List.map_cons, List.sum_cons, ih, List.length_cons, Nat.cast_succ]
    ring

/-- The squares of a combination of two quantities. -/
theorem sum_sub_mul_sq (u v : α → K) (l : List α) (t : K) :
    (l.map fun a => (v a - t * u a) * (v a - t * u a)).sum =
      (l.map fun a => v a * v a).sum - 2 * t * (l.map fun a => u a * v a).sum +
        t * t * (l.map fun a => u a * u a).sum := by
  induction l with
  | nil => simp
  | cons a l ih =>
    simp only [List.map_cons, List.sum_cons, ih]
    ring

/-- The squares of what is left of the second quantity without a multiple of the first. -/
theorem sum_residual_sq (f g : α → K) (l : List α) (t : K) :
    (l.map fun a => (g a - mean g l - t * (f a - mean f l)) *
      (g a - mean g l - t * (f a - mean f l))).sum =
      comoment g g l - 2 * t * comoment f g l + t * t * comoment f f l :=
  sum_sub_mul_sq (fun a => f a - mean f l) (fun a => g a - mean g l) l t

variable [CharZero K]

theorem length_cast_ne_zero (hne : l ≠ []) : (l.length : K) ≠ 0 :=
  Nat.cast_ne_zero.mpr (List.length_pos_iff.mpr hne).ne'

theorem mean_affine (hne : l ≠ []) (c d : K) :
    mean (fun a => c * f a + d) l = c * mean f l + d := by
  have hn : (l.length : K) ≠ 0 := length_cast_ne_zero hne
  rw [mean, mean, sum_affine]
  field_simp

/-- **A line in the first quantity** keeps its slope. -/
theorem comoment_affine (hne : l ≠ []) (c d : K) :
    comoment (fun a => c * f a + d) g l = c * comoment f g l := by
  rw [comoment, comoment, mean_affine hne, ← List.sum_map_mul_left]
  refine congrArg List.sum (List.map_congr_left fun a _ => ?_)
  ring

/-- The summed products, from those of the quantities themselves. -/
theorem comoment_eq (hne : l ≠ []) : comoment f g l =
    (l.map fun a => f a * g a).sum - (l.map f).sum * (l.map g).sum / l.length := by
  have hn : (l.length : K) ≠ 0 := length_cast_ne_zero hne
  rw [comoment, sum_sub_mul_sub, mean, mean]
  field_simp
  ring

end Algebra

/-! ## The bound -/

section Bound

variable [LinearOrder K] [IsStrictOrderedRing K] {f g : α → K} {l : List α}

theorem abs_sum_sub_le {a : K} (h : ∀ x ∈ l, |f x - a| ≤ g x) :
    |(l.map f).sum - a * l.length| ≤ (l.map g).sum := by
  induction l with
  | nil => simp
  | cons x l ih =>
    obtain ⟨hx, hl⟩ := List.forall_mem_cons.mp h
    have hsplit : ((x :: l).map f).sum - a * (x :: l).length =
        (f x - a) + ((l.map f).sum - a * l.length) := by
      simp only [List.map_cons, List.sum_cons, List.length_cons, Nat.cast_succ]
      ring
    rw [hsplit, List.map_cons, List.sum_cons]
    exact (abs_add_le _ _).trans (add_le_add hx (ih hl))

/-- **A mean of estimates** is wrong by no more than the mean of the bounds for their errors. -/
theorem abs_mean_sub_le (hne : l ≠ []) {a : K} (h : ∀ x ∈ l, |f x - a| ≤ g x) :
    |mean f l - a| ≤ mean g l := by
  have hpos : (0 : K) < l.length := by exact_mod_cast List.length_pos_iff.mpr hne
  have hsplit : mean f l - a = ((l.map f).sum - a * l.length) / l.length := by
    rw [mean, sub_div, mul_div_cancel_right₀ _ hpos.ne']
  rw [hsplit, abs_div, abs_of_pos hpos, mean]
  exact div_le_div_of_nonneg_right (abs_sum_sub_le h) hpos.le

theorem comoment_self_nonneg (f : α → K) (l : List α) : 0 ≤ comoment f f l :=
  sum_sq_nonneg (fun a => f a - mean f l) l

theorem comoment_self_pos_iff (hne : l ≠ []) :
    0 < comoment f f l ↔ ∃ a ∈ l, ∃ b ∈ l, f a ≠ f b := by
  have hzero : comoment f f l = 0 ↔ ∀ a ∈ l, f a - mean f l = 0 :=
    sum_sq_eq_zero_iff (fun a => f a - mean f l) l
  rw [(comoment_self_nonneg f l).lt_iff_ne', ne_eq, hzero]
  constructor
  · intro h
    by_contra hall
    push Not at hall
    refine h fun a ha => ?_
    have hn : (l.length : K) ≠ 0 := length_cast_ne_zero hne
    have hsum : (l.map f).sum = l.length • f a := by
      rw [← List.length_map (f := f)]
      refine List.sum_eq_card_nsmul _ _ fun y hy => ?_
      obtain ⟨b, hb, rfl⟩ := List.mem_map.mp hy
      exact hall b hb a ha
    rw [mean, hsum, nsmul_eq_mul, mul_div_cancel_left₀ _ hn, sub_self]
  · rintro ⟨a, ha, b, hb, hab⟩ h
    exact hab (by rw [sub_eq_zero.mp (h a ha), sub_eq_zero.mp (h b hb)])

/-- **The bound** on the summed products. -/
theorem comoment_sq_le (f g : α → K) (l : List α) :
    comoment f g l * comoment f g l ≤ comoment f f l * comoment g g l := by
  have hnonneg : ∀ t, 0 ≤ comoment g g l - 2 * t * comoment f g l + t * t * comoment f f l :=
    fun t => sum_residual_sq f g l t ▸ sum_sq_nonneg _ l
  rcases (comoment_self_nonneg f l).eq_or_lt with hzero | hpos
  · -- a quantity that is constant has no product with anything
    have hf : ∀ a ∈ l, f a - mean f l = 0 := (sum_sq_eq_zero_iff _ l).mp hzero.symm
    have hfg : comoment f g l = 0 := by
      refine List.sum_eq_zero fun y hy => ?_
      obtain ⟨a, ha, rfl⟩ := List.mem_map.mp hy
      rw [hf a ha, zero_mul]
    rw [hfg, ← hzero, zero_mul, zero_mul]
  · have h := hnonneg (comoment f g l / comoment f f l)
    have heq : comoment g g l - 2 * (comoment f g l / comoment f f l) * comoment f g l +
        comoment f g l / comoment f f l * (comoment f g l / comoment f f l) * comoment f f l =
        comoment g g l - comoment f g l * comoment f g l / comoment f f l := by
      field_simp
      ring
    rw [heq, sub_nonneg, div_le_iff₀ hpos] at h
    exact h.trans_eq (mul_comm _ _)

/-- **A rising line** is where a positive sum reaches the bound. -/
theorem rising_line_iff (hne : l ≠ []) (hf : 0 < comoment f f l) :
    (0 < comoment f g l ∧ comoment f g l * comoment f g l = comoment f f l * comoment g g l) ↔
      ∃ k b, 0 < k ∧ ∀ a ∈ l, g a = k * f a + b := by
  constructor
  · rintro ⟨hpos, hreach⟩
    have hres : (l.map fun a => (g a - mean g l - comoment f g l / comoment f f l *
        (f a - mean f l)) * (g a - mean g l - comoment f g l / comoment f f l *
        (f a - mean f l))).sum = 0 := by
      rw [sum_residual_sq]
      field_simp
      linarith
    refine ⟨comoment f g l / comoment f f l,
      mean g l - comoment f g l / comoment f f l * mean f l, div_pos hpos hf, fun a ha => ?_⟩
    have ha := (sum_sq_eq_zero_iff _ l).mp hres a ha
    linarith
  · rintro ⟨k, b, hk, hline⟩
    have hfg : comoment f g l = k * comoment f f l := by
      rw [comoment_congr (fun _ _ => rfl) hline, comoment_comm, comoment_affine hne]
    have hgg : comoment g g l = k * (k * comoment f f l) := by
      rw [← hfg, comoment_congr hline fun _ _ => rfl, comoment_affine hne]
    exact ⟨hfg ▸ mul_pos hk hf, by rw [hfg, hgg]; ring⟩

end Bound

end Samples
