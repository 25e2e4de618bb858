import LeonUtils.Statistics

/-!
# What the results say of the samples

`Statistic_t` sorts the samples before it looks at them, so that it does not matter how they came.
The median is the sample in the middle, or lies half way between the two in the middle; there is a
branch of its own for a single sample.

## Main results

* `Statistic.make_perm` — the order of the samples does not matter
* `Statistic.make_med` — the median lies between the samples in the middle
* `Statistic.make_avg_bounds`, `Statistic.make_std_eq_zero_iff` — average and deviation
* `make_describes` — all of it, over the reals
-/

namespace LeonUtils

open Samples

variable {K : Type*} [Field K] [LinearOrder K]

namespace Statistic

/-- **The order of the samples** does not matter. -/
theorem make_perm (sqrt : K → K) {samps order : List K} (hperm : order.Perm samps) :
    make sqrt order = make sqrt samps := by
  have hlen := hperm.length_eq
  rcases eq_or_ne samps [] with rfl | hne
  · rw [List.perm_nil.mp hperm]
  rcases many_or_one hne with hmany | ⟨x, rfl⟩
  · have hsort : order.mergeSort (· ≤ ·) = samps.mergeSort (· ≤ ·) :=
      (((List.mergeSort_perm order _).trans hperm).trans
        (List.mergeSort_perm samps _).symm).eq_of_sortedLE List.sortedLE_mergeSort
        List.sortedLE_mergeSort
    have hne' : ¬ order.isEmpty = true := not_isEmpty_of_many (hlen ▸ hmany)
    have hcnt : ¬ ((samps.length : ℤ) = 1) := by omega
    simp only [make, run, if_neg (not_isEmpty_of_many hmany), if_neg hne', hlen, if_neg hcnt, hsort]
  · rw [List.perm_singleton.mp hperm]

variable [IsStrictOrderedRing K] {sqrt : K → K} {samps : List K}

/-- The median lies between the samples in the middle, which are one and the same if their number is
odd. -/
theorem make_med (sqrt : K → K) (hne : samps ≠ []) :
    let sorted := samps.mergeSort (· ≤ ·)
    let med := (make sqrt samps).1.med
    sorted.getD ((samps.length - 1) / 2) 0 ≤ med ∧ med ≤ sorted.getD (samps.length / 2) 0 := by
  intro sorted med
  rcases many_or_one hne with hmany | ⟨x, rfl⟩
  · have hcnt : ¬ ((samps.length : ℤ) = 1) := by omega
    have hmed : med = if (samps.length - 1) % 2 = 0 then sorted.getD ((samps.length - 1) / 2) 0
        else (sorted.getD ((samps.length - 1) / 2) 0 +
          sorted.getD ((samps.length - 1) / 2 + 1) 0) / (2 : ℤ) := by
      simp only [med, make, run, if_neg (not_isEmpty_of_many hmany), if_neg hcnt, sorted]
    by_cases hodd : (samps.length - 1) % 2 = 0
    · have hmid : samps.length / 2 = (samps.length - 1) / 2 := by omega
      rw [hmed, if_pos hodd, hmid]
      exact ⟨le_rfl, le_rfl⟩
    · have hmid : samps.length / 2 = (samps.length - 1) / 2 + 1 := by omega
      have hlen : sorted.length = samps.length := List.length_mergeSort samps
      have hlast : (samps.length - 1) / 2 + 1 < sorted.length := by omega
      have hle : sorted.getD ((samps.length - 1) / 2) 0 ≤
          sorted.getD ((samps.length - 1) / 2 + 1) 0 := by
        rw [List.getD_eq_getElem _ _ hlast, List.getD_eq_getElem _ _ (by omega)]
        have hmono : (⟨(samps.length - 1) / 2, by omega⟩ : Fin sorted.length) ≤ ⟨_, hlast⟩ :=
          Nat.le_succ _
        exact List.sortedLE_mergeSort.monotone_get hmono
      rw [hmed, if_neg hodd, hmid, Int.cast_ofNat, le_div_iff₀ two_pos, div_le_iff₀ two_pos]
      constructor <;> linarith
  · simp [med, sorted, make_singleton]

/-- No less than half of the samples lie on either side of the median. -/
theorem make_med_halves (hne : samps ≠ []) :
    let med := (make sqrt samps).1.med
    samps.length ≤ 2 * samps.countP (· ≤ med) ∧ samps.length ≤ 2 * samps.countP (med ≤ ·) := by
  intro med
  have hpos := List.length_pos_iff.mpr hne
  obtain ⟨hlow, hhigh⟩ := make_med sqrt hne
  have hperm := List.mergeSort_perm samps (· ≤ ·)
  have hlen := hperm.length_eq
  have hsorted : (samps.mergeSort (· ≤ ·)).SortedLE := List.sortedLE_mergeSort
  rw [List.getD_eq_getElem _ _ (by omega)] at hlow hhigh
  have hle := succ_le_countP_le hsorted (by omega) hlow
  have hge := sub_le_countP_ge hsorted (by omega) hhigh
  rw [hperm.countP_eq] at hle hge
  change _ ≤ samps.countP (· ≤ med) at hle
  change _ ≤ samps.countP (med ≤ ·) at hge
  omega

theorem make_med_bounds (hne : samps ≠ []) :
    let st := (make sqrt samps).1
    st.min ≤ st.med ∧ st.med ≤ st.max := by
  intro st
  have hpos := List.length_pos_iff.mpr hne
  obtain ⟨hmax, hmin⟩ := make_extremes sqrt hne
  obtain ⟨hlow, hhigh⟩ := make_med sqrt hne
  have hlen : (samps.mergeSort (· ≤ ·)).length = samps.length := List.length_mergeSort samps
  rw [List.getD_eq_getElem _ _ (by omega)] at hlow hhigh
  exact ⟨(hmin.2 (List.mem_mergeSort.mp (List.getElem_mem _))).trans hlow,
    hhigh.trans (hmax.2 (List.mem_mergeSort.mp (List.getElem_mem _)))⟩

variable (hsqrt : ∀ v, 0 ≤ v → sqrt v * sqrt v = v)

include hsqrt

theorem make_avg_bounds (hne : samps ≠ []) :
    let st := (make sqrt samps).1
    st.min ≤ st.avg ∧ st.avg ≤ st.max := by
  intro st
  have hpos : (0 : K) < samps.length := by exact_mod_cast List.length_pos_iff.mpr hne
  obtain ⟨hmax, hmin⟩ := make_extremes sqrt hne
  have havg : st.avg * samps.length = samps.sum := (make_avg_std hsqrt hne).1
  have hlow : samps.length • st.min ≤ samps.sum :=
    List.card_nsmul_le_sum samps _ fun x hx => hmin.2 hx
  have hhigh : samps.sum ≤ samps.length • st.max :=
    List.sum_le_card_nsmul samps _ fun x hx => hmax.2 hx
  rw [nsmul_eq_mul, mul_comm, ← havg] at hlow hhigh
  exact ⟨le_of_mul_le_mul_right hlow hpos, le_of_mul_le_mul_right hhigh hpos⟩

/-- There is no deviation just if all samples are equal. -/
theorem make_std_eq_zero_iff (hne : samps ≠ []) :
    (make sqrt samps).1.std = 0 ↔ ∀ x ∈ samps, ∀ y ∈ samps, x = y := by
  rcases many_or_one hne with hmany | ⟨x, rfl⟩
  · obtain ⟨havg, hstd⟩ := make_avg_std hsqrt hne
    set avg := (make sqrt samps).1.avg
    set std := (make sqrt samps).1.std
    have hlast : ((samps.length - 1 : ℤ) : K) ≠ 0 := by
      have h : (samps.length : ℤ) - 1 ≠ 0 := by omega
      exact_mod_cast h
    have hn : (samps.length : K) ≠ 0 := by
      have h : samps.length ≠ 0 := by omega
      exact_mod_cast h
    have hzero : std = 0 ↔ ∀ x ∈ samps, x - avg = 0 := by
      rw [← sum_sq_eq_zero_iff, ← hstd, mul_eq_zero, or_iff_left hlast, mul_self_eq_zero]
    rw [hzero]
    constructor
    · intro h x hx y hy
      rw [sub_eq_zero.mp (h x hx), sub_eq_zero.mp (h y hy)]
    · intro h x hx
      have hsum : samps.sum = samps.length • x :=
        List.sum_eq_card_nsmul samps x fun y hy => h y hy x hx
      rw [nsmul_eq_mul, mul_comm, ← havg] at hsum
      rw [mul_right_cancel₀ hn hsum, sub_self]
  · simp [make_singleton]

end Statistic

/-- **What the results say** of any samples, over the reals. -/
theorem make_describes {samps : List ℝ} (hne : samps ≠ []) :
    let st : Statistic ℝ := (Statistic.make Real.sqrt samps).1
    (∀ order : List ℝ, order.Perm samps → (Statistic.make Real.sqrt order).1 = st) ∧
      (st.min ≤ st.med ∧ st.med ≤ st.max) ∧ (st.min ≤ st.avg ∧ st.avg ≤ st.max) ∧
      (samps.length ≤ 2 * samps.countP (· ≤ st.med) ∧
        samps.length ≤ 2 * samps.countP (st.med ≤ ·)) ∧
      (st.std = 0 ↔ ∀ x ∈ samps, ∀ y ∈ samps, x = y) := by
  intro st
  refine ⟨fun order hperm => ?_, Statistic.make_med_bounds hne,
    Statistic.make_avg_bounds (fun _ => Real.mul_self_sqrt) hne, Statistic.make_med_halves hne,
    Statistic.make_std_eq_zero_iff (fun _ => Real.mul_self_sqrt) hne⟩
  rw [Statistic.make_perm Real.sqrt hperm]

theorem make_describes_three :
    let samps : List ℝ := [3, 1, 2]
    let st : Statistic ℝ := (Statistic.make Real.sqrt samps).1
    (∀ order : List ℝ, order.Perm samps → (Statistic.make Real.sqrt order).1 = st) ∧
      (st.min ≤ st.med ∧ st.med ≤ st.max) ∧ (st.min ≤ st.avg ∧ st.avg ≤ st.max) ∧
      (samps.length ≤ 2 * samps.countP (· ≤ st.med) ∧
        samps.length ≤ 2 * samps.countP (st.med ≤ ·)) ∧
      (st.std = 0 ↔ ∀ x ∈ samps, ∀ y ∈ samps, x = y) :=
  make_describes (List.cons_ne_nil _ _)

end LeonUtils
