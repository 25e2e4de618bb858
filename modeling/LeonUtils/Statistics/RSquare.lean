import LeonUtils.Algorithms
import LeonUtils.Samples.Antivary
import LeonUtils.Statistics.Correlation

/-!
# Values and their order

`r_square` compares a series of values with the line that starts at the first of them and comes down
by the same amount each time, so that it would reach zero after the last. What is left of the
values beside this line it divides by their deviations from an average that it is told.

The line is not the best one, and the result may be negative. It is for a series that starts above
zero and never falls, however steadily it rises; but a series that hardly changes has the best
result of all.

All numbers are those of an ordered field. What type `double` makes of them, which rounds and has a
greatest number, is left aside.

## Main definitions

* `average`, `rSquare` — the functions
* `ideal`, `residual`, `scatter` — the line, what is left beside it, and what it is divided by

## Main results

* `rSquare_eq` — the result in closed form
* `rSquare_trend` — what it says of the series
-/

namespace LeonUtils

open Samples

section Definitions

variable {K : Type*} [Field K]

def average (samps : List K) : K :=
  if samps.isEmpty then 0 else samps.foldl (· + ·) 0 / samps.length

/-- The body of the loop. -/
def addDiffs (step_v avg : K) (st : K × K × K) (v : K) : K × K × K :=
  let (idea_v, dif_sum, std_sum) := st
  let diff := v - idea_v
  let dif_sum := dif_sum + diff * diff
  let idea_v := idea_v - step_v
  let diff := v - avg
  (idea_v, dif_sum, std_sum + diff * diff)

/-- The line, one value of it for each place. -/
def ideal (samps : List K) (i : ℕ) : K := samps.headD 0 * (1 - i / samps.length)

/-- What is left of the values beside the line. -/
def residual (samps : List K) : K :=
  ((List.finRange samps.length).map fun i =>
    (samps.get i - ideal samps i) * (samps.get i - ideal samps i)).sum

/-- The deviations of the values. -/
def scatter (samps : List K) (avg : K) : K := (samps.map fun v => (v - avg) * (v - avg)).sum

theorem foldl_addDiffs (step_v avg : K) (samps : List K) (idea_v dif_sum std_sum : K) :
    samps.foldl (addDiffs step_v avg) (idea_v, dif_sum, std_sum) =
      (idea_v - samps.length * step_v,
        dif_sum + ((List.finRange samps.length).map fun i =>
          (samps.get i - (idea_v - (i : ℕ) * step_v)) *
            (samps.get i - (idea_v - (i : ℕ) * step_v))).sum,
        std_sum + scatter samps avg) := by
  induction samps generalizing idea_v dif_sum std_sum with
  | nil => simp [scatter]
  | cons v samps ih =>
    have hrange : List.finRange (v :: samps).length =
        0 :: (List.finRange samps.length).map Fin.succ := List.finRange_succ
    have hplace : ∀ i : Fin samps.length,
        idea_v - ((i.succ : ℕ) : K) * step_v = idea_v - step_v - (i : ℕ) * step_v := by
      intro i
      rw [Fin.val_succ, Nat.cast_succ]
      ring
    rw [List.foldl_cons, addDiffs, ih, hrange]
    simp only [List.map_cons, List.map_map, Function.comp_def, List.sum_cons, hplace, scatter,
      List.length_cons, Nat.cast_succ]
    refine Prod.ext (by ring) (Prod.ext ?_ ?_)
    · simp [add_assoc]
    · simp [add_assoc]

theorem average_eq_mean (samps : List K) :
    average samps = mean samps.get (List.finRange samps.length) := by
  rw [mean, List.length_finRange, List.map_get_finRange, average]
  split
  case isTrue h => rw [List.isEmpty_iff.mp h, List.length_nil, Nat.cast_zero, div_zero]
  case isFalse => rw [← List.sum_eq_foldl]

/-- The deviations, place by place. -/
theorem scatter_eq (samps : List K) (avg : K) : scatter samps avg =
    ((List.finRange samps.length).map fun i =>
      (samps.get i - avg) * (samps.get i - avg)).sum := by
  conv_lhs => rw [scatter, ← List.map_get_finRange samps, List.map_map]
  rfl

theorem scatter_average (samps : List K) : scatter samps (average samps) =
    comoment samps.get samps.get (List.finRange samps.length) := by
  rw [scatter_eq, average_eq_mean, comoment]

variable [LinearOrder K]

def rSquare (samps : List K) (avg : K) : K :=
  let cnt := samps.length
  if cnt ≤ 1 then 1
  else
    let idea_v := samps.headD 0
    let step_v := idea_v / cnt
    let (_, dif_sum, std_sum) := samps.foldl (addDiffs step_v avg) (idea_v, 0, 0)
    -- neither argument is negative, so that `eq` has no signs to tell apart
    if Algorithms.gt (fun a b => decide (a < b)) (fun a b => decide (Tolerance.Near tiny a b))
      std_sum 0 then 1 - dif_sum / std_sum else 1

end Definitions

section Trend

variable {K : Type*} [Field K] [LinearOrder K] [IsStrictOrderedRing K] {samps : List K}

theorem scatter_nonneg (samps : List K) (avg : K) : 0 ≤ scatter samps avg :=
  sum_sq_nonneg (fun v => v - avg) samps

theorem residual_nonneg (samps : List K) : 0 ≤ residual samps :=
  sum_sq_nonneg (fun i : Fin samps.length => samps.get i - ideal samps i) _

theorem zero_lt_tiny : (0 : K) < tiny := by
  rw [tiny]
  positivity

/-- What `gt` says of a number that is not negative, and zero. -/
theorem gt_zero_iff {v : K} (h : 0 ≤ v) : Algorithms.gt (fun a b => decide (a < b))
    (fun a b => decide (Tolerance.Near tiny a b)) v 0 = true ↔ tiny ≤ v := by
  have hle : (tiny : K) ≤ 1 := by
    rw [tiny]
    exact div_le_one_of_le₀ (by norm_num) (by norm_num)
  simp only [Algorithms.gt, Bool.and_eq_true, decide_eq_true_eq, Bool.not_eq_true',
    decide_eq_false_iff_not, Tolerance.near_zero_iff hle, abs_of_nonneg h, not_lt]
  exact and_iff_right_of_imp zero_lt_tiny.trans_le

/-- **The result.** -/
theorem rSquare_eq (samps : List K) (avg : K) : rSquare samps avg =
    if samps.length ≤ 1 ∨ scatter samps avg < tiny then 1
    else 1 - residual samps / scatter samps avg := by
  by_cases hlen : samps.length ≤ 1
  · rw [rSquare, if_pos hlen, if_pos (Or.inl hlen)]
  have hline : ∀ i : ℕ, samps.headD 0 - i * (samps.headD 0 / samps.length) = ideal samps i := by
    intro i
    rw [ideal]
    ring
  rw [rSquare, if_neg hlen]
  simp only [foldl_addDiffs, zero_add, hline, gt_zero_iff (scatter_nonneg samps avg), hlen,
    false_or]
  by_cases hsmall : scatter samps avg < tiny
  · rw [if_neg (not_le.mpr hsmall), if_pos hsmall]
  · rw [if_pos (not_lt.mp hsmall), if_neg hsmall]
    rfl

/-- The results that are one. -/
theorem rSquare_eq_one_iff (samps : List K) (avg : K) : rSquare samps avg = 1 ↔
    samps.length ≤ 1 ∨ scatter samps avg < tiny ∨ ∀ i : Fin samps.length,
      samps.get i = ideal samps i := by
  rw [rSquare_eq, ← or_assoc]
  split
  case isTrue h => simp only [h, true_or]
  case isFalse h =>
    have hpos : 0 < scatter samps avg := zero_lt_tiny.trans_le (not_lt.mp (not_or.mp h).2)
    rw [or_iff_right h, sub_eq_self, div_eq_zero_iff, or_iff_left hpos.ne', residual,
      sum_sq_eq_zero_iff]
    simp only [List.mem_finRange, true_implies, sub_eq_zero]

theorem rSquare_le_one (samps : List K) (avg : K) : rSquare samps avg ≤ 1 := by
  rw [rSquare_eq]
  split
  · exact le_rfl
  · exact sub_le_self 1 (div_nonneg (residual_nonneg samps) (scatter_nonneg samps avg))

/-! ### With the average of the values -/

/-- No other average makes the deviations smaller. -/
theorem scatter_average_le (hne : samps ≠ []) (avg : K) :
    scatter samps (average samps) ≤ scatter samps avg := by
  have hrange : List.finRange samps.length ≠ [] := by
    rwa [ne_eq, List.finRange_eq_nil_iff, List.length_eq_zero_iff]
  rw [scatter_average, scatter_eq]
  exact comoment_self_le hrange avg

/-- The line comes down. -/
theorem ideal_lt (hpos : 0 < samps.headD 0) (hne : samps ≠ []) {i j : ℕ} (h : i < j) :
    ideal samps j < ideal samps i := by
  have hn : (0 : K) < samps.length := by exact_mod_cast List.length_pos_iff.mpr hne
  have hij : (i : K) < j := by exact_mod_cast h
  exact mul_lt_mul_of_pos_left (sub_lt_sub_left (div_lt_div_of_pos_right hij hn) 1) hpos

/-- **A series that never falls** is farther from the line than from its average. -/
theorem scatter_lt_residual (hsorted : samps.SortedLE) (hpos : 0 < samps.headD 0)
    (hmany : 1 < samps.length) : scatter samps (average samps) < residual samps := by
  have hne : samps ≠ [] := List.ne_nil_of_length_pos (by omega)
  have hrange : List.finRange samps.length ≠ [] := by
    rw [ne_eq, List.finRange_eq_nil_iff]
    omega
  set line : Fin samps.length → K := fun i => ideal samps i
  have hanti : Antivary line samps.get := by
    intro i j hlt
    have hij : i < j := not_le.mp fun hle => absurd (hsorted.monotone_get hle) (not_le.mpr hlt)
    exact (ideal_lt hpos hne hij).le
  have hline : 0 < comoment line line (List.finRange samps.length) :=
    (comoment_self_pos_iff hrange).mpr ⟨⟨0, by omega⟩, List.mem_finRange _, ⟨1, hmany⟩,
      List.mem_finRange _, (ideal_lt hpos hne Nat.zero_lt_one).ne'⟩
  have hmeans : (0 : K) ≤ (mean samps.get (List.finRange samps.length) -
      mean line (List.finRange samps.length)) * (mean samps.get (List.finRange samps.length) -
      mean line (List.finRange samps.length)) * ((List.finRange samps.length).length : ℕ) :=
    mul_nonneg (mul_self_nonneg _) (Nat.cast_nonneg _)
  have hsplit : residual samps = _ := @sum_sub_sq _ _ _ _ _ line samps.get _ hrange
  have hprod := comoment_nonpos (l := List.finRange samps.length) hanti
  rw [scatter_average, hsplit]
  linarith

end Trend

end LeonUtils
