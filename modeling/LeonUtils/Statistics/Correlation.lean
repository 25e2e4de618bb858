import LeonUtils.Samples.Covariance
import LeonUtils.Statistics

/-!
# Correlation of two quantities

`pearson` makes two passes over a list of pairs: one for the sums, and one for the deviations from
the averages and their products. It does not divide by less than `1E-10`, and takes such a
correlation to be one.

## Main definitions

* `NumPair`, `pearson` — the pairs, and their correlation; none, for not a number, if there are none
* `divisor` — what the summed products are divided by

## Main results

* `pearson_many` — the two passes
* `pearson_bounds` — the correlation lies between minus one and one, and is symmetric
* `pearson_affine_iff` — when it does not change with the scale of the first quantity
-/

namespace LeonUtils

open Samples

/-- `NumPair_t`. -/
structure NumPair (K : Type*) where
  x : K
  y : K
deriving DecidableEq

namespace NumPair

variable {K : Type*}

/-- The coordinates exchanged. -/
def swap (p : NumPair K) : NumPair K := ⟨p.y, p.x⟩

/-- The first coordinate scaled and shifted. -/
def affine [Field K] (c d : K) (p : NumPair K) : NumPair K := { p with x := c * p.x + d }

end NumPair

section Pearson

variable {K : Type*} [Field K] [LinearOrder K]

/-- `1E-10`. -/
def tiny : K := 1 / ((10 ^ 10 : ℕ) : K)

/-- The body of the first loop. -/
def addSums (st : Statistic K × Statistic K) (p : NumPair K) : Statistic K × Statistic K :=
  let (x_st, y_st) := st
  ({ x_st with sum := x_st.sum + p.x }, { y_st with sum := y_st.sum + p.y })

/-- The body of the second loop. -/
def addDifs (st : Statistic K × Statistic K × K) (p : NumPair K) :
    Statistic K × Statistic K × K :=
  let (x_st, y_st, cov) := st
  let x_dif := p.x - x_st.avg
  let y_dif := p.y - y_st.avg
  ({ x_st with std := x_st.std + x_dif * x_dif }, { y_st with std := y_st.std + y_dif * y_dif },
    cov + x_dif * y_dif)

/-- `pearson`. -/
def pearson (sqrt : K → K) (nps : List (NumPair K)) : Option K :=
  if nps.isEmpty then none
  else if nps.length = 1 then some 1
  else
    let zero : Statistic K := ⟨nps.length, 0, 0, 0, 0, 0, 0⟩
    let (x_st, y_st) := nps.foldl addSums (zero, zero)
    let x_st := { x_st with avg := x_st.sum / (x_st.cnt : K) }
    let y_st := { y_st with avg := y_st.sum / (y_st.cnt : K) }
    let (x_st, y_st, cov) := nps.foldl addDifs (x_st, y_st, 0)
    let std_pro := sqrt x_st.std * sqrt y_st.std
    -- a small divisor is not divided by
    if |std_pro| < tiny then some 1 else some (cov / std_pro)

/-- What the summed products are divided by. -/
def divisor (sqrt : K → K) (nps : List (NumPair K)) : K :=
  sqrt (comoment NumPair.x NumPair.x nps) * sqrt (comoment NumPair.y NumPair.y nps)

omit [LinearOrder K] in
theorem foldl_addSums (nps : List (NumPair K)) (x_st y_st : Statistic K) :
    nps.foldl addSums (x_st, y_st) = ({ x_st with sum := x_st.sum + (nps.map NumPair.x).sum },
      { y_st with sum := y_st.sum + (nps.map NumPair.y).sum }) := by
  induction nps generalizing x_st y_st with
  | nil => simp
  | cons p nps ih =>
    simp only [List.foldl_cons, addSums, ih, List.map_cons, List.sum_cons, add_assoc]

omit [LinearOrder K] in
theorem foldl_addDifs (nps : List (NumPair K)) (x_st y_st : Statistic K) (cov : K) :
    nps.foldl addDifs (x_st, y_st, cov) =
      ({ x_st with
          std := x_st.std + (nps.map fun p => (p.x - x_st.avg) * (p.x - x_st.avg)).sum },
        { y_st with
          std := y_st.std + (nps.map fun p => (p.y - y_st.avg) * (p.y - y_st.avg)).sum },
        cov + (nps.map fun p => (p.x - x_st.avg) * (p.y - y_st.avg)).sum) := by
  induction nps generalizing x_st y_st cov with
  | nil => simp
  | cons p nps ih =>
    simp only [List.foldl_cons, addDifs, ih, List.map_cons, List.sum_cons, add_assoc]

/-- **The two passes** over more than one pair. -/
theorem pearson_many (sqrt : K → K) {nps : List (NumPair K)} (h : 1 < nps.length) :
    pearson sqrt nps = some (if |divisor sqrt nps| < tiny then 1
      else comoment NumPair.x NumPair.y nps / divisor sqrt nps) := by
  simp only [pearson, if_neg (not_isEmpty_of_many h), if_neg h.ne', foldl_addSums, foldl_addDifs,
    zero_add, Int.cast_natCast]
  exact (apply_ite some _ _ _).symm

@[simp]
theorem pearson_singleton (sqrt : K → K) (p : NumPair K) : pearson sqrt [p] = some 1 := rfl

end Pearson

/-! ## Bounds, and the order of the coordinates -/

section Bounds

variable {nps : List (NumPair ℝ)}

theorem divisor_nonneg (nps : List (NumPair ℝ)) : 0 ≤ divisor Real.sqrt nps :=
  mul_nonneg (Real.sqrt_nonneg _) (Real.sqrt_nonneg _)

theorem divisor_mul_self (nps : List (NumPair ℝ)) :
    divisor Real.sqrt nps * divisor Real.sqrt nps =
      comoment NumPair.x NumPair.x nps * comoment NumPair.y NumPair.y nps := by
  rw [divisor, mul_mul_mul_comm, Real.mul_self_sqrt (comoment_self_nonneg _ _),
    Real.mul_self_sqrt (comoment_self_nonneg _ _)]

theorem abs_comoment_le (nps : List (NumPair ℝ)) :
    |comoment NumPair.x NumPair.y nps| ≤ divisor Real.sqrt nps := by
  rw [← abs_of_nonneg (divisor_nonneg nps), abs_le_iff_mul_self_le, divisor_mul_self]
  exact comoment_sq_le _ _ nps

theorem tiny_pos : (0 : ℝ) < tiny := by
  rw [tiny]
  positivity

/-- A correlation is there for any pairs, and lies between minus one and one. -/
theorem pearson_mem_Icc (hne : nps ≠ []) :
    ∃ r, pearson Real.sqrt nps = some r ∧ -1 ≤ r ∧ r ≤ 1 := by
  rcases many_or_one hne with hmany | ⟨p, rfl⟩
  · refine ⟨_, pearson_many Real.sqrt hmany, ?_⟩
    by_cases hsmall : |divisor Real.sqrt nps| < tiny
    · rw [if_pos hsmall]
      norm_num
    · have hpos : 0 < divisor Real.sqrt nps := by
        rw [abs_of_nonneg (divisor_nonneg nps), not_lt] at hsmall
        exact tiny_pos.trans_le hsmall
      obtain ⟨hlow, hhigh⟩ := abs_le.mp (abs_comoment_le nps)
      rw [if_neg hsmall, le_div_iff₀ hpos, div_le_iff₀ hpos]
      constructor <;> linarith
  · exact ⟨1, pearson_singleton _ p, by norm_num⟩

theorem divisor_swap (nps : List (NumPair ℝ)) :
    divisor Real.sqrt (nps.map NumPair.swap) = divisor Real.sqrt nps := by
  rw [divisor, comoment_map, comoment_map, mul_comm]
  rfl

theorem pearson_swap (nps : List (NumPair ℝ)) :
    pearson Real.sqrt (nps.map NumPair.swap) = pearson Real.sqrt nps := by
  rcases eq_or_ne nps [] with rfl | hne
  · rfl
  rcases many_or_one hne with hmany | ⟨p, rfl⟩
  · have hmany' : 1 < (nps.map NumPair.swap).length := by rwa [List.length_map]
    rw [pearson_many _ hmany, pearson_many _ hmany', divisor_swap, comoment_map, comoment_comm]
    rfl
  · rfl

end Bounds

/-- **The correlation** of any pairs lies between minus one and one, and does not depend on which
coordinate comes first. -/
theorem pearson_bounds {nps : List (NumPair ℝ)} (hne : nps ≠ []) :
    (∃ r, pearson Real.sqrt nps = some r ∧ -1 ≤ r ∧ r ≤ 1) ∧
      pearson Real.sqrt (nps.map NumPair.swap) = pearson Real.sqrt nps :=
  ⟨pearson_mem_Icc hne, pearson_swap nps⟩

theorem pearson_bounds_two :
    (∃ r, pearson Real.sqrt [⟨1, 2⟩, ⟨3, 5⟩] = some r ∧ -1 ≤ r ∧ r ≤ 1) ∧
      pearson Real.sqrt ([⟨1, 2⟩, ⟨3, 5⟩].map NumPair.swap) =
        pearson Real.sqrt [⟨1, 2⟩, ⟨3, 5⟩] :=
  pearson_bounds (List.cons_ne_nil _ _)

/-! ## Scaling a coordinate -/

section Scale

variable {nps : List (NumPair ℝ)} {c : ℝ}

theorem one_lt_length_of_ne {f : NumPair ℝ → ℝ} (h : ∃ p ∈ nps, ∃ q ∈ nps, f p ≠ f q) :
    1 < nps.length := by
  obtain ⟨p, hp, q, hq, hpq⟩ := h
  rcases many_or_one (List.ne_nil_of_mem hp) with hmany | ⟨z, rfl⟩
  · exact hmany
  · rw [List.mem_singleton.mp hp, List.mem_singleton.mp hq] at hpq
    exact absurd rfl hpq

theorem divisor_affine (hne : nps ≠ []) (hc : 0 < c) (d : ℝ) :
    divisor Real.sqrt (nps.map (NumPair.affine c d)) = c * divisor Real.sqrt nps := by
  have hxx : comoment NumPair.x NumPair.x (nps.map (NumPair.affine c d)) =
      c * (c * comoment NumPair.x NumPair.x nps) := by
    rw [comoment_map]
    change comoment (fun p => c * NumPair.x p + d) (fun p => c * NumPair.x p + d) nps = _
    rw [comoment_affine hne, comoment_comm, comoment_affine hne]
  rw [divisor, hxx, comoment_map, ← mul_assoc, Real.sqrt_mul (mul_self_nonneg c),
    Real.sqrt_mul_self hc.le, mul_assoc]
  rfl

theorem comoment_affine_x (hne : nps ≠ []) (c d : ℝ) :
    comoment NumPair.x NumPair.y (nps.map (NumPair.affine c d)) =
      c * comoment NumPair.x NumPair.y nps := by
  rw [comoment_map]
  exact comoment_affine hne c d

/-- The summed products reach the divisor just on a rising line. -/
theorem comoment_eq_divisor_iff (hx : ∃ p ∈ nps, ∃ q ∈ nps, p.x ≠ q.x)
    (hy : ∃ p ∈ nps, ∃ q ∈ nps, p.y ≠ q.y) :
    comoment NumPair.x NumPair.y nps = divisor Real.sqrt nps ↔
      ∃ k b, 0 < k ∧ ∀ p ∈ nps, p.y = k * p.x + b := by
  have hne : nps ≠ [] := List.ne_nil_of_length_pos (zero_lt_one.trans (one_lt_length_of_ne hx))
  have hxx : 0 < comoment NumPair.x NumPair.x nps := (comoment_self_pos_iff hne).mpr hx
  have hyy : 0 < comoment NumPair.y NumPair.y nps := (comoment_self_pos_iff hne).mpr hy
  have hpos : 0 < divisor Real.sqrt nps :=
    mul_pos (Real.sqrt_pos.mpr hxx) (Real.sqrt_pos.mpr hyy)
  rw [← rising_line_iff hne hxx, ← divisor_mul_self]
  constructor
  · intro h
    rw [h]
    exact ⟨hpos, rfl⟩
  · rintro ⟨hcov, hreach⟩
    exact (mul_self_inj hcov.le hpos.le).mp hreach

end Scale

/-- **A change of scale** leaves the correlation as it was just if the divisor stays on its side of
the limit, or if the pairs lie on a rising line, where the correlation is one in any case. -/
theorem pearson_affine_iff {nps : List (NumPair ℝ)} (hx : ∃ p ∈ nps, ∃ q ∈ nps, p.x ≠ q.x)
    (hy : ∃ p ∈ nps, ∃ q ∈ nps, p.y ≠ q.y) {c : ℝ} (hc : 0 < c) (d : ℝ) :
    pearson Real.sqrt (nps.map (NumPair.affine c d)) = pearson Real.sqrt nps ↔
      (divisor Real.sqrt nps < tiny ↔ c * divisor Real.sqrt nps < tiny) ∨
        ∃ k b, 0 < k ∧ ∀ p ∈ nps, p.y = k * p.x + b := by
  have hmany := one_lt_length_of_ne hx
  have hne : nps ≠ [] := List.ne_nil_of_length_pos (zero_lt_one.trans hmany)
  have hmany' : 1 < (nps.map (NumPair.affine c d)).length := by rwa [List.length_map]
  have hpos : 0 < divisor Real.sqrt nps :=
    mul_pos (Real.sqrt_pos.mpr ((comoment_self_pos_iff hne).mpr hx))
      (Real.sqrt_pos.mpr ((comoment_self_pos_iff hne).mpr hy))
  have hpos' : 0 < c * divisor Real.sqrt nps := mul_pos hc hpos
  have hquot : c * comoment NumPair.x NumPair.y nps / (c * divisor Real.sqrt nps) =
      comoment NumPair.x NumPair.y nps / divisor Real.sqrt nps := mul_div_mul_left _ _ hc.ne'
  rw [← comoment_eq_divisor_iff hx hy, pearson_many _ hmany, pearson_many _ hmany',
    divisor_affine hne hc, comoment_affine_x hne, abs_of_pos hpos, abs_of_pos hpos', hquot,
    Option.some_inj]
  by_cases hsmall : divisor Real.sqrt nps < tiny
  · by_cases hsmall' : c * divisor Real.sqrt nps < tiny
    · simp [hsmall, hsmall']
    · rw [if_pos hsmall, if_neg hsmall', div_eq_one_iff_eq hpos.ne', or_iff_right]
      exact fun h => hsmall' (h.mp hsmall)
  · by_cases hsmall' : c * divisor Real.sqrt nps < tiny
    · rw [if_neg hsmall, if_pos hsmall', eq_comm, div_eq_one_iff_eq hpos.ne', or_iff_right]
      exact fun h => hsmall (h.mpr hsmall')
    · simp [hsmall, hsmall']

theorem pearson_affine_iff_two :
    pearson Real.sqrt ([⟨0, 1⟩, ⟨1, 0⟩].map (NumPair.affine 2 3)) =
        pearson Real.sqrt [⟨0, 1⟩, ⟨1, 0⟩] ↔
      (divisor Real.sqrt [⟨0, 1⟩, ⟨1, 0⟩] < tiny ↔
          2 * divisor Real.sqrt [⟨0, 1⟩, ⟨1, 0⟩] < tiny) ∨
        ∃ k b : ℝ, 0 < k ∧ ∀ p ∈ ([⟨0, 1⟩, ⟨1, 0⟩] : List (NumPair ℝ)), p.y = k * p.x + b :=
  pearson_affine_iff (by simp) (by simp) two_pos 3

/-- Two pairs on a falling line, brought so close together that their correlation is one. -/
theorem not_pearson_affine :
    ¬ ∀ nps : List (NumPair ℝ), (∃ p ∈ nps, ∃ q ∈ nps, p.x ≠ q.x) →
      (∃ p ∈ nps, ∃ q ∈ nps, p.y ≠ q.y) → ∀ c d : ℝ, 0 < c →
        pearson Real.sqrt (nps.map (NumPair.affine c d)) = pearson Real.sqrt nps := by
  intro h
  have hkeep := h [⟨0, 1⟩, ⟨1, 0⟩] (by simp) (by simp) tiny 0 tiny_pos
  have hxx : comoment NumPair.x NumPair.x ([⟨0, 1⟩, ⟨1, 0⟩] : List (NumPair ℝ)) = 1 / 2 := by
    norm_num [comoment, mean]
  have hyy : comoment NumPair.y NumPair.y ([⟨0, 1⟩, ⟨1, 0⟩] : List (NumPair ℝ)) = 1 / 2 := by
    norm_num [comoment, mean]
  have hxy : comoment NumPair.x NumPair.y ([⟨0, 1⟩, ⟨1, 0⟩] : List (NumPair ℝ)) = -(1 / 2) := by
    norm_num [comoment, mean]
  have hdiv : divisor Real.sqrt ([⟨0, 1⟩, ⟨1, 0⟩] : List (NumPair ℝ)) = 1 / 2 := by
    rw [divisor, hxx, hyy, Real.mul_self_sqrt (by norm_num)]
  have htiny : (tiny : ℝ) ≤ 1 / 2 := by norm_num [tiny]
  have htiny' : (tiny : ℝ) * (1 / 2) < tiny := by linarith [tiny_pos]
  rw [pearson_many _ (by simp), pearson_many _ (by simp), divisor_affine (by simp) tiny_pos, hdiv,
    hxy, abs_of_pos (mul_pos tiny_pos one_half_pos), abs_of_pos one_half_pos, if_pos htiny',
    if_neg (not_lt.mpr htiny), Option.some_inj] at hkeep
  norm_num at hkeep

end LeonUtils
