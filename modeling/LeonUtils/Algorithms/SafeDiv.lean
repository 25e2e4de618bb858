import LeonUtils.Algorithms

/-!
# Division by nearly nothing

`safe_div` takes numbers near zero for zero, so that nothing is divided by them: the result is zero,
an infinity with the sign of the quotient, or not a number. What is near zero it asks `eq`, which
tells a negative number from zero however small it is.

## Main definitions

* `Double.div`, `Double.neg` — division and negation
* `safeDiv` — the function
* `Odd` — a sign may be taken out of either argument

## Main results

* `safeDiv_finite` — the result for finite numbers other than zero
* `safeDiv_odd_iff` — it is odd for numbers that are not near zero
-/

namespace LeonUtils

namespace Double

/-- `0.0`. -/
def zero : Double := finite false 0

/-- An integer as a `double`. -/
def ofInt (v : ℤ) : Double := finite (v < 0) v.natAbs

def neg : Double → Double
  | nan => nan
  | inf s => inf (!s)
  | finite s abs => finite (!s) abs

/-- `operator /`. -/
def div : Double → Double → Double
  | nan, _ | _, nan | inf _, inf _ => nan
  | inf s, finite s' _ => inf (s != s')
  | finite s _, inf s' => finite (s != s') 0
  | finite s abs, finite s' abs' =>
    if abs' = 0 then if abs = 0 then nan else inf (s != s') else finite (s != s') (abs / abs')

/-- Two results are one number, the two zeros being one. -/
def Same (a b : Double) : Prop := a = b ∨ ∃ s s', a = finite s 0 ∧ b = finite s' 0

end Double

namespace Algorithms

open Tolerance

def safeDiv (num deno : Double) : Double :=
  if num.isNan || deno.isNan then .nan
  else
    let nCoe : ℤ := if num.less .zero then -1 else 1
    let dCoe : ℤ := if deno.less .zero then -1 else 1
    let nInf := num.isInf
    let dInf := deno.isInf
    if nInf && dInf then .ofInt (nCoe * dCoe)
    else if dInf then .zero
    else if nInf then .inf (nCoe * dCoe < 0)
    else
      let nZer := eqDouble num .zero
      let dZer := eqDouble deno .zero
      if nZer && dZer then .nan
      else if nZer then .zero
      else if dZer then .inf (nCoe * dCoe < 0)
      else num.div deno

/-- A sign may be taken out of either argument. -/
def Odd (num deno : Double) : Prop :=
  (safeDiv num.neg deno).Same (safeDiv num deno).neg ∧
    (safeDiv num deno.neg).Same (safeDiv num deno).neg

/-! ## What is taken for zero -/

/-- Only positive numbers are. -/
theorem eqDouble_zero_iff (s : Bool) (x : ℚ≥0) :
    eqDouble (.finite s x) .zero = true ↔ s = false ∧ (x : ℚ) < epsilon := by
  cases s with
  | true =>
    rw [Double.zero, eqDouble_of_signs (by decide)]
    exact iff_of_false Bool.false_ne_true fun h => by cases h.1
  | false =>
    have hle : epsilon ≤ 1 := by norm_num [epsilon]
    rw [Double.zero, eqDouble_of_sign, NNRat.coe_zero, near_zero_iff hle,
      abs_of_nonneg x.coe_nonneg]
    exact (and_iff_right rfl).symm

theorem less_zero (s : Bool) {x : ℚ≥0} (hx : x ≠ 0) :
    (Double.finite s x).less .zero = s := by
  have hpos : (0 : ℚ) < x := NNRat.coe_pos.mpr (pos_of_ne_zero hx)
  cases s with
  | false =>
    exact decide_eq_false (not_lt.mpr hpos.le)
  | true =>
    refine decide_eq_true ?_
    show -(x : ℚ) < ((0 : ℚ≥0) : ℚ)
    rw [NNRat.coe_zero]
    linarith

/-- **The result** for finite numbers other than zero. -/
theorem safeDiv_finite (s t : Bool) {x y : ℚ≥0} (hx : x ≠ 0) (hy : y ≠ 0) :
    safeDiv (.finite s x) (.finite t y) =
      if s = false ∧ (x : ℚ) < epsilon then
        if t = false ∧ (y : ℚ) < epsilon then .nan else .zero
      else if t = false ∧ (y : ℚ) < epsilon then .inf s
      else .finite (s != t) (x / y) := by
  have hsign : decide (((if s = true then -1 else 1 : ℤ) * if t = true then -1 else 1) < 0) =
      (s != t) := by
    cases s <;> cases t <;> rfl
  rw [safeDiv]
  simp only [Double.isNan, Double.isInf, Bool.or_self, Bool.and_self, Bool.false_eq_true, if_false,
    less_zero s hx, less_zero t hy, hsign, Bool.and_eq_true, eqDouble_zero_iff, Double.div, hy]
  by_cases hs : s = false ∧ (x : ℚ) < epsilon
  · simp only [hs, and_self, true_and, if_true]
  · by_cases ht : t = false ∧ (y : ℚ) < epsilon
    · simp only [hs, ht, and_true, if_false, and_self, if_true, Bool.bne_false]
    · simp only [hs, ht, and_false, if_false]

/-! ## Signs -/

section Odd

variable (s t : Bool) {x y : ℚ≥0} (hx : x ≠ 0) (hy : y ≠ 0)

include hx hy

/-- Far from zero there is nothing but the division. -/
theorem odd_of_far (hfarx : epsilon ≤ (x : ℚ)) (hfary : epsilon ≤ (y : ℚ)) :
    Odd (.finite s x) (.finite t y) := by
  have hrun : ∀ s t, safeDiv (.finite s x) (.finite t y) = .finite (s != t) (x / y) := by
    intro s t
    rw [safeDiv_finite s t hx hy, if_neg fun h => absurd h.2 (not_lt.mpr hfarx),
      if_neg fun h => absurd h.2 (not_lt.mpr hfary)]
  rw [Odd, Double.neg, Double.neg, hrun, hrun, hrun]
  constructor <;> left <;> cases s <;> cases t <;> rfl

/-- Near zero, a number and its negative are not treated alike. -/
theorem far_of_odd (h : Odd (.finite s x) (.finite t y)) :
    epsilon ≤ (x : ℚ) ∧ epsilon ≤ (y : ℚ) := by
  have hquot : x / y ≠ 0 := div_ne_zero hx hy
  obtain ⟨hnum, hdeno⟩ := h
  simp only [Double.neg, safeDiv_finite _ _ hx hy] at hnum hdeno
  by_contra hfar
  rw [not_and_or, not_le, not_le] at hfar
  -- which of the two is near zero, and the signs
  by_cases hnearx : (x : ℚ) < epsilon <;> by_cases hneary : (y : ℚ) < epsilon <;>
    cases s <;> cases t <;>
    simp [hnearx, hneary, Double.Same, Double.zero, hquot, hquot.symm] at hnum hdeno hfar

/-- **The sign may be taken out** just if both numbers are not near zero. -/
theorem safeDiv_odd_iff :
    Odd (.finite s x) (.finite t y) ↔ epsilon ≤ (x : ℚ) ∧ epsilon ≤ (y : ℚ) :=
  ⟨far_of_odd s t hx hy, fun h => odd_of_far s t hx hy h.1 h.2⟩

end Odd

/-- One, divided by two. -/
theorem safeDiv_odd_iff_half : Odd (.finite false 1) (.finite false 2) :=
  (safeDiv_odd_iff false false (by decide) (by decide)).mpr (by norm_num [epsilon])

/-- One, divided by a hundred thousand millionth. -/
theorem not_safeDiv_odd :
    ¬ Odd (.finite false 1) (.finite false (1 / 10 ^ 11)) := by
  have hrun : safeDiv (.finite false 1) (.finite false (1 / 10 ^ 11)) = .inf false := by
    decide +kernel
  have hdeno : safeDiv (.finite false 1) (.finite true (1 / 10 ^ 11)) = .finite true (10 ^ 11) := by
    decide +kernel
  rintro ⟨-, h | ⟨s, s', h, -⟩⟩
  · exact absurd (hdeno.symm.trans h) (by rw [hrun]; decide)
  · have hzero : (10 ^ 11 : ℚ≥0) = 0 := (Double.finite.inj (hdeno.symm.trans h)).2
    exact absurd hzero (by norm_num)

end Algorithms

end LeonUtils
