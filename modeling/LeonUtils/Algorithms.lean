import LeonUtils.Text.Format
import LeonUtils.Tolerance
import Mathlib.Algebra.Order.Ring.Rat

/-!
# Comparing with a tolerance

`eq` for `double` takes two numbers for equal if they differ by less than a tolerance, which is
taken from the first one. `lt`, `gt`, `le` and `ge` are templates over `eq` and the operators of
the type.

A `double` is an exact rational with a sign of its own, so that there are two zeros; nothing is
rounded. The operators `<` and `>` take the two zeros for equal, `eq` does not, and so none of the
templates relates them.

## Main definitions

* `lt`, `gt`, `le`, `ge` — the templates
* `Double.less`, `eqDouble` — what they are instantiated with
* `Partition`, `Swaps` — the laws of an order, and of its reversal

## Main results

* `partition_iff` — the order laws hold of all pairs but two different zeros
* `swaps_iff` — the arguments may be exchanged unless their distance lies between the tolerances
-/

namespace LeonUtils

/-! ## The templates -/

namespace Algorithms

section Templates

variable {T : Type*} (less eq : T → T → Bool) (v1 v2 : T)

def lt : Bool := less v1 v2 && !eq v1 v2

def gt : Bool := less v2 v1 && !eq v1 v2

def le : Bool := less v1 v2 || eq v1 v2

def ge : Bool := less v2 v1 || eq v1 v2

/-- Exactly one of `lt`, `eq` and `gt` holds, and `le` and `ge` are as their names say. -/
structure Partition : Prop where
  one : [lt less eq v1 v2, eq v1 v2, gt less eq v1 v2].count true = 1
  le_eq : le less eq v1 v2 = (lt less eq v1 v2 || eq v1 v2)
  ge_eq : ge less eq v1 v2 = (gt less eq v1 v2 || eq v1 v2)
  lt_eq : lt less eq v1 v2 = !ge less eq v1 v2
  gt_eq : gt less eq v1 v2 = !le less eq v1 v2

/-- The arguments may be exchanged. -/
structure Swaps : Prop where
  eq_eq : eq v1 v2 = eq v2 v1
  lt_eq : lt less eq v1 v2 = gt less eq v2 v1
  le_eq : le less eq v1 v2 = ge less eq v2 v1

variable {less eq v1 v2}

/-- The order laws need two values that can be compared at all. -/
theorem partition_iff_comparable (hasymm : less v1 v2 = true → less v2 v1 = false) :
    Partition less eq v1 v2 ↔ less v1 v2 = true ∨ eq v1 v2 = true ∨ less v2 v1 = true := by
  constructor
  · intro h
    have hone := h.one
    by_contra hnone
    simp only [not_or, Bool.not_eq_true] at hnone
    simp only [lt, gt, hnone, Bool.false_and] at hone
    cases hone
  · intro h
    cases heq : eq v1 v2 with
    | true => constructor <;> simp [lt, gt, le, ge, heq]
    | false =>
      rw [heq, or_iff_right Bool.false_ne_true] at h
      rcases h with h12 | h21
      · have h21 := hasymm h12
        constructor <;> simp [lt, gt, le, ge, heq, h12, h21]
      · have h12 : less v1 v2 = false := by
          rw [← Bool.not_eq_true]
          intro h12
          rw [hasymm h12] at h21
          cases h21
        constructor <;> simp [lt, gt, le, ge, heq, h12, h21]

/-- It comes down to `eq`. -/
theorem swaps_iff_eq : Swaps less eq v1 v2 ↔ eq v1 v2 = eq v2 v1 := by
  refine ⟨Swaps.eq_eq, fun h => ⟨h, ?_, ?_⟩⟩
  · rw [lt, gt, h]
  · rw [le, ge, h]

end Templates

end Algorithms

/-! ## Doubles -/

namespace Double

def isNan : Double → Bool
  | nan => true
  | _ => false

def isInf : Double → Bool
  | inf _ => true
  | _ => false

def signbit : Double → Bool
  | nan => false
  | inf neg => neg
  | finite neg _ => neg

/-- The number that a finite `double` is. -/
def value : Double → ℚ
  | finite neg abs => if neg then -abs else abs
  | _ => 0

/-- `operator <`. -/
def less : Double → Double → Bool
  | nan, _ | _, nan => false
  | inf neg, inf neg' => neg && !neg'
  | inf neg, finite _ _ => neg
  | finite _ _, inf neg => !neg
  | finite neg abs, finite neg' abs' => (finite neg abs).value < (finite neg' abs').value

end Double

namespace Algorithms

open Tolerance

/-- `0.0000000001`. -/
def epsilon : ℚ := 1 / 10 ^ 10

/-- `eq<double>`. -/
def eqDouble (v1 v2 : Double) : Bool :=
  if v1 = v2 then true
  else
    let lnan := v1.isNan
    let rnan := v2.isNan
    if lnan && rnan then true
    else if lnan || rnan then false
    else if v1.signbit != v2.signbit then false
    else
      let linf := v1.isInf
      let rinf := v2.isInf
      if linf && rinf then true
      else if linf || rinf then false
      else |v1.value - v2.value| < max (|v1.value| * epsilon) epsilon

end Algorithms

/-! ## Order -/

namespace Double

theorem less_asymm {a b : Double} (h : a.less b = true) : b.less a = false := by
  cases a with
  | nan => cases h
  | inf neg =>
    cases b with
    | nan => cases h
    | inf neg' => cases neg <;> cases neg' <;> first | rfl | cases h
    | finite neg' y => cases neg <;> first | rfl | cases h
  | finite neg x =>
    cases b with
    | nan => cases h
    | inf neg' => cases neg' <;> first | rfl | cases h
    | finite neg' y => exact decide_eq_false (of_decide_eq_true h).not_gt

/-- Finite numbers of one value are one number, or the two zeros. -/
theorem value_inj {neg neg' : Bool} {x y : ℚ≥0}
    (h : (finite neg x).value = (finite neg' y).value) :
    (neg = neg' ∧ x = y) ∨ (neg' = !neg ∧ x = 0 ∧ y = 0) := by
  have hx := x.coe_nonneg
  have hy := y.coe_nonneg
  cases neg <;> cases neg' <;>
    simp only [value, if_true, Bool.false_eq_true, if_false] at h
  · exact Or.inl ⟨rfl, NNRat.coe_inj.mp h⟩
  · exact Or.inr ⟨rfl, NNRat.coe_eq_zero.mp (by linarith), NNRat.coe_eq_zero.mp (by linarith)⟩
  · exact Or.inr ⟨rfl, NNRat.coe_eq_zero.mp (by linarith), NNRat.coe_eq_zero.mp (by linarith)⟩
  · exact Or.inl ⟨rfl, NNRat.coe_inj.mp (neg_inj.mp h)⟩

/-- Numbers of which neither is less are equal, or the two zeros. -/
theorem eq_of_not_less {a b : Double} (ha : a ≠ nan) (hb : b ≠ nan) (h : ¬ a.less b = true)
    (h' : ¬ b.less a = true) : a = b ∨ ∃ neg, a = finite neg 0 ∧ b = finite (!neg) 0 := by
  cases a with
  | nan => exact absurd rfl ha
  | inf neg =>
    cases b with
    | nan => exact absurd rfl hb
    | inf neg' => cases neg <;> cases neg' <;> simp [less] at h h' ⊢
    | finite neg' y => cases neg <;> simp [less] at h h'
  | finite neg x =>
    cases b with
    | nan => exact absurd rfl hb
    | inf neg' => cases neg' <;> simp [less] at h h'
    | finite neg' y =>
      have heq : (finite neg x).value = (finite neg' y).value :=
        le_antisymm (not_lt.mp (mt decide_eq_true h')) (not_lt.mp (mt decide_eq_true h))
      rcases value_inj heq with ⟨rfl, rfl⟩ | ⟨rfl, rfl, rfl⟩
      · exact Or.inl rfl
      · exact Or.inr ⟨neg, rfl, rfl⟩

end Double

namespace Algorithms

open Tolerance

theorem eqDouble_self (a : Double) : eqDouble a a = true := if_pos rfl

/-- `eq` tells numbers of different signs apart, the two zeros as well. -/
theorem eqDouble_of_signs {neg neg' : Bool} (h : neg ≠ neg') (x y : ℚ≥0) :
    eqDouble (.finite neg x) (.finite neg' y) = false := by
  have hne : Double.finite neg x ≠ .finite neg' y := fun heq => h (Double.finite.inj heq).1
  rw [eqDouble, if_neg hne]
  simp [Double.isNan, Double.signbit, h]

/-- **The order laws** hold of all pairs but two different zeros. -/
theorem partition_iff {a b : Double} (ha : a ≠ .nan) (hb : b ≠ .nan) :
    Partition Double.less eqDouble a b ↔
      ¬ ∃ neg, a = .finite neg 0 ∧ b = .finite (!neg) 0 := by
  rw [partition_iff_comparable Double.less_asymm]
  constructor
  · rintro h ⟨neg, rfl, rfl⟩
    have hzero : ∀ neg, (Double.finite neg 0).value = 0 := by
      intro neg
      cases neg <;> simp [Double.value]
    have hsigns : eqDouble (.finite neg 0) (.finite (!neg) 0) = false :=
      eqDouble_of_signs (Bool.eq_not_self neg).mp 0 0
    simp [Double.less, hzero, hsigns] at h
  · intro h
    by_contra hnone
    obtain ⟨hless, heq, hgreater⟩ := by simpa only [not_or] using hnone
    rcases Double.eq_of_not_less ha hb hless hgreater with rfl | hzeros
    · exact heq (eqDouble_self a)
    · exact h hzeros

/-- Minus zero and zero. -/
theorem not_partition :
    ¬ Partition Double.less eqDouble (.finite true 0) (.finite false 0) := by
  intro h
  exact absurd h.one (by decide)

/-- One and two. -/
theorem partition_iff_one_two :
    Partition Double.less eqDouble (.finite false 1) (.finite false 2) :=
  (partition_iff (by decide) (by decide)).mpr (by rintro ⟨neg, h, -⟩; cases h)

/-! ## Exchanging the arguments -/

theorem epsilon_pos : 0 < epsilon := by norm_num [epsilon]

/-- For numbers of one sign, `eq` is nearness. -/
theorem eqDouble_of_sign (neg : Bool) (x y : ℚ≥0) :
    eqDouble (.finite neg x) (.finite neg y) = true ↔ Near epsilon (x : ℚ) y := by
  have habs : |(Double.finite neg x).value| = |(x : ℚ)| := by
    cases neg <;> simp [Double.value]
  have hsub : |(Double.finite neg x).value - (Double.finite neg y).value| = |(x : ℚ) - y| := by
    cases neg with
    | false => rfl
    | true =>
      show |-(x : ℚ) - -(y : ℚ)| = _
      rw [neg_sub_neg, abs_sub_comm]
  by_cases hxy : x = y
  · subst hxy
    rw [eqDouble_self, Near, sub_self, abs_zero, tol]
    exact iff_of_true rfl (lt_max_of_lt_right epsilon_pos)
  · have hne : Double.finite neg x ≠ .finite neg y := fun heq => hxy (Double.finite.inj heq).2
    rw [eqDouble, if_neg hne, hsub, habs]
    simp [Double.isNan, Double.isInf, Double.signbit, Near, tol]

/-- For all other pairs the order of the arguments plays no part. -/
theorem eqDouble_comm {a b : Double} (h : ¬ ∃ neg x y, a = .finite neg x ∧ b = .finite neg y) :
    eqDouble a b = eqDouble b a := by
  by_cases hfinite : ∃ neg x neg' y, a = .finite neg x ∧ b = .finite neg' y
  · obtain ⟨neg, x, neg', y, rfl, rfl⟩ := hfinite
    have hsigns : neg ≠ neg' := fun hneg => h ⟨neg, x, y, rfl, by rw [hneg]⟩
    rw [eqDouble_of_signs hsigns, eqDouble_of_signs hsigns.symm]
  · by_cases hab : a = b
    · rw [hab]
    · rw [eqDouble, eqDouble, if_neg hab, if_neg (Ne.symm hab)]
      match a, b with
      | .nan, .nan | .nan, .inf _ | .nan, .finite _ _ | .inf _, .nan | .finite _ _, .nan => rfl
      | .inf neg, .inf neg' | .inf neg, .finite neg' _ | .finite neg _, .inf neg' =>
        cases neg <;> cases neg' <;> rfl
      | .finite neg x, .finite neg' y => exact absurd ⟨neg, x, neg', y, rfl, rfl⟩ hfinite

/-- **The arguments may be exchanged** unless both are finite, of one sign, and their distance lies
between the two tolerances. -/
theorem swaps_iff (a b : Double) : Swaps Double.less eqDouble a b ↔
    ¬ ∃ neg x y, (a = .finite neg x ∧ b = .finite neg y) ∧
      min (tol epsilon (x : ℚ)) (tol epsilon (y : ℚ)) ≤ |(x : ℚ) - y| ∧
      |(x : ℚ) - y| < max (tol epsilon (x : ℚ)) (tol epsilon (y : ℚ)) := by
  rw [swaps_iff_eq]
  by_cases hfinite : ∃ neg x y, a = .finite neg x ∧ b = .finite neg y
  · obtain ⟨neg, x, y, rfl, rfl⟩ := hfinite
    rw [Bool.eq_iff_iff, eqDouble_of_sign, eqDouble_of_sign, near_comm_iff epsilon_pos.le]
    refine not_congr ⟨fun h => ⟨neg, x, y, ⟨rfl, rfl⟩, h⟩, ?_⟩
    rintro ⟨neg', x', y', ⟨hx, hy⟩, h⟩
    cases hx
    cases hy
    exact h
  · refine iff_of_true (eqDouble_comm hfinite) ?_
    rintro ⟨neg, x, y, hxy, -⟩
    exact hfinite ⟨neg, x, y, hxy⟩

/-- Ten thousand million, and one more. -/
theorem not_swaps : ¬ Swaps Double.less eqDouble (.finite false (10 ^ 10))
    (.finite false (10 ^ 10 + 1)) := by
  intro h
  exact absurd h.eq_eq (by decide +kernel)

end Algorithms

end LeonUtils
