import LeonUtils.Algorithms.SafeDiv
import LeonUtils.Semiorder
import Mathlib.Order.WithBot

/-!
# Comparing with a tolerance of the caller's

The templates with an `epsilon` add it to the second number or subtract it. `le` and `ge` are the
negations of `gt` and `lt`, since that is faster than to ask `eq`. The two ways agree but for two
numbers that are apart by the tolerance exactly, and for not a number: these are neither less, nor
equal, nor greater, and so they are less or equal and greater or equal.

## Main definitions

* `ltEps`, `gtEps`, `leEps`, `geEps`, `eqEps` — the functions
* `Unsettled` — the pairs for which the two ways differ

## Main results

* `isSemiorder_ltEps` — the laws that are left of an order
* `tolerant` — how the functions fit together
-/

namespace LeonUtils

namespace Double

/-- A number, and the sign that it has if it is zero. -/
def ofValue (neg : Bool) (x : ℚ) : Double := finite (x < 0 || (x == 0 && neg)) (Rat.nnabs x)

/-- `operator +`. -/
def add : Double → Double → Double
  | nan, _ | _, nan => nan
  | inf s, inf s' => if s = s' then inf s else nan
  | inf s, finite _ _ => inf s
  | finite _ _, inf s' => inf s'
  | finite s abs, finite s' abs' =>
    ofValue (s && s') ((finite s abs).value + (finite s' abs').value)

/-- `operator -`. -/
def sub (a b : Double) : Double := a.add b.neg

/-- `std::abs`. -/
def abs : Double → Double
  | nan => nan
  | inf _ => inf false
  | finite _ abs => finite false abs

theorem value_ofValue (neg : Bool) (x : ℚ) : (ofValue neg x).value = x := by
  rw [ofValue, value, Rat.coe_nnabs]
  rcases lt_trichotomy x 0 with hlt | rfl | hgt
  · rw [decide_eq_true hlt, Bool.true_or, if_pos rfl, abs_of_neg hlt, neg_neg]
  · simp
  · rw [decide_eq_false hgt.not_gt, beq_false_of_ne hgt.ne', Bool.false_and, Bool.or_self,
      if_neg Bool.false_ne_true, abs_of_pos hgt]

theorem value_neg (s : Bool) (x : ℚ≥0) : (finite s x).neg.value = -(finite s x).value := by
  cases s with
  | false => rfl
  | true => exact (neg_neg _).symm

theorem sub_finite (s s' : Bool) (x x' : ℚ≥0) : (finite s x).sub (finite s' x') =
    ofValue (s && !s') ((finite s x).value + (finite s' x').neg.value) := rfl

theorem add_finite (s s' : Bool) (x x' : ℚ≥0) : (finite s x).add (finite s' x') =
    ofValue (s && s') ((finite s x).value + (finite s' x').value) := rfl

theorem less_ofValue (s neg : Bool) (x : ℚ≥0) (y : ℚ) :
    (finite s x).less (ofValue neg y) = decide ((finite s x).value < y) := by
  show decide (_ < (ofValue neg y).value) = _
  rw [value_ofValue]

theorem ofValue_less (s neg : Bool) (x : ℚ≥0) (y : ℚ) :
    (ofValue neg y).less (finite s x) = decide (y < (finite s x).value) := by
  show decide ((ofValue neg y).value < _) = _
  rw [value_ofValue]

theorem abs_ofValue_less (neg : Bool) (y : ℚ) (e : ℚ≥0) :
    (ofValue neg y).abs.less (finite false e) = decide (|y| < e) := by
  show decide (((Rat.nnabs y : ℚ≥0) : ℚ) < e) = _
  rw [Rat.coe_nnabs]

/-- The place of a number among the others, the infinities included. -/
def rank : Double → WithBot (WithTop ℚ)
  | nan => ⊥
  | inf neg => if neg then ⊥ else ⊤
  | finite neg abs => (((finite neg abs).value : WithTop ℚ) : WithBot (WithTop ℚ))

theorem less_iff {a b : Double} (ha : a ≠ nan) (hb : b ≠ nan) :
    a.less b = true ↔ a.rank < b.rank := by
  cases a with
  | nan => exact absurd rfl ha
  | inf neg =>
    cases b with
    | nan => exact absurd rfl hb
    | inf neg' => cases neg <;> cases neg' <;> simp [less, rank]
    | finite neg' y => cases neg <;> simp [less, rank]
  | finite neg x =>
    cases b with
    | nan => exact absurd rfl hb
    | inf neg' =>
      cases neg' with
      | true => simp [less, rank]
      | false => exact iff_of_true rfl (WithBot.coe_lt_coe.mpr (WithTop.coe_lt_top _))
    | finite neg' y => simp [less, rank]

/-- What subtracting does to the place. -/
def lower (e : ℚ≥0) : WithBot (WithTop ℚ) → WithBot (WithTop ℚ) :=
  WithBot.map (WithTop.map (· - (e : ℚ)))

theorem rank_sub (e : ℚ≥0) {a : Double} (ha : a ≠ nan) :
    (a.sub (finite false e)).rank = lower e a.rank ∧ a.sub (finite false e) ≠ nan := by
  cases a with
  | nan => exact absurd rfl ha
  | inf neg => cases neg <;> exact ⟨rfl, Double.noConfusion⟩
  | finite neg x =>
    refine ⟨?_, Double.noConfusion⟩
    have hvalue : ((finite neg x).sub (finite false e)).value = (finite neg x).value - e := by
      rw [sub_finite, value_ofValue, value_neg, ← sub_eq_add_neg]
      rfl
    exact congrArg (fun y : ℚ => ((y : WithTop ℚ) : WithBot (WithTop ℚ))) hvalue

end Double

namespace Algorithms

/-- `eq` with a tolerance. -/
def eqEps (v1 v2 epsilon : Double) : Bool :=
  if v1 = v2 then true
  else
    let lnan := v1.isNan
    let rnan := v2.isNan
    if lnan && rnan then true
    else if lnan || rnan then false
    else (v1.sub v2).abs.less epsilon

def ltEps (v1 v2 epsilon : Double) : Bool := v1.less (v2.sub epsilon)

def gtEps (v1 v2 epsilon : Double) : Bool := (v2.add epsilon).less v1

def leEps (v1 v2 epsilon : Double) : Bool := !gtEps v1 v2 epsilon

def geEps (v1 v2 epsilon : Double) : Bool := !ltEps v1 v2 epsilon

/-- Exactly one of three. -/
inductive OneOf : Bool → Bool → Bool → Prop
  | lt : OneOf true false false
  | eq : OneOf false true false
  | gt : OneOf false false true

/-- Apart by the tolerance exactly, or one of them not a number. -/
def Unsettled (e : ℚ≥0) : Double → Double → Prop
  | .nan, .nan | .inf _, .inf _ | .inf _, .finite _ _ | .finite _ _, .inf _ => False
  | .nan, _ | _, .nan => True
  | .finite s x, .finite s' x' =>
    Double.finite s x ≠ .finite s' x' ∧
      |(Double.finite s x).value - (Double.finite s' x').value| = e

section Tolerance

variable (e : ℚ≥0)

theorem ltEps_iff {v1 v2 : Double} (h1 : v1 ≠ .nan) (h2 : v2 ≠ .nan) :
    ltEps v1 v2 (.finite false e) = true ↔ v1.rank < Double.lower e v2.rank := by
  obtain ⟨hrank, hne⟩ := Double.rank_sub e h2
  rw [ltEps, Double.less_iff h1 hne, hrank]

/-- **What is left of an order.** -/
theorem isSemiorder_ltEps :
    IsSemiorder fun a b : {v : Double // v ≠ .nan} =>
      ltEps a.1 b.1 (.finite false e) = true := by
  have hmono : Monotone (Double.lower e) :=
    Monotone.withBot_map (Monotone.withTop_map fun x y h => sub_le_sub_right h (e : ℚ))
  have hle : ∀ b, Double.lower e b ≤ b := by
    intro b
    rcases b with _ | _ | x
    · exact le_rfl
    · exact le_rfl
    · exact WithBot.coe_le_coe.mpr (WithTop.coe_le_coe.mpr (sub_le_self x e.coe_nonneg))
  have hrank : (fun a b : {v : Double // v ≠ .nan} => ltEps a.1 b.1 (.finite false e) = true) =
      fun a b => a.1.rank < Double.lower e b.1.rank := by
    funext a b
    exact propext (ltEps_iff e a.2 b.2)
  rw [hrank]
  exact IsSemiorder.of_lower hmono hle fun a : {v : Double // v ≠ .nan} => a.1.rank

/-! ## How they fit together -/

/-- `gt` is `lt` with its arguments exchanged. -/
theorem gtEps_eq (v1 v2 : Double) :
    gtEps v1 v2 (.finite false e) = ltEps v2 v1 (.finite false e) := by
  match v1, v2 with
  | .nan, .nan | .nan, .inf _ | .nan, .finite _ _ | .finite _ _, .nan | .inf _, .finite _ _
  | .finite _ _, .inf _ => rfl
  | .inf neg, .nan => cases neg <;> rfl
  | .inf neg, .inf neg' => cases neg <;> cases neg' <;> rfl
  | .finite neg x, .finite neg' x' =>
    rw [gtEps, ltEps, Double.sub_finite, Double.add_finite, Double.less_ofValue,
      Double.ofValue_less, Double.value_neg, ← sub_eq_add_neg]
    exact decide_eq_decide.mpr lt_sub_iff_add_lt.symm

theorem ltEps_finite (s s' : Bool) (x x' : ℚ≥0) :
    ltEps (.finite s x) (.finite s' x') (.finite false e) = true ↔
      (Double.finite s x).value < (Double.finite s' x').value - e := by
  rw [ltEps, Double.sub_finite, Double.less_ofValue, Double.value_neg, decide_eq_true_iff,
    ← sub_eq_add_neg]
  rfl

theorem eqEps_finite (s s' : Bool) (x x' : ℚ≥0) :
    eqEps (.finite s x) (.finite s' x') (.finite false e) = true ↔
      Double.finite s x = .finite s' x' ∨
        |(Double.finite s x).value - (Double.finite s' x').value| < e := by
  rw [eqEps]
  split
  case isTrue h => exact iff_of_true rfl (Or.inl h)
  case isFalse h =>
    have habs := Double.abs_ofValue_less (s && !s')
      ((Double.finite s x).value + (Double.finite s' x').neg.value) e
    rw [← Double.sub_finite, Double.value_neg, ← sub_eq_add_neg] at habs
    rw [or_iff_right h, ← decide_eq_true_iff (p := _ < _), ← habs]
    exact Iff.rfl

theorem eqEps_comm (v1 v2 : Double) :
    eqEps v1 v2 (.finite false e) = eqEps v2 v1 (.finite false e) := by
  match v1, v2 with
  | .nan, .nan | .nan, .inf _ | .nan, .finite _ _ | .finite _ _, .nan | .inf _, .nan
  | .inf _, .finite _ _ | .finite _ _, .inf _ => rfl
  | .inf neg, .inf neg' => cases neg <;> cases neg' <;> rfl
  | .finite neg x, .finite neg' x' =>
    rw [Bool.eq_iff_iff, eqEps_finite, eqEps_finite, eq_comm, abs_sub_comm]

/-- Nothing holds of a pair that is not settled. -/
theorem of_unsettled {v1 v2 : Double} (h : Unsettled e v1 v2) :
    ltEps v1 v2 (.finite false e) = false ∧ eqEps v1 v2 (.finite false e) = false ∧
      ltEps v2 v1 (.finite false e) = false := by
  match v1, v2 with
  | .nan, .nan | .inf _, .inf _ | .inf _, .finite _ _ | .finite _ _, .inf _ => exact h.elim
  | .nan, .inf neg | .inf neg, .nan => cases neg <;> exact ⟨rfl, rfl, rfl⟩
  | .nan, .finite _ _ | .finite _ _, .nan => exact ⟨rfl, rfl, rfl⟩
  | .finite neg x, .finite neg' x' =>
    obtain ⟨hne, hdist⟩ := h
    obtain ⟨hlow, hhigh⟩ := abs_le.mp hdist.le
    simp only [← Bool.not_eq_true, ltEps_finite, eqEps_finite, hne, hdist, false_or, not_lt]
    exact ⟨by linarith, le_rfl, by linarith⟩

/-- One thing holds of a pair that is settled. -/
theorem of_settled {v1 v2 : Double} (h : ¬ Unsettled e v1 v2) :
    OneOf (ltEps v1 v2 (.finite false e)) (eqEps v1 v2 (.finite false e))
      (ltEps v2 v1 (.finite false e)) := by
  match v1, v2 with
  | .nan, .nan => exact .eq
  | .inf neg, .inf neg' =>
    cases neg <;> cases neg' <;> first | exact .eq | exact .lt | exact .gt
  | .inf neg, .finite _ _ => cases neg <;> first | exact .lt | exact .gt
  | .finite _ _, .inf neg => cases neg <;> first | exact .lt | exact .gt
  | .nan, .inf _ | .inf _, .nan | .nan, .finite _ _ | .finite _ _, .nan => exact absurd trivial h
  | .finite neg x, .finite neg' x' =>
    have hlt := ltEps_finite e neg neg' x x'
    have heq := eqEps_finite e neg neg' x x'
    have hgt := ltEps_finite e neg' neg x' x
    have hnonneg := e.coe_nonneg
    by_cases hnear : Double.finite neg x = .finite neg' x' ∨
      |(Double.finite neg x).value - (Double.finite neg' x').value| < e
    · have hle : |(Double.finite neg x).value - (Double.finite neg' x').value| ≤ e := by
        rcases hnear with hsame | hless
        · rwa [hsame, sub_self, abs_zero]
        · exact hless.le
      obtain ⟨hlow, hhigh⟩ := abs_le.mp hle
      rw [heq.mpr hnear, Bool.eq_false_iff.mpr (mt hlt.mp (by linarith)),
        Bool.eq_false_iff.mpr (mt hgt.mp (by linarith))]
      exact .eq
    · obtain ⟨hne, hfar⟩ := not_or.mp hnear
      have hapart := lt_of_le_of_ne (not_lt.mp hfar) fun hdist => h ⟨hne, hdist.symm⟩
      rw [Bool.eq_false_iff.mpr (mt heq.mp hnear)]
      rcases lt_abs.mp hapart with habove | hbelow
      · rw [hgt.mpr (by linarith), Bool.eq_false_iff.mpr (mt hlt.mp (by linarith))]
        exact .gt
      · rw [hlt.mpr (by linarith), Bool.eq_false_iff.mpr (mt hgt.mp (by linarith))]
        exact .lt

/-- **How the functions fit together**, for every tolerance that is finite and not negative, and all
numbers, rounding left aside.
The order has the laws of a comparison with a margin, `gt` is its reversal and `eq` does not look at
the order of its arguments. Exactly one of `lt`, `eq` and `gt` holds, and the fast `le` and `ge` are
as their names say, but for pairs that are not settled: of these nothing holds but `le` and `ge`. -/
theorem tolerant :
    (IsSemiorder fun a b : {v : Double // v ≠ .nan} =>
      ltEps a.1 b.1 (.finite false e) = true) ∧
    ∀ v1 v2 : Double,
      let lt := ltEps v1 v2 (.finite false e)
      let eq := eqEps v1 v2 (.finite false e)
      let gt := gtEps v1 v2 (.finite false e)
      let le := leEps v1 v2 (.finite false e)
      let ge := geEps v1 v2 (.finite false e)
      gt = ltEps v2 v1 (.finite false e) ∧ eq = eqEps v2 v1 (.finite false e) ∧
        (Unsettled e v1 v2 → [lt, eq, gt, le, ge] = [false, false, false, true, true]) ∧
        (¬ Unsettled e v1 v2 →
          [lt, eq, gt].count true = 1 ∧ le = (lt || eq) ∧ ge = (gt || eq)) := by
  refine ⟨isSemiorder_ltEps e, fun v1 v2 => ⟨gtEps_eq e v1 v2, eqEps_comm e v1 v2, ?_, ?_⟩⟩
  · intro h
    obtain ⟨hlt, heq, hgt⟩ := of_unsettled e h
    rw [leEps, geEps, gtEps_eq, hlt, heq, hgt]
    rfl
  · intro h
    have hone := of_settled e h
    rw [leEps, geEps, gtEps_eq]
    generalize ltEps v1 v2 (.finite false e) = lt, eqEps v1 v2 (.finite false e) = eq,
      ltEps v2 v1 (.finite false e) = gt at hone ⊢
    cases hone <;> decide

end Tolerance

end Algorithms

end LeonUtils
