import LeonUtils.Chrono.Parse
import Mathlib.Tactic.Linarith

/-!
# Points in time with a precision

`fmt` with a precision is instantiated for time points in six units. The time point is rounded down
to the second and printed, and what is left of it follows behind a point, cut after as many digits
as are asked for.

A unit of a second or more leaves nothing. Differences are taken in 64 bits and may wrap around on
the way; the result is right again, since what is left of a second is small.

## Main definitions

* `TimeUnit` — the units
* `fmtPrecIn` — the function, for time points in any of them
* `nanosOf` — the nanoseconds since the beginning of the second

## Main results

* `restNanos_eq` — what is left, for every time point
* `fmtPrecIn_prefix` — a smaller precision gives the beginning of what a larger one gives
-/

namespace LeonUtils

namespace Chrono

open Text

/-! ## The function -/

/-- `hours`, `minutes`, `ss`, `ms`, `us` and `ns`. -/
inductive TimeUnit
  | hours | minutes | ss | ms | us | ns
deriving DecidableEq

/-- The nanoseconds of a unit. -/
def TimeUnit.nanos : TimeUnit → ℤ
  | hours => 3600 * 10 ^ 9
  | minutes => 60 * 10 ^ 9
  | ss => 10 ^ 9
  | ms => 10 ^ 6
  | us => 10 ^ 3
  | ns => 1

/-- `std::chrono::floor<seconds>`. -/
def floorSecs (unit : TimeUnit) (tp : ℤ) : ℤ :=
  if 10 ^ 9 ≤ unit.nanos then int64 (tp * (unit.nanos / 10 ^ 9))
  else tp / (10 ^ 9 / unit.nanos)

/-- `duration_cast<ns>( tp - tp1 ).count()`: the difference is taken in the finer of the two
units. -/
def restNanos (unit : TimeUnit) (tp tp1 : ℤ) : ℤ :=
  if 10 ^ 9 ≤ unit.nanos then
    int64 (int64 (int64 (tp * (unit.nanos / 10 ^ 9)) - tp1) * 10 ^ 9)
  else int64 (int64 (tp - int64 (tp1 * (10 ^ 9 / unit.nanos))) * unit.nanos)

/-- `fmt` with a precision, for a time point in any of the units. -/
def fmtPrecIn (env : Env) (unit : TimeUnit) (tp : ℤ) (prec : ℕ) (f : Str) : Except Exn Str :=
  let prec := if prec > 9 then 9 else prec
  let tp1 := floorSecs unit tp
  let result := fmt env (10 ^ 9) tp1 f
  if prec > 0 then do
    let nss := (restNanos unit tp tp1).tdiv (10 ^ (9 - prec))
    let digits ← fmtInt nss prec 0 '0' '\''
    .ok (result ++ '.' :: digits)
  else .ok result

/-! ## What is left of the second -/

/-- The nanoseconds since the beginning of the second. -/
def nanosOf (unit : TimeUnit) (tp : ℤ) : ℕ := (tp * unit.nanos % 10 ^ 9).toNat

theorem nanosOf_lt (unit : TimeUnit) (tp : ℤ) : nanosOf unit tp < 10 ^ 9 := by
  rw [nanosOf]
  omega

theorem int64_sub_int64 (x y : ℤ) : int64 (x - int64 y) = int64 (x - y) := Int.sub_bmod_bmod

/-- The difference in a fine unit, of which a second has `k`. -/
theorem int64_rest {k : ℤ} (h0 : 0 < k) (hk : k ≤ 10 ^ 9) (tp : ℤ) :
    int64 (tp - int64 (tp / k * k)) = tp % k := by
  have hnonneg := Int.emod_nonneg tp h0.ne'
  have hlt := Int.emod_lt_of_pos tp h0
  have hdiff : tp - tp / k * k = tp % k := by
    rw [Int.emod_def, mul_comm]
  rw [int64_sub_int64, hdiff, int64_eq (by omega) (by omega)]

/-- A unit is a number of seconds, or a second is a number `k` of units. -/
theorem TimeUnit.nanos_cases (unit : TimeUnit) :
    (10 ^ 9 ≤ unit.nanos ∧ unit.nanos / 10 ^ 9 * 10 ^ 9 = unit.nanos) ∨
      (¬ 10 ^ 9 ≤ unit.nanos ∧ ∃ k, 10 ^ 9 / unit.nanos = k ∧ 0 < k ∧ k ≤ 10 ^ 9 ∧
        0 < unit.nanos ∧ k * unit.nanos = 10 ^ 9) := by
  cases unit <;> simp [TimeUnit.nanos]

/-- **What is left**, for every time point, also where something wraps around. -/
theorem restNanos_eq (unit : TimeUnit) (tp : ℤ) :
    restNanos unit tp (floorSecs unit tp) = (nanosOf unit tp : ℤ) := by
  have hrange := nanosOf_lt unit tp
  have hnanos : (nanosOf unit tp : ℤ) = tp * unit.nanos % 10 ^ 9 := by
    rw [nanosOf]
    omega
  rw [hnanos]
  rw [nanosOf] at hrange
  rcases unit.nanos_cases with ⟨hcoarse, hsecond⟩ | ⟨hfine, k, hk, h0, hle, hpos, hsecond⟩
  · have hdvd : (10 : ℤ) ^ 9 ∣ unit.nanos := Dvd.intro_left _ hsecond
    rw [restNanos, if_pos hcoarse, floorSecs, if_pos hcoarse, sub_self,
      Int.emod_eq_zero_of_dvd (Dvd.dvd.mul_left hdvd tp)]
    decide
  · have hmod : tp * unit.nanos % 10 ^ 9 = tp % k * unit.nanos := by
      rw [← hsecond, mul_comm tp, mul_comm k, Int.mul_emod_mul_of_pos _ _ hpos, mul_comm]
    rw [restNanos, if_neg hfine, floorSecs, if_neg hfine, hk, int64_rest h0 hle, ← hmod]
    exact int64_eq (by omega) (by omega)

/-! ## Digits behind the point -/

/-- The function, by the digits that it prints behind the point. -/
theorem fmtPrecIn_eq (env : Env) (unit : TimeUnit) (tp : ℤ) {prec : ℕ} (h0 : 0 < prec) (f : Str) :
    fmtPrecIn env unit tp prec f =
      .ok (fmt env (10 ^ 9) (floorSecs unit tp) f ++
        '.' :: (padded 9 (nanosOf unit tp)).take (min prec 9)) := by
  have hprec : (if prec > 9 then 9 else prec) = min prec 9 := by
    split <;> omega
  have hdiv : ((nanosOf unit tp : ℕ) : ℤ).tdiv (10 ^ (9 - min prec 9)) =
      (nanosOf unit tp / 10 ^ (9 - min prec 9) : ℕ) := by
    norm_cast
  have hsmall : nanosOf unit tp / 10 ^ (9 - min prec 9) < 10 ^ min prec 9 := by
    apply Nat.div_lt_of_lt_mul
    rw [← pow_add, Nat.sub_add_cancel (min_le_right prec 9)]
    exact nanosOf_lt unit tp
  have hdigits := fmtInt_padded (k := min prec 9) (by omega) (by omega) hsmall '\''
  rw [← take_padded (nanosOf_lt unit tp) (by omega) (min_le_right prec 9)] at hdigits
  have hpos : min prec 9 > 0 := by omega
  simp only [fmtPrecIn, hprec, restNanos_eq, hdiv, if_pos hpos]
  rw [hdigits]
  rfl

/-- For nanoseconds this is the function as it is for a `SysTime_t`. -/
theorem fmtPrecIn_ns (env : Env) (tp : ℤ) (prec : ℕ) (f : Str) :
    fmtPrecIn env .ns tp prec f = fmtPrec env tp prec f := by
  have hfloor : floorSecs .ns tp = tp / 10 ^ 9 := rfl
  have hrest : restNanos .ns tp (tp / 10 ^ 9) = int64 (tp - int64 (tp / 10 ^ 9 * 10 ^ 9)) := by
    rw [← hfloor, restNanos_eq, hfloor, int64_rest (by norm_num) le_rfl, nanosOf]
    simp only [TimeUnit.nanos, mul_one]
    omega
  simp only [fmtPrecIn, fmtPrec, hfloor, hrest]

/-- **A smaller precision gives the beginning of a larger one.** Behind the last point there are
just so many digits of the nanoseconds, and a precision above nine is nine. -/
theorem fmtPrecIn_prefix (env : Env) (unit : TimeUnit) (tp : ℤ) (f : Str) {p q : ℕ} (h0 : 0 < p)
    (hpq : p ≤ q) :
    ∃ a b, fmtPrecIn env unit tp p f = .ok a ∧ fmtPrecIn env unit tp q f = .ok b ∧ a <+: b ∧
      (p ≤ 9 → ∃ front ds, a = front ++ '.' :: ds ∧ '.' ∉ ds ∧ ds.length = p ∧
        ds = (padded 9 (nanosOf unit tp)).take p) ∧
      (9 ≤ p → fmtPrecIn env unit tp p f = fmtPrecIn env unit tp 9 f) := by
  refine ⟨_, _, fmtPrecIn_eq env unit tp h0 f, fmtPrecIn_eq env unit tp (h0.trans_le hpq) f, ?_, ?_,
    ?_⟩
  · refine (List.prefix_append_right_inj _).mpr (List.cons_prefix_cons.mpr ⟨rfl, ?_⟩)
    have hmin : min p 9 ≤ min q 9 := by omega
    exact List.take_prefix_take_left hmin
  · intro hp
    rw [min_eq_left hp]
    refine ⟨_, _, rfl, fun hdot => ?_, ?_, rfl⟩
    · cases isDigit_padded (List.mem_of_mem_take hdot)
    · rw [List.length_take, length_padded (by norm_num) (nanosOf_lt unit tp), min_eq_left hp]
  · intro hp
    rw [fmtPrecIn_eq env unit tp h0, fmtPrecIn_eq env unit tp (by norm_num), min_eq_right hp,
      min_self]

/-- A nanosecond before 1970. -/
theorem fmtPrecIn_prefix_before_1970 :
    ∃ a b, fmtPrecIn east8 .ns (-1) 3 fullFormat = .ok a ∧
      fmtPrecIn east8 .ns (-1) 6 fullFormat = .ok b ∧ a <+: b := by
  obtain ⟨a, b, ha, hb, hab, -⟩ := fmtPrecIn_prefix east8 .ns (-1) fullFormat (p := 3) (q := 6)
    (by norm_num) (by norm_num)
  exact ⟨a, b, ha, hb, hab⟩

end Chrono

end LeonUtils
