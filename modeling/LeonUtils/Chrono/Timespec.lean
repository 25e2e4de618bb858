import Mathlib.Algebra.Order.Group.Int
import Mathlib.Tactic.NormNum

/-!
# Arithmetic on `timespec`

A `timespec` is a number of seconds and a number of nanoseconds, both signed and of 64 bits. The
operators take any nanoseconds, in range or not; what `operator +` returns is in range.

Signed overflow is undefined in C++. Every step of the arithmetic is written out here and goes
through `int64?`, so that an expression has no value as soon as one of its steps overflows.
Quotients and remainders of the language are truncated towards zero: they are `Int.tdiv` and
`Int.tmod`.

## Main definitions

* `Timespec` and its six comparisons
* `Timespec.sub`, `Timespec.add`, `Timespec.subNs` — the operators `-` and `+`
* `Timespec.total` — the nanoseconds in all

## Main results

* `Timespec.add_eq` — the sum is in range and exact, and nothing overflows
* `Timespec.sub_eq` — the difference is exact
* `Timespec.operators` — the operators and the comparisons fit together
-/

namespace LeonUtils

/-! ## Numbers of 64 bits -/

/-- A value of type `int64_t`. -/
def Int64Range (x : ℤ) : Prop := -2 ^ 63 ≤ x ∧ x < 2 ^ 63

instance (x : ℤ) : Decidable (Int64Range x) := inferInstanceAs (Decidable (_ ∧ _))

/-- The result of a step of signed arithmetic, if it does not overflow. -/
def int64? (x : ℤ) : Option ℤ := if Int64Range x then some x else none

theorem int64?_eq {x : ℤ} (hlow : -2 ^ 63 ≤ x) (hhigh : x < 2 ^ 63) : int64? x = some x :=
  if_pos ⟨hlow, hhigh⟩

/-- `NS_IN_1_SEC`. -/
def nsIn1Sec : ℤ := 1000 * 1000 * 1000

theorem nsIn1Sec_eq : nsIn1Sec = 10 ^ 9 := rfl

/-- A quotient towards zero, and what is left. -/
theorem tdiv_tmod {m : ℤ} (hm : 0 < m) (x : ℤ) :
    m * x.tdiv m + x.tmod m = x ∧ -m < x.tmod m ∧ x.tmod m < m ∧
      (0 ≤ x → 0 ≤ x.tmod m) ∧ (x ≤ 0 → x.tmod m ≤ 0) := by
  refine ⟨Int.mul_tdiv_add_tmod x m, Int.lt_tmod_of_pos x hm, Int.tmod_lt_of_pos x hm,
    fun h => Int.tmod_nonneg m h, fun h => ?_⟩
  have hneg := Int.tmod_nonneg m (Int.neg_nonneg_of_nonpos h)
  rw [Int.neg_tmod] at hneg
  exact Int.nonpos_of_neg_nonneg hneg

/-- Whole seconds, towards zero, and what is left. -/
theorem tdiv_nsIn1Sec (x : ℤ) :
    nsIn1Sec * x.tdiv nsIn1Sec + x.tmod nsIn1Sec = x ∧ -10 ^ 9 < x.tmod nsIn1Sec ∧
      x.tmod nsIn1Sec < 10 ^ 9 ∧ (0 ≤ x → 0 ≤ x.tmod nsIn1Sec) ∧
      (x ≤ 0 → x.tmod nsIn1Sec ≤ 0) :=
  tdiv_tmod (by decide) x

/-! ## The operators -/

/-- `timespec`. -/
structure Timespec where
  tvSec : ℤ
  tvNsec : ℤ
deriving DecidableEq

namespace Timespec

/-- `operator >`. -/
def gt (ts₁ ts₂ : Timespec) : Bool :=
  ts₁.tvSec > ts₂.tvSec || (ts₁.tvSec == ts₂.tvSec && ts₁.tvNsec > ts₂.tvNsec)

/-- `operator <`. -/
def lt (ts₁ ts₂ : Timespec) : Bool :=
  ts₁.tvSec < ts₂.tvSec || (ts₁.tvSec == ts₂.tvSec && ts₁.tvNsec < ts₂.tvNsec)

/-- `operator ==`. -/
def eq (ts₁ ts₂ : Timespec) : Bool := ts₁.tvSec == ts₂.tvSec && ts₁.tvNsec == ts₂.tvNsec

/-- `operator !=`. -/
def ne (ts₁ ts₂ : Timespec) : Bool := !ts₁.eq ts₂

/-- `operator <=`. -/
def le (ts₁ ts₂ : Timespec) : Bool := ts₁.eq ts₂ || ts₁.lt ts₂

/-- `operator >=`. -/
def ge (ts₁ ts₂ : Timespec) : Bool := ts₁.eq ts₂ || ts₁.gt ts₂

/-- `operator -`, of two `timespec`s. -/
def sub (ts₁ ts₂ : Timespec) : Option ℤ := do
  let secs ← int64? (ts₁.tvSec - ts₂.tvSec)
  let ns ← int64? (secs * nsIn1Sec)
  let ns ← int64? (ns + ts₁.tvNsec)
  int64? (ns - ts₂.tvNsec)

/-- `operator +`. No quotient by a positive number overflows. -/
def add (ts : Timespec) (ns : ℤ) : Option Timespec := do
  let tvSec ← int64? (ts.tvSec + ts.tvNsec.tdiv nsIn1Sec)
  let tvSec ← int64? (tvSec + ns.tdiv nsIn1Sec)
  let tvNsec := ts.tvNsec.tmod nsIn1Sec
  let sum ← int64? (ns.tmod nsIn1Sec + tvNsec)
  let tvSec ← int64? (tvSec + sum.tdiv nsIn1Sec)
  let sum := sum.tmod nsIn1Sec
  let up ← int64? (sum + nsIn1Sec)
  let tvNsec := up.tmod nsIn1Sec
  let borrow ← int64? (sum - tvNsec)
  let tvSec ← int64? (tvSec + borrow.tdiv nsIn1Sec)
  some ⟨tvSec, tvNsec⟩

/-- `operator -`, of a `timespec` and a number of nanoseconds. -/
def subNs (ts : Timespec) (ns : ℤ) : Option Timespec := do
  let ns ← int64? (-ns)
  ts.add ns

/-! ## What they compute -/

/-- The nanoseconds in all. -/
def total (ts : Timespec) : ℤ := ts.tvSec * 10 ^ 9 + ts.tvNsec

/-- The nanoseconds are less than a second. -/
structure Normal (ts : Timespec) : Prop where
  nonneg : 0 ≤ ts.tvNsec
  lt : ts.tvNsec < 10 ^ 9

variable {ts a b : Timespec} {n : ℤ}

/-- A `timespec` in range is determined by its total. -/
theorem Normal.eq_of_total (ha : a.Normal) (hb : b.Normal) (h : a.total = b.total) : a = b := by
  obtain ⟨ha0, ha⟩ := ha
  obtain ⟨hb0, hb⟩ := hb
  simp only [total] at h
  cases a
  cases b
  simp only [mk.injEq] at *
  omega

/-- The sum is in range and exact, where the seconds on the way fit into 64 bits. -/
theorem add_of_range {sum : ℤ} (hsum : sum = n.tmod nsIn1Sec + ts.tvNsec.tmod nsIn1Sec)
    (h₁ : Int64Range (ts.tvSec + ts.tvNsec.tdiv nsIn1Sec))
    (h₂ : Int64Range (ts.tvSec + ts.tvNsec.tdiv nsIn1Sec + n.tdiv nsIn1Sec))
    (h₃ : Int64Range (ts.tvSec + ts.tvNsec.tdiv nsIn1Sec + n.tdiv nsIn1Sec + sum.tdiv nsIn1Sec))
    (hlow : -2 ^ 63 * 10 ^ 9 ≤ ts.total + n) (hhigh : ts.total + n < 2 ^ 63 * 10 ^ 9) :
    ∃ r, ts.add n = some r ∧ r.Normal ∧ r.total = ts.total + n := by
  obtain ⟨hnsec, hnsec₁, hnsec₂, -, -⟩ := tdiv_nsIn1Sec ts.tvNsec
  obtain ⟨hn, hn₁, hn₂, -, -⟩ := tdiv_nsIn1Sec n
  obtain ⟨hsums, hsum₁, hsum₂, -, -⟩ := tdiv_nsIn1Sec sum
  -- the remainder of the sum is made positive, and a second borrowed for that
  obtain ⟨hup, -, hup₂, hup₀, -⟩ := tdiv_nsIn1Sec (sum.tmod nsIn1Sec + nsIn1Sec)
  have hborrow := tdiv_nsIn1Sec
    (sum.tmod nsIn1Sec - (sum.tmod nsIn1Sec + nsIn1Sec).tmod nsIn1Sec)
  obtain ⟨hborrow, hborrow₁, hborrow₂, -, -⟩ := hborrow
  simp only [nsIn1Sec_eq, total, Int64Range] at *
  have hup₀ := hup₀ (by omega)
  simp only [add, nsIn1Sec_eq, ← hsum, Option.bind_eq_bind]
  rw [int64?_eq h₁.1 h₁.2, Option.bind_some, int64?_eq h₂.1 h₂.2, Option.bind_some,
    int64?_eq (by omega) (by omega), Option.bind_some, int64?_eq h₃.1 h₃.2, Option.bind_some,
    int64?_eq (by omega) (by omega), Option.bind_some, int64?_eq (by omega) (by omega),
    Option.bind_some, int64?_eq (by omega) (by omega), Option.bind_some]
  refine ⟨_, rfl, ⟨hup₀, hup₂⟩, ?_⟩
  simp only
  omega

/-- **The sum**: in range and exact, and no step overflows. -/
theorem add_eq (hsec : |ts.tvSec| ≤ 2 ^ 62) (hnsec : Int64Range ts.tvNsec) (hn : Int64Range n) :
    ∃ r, ts.add n = some r ∧ r.Normal ∧ r.total = ts.total + n := by
  obtain ⟨hsec₁, hsec₂⟩ := abs_le.mp hsec
  obtain ⟨hq, hq₁, hq₂, -, -⟩ := tdiv_nsIn1Sec ts.tvNsec
  obtain ⟨hk, hk₁, hk₂, -, -⟩ := tdiv_nsIn1Sec n
  obtain ⟨hs, hs₁, hs₂, -, -⟩ := tdiv_nsIn1Sec (n.tmod nsIn1Sec + ts.tvNsec.tmod nsIn1Sec)
  simp only [nsIn1Sec_eq, Int64Range] at *
  refine add_of_range rfl ?_ ?_ ?_ ?_ ?_ <;> simp only [nsIn1Sec_eq, total, Int64Range] <;> omega

/-- **The difference** of two times less than `2 ^ 62` nanoseconds apart. -/
theorem sub_eq (ha : a.Normal) (hb : b.Normal) (hdist : |a.total - b.total| < 2 ^ 62) :
    a.sub b = some (a.total - b.total) := by
  obtain ⟨ha0, ha⟩ := ha
  obtain ⟨hb0, hb⟩ := hb
  obtain ⟨hlow, hhigh⟩ := abs_lt.mp hdist
  simp only [total] at *
  simp only [sub, nsIn1Sec_eq, Option.bind_eq_bind]
  rw [int64?_eq (by omega) (by omega), Option.bind_some, int64?_eq (by omega) (by omega),
    Option.bind_some, int64?_eq (by omega) (by omega), Option.bind_some,
    int64?_eq (by omega) (by omega)]
  congr 1
  omega

/-- A difference added to the time it was counted from. -/
theorem add_sub (ha : a.Normal) (hb : b.Normal) (hasec : Int64Range a.tvSec)
    (hbsec : Int64Range b.tvSec) :
    b.add (a.total - b.total) = some a := by
  generalize hn : a.total - b.total = n
  have htotal : b.total + n = a.total := by omega
  obtain ⟨hq, hq₁, hq₂, hq₀, -⟩ := tdiv_nsIn1Sec b.tvNsec
  obtain ⟨hk, hk₁, hk₂, hk₀, hk₀'⟩ := tdiv_nsIn1Sec n
  obtain ⟨hs, hs₁, hs₂, hs₀, hs₀'⟩ := tdiv_nsIn1Sec (n.tmod nsIn1Sec + b.tvNsec.tmod nsIn1Sec)
  obtain ⟨ha0, ha1⟩ := ha
  obtain ⟨hb0, hb1⟩ := hb
  have hadd : ∃ r, b.add n = some r ∧ r.Normal ∧ r.total = b.total + n := by
    simp only [nsIn1Sec_eq, total, Int64Range] at *
    -- the seconds on the way lie between those of the two times
    refine add_of_range rfl ?_ ?_ ?_ ?_ ?_ <;> simp only [nsIn1Sec_eq, total, Int64Range] <;>
      rcases le_total 0 n with hsign | hsign <;> omega
  obtain ⟨r, hr, hnormal, hrtotal⟩ := hadd
  rw [hr, hnormal.eq_of_total ⟨ha0, ha1⟩ (hrtotal.trans htotal)]

/-! ## Comparisons -/

theorem gt_eq (ha : a.Normal) (hb : b.Normal) : a.gt b = decide (0 < a.total - b.total) := by
  obtain ⟨ha0, ha⟩ := ha
  obtain ⟨hb0, hb⟩ := hb
  rw [Bool.eq_iff_iff, decide_eq_true_iff]
  simp only [gt, total, Bool.or_eq_true, Bool.and_eq_true, decide_eq_true_eq, beq_iff_eq]
  omega

theorem lt_eq (ha : a.Normal) (hb : b.Normal) : a.lt b = decide (a.total - b.total < 0) := by
  obtain ⟨ha0, ha⟩ := ha
  obtain ⟨hb0, hb⟩ := hb
  rw [Bool.eq_iff_iff, decide_eq_true_iff]
  simp only [lt, total, Bool.or_eq_true, Bool.and_eq_true, decide_eq_true_eq, beq_iff_eq]
  omega

theorem eq_eq (ha : a.Normal) (hb : b.Normal) : a.eq b = decide (a.total - b.total = 0) := by
  obtain ⟨ha0, ha⟩ := ha
  obtain ⟨hb0, hb⟩ := hb
  rw [Bool.eq_iff_iff, decide_eq_true_iff]
  simp only [eq, total, Bool.and_eq_true, beq_iff_eq]
  omega

/-- **The comparisons** agree with the sign of the difference. -/
theorem compare_eq (ha : a.Normal) (hb : b.Normal) {d : ℤ} (hd : d = a.total - b.total) :
    a.gt b = decide (0 < d) ∧ a.lt b = decide (d < 0) ∧ a.eq b = decide (d = 0) ∧
      a.ne b = decide (d ≠ 0) ∧ a.le b = decide (d ≤ 0) ∧ a.ge b = decide (0 ≤ d) := by
  have hgt := gt_eq ha hb
  have hlt := lt_eq ha hb
  have heq := eq_eq ha hb
  rw [← hd] at hgt hlt heq
  refine ⟨hgt, hlt, heq, ?_, ?_, ?_⟩
  · rw [ne, heq, decide_not]
  · rw [le, heq, hlt, ← Bool.decide_or]
    congr 1
    rw [le_iff_eq_or_lt]
  · rw [ge, heq, hgt, ← Bool.decide_or]
    congr 1
    rw [le_iff_eq_or_lt, eq_comm (a := d)]

/-- The same nanoseconds added to two times. -/
theorem add_lt_add (ha : a.Normal) (hb : b.Normal) (hasec : |a.tvSec| ≤ 2 ^ 62)
    (hbsec : |b.tvSec| ≤ 2 ^ 62) (hn : Int64Range n) :
    ∃ a' b', a.add n = some a' ∧ b.add n = some b' ∧ a.lt b = a'.lt b' := by
  have hrange : ∀ {c : Timespec}, c.Normal → Int64Range c.tvNsec := fun hc =>
    ⟨by have := hc.nonneg; omega, by have := hc.lt; omega⟩
  obtain ⟨a', ha', hna', hta'⟩ := add_eq hasec (hrange ha) hn
  obtain ⟨b', hb', hnb', htb'⟩ := add_eq hbsec (hrange hb) hn
  refine ⟨a', b', ha', hb', ?_⟩
  rw [lt_eq ha hb, lt_eq hna' hnb', hta', htb', add_sub_add_right_eq_sub]

/-- **The operators on `timespec`**: a sum is in range and exact and no step of it overflows; two
times not too far apart are brought together by their difference, and compared by its sign; and a
comparison does not change when the same is added on both sides. -/
theorem operators :
    (∀ (ts : Timespec) (n : ℤ), |ts.tvSec| ≤ 2 ^ 62 → Int64Range ts.tvNsec → Int64Range n →
      ∃ r, ts.add n = some r ∧ r.Normal ∧ r.total = ts.total + n) ∧
    (∀ a b : Timespec, a.Normal → b.Normal → Int64Range a.tvSec → Int64Range b.tvSec →
      |a.total - b.total| < 2 ^ 62 →
      ∃ d, a.sub b = some d ∧ b.add d = some a ∧
        a.gt b = decide (0 < d) ∧ a.lt b = decide (d < 0) ∧ a.eq b = decide (d = 0) ∧
        a.ne b = decide (d ≠ 0) ∧ a.le b = decide (d ≤ 0) ∧ a.ge b = decide (0 ≤ d)) ∧
    (∀ (a b : Timespec) (n : ℤ), a.Normal → b.Normal → |a.tvSec| ≤ 2 ^ 62 → |b.tvSec| ≤ 2 ^ 62 →
      Int64Range n → ∃ a' b', a.add n = some a' ∧ b.add n = some b' ∧ a.lt b = a'.lt b') := by
  refine ⟨fun ts n hsec hnsec hn => add_eq hsec hnsec hn, fun a b ha hb hasec hbsec hdist => ?_,
    fun a b n ha hb hasec hbsec hn => add_lt_add ha hb hasec hbsec hn⟩
  exact ⟨a.total - b.total, sub_eq ha hb hdist, add_sub ha hb hasec hbsec, compare_eq ha hb rfl⟩

/-- The extreme values of both fields. -/
theorem operators_extreme :
    (∃ r, (⟨2 ^ 62, 2 ^ 63 - 1⟩ : Timespec).add (2 ^ 63 - 1) = some r ∧ r.Normal ∧
      r.total = (⟨2 ^ 62, 2 ^ 63 - 1⟩ : Timespec).total + (2 ^ 63 - 1)) ∧
    ∃ r, (⟨-2 ^ 62, -2 ^ 63⟩ : Timespec).add (-2 ^ 63) = some r ∧ r.Normal ∧
      r.total = (⟨-2 ^ 62, -2 ^ 63⟩ : Timespec).total + -2 ^ 63 :=
  ⟨operators.1 _ _ (by decide) (by decide) (by decide),
    operators.1 _ _ (by decide) (by decide) (by decide)⟩

end Timespec

end LeonUtils
