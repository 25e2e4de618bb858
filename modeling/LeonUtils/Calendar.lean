import Mathlib.Algebra.Order.Group.Int
import Mathlib.Tactic.IntervalCases
import Mathlib.Tactic.NormNum

/-!
# The Gregorian calendar

Days are counted from 1970-01-01, forwards and backwards without end, and named by year, month and
day. Years are counted from March here, so that a leap day is the last day of its year; the month
lengths from March on repeat every five months, which is what `(153 * month + 2) / 5` says.

## Main definitions

* `daysFromCivil` — the number of a day
* `civilFromDays` — the name of a day
* `Date.Real` — the day exists

## Main results

* `yearOf_spec` — the year a day lies in
* `civilFromDays_range` — months are from 1 to 12, days from 1 to 31
* `daysFromCivil_civilFromDays` — the name of a day leads back to its number
* `civilFromDays_real`, `civilFromDays_daysFromCivil` — the names are those of the days that exist
-/

namespace Calendar

/-- A day by its name. -/
@[ext] structure Date where
  year : ℤ
  month : ℤ
  day : ℤ

/-- Days before the first of March of a year, counted from the first of March of year 0. -/
def daysBeforeYear (y : ℤ) : ℤ := 365 * y + y / 4 - y / 100 + y / 400

/-- Days before a month, from March on. -/
def daysBeforeMonth (mp : ℤ) : ℤ := (153 * mp + 2) / 5

/-- The number of a day. The day of the month may be any number. -/
def daysFromCivil (x : Date) : ℤ :=
  let y := if x.month ≤ 2 then x.year - 1 else x.year
  daysBeforeYear y + daysBeforeMonth ((x.month + 9) % 12) + (x.day - 1) - 719468

/-- The year from March to February that a day lies in, counted from the first of March of
year 0: what the mean length of a year gives, or the one after or before that. -/
def yearOf (z : ℤ) : ℤ :=
  let y := 400 * z / 146097
  if z < daysBeforeYear y then y - 1 else if daysBeforeYear (y + 1) ≤ z then y + 1 else y

/-- The name of a day. -/
def civilFromDays (days : ℤ) : Date :=
  let z := days + 719468
  let y := yearOf z
  let doy := z - daysBeforeYear y
  let mp := (5 * doy + 2) / 153
  let d := doy - daysBeforeMonth mp + 1
  let m := if mp < 10 then mp + 3 else mp - 9
  ⟨if m ≤ 2 then y + 1 else y, m, d⟩

/-- **The year a day lies in**. -/
theorem yearOf_spec (z : ℤ) :
    daysBeforeYear (yearOf z) ≤ z ∧ z < daysBeforeYear (yearOf z + 1) := by
  simp only [yearOf]
  split
  · rename_i hlow
    simp only [daysBeforeYear] at hlow ⊢
    omega
  · rename_i hlow
    split
    · rename_i hhigh
      simp only [daysBeforeYear] at hlow hhigh ⊢
      omega
    · rename_i hhigh
      exact ⟨not_lt.mp hlow, not_le.mp hhigh⟩

theorem daysBeforeYear_le {y y' : ℤ} (h : y ≤ y') : daysBeforeYear y ≤ daysBeforeYear y' := by
  simp only [daysBeforeYear]
  omega

/-- A year has no more than 366 days. -/
theorem day_of_year (z : ℤ) :
    0 ≤ z - daysBeforeYear (yearOf z) ∧ z - daysBeforeYear (yearOf z) ≤ 365 := by
  obtain ⟨hlow, hhigh⟩ := yearOf_spec z
  simp only [daysBeforeYear] at hlow hhigh ⊢
  omega

/-- The name of a day, with the numbers it is made of. -/
theorem civilFromDays_eq (days : ℤ) : ∃ y doy mp,
    y = yearOf (days + 719468) ∧ doy = days + 719468 - daysBeforeYear y ∧ 0 ≤ doy ∧ doy ≤ 365 ∧
    mp = (5 * doy + 2) / 153 ∧
    civilFromDays days = ⟨if mp < 10 then y else y + 1, if mp < 10 then mp + 3 else mp - 9,
      doy - daysBeforeMonth mp + 1⟩ := by
  obtain ⟨hlow, hhigh⟩ := day_of_year (days + 719468)
  refine ⟨_, _, _, rfl, rfl, hlow, hhigh, rfl, ?_⟩
  simp only [civilFromDays, Date.mk.injEq, and_true]
  split <;> split <;> first | rfl | omega

/-- Months are from 1 to 12, days from 1 to 31. -/
theorem civilFromDays_range (days : ℤ) :
    1 ≤ (civilFromDays days).month ∧ (civilFromDays days).month ≤ 12 ∧
      1 ≤ (civilFromDays days).day ∧ (civilFromDays days).day ≤ 31 := by
  obtain ⟨y, doy, mp, -, -, hlow, hhigh, hmp, heq⟩ := civilFromDays_eq days
  rw [heq]
  simp only [daysBeforeMonth]
  split <;> omega

/-- **The name of a day leads back to its number.** -/
theorem daysFromCivil_civilFromDays (days : ℤ) : daysFromCivil (civilFromDays days) = days := by
  obtain ⟨y, doy, mp, -, hdoy, hlow, hhigh, hmp, heq⟩ := civilFromDays_eq days
  rw [heq]
  by_cases h : mp < 10
  · have hmonth : (mp + 3 + 9) % 12 = mp := by omega
    simp only [daysFromCivil, if_pos h, hmonth]
    rw [if_neg (by omega)]
    omega
  · have hmonth : (mp - 9 + 9) % 12 = mp := by omega
    simp only [daysFromCivil, if_neg h, hmonth]
    rw [if_pos (by omega), add_sub_cancel_right]
    omega

/-! ## Days that exist -/

/-- Leap years. -/
def IsLeap (y : ℤ) : Prop := y % 4 = 0 ∧ (y % 100 ≠ 0 ∨ y % 400 = 0)

instance (y : ℤ) : Decidable (IsLeap y) := inferInstanceAs (Decidable (_ ∧ _))

/-- The length of a month. -/
def daysInMonth (y m : ℤ) : ℤ :=
  if m = 2 then if IsLeap y then 29 else 28
  else if m = 4 ∨ m = 6 ∨ m = 9 ∨ m = 11 then 30
  else 31

/-- The day exists in the calendar. -/
def Date.Real (x : Date) : Prop :=
  1 ≤ x.month ∧ x.month ≤ 12 ∧ 1 ≤ x.day ∧ x.day ≤ daysInMonth x.year x.month

instance (x : Date) : Decidable x.Real := inferInstanceAs (Decidable (_ ∧ _))

/-- The length of a year from March to February. -/
theorem daysBeforeYear_succ (y : ℤ) :
    daysBeforeYear (y + 1) = daysBeforeYear y + if IsLeap (y + 1) then 366 else 365 := by
  by_cases hleap : IsLeap (y + 1)
  · rw [if_pos hleap]
    simp only [IsLeap, daysBeforeYear] at hleap ⊢
    omega
  · rw [if_neg hleap]
    simp only [IsLeap, daysBeforeYear] at hleap ⊢
    omega

/-- A day lies in one year only. -/
theorem yearOf_eq {y z : ℤ} (hle : daysBeforeYear y ≤ z) (hlt : z < daysBeforeYear (y + 1)) :
    yearOf z = y := by
  obtain ⟨hle', hlt'⟩ := yearOf_spec z
  rcases lt_trichotomy (yearOf z) y with h | h | h
  · have := daysBeforeYear_le (show yearOf z + 1 ≤ y by omega)
    omega
  · exact h
  · have := daysBeforeYear_le (show y + 1 ≤ yearOf z by omega)
    omega

/-- The length of a month, by its number from March on: the last one has the leap day. -/
theorem daysInMonth_march (y : ℤ) {mp : ℤ} (h0 : 0 ≤ mp) (h11 : mp ≤ 11) :
    daysInMonth (if mp < 10 then y else y + 1) (if mp < 10 then mp + 3 else mp - 9) =
      if mp = 11 then if IsLeap (y + 1) then 29 else 28
      else daysBeforeMonth (mp + 1) - daysBeforeMonth mp := by
  interval_cases mp <;> simp [daysInMonth, daysBeforeMonth]

/-- **Every day exists.** -/
theorem civilFromDays_real (days : ℤ) : (civilFromDays days).Real := by
  obtain ⟨y, doy, mp, hy, hdoy, hlow, hhigh, hmp, heq⟩ := civilFromDays_eq days
  obtain ⟨-, hlt⟩ := yearOf_spec (days + 719468)
  rw [← hy, daysBeforeYear_succ] at hlt
  have hmp0 : 0 ≤ mp := by omega
  have hmp11 : mp ≤ 11 := by omega
  have hrange := civilFromDays_range days
  have hday : doy - daysBeforeMonth mp + 1 ≤
      daysInMonth (if mp < 10 then y else y + 1) (if mp < 10 then mp + 3 else mp - 9) := by
    rw [daysInMonth_march y hmp0 hmp11]
    simp only [daysBeforeMonth]
    by_cases hleap : IsLeap (y + 1)
    · simp only [hleap, if_true] at hlt ⊢
      split <;> omega
    · simp only [hleap, if_false] at hlt ⊢
      split <;> omega
  rw [heq] at hrange ⊢
  exact ⟨hrange.1, hrange.2.1, hrange.2.2.1, hday⟩

/-- **The number of a day that exists leads back to its name.** -/
theorem civilFromDays_daysFromCivil {x : Date} (hx : x.Real) :
    civilFromDays (daysFromCivil x) = x := by
  obtain ⟨hm1, hm12, hd1, hd⟩ := hx
  obtain ⟨year, month, day⟩ := x
  simp only at hm1 hm12 hd1 hd
  -- the year from March on, and the month in it
  obtain ⟨y, mp, hmp0, hmp11, rfl, rfl⟩ : ∃ y mp, 0 ≤ mp ∧ mp ≤ 11 ∧
      year = (if mp < 10 then y else y + 1) ∧ month = if mp < 10 then mp + 3 else mp - 9 := by
    by_cases h : month ≤ 2
    · refine ⟨year - 1, month + 9, by omega, by omega, ?_, ?_⟩ <;> rw [if_neg (by omega)] <;> omega
    · refine ⟨year, month - 3, by omega, by omega, ?_, ?_⟩ <;> rw [if_pos (by omega)]
      omega
  rw [daysInMonth_march y hmp0 hmp11] at hd
  obtain ⟨doy, hdoy⟩ : ∃ doy, doy = daysBeforeMonth mp + (day - 1) := ⟨_, rfl⟩
  have hbound : doy < (if IsLeap (y + 1) then 366 else 365) ∧ (5 * doy + 2) / 153 = mp := by
    simp only [daysBeforeMonth] at hd hdoy
    by_cases hlast : mp = 11
    · rw [if_pos hlast] at hd
      split <;> rename_i hleap
      · rw [if_pos hleap] at hd
        omega
      · rw [if_neg hleap] at hd
        omega
    · rw [if_neg hlast] at hd
      split <;> omega
  have hdays : daysFromCivil ⟨if mp < 10 then y else y + 1, if mp < 10 then mp + 3 else mp - 9,
      day⟩ + 719468 = daysBeforeYear y + doy := by
    by_cases h : mp < 10
    · have hback : (mp + 3 + 9) % 12 = mp := by omega
      simp only [daysFromCivil, if_pos h, hback, if_neg (show ¬ mp + 3 ≤ 2 by omega)]
      omega
    · have hback : (mp - 9 + 9) % 12 = mp := by omega
      simp only [daysFromCivil, if_neg h, hback, if_pos (show mp - 9 ≤ 2 by omega),
        add_sub_cancel_right]
      omega
  have hyear : yearOf (daysBeforeYear y + doy) = y := by
    refine yearOf_eq ?_ ?_
    · simp only [daysBeforeMonth] at hdoy
      omega
    · rw [daysBeforeYear_succ]
      exact Int.add_lt_add_left hbound.1 _
  have hname : doy - daysBeforeMonth mp + 1 = day := by omega
  simp only [civilFromDays, hdays, hyear, add_sub_cancel_left, hbound.2, hname, Date.mk.injEq,
    and_true]
  by_cases h : mp < 10
  · simp only [if_pos h, if_neg (show ¬ mp + 3 ≤ 2 by omega)]
  · simp only [if_neg h, if_pos (show mp - 9 ≤ 2 by omega)]

/-- From 1000-01-01 to 9999-12-31 a year has four digits. -/
theorem year_mem {days : ℤ} (hlow : -354285 ≤ days) (hhigh : days ≤ 2932896) :
    1000 ≤ (civilFromDays days).year ∧ (civilFromDays days).year ≤ 9999 := by
  obtain ⟨y, doy, mp, hy, hdoy, -, -, hmp, heq⟩ := civilFromDays_eq days
  obtain ⟨hle, hlt⟩ := yearOf_spec (days + 719468)
  rw [← hy] at hle hlt
  have hfirst : daysBeforeYear 999 = 364877 := by decide
  have hlast : daysBeforeYear 9999 = 3652059 := by decide
  have hafter : daysBeforeYear 10000 = 3652425 := by decide
  have hy999 : 999 ≤ y := by
    by_contra hlt'
    have := daysBeforeYear_le (show y + 1 ≤ 999 by omega)
    omega
  have hy9999 : y ≤ 9999 := by
    by_contra hlt'
    have := daysBeforeYear_le (show 10000 ≤ y by omega)
    omega
  rw [heq]
  split
  · change 1000 ≤ y ∧ y ≤ 9999
    refine ⟨?_, hy9999⟩
    -- the year 999 goes on up to February 1000 here
    by_contra hlt'
    obtain rfl : y = 999 := by omega
    omega
  · change 1000 ≤ y + 1 ∧ y + 1 ≤ 9999
    refine ⟨by omega, ?_⟩
    by_contra hlt'
    obtain rfl : y = 9999 := by omega
    omega

end Calendar
