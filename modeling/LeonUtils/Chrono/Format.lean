import LeonUtils.Calendar
import LeonUtils.Text.Format

/-!
# Points in time as text

A `SysTime_t` is a number of nanoseconds in 64 bits. `fmt` rounds it down to the second, has the
second turned into local time and printed, and appends as many digits of the rest as are asked for.

The time zone of a process is a fixed offset from UTC, so that `localtime_r` and `mktime` are the
Gregorian calendar. Of the conversions of `strftime` those are written out that a format of the
library uses; what is printed for the others is part of the environment.

## Main definitions

* `Tm`, `Env` — a time in parts, and what a process takes from its surroundings
* `localtime`, `mktime` — between seconds and local time in parts
* `fmtTm`, `fmtTmt`, `fmt`, `fmtPrec` — the functions

## Main results

* `mktime_midnight` — a local midnight is the time of the day earlier
* `fmtPrec_full` — the fields of the full format with nine digits
-/

namespace LeonUtils

namespace Chrono

open Text Calendar

/-! ## Local time -/

/-- `tm`, less the fields that nothing here reads. -/
structure Tm where
  sec : ℤ := 0
  min : ℤ := 0
  hour : ℤ := 0
  mday : ℤ := 0
  mon : ℤ := 0
  year : ℤ := 0

/-- A time zone of a fixed offset, in seconds east of Greenwich, and what `strftime` prints for
conversions that no format of the library uses. The variable `TZ` allows for offsets up to 167
hours. Zones with daylight saving time are left out, and with them `tm_isdst`. -/
structure Env where
  offset : ℤ
  offset_le : |offset| ≤ 604800
  other : Char → Tm → Str

/-- `localtime_r`. -/
def localtime (env : Env) (t : ℤ) : Tm :=
  let date := civilFromDays ((t + env.offset) / 86400)
  let secs := (t + env.offset) % 86400
  { sec := secs % 60, min := secs / 60 % 60, hour := secs / 3600,
    mday := date.day, mon := date.month - 1, year := date.year - 1900 }

/-- `mktime`: a month that is none counts on into other years, a day into other months. -/
def mktime (env : Env) (tm : Tm) : ℤ :=
  let date : Date := ⟨tm.year + 1900 + tm.mon / 12, tm.mon % 12 + 1, tm.mday⟩
  daysFromCivil date * 86400 + tm.hour * 3600 + tm.min * 60 + tm.sec - env.offset

/-- The date of a local time, without the time of the day. -/
def Tm.date (tm : Tm) : Tm := { mday := tm.mday, mon := tm.mon, year := tm.year }

/-- **A local midnight** is the time of the day earlier. -/
theorem mktime_midnight (env : Env) (t : ℤ) :
    mktime env (localtime env t).date = t - (t + env.offset) % 86400 := by
  obtain ⟨hm1, hm12, -, -⟩ := civilFromDays_range ((t + env.offset) / 86400)
  have hdate : daysFromCivil ⟨(localtime env t).date.year + 1900 + (localtime env t).date.mon / 12,
      (localtime env t).date.mon % 12 + 1, (localtime env t).date.mday⟩ =
      (t + env.offset) / 86400 := by
    refine Eq.trans (congrArg daysFromCivil ?_) (daysFromCivil_civilFromDays _)
    ext <;> simp only [Tm.date, localtime] <;> omega
  rw [mktime, hdate]
  simp only [Tm.date]
  omega

/-- The time of the day. -/
theorem localtime_secs (env : Env) (t : ℤ) :
    (localtime env t).hour * 3600 + (localtime env t).min * 60 + (localtime env t).sec =
      (t + env.offset) % 86400 := by
  simp only [localtime]
  omega

/-! ## Printing -/

/-- What `strftime` prints for a conversion. -/
def conversion (env : Env) (tm : Tm) : Char → Str
  | 'Y' => intText (tm.year + 1900) 0 ' '
  | 'y' => padded 2 ((tm.year + 1900) % 100).toNat
  | 'm' => padded 2 (tm.mon + 1).toNat
  | 'd' => padded 2 tm.mday.toNat
  | 'H' => padded 2 tm.hour.toNat
  | 'M' => padded 2 tm.min.toNat
  | 'S' => padded 2 tm.sec.toNat
  | c => env.other c tm

def fmtTm (env : Env) (tm : Tm) : Str → Str
  | '%' :: c :: f => conversion env tm c ++ fmtTm env tm f
  | c :: f => c :: fmtTm env tm f
  | [] => []

def fmtTmt (env : Env) (t : ℤ) (f : Str) : Str := fmtTm env (localtime env t) f

def fullFormat : Str := "%Y-%m-%d %H:%M:%S".toList

/-- A signed number in 64 bits. -/
def int64 (x : ℤ) : ℤ := Int.bmod x (2 ^ 64)

theorem int64_eq {x : ℤ} (hlow : -2 ^ 63 ≤ x) (hhigh : x < 2 ^ 63) : int64 x = x :=
  Int.bmod_eq_of_le (by norm_num at *; omega) (by norm_num at *; omega)

/-- `system_clock::to_time_t`, of a time point in seconds, by way of nanoseconds. -/
def toTimeT (secs : ℤ) : ℤ := (int64 (secs * 10 ^ 9)).tdiv (10 ^ 9)

/-- `system_clock::from_time_t`. -/
def fromTimeT (t : ℤ) : ℤ := int64 (t * 10 ^ 9)

/-- `fmt`, for a time point in units of so many nanoseconds. -/
def fmt (env : Env) (unit tp : ℤ) (f : Str) : Str := fmtTmt env (toTimeT (tp * unit / 10 ^ 9)) f

/-- `fmt` with a precision, for a time point in nanoseconds. The quotient is taken of numbers of
type `double`, in which it is not rounded up to the next integer: it has at most nine digits before
the point. -/
def fmtPrec (env : Env) (tp : ℤ) (prec : ℕ) (f : Str) : Except Exn Str :=
  let prec := if prec > 9 then 9 else prec
  let tp1 := tp / 10 ^ 9
  let result := fmt env (10 ^ 9) tp1 f
  if prec > 0 then do
    let nss := (int64 (tp - int64 (tp1 * 10 ^ 9))).tdiv (10 ^ (9 - prec))
    let digits ← fmtInt nss prec 0 '0' '\''
    .ok (result ++ '.' :: digits)
  else .ok result

/-! ## The full format -/

/-- Where the parts of a local time lie, for the seconds that 64 bits of nanoseconds can count. -/
theorem localtime_range (env : Env) {t : ℤ} (hlow : -10 ^ 10 ≤ t) (hhigh : t ≤ 10 ^ 10) :
    (1000 ≤ (localtime env t).year + 1900 ∧ (localtime env t).year + 1900 ≤ 9999) ∧
      (0 ≤ (localtime env t).mon ∧ (localtime env t).mon ≤ 11) ∧
      (1 ≤ (localtime env t).mday ∧ (localtime env t).mday ≤ 31) ∧
      (0 ≤ (localtime env t).hour ∧ (localtime env t).hour ≤ 23) ∧
      (0 ≤ (localtime env t).min ∧ (localtime env t).min ≤ 59) ∧
      (0 ≤ (localtime env t).sec ∧ (localtime env t).sec ≤ 59) := by
  obtain ⟨hm1, hm12, hd1, hd31⟩ := civilFromDays_range ((t + env.offset) / 86400)
  obtain ⟨hoff, hoff'⟩ := abs_le.mp env.offset_le
  have hlow' : -354285 ≤ (t + env.offset) / 86400 := by omega
  have hhigh' : (t + env.offset) / 86400 ≤ 2932896 := by omega
  obtain ⟨hy, hy'⟩ := year_mem hlow' hhigh'
  simp only [localtime]
  omega

/-- The parts of a time and its nanoseconds, as the full format has them. -/
def fullText (tm : Tm) (nanos : ℕ) : Str :=
  padded 4 (tm.year + 1900).toNat ++ '-' :: (padded 2 (tm.mon + 1).toNat ++
    '-' :: (padded 2 tm.mday.toNat ++ ' ' :: (padded 2 tm.hour.toNat ++
    ':' :: (padded 2 tm.min.toNat ++ ':' :: (padded 2 tm.sec.toNat ++ '.' :: padded 9 nanos)))))

/-- A year from 1000 on has no leading zeros. -/
theorem intText_year {y : ℤ} (h : 1000 ≤ y) : intText y 0 ' ' = padded 4 y.toNat := by
  have habs : y.natAbs = y.toNat := by omega
  rw [intText_plain, if_neg (by omega), List.nil_append, habs,
    padded_eq_toDigits (by norm_num; omega) (by norm_num)]

theorem fmtTm_full (env : Env) {tm : Tm} (h : 1000 ≤ tm.year + 1900) (nanos : ℕ) :
    fmtTm env tm fullFormat ++ '.' :: padded 9 nanos = fullText tm nanos := by
  have hfull : fmtTm env tm fullFormat = intText (tm.year + 1900) 0 ' ' ++
      '-' :: (padded 2 (tm.mon + 1).toNat ++ '-' :: (padded 2 tm.mday.toNat ++
      ' ' :: (padded 2 tm.hour.toNat ++ ':' :: (padded 2 tm.min.toNat ++
      ':' :: (padded 2 tm.sec.toNat ++ []))))) := rfl
  rw [hfull, intText_year h]
  simp only [fullText, List.append_assoc, List.cons_append, List.nil_append]

/-- A second that is in range with its nanoseconds. -/
theorem toTimeT_eq {secs : ℤ} (hlow : -2 ^ 63 ≤ secs * 10 ^ 9) (hhigh : secs * 10 ^ 9 < 2 ^ 63) :
    toTimeT secs = secs := by
  rw [toTimeT, int64_eq hlow hhigh, Int.mul_tdiv_cancel _ (by norm_num)]

/-- **The full format with nine digits**. -/
theorem fmtPrec_full (env : Env) {tp : ℤ} (hlow : -2 ^ 63 + 10 ^ 9 ≤ tp) (hhigh : tp < 2 ^ 63) :
    fmtPrec env tp 9 fullFormat =
      .ok (fullText (localtime env (tp / 10 ^ 9)) (tp % 10 ^ 9).toNat) := by
  have hsecs : toTimeT (tp / 10 ^ 9) = tp / 10 ^ 9 := toTimeT_eq (by omega) (by omega)
  have hnanos : int64 (tp - int64 (tp / 10 ^ 9 * 10 ^ 9)) = ((tp % 10 ^ 9).toNat : ℤ) := by
    rw [int64_eq (x := tp / 10 ^ 9 * 10 ^ 9) (by omega) (by omega), int64_eq (by omega) (by omega)]
    omega
  have hdigits : fmtInt (((tp % 10 ^ 9).toNat : ℤ).tdiv (10 ^ (9 - 9))) 9 0 '0' '\'' =
      .ok (padded 9 (tp % 10 ^ 9).toNat) := by
    rw [Nat.sub_self, pow_zero, Int.tdiv_one]
    exact fmtInt_padded (by norm_num) (by norm_num) (by omega) _
  obtain ⟨⟨hyear, -⟩, -⟩ := localtime_range env (t := tp / 10 ^ 9) (by omega) (by omega)
  have hunit : tp / 10 ^ 9 * 10 ^ 9 / 10 ^ 9 = tp / 10 ^ 9 := Int.mul_ediv_cancel _ (by norm_num)
  simp only [fmtPrec, gt_iff_lt, lt_irrefl, if_false, Nat.ofNat_pos, if_true, fmt, hunit, hsecs,
    hnanos]
  rw [hdigits]
  exact congrArg Except.ok (fmtTm_full env hyear _)

end Chrono

end LeonUtils
