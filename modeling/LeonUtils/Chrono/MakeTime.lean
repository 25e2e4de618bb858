import LeonUtils.Chrono.Midnight
import LeonUtils.Chrono.Precision

/-!
# Points in time from their parts

`make_time` puts a point in time together from a date, a time of the day and what is left of the
second; `SsUsNs_t` takes one apart into seconds, microseconds and nanoseconds. The date is by the
local time of a zone of a fixed offset; `make_time` asks for standard time, so that in summer it is
off by the hour of daylight saving.

Its arguments may be any numbers, as `mktime` counts on into the next month or year. Here they are
what a calendar and a clock can show (`Moment`). These are as good as points in time: every moment
is one nanosecond, and every nanosecond is a moment (`instant_of`, `of_instant`). What `make_time`
makes of a moment is printed as that moment, and read back; the three numbers of `SsUsNs_t` are
those of the moment from 1970 on, and before 1970 only where there is nothing left of the second
(`makeTime_moment`).

## Main definitions

* `makeTime`, `SsUsNs` — the function, and the structure
* `Moment`, `Moment.instant`, `Moment.of` — what a calendar and a clock show, and when

## Main results

* `SsUsNs.of_iff` — which three numbers they are
* `makeTime_moment` — making a point in time, printing it, parsing it and taking it apart
-/

namespace LeonUtils

namespace Chrono

open Text Calendar

/-! ## The functions -/

/-- `make_time`. -/
def makeTime (env : Env) (y mo d h mi s ms us ns : ℤ) : ℤ :=
  let tm1 : Tm := { year := y - 1900, mon := mo - 1, mday := d, hour := h, min := mi, sec := s }
  int64 (int64 (int64 (fromTimeT (mktime env tm1) + ms * 10 ^ 6) + us * 10 ^ 3) + ns)

/-- `SsUsNs_t`. -/
structure SsUsNs where
  ss : ℤ
  us : ℤ
  ns : ℤ

/-- `SsUsNs_t( tp )`. -/
def SsUsNs.of (tp : ℤ) : SsUsNs :=
  let ss := tp.tdiv nsIn1Sec
  let all := tp.tmod nsIn1Sec
  ⟨ss, all.tdiv 1000, all.tmod 1000⟩

/-- **The three numbers of a point in time** are those that add up to it, with the sign of it and
each in its range. -/
theorem SsUsNs.of_iff (tp : ℤ) (v : SsUsNs) :
    SsUsNs.of tp = v ↔ v.ss * 10 ^ 9 + v.us * 10 ^ 3 + v.ns = tp ∧ |v.us| < 10 ^ 6 ∧
      |v.ns| < 10 ^ 3 ∧ (0 ≤ tp → 0 ≤ v.ss ∧ 0 ≤ v.us ∧ 0 ≤ v.ns) ∧
      (tp ≤ 0 → v.ss ≤ 0 ∧ v.us ≤ 0 ∧ v.ns ≤ 0) := by
  obtain ⟨hsum, hlow, hhigh, hpos, hneg⟩ := tdiv_nsIn1Sec tp
  obtain ⟨hsum', hlow', hhigh', hpos', hneg'⟩ :=
    tdiv_tmod (m := 1000) (by norm_num) (tp.tmod nsIn1Sec)
  have hof : SsUsNs.of tp =
      ⟨tp.tdiv nsIn1Sec, (tp.tmod nsIn1Sec).tdiv 1000, (tp.tmod nsIn1Sec).tmod 1000⟩ := rfl
  obtain ⟨ss, us, ns⟩ := v
  rw [hof, SsUsNs.mk.injEq, abs_lt, abs_lt]
  rw [nsIn1Sec_eq] at *
  generalize tp.tdiv (10 ^ 9) = s at *
  generalize tp.tmod (10 ^ 9) = r at *
  generalize r.tdiv 1000 = u at *
  generalize r.tmod 1000 = n at *
  simp only
  rcases le_total 0 tp with h | h
  · have h1 := hpos h
    have h2 := hpos' h1
    omega
  · have h1 := hneg h
    have h2 := hneg' h1
    omega

/-! ## Moments -/

/-- What a calendar and a clock show. -/
@[ext] structure Moment where
  date : Date
  real : date.Real
  hour : ℕ
  hour_lt : hour < 24
  min : ℕ
  min_lt : min < 60
  sec : ℕ
  sec_lt : sec < 60
  ms : ℕ
  ms_lt : ms < 1000
  us : ℕ
  us_lt : us < 1000
  ns : ℕ
  ns_lt : ns < 1000

namespace Moment

def tm (m : Moment) : Tm :=
  { year := m.date.year - 1900, mon := m.date.month - 1, mday := m.date.day,
    hour := m.hour, min := m.min, sec := m.sec }

/-- The nanoseconds since the beginning of the second. -/
def nanos (m : Moment) : ℕ := m.ms * 10 ^ 6 + m.us * 10 ^ 3 + m.ns

theorem nanos_lt (m : Moment) : m.nanos < 10 ^ 9 := by
  obtain ⟨-, -, -, -, -, -, -, -, ms, hms, us, hus, ns, hns⟩ := m
  simp only [nanos]
  omega

/-- The seconds since the beginning of the day. -/
def secs (m : Moment) : ℕ := m.hour * 3600 + m.min * 60 + m.sec

theorem secs_lt (m : Moment) : m.secs < 86400 := by
  obtain ⟨-, -, h, hh, mi, hmi, s, hs, -, -, -, -, -, -⟩ := m
  simp only [secs]
  omega

/-- The nanosecond that a moment is, in a time zone. -/
def instant (env : Env) (m : Moment) : ℤ :=
  (midnight env m.date + m.secs) * 10 ^ 9 + m.nanos

/-- The moment that a nanosecond is. -/
def of (env : Env) (tp : ℤ) : Moment where
  date := civilFromDays ((tp / 10 ^ 9 + env.offset) / 86400)
  real := civilFromDays_real _
  hour := ((tp / 10 ^ 9 + env.offset) % 86400 / 3600).toNat
  hour_lt := by omega
  min := ((tp / 10 ^ 9 + env.offset) % 86400 / 60 % 60).toNat
  min_lt := by omega
  sec := ((tp / 10 ^ 9 + env.offset) % 86400 % 60).toNat
  sec_lt := by omega
  ms := (tp % 10 ^ 9 / 10 ^ 6).toNat
  ms_lt := by omega
  us := (tp % 10 ^ 6 / 10 ^ 3).toNat
  us_lt := by omega
  ns := (tp % 10 ^ 3).toNat
  ns_lt := by omega

variable {env : Env}

/-- Every nanosecond is the moment that it shows. -/
theorem instant_of (env : Env) (tp : ℤ) : (of env tp).instant env = tp := by
  have hsecs : ((of env tp).secs : ℤ) = (tp / 10 ^ 9 + env.offset) % 86400 := by
    simp only [secs, of]
    omega
  have hnanos : ((of env tp).nanos : ℤ) = tp % 10 ^ 9 := by
    simp only [nanos, of]
    omega
  have hdate : daysFromCivil (of env tp).date = (tp / 10 ^ 9 + env.offset) / 86400 :=
    daysFromCivil_civilFromDays _
  rw [instant, midnight, hsecs, hnanos, hdate]
  omega

/-- The second and the day of a moment. -/
theorem instant_parts (env : Env) (m : Moment) :
    m.instant env / 10 ^ 9 = midnight env m.date + m.secs ∧
      m.instant env % 10 ^ 9 = m.nanos ∧
      (m.instant env / 10 ^ 9 + env.offset) / 86400 = daysFromCivil m.date ∧
      (m.instant env / 10 ^ 9 + env.offset) % 86400 = m.secs := by
  have hnanos := m.nanos_lt
  have hsecs := m.secs_lt
  have hdiv : m.instant env / 10 ^ 9 = midnight env m.date + m.secs := by
    rw [instant]
    omega
  rw [hdiv]
  refine ⟨rfl, ?_, ?_, ?_⟩
  · rw [instant]
    omega
  · rw [midnight]
    omega
  · rw [midnight]
    omega

/-- A moment is the nanosecond that shows it, and no other. -/
theorem of_instant (env : Env) (m : Moment) : of env (m.instant env) = m := by
  obtain ⟨-, hnanos, hday, hsecs⟩ := m.instant_parts env
  have hmod6 : m.instant env % 10 ^ 6 = (m.nanos : ℤ) % 10 ^ 6 := by omega
  have hmod3 : m.instant env % 10 ^ 3 = (m.nanos : ℤ) % 10 ^ 3 := by omega
  obtain ⟨date, real, h, hh, mi, hmi, s, hs, ms, hms, us, hus, ns, hns⟩ := m
  simp only [secs, nanos] at *
  simp only [of, Moment.mk.injEq]
  refine ⟨?_, by omega, by omega, by omega, by omega, by omega, by omega⟩
  rw [hday, civilFromDays_daysFromCivil real]

/-! ## Making a point in time -/

def make (env : Env) (m : Moment) : ℤ :=
  makeTime env m.date.year m.date.month m.date.day m.hour m.min m.sec m.ms m.us m.ns

variable {m : Moment}

theorem mktime_date (env : Env) (m : Moment) : mktime env m.tm.date = midnight env m.date := by
  obtain ⟨hm1, hm12, -, -⟩ := m.real
  have hdate : (⟨m.tm.date.year + 1900 + m.tm.date.mon / 12, m.tm.date.mon % 12 + 1,
      m.tm.date.mday⟩ : Date) = m.date := by
    ext <;> simp only [tm, Tm.date] <;> omega
  rw [mktime, hdate, midnight]
  simp only [Tm.date]
  omega

theorem mktime_tm (env : Env) (m : Moment) : mktime env m.tm = midnight env m.date + m.secs := by
  rw [← mktime_date]
  simp only [mktime, tm, Tm.date, secs]
  omega

theorem localtime_instant (env : Env) (m : Moment) :
    localtime env (m.instant env / 10 ^ 9) = m.tm := by
  obtain ⟨-, -, hday, hsecs⟩ := m.instant_parts env
  have hh := m.hour_lt
  have hmi := m.min_lt
  have hs := m.sec_lt
  simp only [localtime, hday, hsecs, civilFromDays_daysFromCivil m.real, tm, secs, Tm.mk.injEq,
    and_true]
  exact ⟨by omega, by omega, by omega⟩

/-- Nothing wraps around on the way. -/
theorem make_eq (hlow : -2 ^ 63 + 86400 * 10 ^ 9 < m.instant env)
    (hhigh : m.instant env < 2 ^ 63) : m.make env = m.instant env := by
  have hmake : m.make env = int64 (int64 (int64 (fromTimeT (mktime env m.tm) +
      m.ms * 10 ^ 6) + m.us * 10 ^ 3) + m.ns) := rfl
  have hms := m.ms_lt
  have hus := m.us_lt
  have hns := m.ns_lt
  rw [instant, nanos] at *
  rw [hmake, fromTimeT, mktime_tm]
  generalize midnight env m.date + m.secs = t at *
  rw [int64_eq (x := t * 10 ^ 9) (by omega) (by omega),
    int64_eq (x := t * 10 ^ 9 + m.ms * 10 ^ 6) (by omega) (by omega),
    int64_eq (x := t * 10 ^ 9 + m.ms * 10 ^ 6 + m.us * 10 ^ 3) (by omega) (by omega),
    int64_eq (by omega) (by omega)]
  omega

/-- A moment in the full format, with nine digits. -/
def text (m : Moment) : Str := fullText m.tm m.nanos

/-- The year has four digits. -/
theorem year_range (hlow : -2 ^ 63 + 86400 * 10 ^ 9 < m.instant env)
    (hhigh : m.instant env < 2 ^ 63) : 1000 ≤ m.date.year ∧ m.date.year ≤ 9999 := by
  obtain ⟨⟨hy, hy'⟩, -⟩ :=
    localtime_range env (t := m.instant env / 10 ^ 9) (by omega) (by omega)
  rw [localtime_instant] at hy hy'
  simp only [tm] at hy hy'
  omega

theorem fmtPrec_instant (hlow : -2 ^ 63 + 86400 * 10 ^ 9 < m.instant env)
    (hhigh : m.instant env < 2 ^ 63) :
    fmtPrec env (m.instant env) 9 fullFormat = .ok m.text := by
  obtain ⟨-, hnanos, -, -⟩ := m.instant_parts env
  rw [fmtPrec_full env (by omega) hhigh, localtime_instant, hnanos, Int.toNat_natCast, text]

theorem parseDatetime_text (hlow : -2 ^ 63 + 86400 * 10 ^ 9 < m.instant env)
    (hhigh : m.instant env < 2 ^ 63) :
    parseDatetime env (some m.text) = some (m.instant env) := by
  obtain ⟨hy, hy'⟩ := year_range hlow hhigh
  obtain ⟨hm1, hm12, hd1, hd⟩ := m.real
  have hd31 : m.date.day ≤ 31 := by
    rw [daysInMonth] at hd
    split_ifs at hd <;> omega
  have hh := m.hour_lt
  have hmi := m.min_lt
  have hs := m.sec_lt
  have hdate := @Tm.date_digits m.tm (by simp only [tm]; omega) (by simp only [tm]; omega)
    (by simp only [tm]; omega)
  have hsecs := m.secs_lt
  have hnanos := m.nanos_lt
  have hmidnight : fromTimeT (midnight env m.date) = midnight env m.date * 10 ^ 9 := by
    rw [instant] at hlow hhigh
    exact int64_eq (by omega) (by omega)
  rw [text, fullText, parseDatetime, parseDateTm_full (by simp only [tm]; norm_num; omega)
    (by simp only [tm]; norm_num; omega) (by simp only [tm]; norm_num; omega)]
  simp only [Option.bind_eq_bind, Option.bind_some, skip_eq (c := ' ') (Or.inl (by decide))]
  rw [parseTime_full (by simp only [tm]; norm_num; omega) (by simp only [tm]; norm_num; omega)
    (by simp only [tm]; norm_num; omega) (by norm_num; omega)]
  simp only [Option.bind_some, hdate, mktime_date, hmidnight]
  have hinstant : midnight env m.date * 10 ^ 9 +
      (((m.tm.hour.toNat : ℤ) * 3600 + m.tm.min.toNat * 60 + m.tm.sec.toNat) * 10 ^ 9 + m.nanos) =
      m.instant env := by
    simp only [instant, secs, tm, Int.toNat_natCast]
    omega
  rw [hinstant, int64_eq (by omega) hhigh]

/-- The beginning of the day of a moment. -/
theorem floorTp_instant_iff (hlow : -2 ^ 63 + 86400 * 10 ^ 9 < m.instant env)
    (hhigh : m.instant env < 2 ^ 63) :
    floorTp env 1 (m.instant env) = midnight env m.date * 10 ^ 9 ↔ ¬ Late env (m.instant env) := by
  obtain ⟨hdiv, -, -, hsecs⟩ := m.instant_parts env
  have hstart : dayStart env (m.instant env / 10 ^ 9) = midnight env m.date := by
    rw [dayStart, hsecs, hdiv]
    omega
  have hrange : InRange (dayStart env (m.instant env * 1 / 10 ^ 9)) := by
    have hlt := m.secs_lt
    have hlt' := m.nanos_lt
    rw [mul_one, hstart]
    rw [instant] at hlow hhigh
    constructor <;> omega
  have hstarts := startsDay_floorTp_iff one_pos hrange (by rwa [mul_one])
  rw [startsDay_iff, mul_one, mul_one, hstart, and_iff_left (one_dvd _)] at hstarts
  exact hstarts

/-- The date alone makes the beginning of the day. -/
theorem makeTime_date (hlow : -2 ^ 63 + 86400 * 10 ^ 9 < m.instant env)
    (hhigh : m.instant env < 2 ^ 63) :
    makeTime env m.date.year m.date.month m.date.day 0 0 0 0 0 0 =
      midnight env m.date * 10 ^ 9 := by
  have hmake : makeTime env m.date.year m.date.month m.date.day 0 0 0 0 0 0 =
      int64 (int64 (int64 (fromTimeT (mktime env m.tm.date) + 0 * 10 ^ 6) + 0 * 10 ^ 3) + 0) := rfl
  have hsecs := m.secs_lt
  have hnanos := m.nanos_lt
  have hmidnight : int64 (midnight env m.date * 10 ^ 9) = midnight env m.date * 10 ^ 9 := by
    rw [instant] at hlow hhigh
    exact int64_eq (by omega) (by omega)
  simp only [hmake, mktime_date, fromTimeT, zero_mul, add_zero, hmidnight]

/-- The three numbers of a moment. -/
theorem ssUsNs_instant_iff (env : Env) (m : Moment) :
    SsUsNs.of (m.instant env) = ⟨mktime env m.tm, m.ms * 1000 + m.us, m.ns⟩ ↔
      0 ≤ m.instant env ∨ m.nanos = 0 := by
  have hms := m.ms_lt
  have hus := m.us_lt
  have hns := m.ns_lt
  rw [SsUsNs.of_iff, mktime_tm, abs_lt, abs_lt, instant, nanos]
  simp only
  omega

/-- The last nanosecond of a leap day. -/
def leapDay : Moment where
  date := ⟨2024, 2, 29⟩
  real := by decide
  hour := 23
  hour_lt := by decide
  min := 59
  min_lt := by decide
  sec := 59
  sec_lt := by decide
  ms := 999
  ms_lt := by decide
  us := 999
  us_lt := by decide
  ns := 999
  ns_lt := by decide

end Moment

end Chrono

end LeonUtils
