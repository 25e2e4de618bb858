import LeonUtils.Chrono.ValidDate

/-!
# The beginning of a day

`floor` takes a point in time to the beginning of the day that it lies in, by local time. It counts
the seconds of the point, takes the midnight before, and goes back to the clock of the point. Local
time is that of a zone of a fixed offset: on a day on which the clocks are changed `floor` keeps
`tm_isdst`, and misses the midnight by an hour.

The seconds are counted by `to_time_t`, which cuts off towards 1970, and so does `time_point_cast`.
Before 1970 the last second of a day is therefore taken for the day that follows, except for its
very beginning (`Late`), and a midnight that is no tick of the clock is missed (`floorTp_starts`).

## Main definitions

* `floorTm`, `floorTimeT`, `floorTp` — the functions
* `StartsDay` — what they are for
* `dayStart`, `Late` — the midnight that they should find, and when they find the one that follows

## Main results

* `startsDay_floorTp_iff`, `fmt_floorTp_date` — when the beginning of the day is found
* `floorTp_starts` — that, and what is certain of the result in any case
-/

namespace LeonUtils

namespace Chrono

open Text Calendar

/-! ## The functions -/

/-- `floor( tm* )`. -/
def floorTm (tm : Tm) : Tm := { tm with hour := 0, min := 0, sec := 0 }

/-- `floor( time_t )`. -/
def floorTimeT (env : Env) (t : ℤ) : ℤ := mktime env (floorTm (localtime env t))

/-- `to_time_t`, of a time point that counts so many nanoseconds. -/
def toTimeTOf (unit tp : ℤ) : ℤ := (int64 (tp * unit)).tdiv (10 ^ 9)

/-- `time_point_cast<D>`, of a `SysTime_t`. -/
def timePointCast (unit tp : ℤ) : ℤ := tp.tdiv unit

/-- `floor`, for a time point that counts so many nanoseconds. -/
def floorTp (env : Env) (unit tp : ℤ) : ℤ :=
  timePointCast unit (fromTimeT (floorTimeT env (toTimeTOf unit tp)))

/-! ## Midnights -/

/-- A time point is the beginning of the local day of another one. -/
structure StartsDay (env : Env) (unit m tp : ℤ) : Prop where
  whole : m * unit % 10 ^ 9 = 0
  midnight : floorTm (localtime env (m * unit / 10 ^ 9)) = localtime env (m * unit / 10 ^ 9)
  day : (localtime env (m * unit / 10 ^ 9)).date = (localtime env (tp * unit / 10 ^ 9)).date

/-- The second in which the local day of a second begins. -/
def dayStart (env : Env) (t : ℤ) : ℤ := t - (t + env.offset) % 86400

/-- Before 1970, in the last second of a day, and not at its beginning. -/
def Late (env : Env) (x : ℤ) : Prop :=
  x < 0 ∧ x % 10 ^ 9 ≠ 0 ∧ (x / 10 ^ 9 + 1 + env.offset) % 86400 = 0

instance (env : Env) (x : ℤ) : Decidable (Late env x) := inferInstanceAs (Decidable (_ ∧ _ ∧ _))

variable {env : Env}

theorem floorTimeT_eq (env : Env) (t : ℤ) : floorTimeT env t = dayStart env t :=
  mktime_midnight env t

theorem dayStart_mono {t t' : ℤ} (h : t ≤ t') : dayStart env t ≤ dayStart env t' := by
  rw [dayStart, dayStart]
  omega

/-- A second and a midnight lie in one day. -/
theorem dayStart_eq_iff {t t' : ℤ} :
    dayStart env t = dayStart env t' ↔ (localtime env t).date = (localtime env t').date := by
  constructor
  · intro h
    have hday : (t + env.offset) / 86400 = (t' + env.offset) / 86400 := by
      rw [dayStart, dayStart] at h
      omega
    simp only [localtime, Tm.date, hday]
  · intro h
    rw [dayStart, ← mktime_midnight, h, mktime_midnight, dayStart]

/-- A second is a midnight. -/
theorem floorTm_localtime_iff {t : ℤ} :
    floorTm (localtime env t) = localtime env t ↔ dayStart env t = t := by
  constructor
  · intro h
    obtain ⟨hsec, hmin, hhour⟩ : (localtime env t).sec = 0 ∧ (localtime env t).min = 0 ∧
        (localtime env t).hour = 0 := by
      rw [← h]
      exact ⟨rfl, rfl, rfl⟩
    have hsecs := localtime_secs env t
    rw [dayStart]
    omega
  · intro h
    have hzero : (t + env.offset) % 86400 = 0 := by
      rw [dayStart] at h
      omega
    simp only [floorTm, localtime, hzero]
    rfl

/-- The beginning of a day, by its nanoseconds. -/
theorem startsDay_iff {unit m tp : ℤ} :
    StartsDay env unit m tp ↔ m * unit = dayStart env (tp * unit / 10 ^ 9) * 10 ^ 9 := by
  constructor
  · rintro ⟨hwhole, hmidnight, hday⟩
    rw [floorTm_localtime_iff] at hmidnight
    rw [← dayStart_eq_iff, hmidnight] at hday
    omega
  · intro h
    have hsecs : m * unit / 10 ^ 9 = dayStart env (tp * unit / 10 ^ 9) := by
      rw [h]
      exact Int.mul_ediv_cancel _ (by norm_num)
    have hidem : dayStart env (dayStart env (tp * unit / 10 ^ 9)) =
        dayStart env (tp * unit / 10 ^ 9) := by
      simp only [dayStart]
      omega
    refine ⟨?_, ?_, ?_⟩
    · rw [h]
      exact Int.mul_emod_left _ _
    · rw [hsecs]
      exact floorTm_localtime_iff.mpr hidem
    · rw [hsecs]
      exact dayStart_eq_iff.mp hidem

/-! ## Cutting off towards 1970 -/

/-- The seconds of a time point: one too many where it is not at the beginning of a second and lies
before 1970. -/
theorem tdiv_second (x : ℤ) :
    x.tdiv (10 ^ 9) = x / 10 ^ 9 + if x < 0 ∧ x % 10 ^ 9 ≠ 0 then 1 else 0 := by
  obtain ⟨hsum, hlow, hhigh, hpos, hneg⟩ := tdiv_nsIn1Sec x
  rw [nsIn1Sec_eq] at *
  generalize x.tdiv (10 ^ 9) = q at hsum
  generalize x.tmod (10 ^ 9) = r at *
  rcases le_or_gt 0 x with h | h
  · have := hpos h
    rw [if_neg (by omega)]
    omega
  · have := hneg h.le
    split <;> omega

/-- The midnight that is found is the right one, or the one that follows. -/
theorem dayStart_tdiv (env : Env) (x : ℤ) :
    dayStart env (x.tdiv (10 ^ 9)) =
      dayStart env (x / 10 ^ 9) + if Late env x then 86400 else 0 := by
  rw [tdiv_second]
  by_cases hlate : Late env x
  · obtain ⟨hneg, hpart, hmidnight⟩ := hlate
    rw [if_pos ⟨hneg, hpart⟩, if_pos ⟨hneg, hpart, hmidnight⟩, dayStart, dayStart]
    omega
  · rw [if_neg hlate]
    split
    · next h =>
      have hmidnight : (x / 10 ^ 9 + 1 + env.offset) % 86400 ≠ 0 := fun hzero =>
        hlate ⟨h.1, h.2, hzero⟩
      rw [dayStart, dayStart]
      omega
    · rw [add_zero, add_zero]

variable {unit tp : ℤ}

/-- The midnight that is found is a point in time if the right one is. -/
theorem inRange_dayStart_tdiv {x : ℤ} (hlow : InRange (dayStart env (x / 10 ^ 9)))
    (hhigh : x < 2 ^ 63) : InRange (dayStart env (x.tdiv (10 ^ 9))) := by
  obtain ⟨hlow, -⟩ := hlow
  constructor
  · rw [dayStart_tdiv]
    split <;> omega
  · rw [tdiv_second, dayStart]
    rw [dayStart] at hlow
    split <;> omega

/-- The function, where the midnight before is a point in time. -/
theorem floorTp_eq (hlow : InRange (dayStart env (tp * unit / 10 ^ 9)))
    (hhigh : tp * unit < 2 ^ 63) :
    floorTp env unit tp = (dayStart env ((tp * unit).tdiv (10 ^ 9)) * 10 ^ 9).tdiv unit := by
  obtain ⟨hlow', hhigh'⟩ := inRange_dayStart_tdiv hlow hhigh
  have hle : dayStart env (tp * unit / 10 ^ 9) ≤ tp * unit / 10 ^ 9 := by
    rw [dayStart]
    omega
  have hnanos : -2 ^ 63 ≤ tp * unit := by
    have := hlow.1
    omega
  rw [floorTp, toTimeTOf, int64_eq hnanos hhigh, floorTimeT_eq, fromTimeT, int64_eq hlow' hhigh',
    timePointCast]

/-- Rounding to the ticks of a clock and back. -/
theorem tdiv_mul_eq_iff {x : ℤ} : x.tdiv unit * unit = x ↔ unit ∣ x := by
  constructor
  · intro h
    exact h ▸ Int.dvd_mul_left _ _
  · exact Int.tdiv_mul_cancel

/-- Before 1970 a clock rounds up. -/
theorem le_tdiv_mul (hunit : 0 < unit) {x : ℤ} (hx : x ≤ 0) : x ≤ x.tdiv unit * unit := by
  obtain ⟨hsum, -, -, -, hneg⟩ := tdiv_tmod hunit x
  have hle := hneg hx
  rw [mul_comm]
  omega

/-- When the beginning of the day is found. -/
theorem startsDay_floorTp_iff (hunit : 0 < unit)
    (hlow : InRange (dayStart env (tp * unit / 10 ^ 9))) (hhigh : tp * unit < 2 ^ 63) :
    StartsDay env unit (floorTp env unit tp) tp ↔
      ¬ Late env (tp * unit) ∧ unit ∣ dayStart env (tp * unit / 10 ^ 9) * 10 ^ 9 := by
  rw [startsDay_iff, floorTp_eq hlow hhigh, dayStart_tdiv]
  by_cases hlate : Late env (tp * unit)
  · rw [if_pos hlate, iff_false_right fun h => h.1 hlate]
    obtain ⟨hneg, -, hmidnight⟩ := hlate
    have hle : (dayStart env (tp * unit / 10 ^ 9) + 86400) * 10 ^ 9 ≤ 0 := by
      rw [dayStart]
      omega
    have hup := le_tdiv_mul hunit hle
    omega
  · rw [if_neg hlate, add_zero, tdiv_mul_eq_iff, and_iff_right hlate]

/-- Earlier points are not taken to later days. -/
theorem floorTp_mono (hunit : 0 < unit) {tp' : ℤ} (hle : tp ≤ tp')
    (hlow : InRange (dayStart env (tp * unit / 10 ^ 9))) (hhigh : tp' * unit < 2 ^ 63) :
    floorTp env unit tp ≤ floorTp env unit tp' := by
  have hmul : tp * unit ≤ tp' * unit := mul_le_mul_of_nonneg_right hle hunit.le
  have hsecs : (tp * unit).tdiv (10 ^ 9) ≤ (tp' * unit).tdiv (10 ^ 9) :=
    Int.tdiv_le_tdiv (by norm_num) hmul
  have hday : dayStart env (tp * unit / 10 ^ 9) ≤ dayStart env (tp' * unit / 10 ^ 9) :=
    dayStart_mono (Int.ediv_le_ediv (by norm_num) hmul)
  have hlow' : InRange (dayStart env (tp' * unit / 10 ^ 9)) := by
    refine ⟨hlow.1.trans (by omega), ?_⟩
    rw [dayStart]
    omega
  rw [floorTp_eq hlow (hmul.trans_lt hhigh), floorTp_eq hlow' hhigh]
  exact Int.tdiv_le_tdiv hunit (mul_le_mul_of_nonneg_right (dayStart_mono hsecs) (by norm_num))

/-! ## A clock that ticks at midnight -/

/-- Every midnight is a tick of the clock. -/
def TicksAtMidnight (env : Env) (unit : ℤ) : Prop := ∀ t, unit ∣ dayStart env t * 10 ^ 9

/-- On such a clock a midnight is found, if not always the right one. -/
theorem floorTp_mul (hticks : TicksAtMidnight env unit)
    (hlow : InRange (dayStart env (tp * unit / 10 ^ 9))) (hhigh : tp * unit < 2 ^ 63) :
    floorTp env unit tp * unit = dayStart env ((tp * unit).tdiv (10 ^ 9)) * 10 ^ 9 := by
  rw [floorTp_eq hlow hhigh]
  exact Int.tdiv_mul_cancel (hticks _)

theorem dayStart_idem (t : ℤ) : dayStart env (dayStart env t) = dayStart env t := by
  simp only [dayStart]
  omega

/-- Where the functions lead is where they stay. -/
theorem floorTp_idem (hticks : TicksAtMidnight env unit)
    (hlow : InRange (dayStart env (tp * unit / 10 ^ 9))) (hhigh : tp * unit < 2 ^ 63) :
    floorTp env unit (floorTp env unit tp) = floorTp env unit tp := by
  have hmul := floorTp_mul hticks hlow hhigh
  have hrange := inRange_dayStart_tdiv hlow hhigh
  have heq := floorTp_eq hlow hhigh
  generalize floorTp env unit tp = m at hmul heq
  have hdiv : m * unit / 10 ^ 9 = dayStart env ((tp * unit).tdiv (10 ^ 9)) := by
    rw [hmul]
    exact Int.mul_ediv_cancel _ (by norm_num)
  have htdiv : (m * unit).tdiv (10 ^ 9) = dayStart env ((tp * unit).tdiv (10 ^ 9)) := by
    rw [hmul]
    exact Int.mul_tdiv_cancel _ (by norm_num)
  rw [floorTp_eq (by rwa [hdiv, dayStart_idem]) (hmul ▸ hrange.2), htdiv, dayStart_idem, heq]

def timeFormat : Str := "%H:%M:%S".toList

/-- What is printed of a time point whose second can be counted. -/
theorem fmt_eq (f : Str) (h : InRange (tp * unit / 10 ^ 9)) :
    fmt env unit tp f = fmtTmt env (tp * unit / 10 ^ 9) f := by
  rw [fmt, toTimeT_eq h.1 h.2]

/-- The second of a time point, if its midnight is a point in time. -/
theorem inRange_second (hlow : InRange (dayStart env (tp * unit / 10 ^ 9)))
    (hhigh : tp * unit < 2 ^ 63) : InRange (tp * unit / 10 ^ 9) := by
  obtain ⟨hlow, -⟩ := hlow
  rw [dayStart] at hlow
  constructor <;> omega

theorem fmtTm_floorTm (env : Env) (tm : Tm) :
    fmtTm env (floorTm tm) timeFormat = "00:00:00".toList := by
  have hformat : fmtTm env (floorTm tm) timeFormat =
      padded 2 0 ++ ':' :: (padded 2 0 ++ ':' :: (padded 2 0 ++ [])) := rfl
  rw [hformat]
  decide

/-- The time that is printed is midnight. -/
theorem fmt_floorTp_time (hticks : TicksAtMidnight env unit)
    (hlow : InRange (dayStart env (tp * unit / 10 ^ 9))) (hhigh : tp * unit < 2 ^ 63) :
    fmt env unit (floorTp env unit tp) timeFormat = "00:00:00".toList := by
  have hdiv : floorTp env unit tp * unit / 10 ^ 9 = dayStart env ((tp * unit).tdiv (10 ^ 9)) := by
    rw [floorTp_mul hticks hlow hhigh]
    exact Int.mul_ediv_cancel _ (by norm_num)
  have hrange := inRange_dayStart_tdiv hlow hhigh
  rw [fmt_eq _ (hdiv ▸ hrange), hdiv, fmtTmt, ← floorTm_localtime_iff.mpr (dayStart_idem _)]
  exact fmtTm_floorTm env _

/-- Days that are printed alike are the same. -/
theorem dateText_localDay_inj {x y : ℤ}
    (h : dateText (localDay env x) = dateText (localDay env y)) :
    localDay env x = localDay env y := by
  have hdate : ∀ z, dateOf (dateText (localDay env z)) = localDay env z := by
    intro z
    obtain ⟨hm1, hm12, hd1, hd31⟩ :=
      civilFromDays_range ((toTimeT (z / 10 ^ 9) + env.offset) / 86400)
    exact (dateText_spec (localDay_year env z) ⟨hm1, hm12⟩ ⟨hd1, hd31⟩).2.2
  rw [← hdate x, h, hdate]

/-- The date that is printed is the right one unless the point is late. -/
theorem fmt_floorTp_date (hticks : TicksAtMidnight env unit)
    (hlow : InRange (dayStart env (tp * unit / 10 ^ 9))) (hhigh : tp * unit < 2 ^ 63) :
    fmt env unit (floorTp env unit tp) dateFormat = fmt env unit tp dateFormat ↔
      ¬ Late env (tp * unit) := by
  have hdate : ∀ m, InRange (m * unit / 10 ^ 9) → fmt env unit m dateFormat =
      dateText (localDay env (m * unit)) ∧
      localDay env (m * unit) = civilFromDays ((m * unit / 10 ^ 9 + env.offset) / 86400) := by
    intro m hm
    have hfmt : fmt env unit m dateFormat = fmtDate env (m * unit) := by
      rw [fmtDate, fmt, fmt, mul_one]
    exact ⟨hfmt.trans (fmtDate_eq env _), by rw [localDay, toTimeT_eq hm.1 hm.2]⟩
  have hdiv : floorTp env unit tp * unit / 10 ^ 9 = dayStart env ((tp * unit).tdiv (10 ^ 9)) := by
    rw [floorTp_mul hticks hlow hhigh]
    exact Int.mul_ediv_cancel _ (by norm_num)
  obtain ⟨hfound, hfound'⟩ := hdate (floorTp env unit tp) (hdiv ▸ inRange_dayStart_tdiv hlow hhigh)
  obtain ⟨hday, hday'⟩ := hdate tp (inRange_second hlow hhigh)
  rw [hdiv] at hfound'
  have hdays : localDay env (floorTp env unit tp * unit) = localDay env (tp * unit) ↔
      dayStart env ((tp * unit).tdiv (10 ^ 9)) = dayStart env (tp * unit / 10 ^ 9) := by
    rw [hfound', hday']
    constructor
    · intro h
      have hnum := congrArg daysFromCivil h
      rw [daysFromCivil_civilFromDays, daysFromCivil_civilFromDays] at hnum
      simp only [dayStart] at hnum ⊢
      omega
    · intro h
      rw [h]
      refine congrArg civilFromDays ?_
      rw [dayStart]
      omega
  rw [hfound, hday]
  constructor
  · intro h hlate
    have hsame := hdays.mp (dateText_localDay_inj h)
    rw [dayStart_tdiv, if_pos hlate] at hsame
    omega
  · intro hlate
    rw [hdays.mpr (by rw [dayStart_tdiv, if_neg hlate, add_zero])]

end Chrono

end LeonUtils
