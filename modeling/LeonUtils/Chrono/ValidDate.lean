import LeonUtils.Chrono.Fields
import LeonUtils.Chrono.Timespec

/-!
# Valid dates

`valid_date` turns a string into a point in time and back, and compares. A day that does not exist
comes back under its proper name, so that the two differ. A day that exists comes back as it was if
its midnight is a point in time; a `SysTime_t` counts nanoseconds in 64 bits, and the days that this
is too little for come back as some other day, hundreds of years away (`validDate_iff`).

## Main definitions

* `dateOf`, `NamesDay` — the day that eight digits name
* `midnight`, `InRange` — the second in which it begins, and whether it can be counted

## Main results

* `fmtDate_eq` — what is printed is always the name of a day that exists
* `toTimeT_fromTimeT` — the seconds that survive being counted in nanoseconds
* `validDate_iff` — for which days `valid_date` is right
-/

namespace LeonUtils

namespace Chrono

open Text Calendar

/-! ## Eight digits -/

/-- The day that eight digits name, whether it exists or not. -/
def dateOf (s : Str) : Date where
  year := Nat.ofDigitChars 10 (s.take 4) 0
  month := Nat.ofDigitChars 10 ((s.drop 4).take 2) 0
  day := Nat.ofDigitChars 10 (s.drop 6) 0

/-- The string consists of digits, and they name a day of the calendar. -/
def NamesDay (s : Str) : Prop := s.all Char.isDigit = true ∧ (dateOf s).Real

instance (s : Str) : Decidable (NamesDay s) := inferInstanceAs (Decidable (_ ∧ _))

/-- The name of a day. -/
def dateText (x : Date) : Str :=
  padded 4 x.year.toNat ++ (padded 2 x.month.toNat ++ padded 2 x.day.toNat)

/-- The year, the month and the day make up the string. -/
theorem parts_append (s : Str) : s.take 4 ++ ((s.drop 4).take 2 ++ s.drop 6) = s := by
  rw [show s.drop 6 = (s.drop 4).drop 2 by rw [List.drop_drop], List.take_append_drop,
    List.take_append_drop]

/-- Eight digits name one day. -/
theorem dateOf_inj {s t : Str} (hs : s.length = 8) (ht : t.length = 8)
    (hs' : ∀ c ∈ s, c.isDigit = true) (ht' : ∀ c ∈ t, c.isDigit = true)
    (h : dateOf s = dateOf t) : s = t := by
  simp only [dateOf, Date.mk.injEq, Nat.cast_inj] at h
  obtain ⟨hy, hm, hd⟩ := h
  have hyear : s.take 4 = t.take 4 := ofDigitChars_inj
    (fun c hc => hs' c (List.mem_of_mem_take hc)) (fun c hc => ht' c (List.mem_of_mem_take hc))
    (by simp [hs, ht]) hy
  have hmonth : (s.drop 4).take 2 = (t.drop 4).take 2 := ofDigitChars_inj
    (fun c hc => hs' c (List.mem_of_mem_drop (List.mem_of_mem_take hc)))
    (fun c hc => ht' c (List.mem_of_mem_drop (List.mem_of_mem_take hc))) (by simp [hs, ht]) hm
  have hday : s.drop 6 = t.drop 6 := ofDigitChars_inj
    (fun c hc => hs' c (List.mem_of_mem_drop hc)) (fun c hc => ht' c (List.mem_of_mem_drop hc))
    (by simp [hs, ht]) hd
  rw [← parts_append s, ← parts_append t, hyear, hmonth, hday]

/-- The name of a day consists of eight digits, and they name it. -/
theorem dateText_spec {x : Date} (hy : 0 ≤ x.year ∧ x.year ≤ 9999) (hm : 1 ≤ x.month ∧ x.month ≤ 12)
    (hd : 1 ≤ x.day ∧ x.day ≤ 31) :
    (dateText x).length = 8 ∧ (∀ c ∈ dateText x, c.isDigit = true) ∧ dateOf (dateText x) = x := by
  have hy4 : (padded 4 x.year.toNat).length = 4 := length_padded (by norm_num) (by norm_num; omega)
  have hm2 : (padded 2 x.month.toNat).length = 2 := length_padded (by norm_num) (by norm_num; omega)
  have hd2 : (padded 2 x.day.toNat).length = 2 := length_padded (by norm_num) (by norm_num; omega)
  refine ⟨by simp [dateText, hy4, hm2, hd2], ?_, ?_⟩
  · intro c hc
    simp only [dateText, List.mem_append] at hc
    rcases hc with hc | hc | hc <;> exact isDigit_padded hc
  · have hdrop : (dateText x).drop 4 = padded 2 x.month.toNat ++ padded 2 x.day.toNat :=
      List.drop_left' hy4
    have hyear : (dateText x).take 4 = padded 4 x.year.toNat := List.take_left' hy4
    have hday : (dateText x).drop 6 = padded 2 x.day.toNat := by
      rw [show 6 = 4 + 2 from rfl, ← List.drop_drop, hdrop]
      exact List.drop_left' hm2
    ext
    · simp only [dateOf, hyear, ofDigitChars_padded]
      omega
    · simp only [dateOf, hdrop, List.take_left' hm2, ofDigitChars_padded]
      omega
    · simp only [dateOf, hday, ofDigitChars_padded]
      omega

/-! ## There and back -/

/-- The second in which a day begins. -/
def midnight (env : Env) (x : Date) : ℤ := daysFromCivil x * 86400 - env.offset

/-- The second is a point in time: its nanoseconds fit into 64 bits. -/
def InRange (t : ℤ) : Prop := -2 ^ 63 ≤ t * 10 ^ 9 ∧ t * 10 ^ 9 < 2 ^ 63

instance (t : ℤ) : Decidable (InRange t) := inferInstanceAs (Decidable (_ ∧ _))

/-- What `localtime_r` makes of a point in time. -/
def localDay (env : Env) (tp : ℤ) : Date :=
  civilFromDays ((toTimeT (tp / 10 ^ 9) + env.offset) / 86400)

/-- What is stored in 64 bits differs by a multiple of `2 ^ 64`. -/
theorem int64_spec (x : ℤ) :
    ∃ k, int64 x = x - 2 ^ 64 * k ∧ -2 ^ 63 ≤ int64 x ∧ int64 x < 2 ^ 63 := by
  have hdef : int64 x = if x % 2 ^ 64 < 2 ^ 63 then x % 2 ^ 64 else x % 2 ^ 64 - 2 ^ 64 := by
    rw [int64, Int.bmod_def]
    norm_num
  rw [hdef]
  split
  · exact ⟨x / 2 ^ 64, by omega, by omega, by omega⟩
  · exact ⟨x / 2 ^ 64 + 1, by omega, by omega, by omega⟩

/-- Seconds are cut off towards 1970. -/
theorem toTimeT_spec (secs : ℤ) : ∃ r, int64 (secs * 10 ^ 9) = 10 ^ 9 * toTimeT secs + r ∧
    -10 ^ 9 < r ∧ r < 10 ^ 9 ∧ (0 ≤ int64 (secs * 10 ^ 9) → 0 ≤ r) ∧
    (int64 (secs * 10 ^ 9) ≤ 0 → r ≤ 0) := by
  obtain ⟨hsum, hfacts⟩ := tdiv_nsIn1Sec (int64 (secs * 10 ^ 9))
  exact ⟨_, hsum.symm, hfacts⟩

/-- No more seconds than 64 bits of nanoseconds can count. -/
theorem toTimeT_bounds (secs : ℤ) :
    -9223372036 ≤ toTimeT secs ∧ toTimeT secs ≤ 9223372036 := by
  obtain ⟨-, -, hlow, hhigh⟩ := int64_spec (secs * 10 ^ 9)
  obtain ⟨r, hr, hr', hr'', hpos, hneg⟩ := toTimeT_spec secs
  generalize int64 (secs * 10 ^ 9) = x at hlow hhigh hr hpos hneg
  rcases le_total 0 x with h | h
  · have := hpos h
    omega
  · have := hneg h
    omega

/-- What is printed is the name of a day. -/
theorem fmtDate_eq (env : Env) (tp : ℤ) : fmtDate env tp = dateText (localDay env tp) := by
  obtain ⟨hlow, hhigh⟩ := toTimeT_bounds (tp / 10 ^ 9)
  obtain ⟨⟨hy, -⟩, -⟩ := localtime_range env (t := toTimeT (tp / 10 ^ 9)) (by omega) (by omega)
  rw [fmtDate, fmt, mul_one, fmtTmt]
  generalize htm : localtime env (toTimeT (tp / 10 ^ 9)) = tm at hy
  have hformat : fmtTm env tm dateFormat = intText (tm.year + 1900) 0 ' ' ++
      (padded 2 (tm.mon + 1).toNat ++ (padded 2 tm.mday.toNat ++ [])) := rfl
  rw [hformat, intText_year hy, List.append_nil, ← htm]
  simp only [localtime, dateText, localDay, sub_add_cancel]

/-- Every point in time lies in a day that has a name of eight digits. -/
theorem localDay_year (env : Env) (tp : ℤ) :
    0 ≤ (localDay env tp).year ∧ (localDay env tp).year ≤ 9999 := by
  obtain ⟨hlow, hhigh⟩ := toTimeT_bounds (tp / 10 ^ 9)
  obtain ⟨hoff, hoff'⟩ := abs_le.mp env.offset_le
  obtain ⟨hy, hy'⟩ := year_mem
    (show -354285 ≤ (toTimeT (tp / 10 ^ 9) + env.offset) / 86400 by omega) (by omega)
  exact ⟨le_trans (by norm_num) hy, hy'⟩

/-- **The seconds that survive being counted in nanoseconds.** The others come back as seconds of
another day. -/
theorem toTimeT_fromTimeT (t : ℤ) :
    t ≤ toTimeT (fromTimeT t / 10 ^ 9) ∧ toTimeT (fromTimeT t / 10 ^ 9) < t + 86400 ↔
      InRange t := by
  constructor
  · rintro ⟨hle, hlt⟩
    obtain ⟨hT, hT'⟩ := toTimeT_bounds (fromTimeT t / 10 ^ 9)
    by_contra hrange
    -- a second just below the range comes back from its other end
    have hbelow : -9223372036 - 86400 < t ∧ t < -9223372036 := by
      rw [InRange] at hrange
      omega
    obtain ⟨k, hk, hlow, hhigh⟩ := int64_spec (t * 10 ^ 9)
    have hwrap : k = -1 := by omega
    have hfrom : fromTimeT t = t * 10 ^ 9 + 2 ^ 64 := by
      rw [fromTimeT, hk, hwrap]
      omega
    have hsecs : fromTimeT t / 10 ^ 9 = t + 18446744073 := by
      rw [hfrom]
      omega
    rw [hsecs, toTimeT_eq (by omega) (by omega)] at hlt
    omega
  · intro hrange
    have hfrom : fromTimeT t = t * 10 ^ 9 := int64_eq hrange.1 hrange.2
    rw [hfrom, Int.mul_ediv_cancel _ (by norm_num), toTimeT_eq hrange.1 hrange.2]
    omega

/-- The day comes back just when its midnight is a point in time. -/
theorem localDay_midnight (env : Env) {x : Date} (hx : x.Real) :
    localDay env (fromTimeT (midnight env x)) = x ↔ InRange (midnight env x) := by
  rw [← toTimeT_fromTimeT, localDay]
  generalize toTimeT (fromTimeT (midnight env x) / 10 ^ 9) = T
  have hday : civilFromDays ((T + env.offset) / 86400) = x ↔
      (T + env.offset) / 86400 = daysFromCivil x := by
    constructor
    · intro h
      rw [← h, daysFromCivil_civilFromDays]
    · intro h
      rw [h, civilFromDays_daysFromCivil hx]
  rw [hday, midnight]
  omega

/-! ## Eight characters -/

theorem length_behind (n : ℕ) (s : Str) : s.length ≤ (behind n s).length + n := by
  induction n generalizing s with
  | zero => cases s <;> exact le_rfl
  | succ n ih =>
    cases s with
    | nil => exact Nat.zero_le _
    | cons c s =>
      have hle := ih s
      rw [behind]
      split
      · rw [List.length_cons]
        omega
      · exact Nat.le_add_right _ _

theorem length_gap (s : Str) : s.length ≤ (gap s).length + 1 := by
  cases s with
  | nil => exact Nat.zero_le _
  | cons c s =>
    rw [gap]
    split
    · exact Nat.le_succ _
    · exact le_rfl

/-- A string of eight characters goes on where it has to. -/
theorem fits_eight {s : Str} (hlen : s.length = 8) : Fits 4 s := by
  have hfirst := length_behind 4 s
  have hgap := length_gap (behind 4 s)
  have hsecond := length_behind 2 (gap (behind 4 s))
  constructor <;> refine List.ne_nil_of_length_pos ?_ <;> omega

/-- Eight digits are three numbers. -/
theorem threeInts_digits {s : Str} (hlen : s.length = 8) (h : ∀ c ∈ s, c.isDigit = true) :
    threeInts 4 (some s) =
      some ((dateOf s).year, (dateOf s).month, (dateOf s).day, some []) := by
  have hyear : ∀ c ∈ s.take 4, c.isDigit = true := fun c hc => h c (List.mem_of_mem_take hc)
  have hmonth : ∀ c ∈ (s.drop 4).take 2, c.isDigit = true :=
    fun c hc => h c (List.mem_of_mem_drop (List.mem_of_mem_take hc))
  have hday : ∀ c ∈ s.drop 6, c.isDigit = true := fun c hc => h c (List.mem_of_mem_drop hc)
  have hmonth2 : ((s.drop 4).take 2).length = 2 := by simp [hlen]
  have hday2 : (s.drop 6).length = 2 := by simp [hlen]
  have hparts : s = s.take 4 ++ ((s.drop 4).take 2 ++ (s.drop 6 ++ [])) := by
    rw [List.append_nil, parts_append]
  conv_lhs => rw [hparts]
  simp only [threeInts, parseInt_digits (k := 4) (by simp [hlen]) hyear,
    skip_digits (show 0 < ((s.drop 4).take 2).length by omega) hmonth,
    parseInt_digits hmonth2 hmonth, skip_digits (show 0 < (s.drop 6).length by omega) hday,
    parseInt_digits hday2 hday, Option.bind_eq_bind, Option.bind_some, dateOf]

/-- The point in time that eight digits lead to, if they name a day. -/
theorem parseDate_digits (env : Env) {s : Str} (hlen : s.length = 8) (h : NamesDay s) :
    parseDate env (some s) = some (fromTimeT (midnight env (dateOf s))) := by
  obtain ⟨hdigits, hm1, hm12, -, -⟩ := h
  have hdigits := List.all_eq_true.mp hdigits
  have hmidnight : mktime env ⟨0, 0, 0, (dateOf s).day, (dateOf s).month - 1,
      (dateOf s).year - 1900⟩ = midnight env (dateOf s) := by
    have hdate : (⟨(dateOf s).year - 1900 + 1900 + ((dateOf s).month - 1) / 12,
        ((dateOf s).month - 1) % 12 + 1, (dateOf s).day⟩ : Date) = dateOf s := by
      ext <;> simp only <;> omega
    simp only [mktime, midnight, hdate]
    omega
  rw [parseDate, parseDateTm_eq, threeInts_digits hlen hdigits]
  simp only [Option.map_some, Option.bind_eq_bind, Option.bind_some, hmidnight]

/-- **For which days `valid_date` is right.** For every string of eight characters and in every time
zone: it tells whether they are digits that name a day of the calendar, if and only if they are not,
or that day begins within the range of 64-bit nanoseconds. -/
theorem validDate_iff (env : Env) {s : Str} (hlen : s.length = 8) :
    validDate env s = some (decide (NamesDay s)) ↔
      (NamesDay s → InRange (midnight env (dateOf s))) := by
  obtain ⟨tp, htp⟩ := Option.isSome_iff_exists.mp ((parseDate_isSome env s).mpr (fits_eight hlen))
  have hvalid : validDate env s = some (fmtDate env tp == s) := by
    rw [validDate, htp]
    rfl
  obtain ⟨hm1, hm12, hd1, hd31⟩ :=
    civilFromDays_range ((toTimeT (tp / 10 ^ 9) + env.offset) / 86400)
  obtain ⟨htextlen, htextdigits, hdate⟩ :=
    dateText_spec (localDay_year env tp) ⟨hm1, hm12⟩ ⟨hd1, hd31⟩
  have hreal : (localDay env tp).Real := civilFromDays_real _
  rw [hvalid, fmtDate_eq, Option.some.injEq, Bool.eq_iff_iff, beq_iff_eq, decide_eq_true_iff]
  by_cases hday : NamesDay s
  · obtain rfl : fromTimeT (midnight env (dateOf s)) = tp :=
      Option.some.inj ((parseDate_digits env hlen hday).symm.trans htp)
    rw [← localDay_midnight env hday.2, iff_true_right hday, forall_prop_of_true hday]
    constructor
    · intro htext
      rw [← hdate, htext]
    · intro hback
      exact dateOf_inj htextlen hlen htextdigits (List.all_eq_true.mp hday.1)
        (by rw [hdate, hback])
  · -- what is printed names a day
    have hne : dateText (localDay env tp) ≠ s := by
      rintro rfl
      exact hday ⟨List.all_eq_true.mpr htextdigits, by rwa [hdate]⟩
    simp [hday, hne]

/-- 2024 is a leap year. -/
theorem validDate_leap : validDate east8 "20240229".toList = some true :=
  (validDate_iff east8 (by decide)).mpr fun _ => by decide

/-- The last day of the year 9999. -/
theorem not_validDate_9999 : NamesDay "99991231".toList ∧
    validDate east8 "99991231".toList = some false := by
  decide

end Chrono

end LeonUtils
