import LeonUtils.Chrono.Fields

/-!
# The fraction of a second

Behind the point of a time nine characters are read. One that is no digit counts as a zero, and the
loop goes on: a digit that comes after it counts too, and when the string is too short, the loop
reads behind its end. So the fraction is the number that the digits behind the point denote if there
are nine of them, and otherwise only if what follows is long enough and has no digits in the wrong
places (`parseTime_run_iff`).

## Main definitions

* `nanos` — the fraction that digits denote

## Main results

* `fraction_eq_iff` — when what is read counts for nothing
* `parseTime_run_iff` — when a time is read as it is written
-/

namespace LeonUtils

namespace Chrono

open Text

/-- The nanoseconds that the digits behind a point denote; what comes after the ninth is cut off. -/
def nanos (run : Str) : ℕ := Nat.ofDigitChars 10 (run.take 9) 0 * 10 ^ (9 - run.length)

theorem digit_nonneg {c : Char} (h : c.isDigit = true) : 0 ≤ digit c := by
  rw [digit_eq h]
  exact Int.natCast_nonneg _

/-- Only a zero counts for nothing. -/
theorem digit_pos {c : Char} (h : c.isDigit = true) (hne : c ≠ '0') : 0 < digit c := by
  refine lt_of_le_of_ne (digit_nonneg h) fun hzero => hne ?_
  rw [digit] at hzero
  exact Char.toNat_inj.mp (by omega)

/-- Characters that are read later do not make it less. -/
theorem le_fraction {n : ℕ} {r v : ℤ} {s : CharCp} (h : fraction n r s = some v) :
    r * 10 ^ n ≤ v := by
  induction n generalizing r s with
  | zero =>
    rw [fraction, Option.some.injEq] at h
    rw [pow_zero, mul_one, h]
  | succ n ih =>
    obtain ⟨c, -, hrest⟩ := Option.bind_eq_some_iff.mp h
    have hle := ih hrest
    refine le_trans ?_ hle
    rw [pow_succ', ← mul_assoc]
    refine mul_le_mul_of_nonneg_right ?_ (by positivity)
    split
    · rename_i hc
      have := digit_nonneg ((isDigit_iff c).mpr hc)
      omega
    · exact le_rfl

/-- What is read counts for nothing, if it is long enough and has no digit but zeros. -/
theorem fraction_eq_iff (n : ℕ) (r : ℤ) (s : Str) :
    fraction n r (some s) = some (r * 10 ^ n) ↔
      n ≤ s.length + 1 ∧ ∀ c ∈ s.take n, c.isDigit = true → c = '0' := by
  induction n generalizing r s with
  | zero => simp [fraction]
  | succ n ih =>
    have hpow : r * 10 ^ (n + 1) = r * 10 * 10 ^ n := by rw [pow_succ', mul_assoc]
    cases s with
    | nil =>
      rw [fraction_nil]
      by_cases hn : n = 0 <;> simp [hn]
    | cons c s =>
      rw [fraction_cons, hpow, List.length_cons, List.take_succ_cons, List.forall_mem_cons,
        Nat.add_le_add_iff_right]
      by_cases hc : c.isDigit = true
      · by_cases hzero : c = '0'
        · subst hzero
          have hdigit : digit '0' = 0 := by decide
          rw [if_pos hc, hdigit, add_zero, ih]
          simp
        · -- a digit that counts makes it more
          rw [if_pos hc]
          refine ⟨fun hread => ?_, fun hall => absurd (hall.2.1 hc) hzero⟩
          have hle := le_fraction hread
          have hpos := mul_pos (digit_pos hc hzero) (show (0 : ℤ) < 10 ^ n by positivity)
          rw [add_mul] at hle
          omega
      · rw [if_neg hc, ih]
        simp [hc]

/-- Nine digits or more: the first nine are read, and nothing else. -/
theorem fraction_nine {run : Str} (h : ∀ c ∈ run, c.isDigit = true) (hlen : 9 ≤ run.length)
    (rest : Str) : fraction 9 0 (some (run ++ rest)) = some (nanos run : ℤ) := by
  have hfirst : ∀ c ∈ run.take 9, c.isDigit = true := fun c hc => h c (List.mem_of_mem_take hc)
  have hread := fraction_digits hfirst (run.drop 9 ++ rest) 0
  rw [List.length_take, min_eq_left hlen, ← List.append_assoc, List.take_append_drop] at hread
  rw [nanos, Nat.sub_eq_zero_of_le hlen, pow_zero, mul_one]
  exact hread

/-- Fewer digits: what follows has to count for nothing. -/
theorem fraction_few {run : Str} (h : ∀ c ∈ run, c.isDigit = true) (hlen : run.length < 9)
    (rest : Str) : fraction 9 0 (some (run ++ rest)) = some (nanos run : ℤ) ↔
      8 ≤ run.length + rest.length ∧
        ∀ c ∈ rest.take (9 - run.length), c.isDigit = true → c = '0' := by
  have hread := fraction_append h (9 - run.length) 0 rest
  rw [Nat.add_sub_cancel' hlen.le, Nat.cast_zero] at hread
  have hnanos : (nanos run : ℤ) = (Nat.ofDigitChars 10 run 0 : ℕ) * 10 ^ (9 - run.length) := by
    rw [nanos, List.take_of_length_le hlen.le]
    push_cast
    rfl
  rw [hread, hnanos, fraction_eq_iff]
  refine and_congr_left' ?_
  omega

/-- **When a time is read as it is written**: of the digits behind the point, cut off after the
ninth, exactly if there are nine of them, or what follows them is long enough and has no digit but
zeros up to the ninth character. -/
theorem parseTime_run_iff {h m s : ℕ} (hh : h < 10 ^ 2) (hm : m < 10 ^ 2) (hs : s < 10 ^ 2)
    {run rest : Str} (hrun : ∀ c ∈ run, c.isDigit = true) :
    parseTime (some (padded 2 h ++ ':' :: (padded 2 m ++ ':' :: (padded 2 s ++
      '.' :: (run ++ rest))))) = some ((h * 3600 + m * 60 + s) * 10 ^ 9 + nanos run : ℤ) ↔
    9 ≤ run.length ∨ (8 ≤ run.length + rest.length ∧
      ∀ c ∈ rest.take (9 - run.length), c.isDigit = true → c = '0') := by
  have hthree : threeInts 2 (some (padded 2 h ++ ':' :: (padded 2 m ++ ':' :: (padded 2 s ++
      '.' :: (run ++ rest))))) = some ((h : ℤ), (m : ℤ), (s : ℤ), some ('.' :: (run ++ rest))) :=
    threeInts_gaps (show 0 < 2 by decide) hh hm hs (.char ':' (by decide)) (.char ':' (by decide)) _
  rw [parseTime_eq, hthree, Option.bind_some, point_dot]
  have hmap : ∀ x : Option ℤ, x.map ((h * 3600 + m * 60 + s : ℤ) * 10 ^ 9 + ·) =
      some ((h * 3600 + m * 60 + s : ℤ) * 10 ^ 9 + nanos run) ↔ x = some (nanos run : ℤ) := by
    intro x
    rw [Option.map_eq_some_iff]
    constructor
    · rintro ⟨a, rfl, ha⟩
      exact congrArg some (add_left_cancel ha)
    · rintro rfl
      exact ⟨_, rfl, rfl⟩
  rw [hmap]
  by_cases hlen : 9 ≤ run.length
  · exact iff_of_true (fraction_nine hrun hlen rest) (Or.inl hlen)
  · rw [fraction_few hrun (not_le.mp hlen), or_iff_right hlen]

/-- `00:00:05.123456789Z`. -/
theorem parseTime_run_iff_nine : parseTime (some "00:00:05.123456789Z".toList) =
    some 5123456789 :=
  (@parseTime_run_iff 0 0 5 (by norm_num) (by norm_num) (by norm_num) "123456789".toList ['Z']
    (List.all_eq_true.mp (by decide))).mpr (Or.inl (by decide))

/-- A number behind five and a half seconds, and three digits at the end of the string. -/
theorem parseTime_run_wrong :
    parseTime (some "00:00:05.5 1234567".toList) = some 5501234567 ∧
      parseTime (some "00:00:05.5 1234567".toList) ≠ some (5 * 10 ^ 9 + (nanos "5".toList : ℤ)) ∧
      parseTime (some "00:00:05.123".toList) = none := by
  decide

end Chrono

end LeonUtils
