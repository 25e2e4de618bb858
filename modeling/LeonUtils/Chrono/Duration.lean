import LeonUtils.Chrono.Precision
import LeonUtils.Chrono.Timespec

/-!
# Durations as text

`fmt_dura` prints the days, hours, minutes and seconds of a duration. Days, hours and minutes are
only printed if they, or something before them, are greater than zero. Quotients of negative numbers
are negative or zero, so that of a negative duration nothing but the last seconds is printed.

To say what a text stands for it is read back: `addUp` adds the numbers in it, each times what its
letter stands for.

## Main definitions

* `Dura`, `wholeSecs` — durations, and their seconds
* `fmtDura` — the function
* `addUp` — what a text says in all

## Main results

* `addUp_duraText` — what the components add up to
* `fmtDura_adds_iff` — for which durations this is the whole seconds, and which durations are
  printed alike
-/

namespace LeonUtils

namespace Chrono

open Text

/-! ## The function -/

/-- A duration in one of the units. -/
structure Dura where
  unit : TimeUnit
  count : ℤ
  range : Int64Range count

/-- The whole seconds, towards zero. -/
def wholeSecs (dura : Dura) : ℤ := (dura.count * dura.unit.nanos).tdiv (10 ^ 9)

/-- `duration_cast<seconds>( dura ).count()`. -/
def castSecs (dura : Dura) : ℤ :=
  if 10 ^ 9 ≤ dura.unit.nanos then int64 (dura.count * (dura.unit.nanos / 10 ^ 9))
  else dura.count.tdiv (10 ^ 9 / dura.unit.nanos)

/-- `fmt_dura`, from the seconds on. -/
def duraText (secs : ℤ) : Str :=
  let dd := secs.tdiv 86400
  let secs := secs.tmod 86400
  let hh := secs.tdiv 3600
  let secs := secs.tmod 3600
  let mm := secs.tdiv 60
  let secs := secs.tmod 60
  let days := decide (dd > 0)
  let hours := days || decide (hh > 0)
  let minutes := hours || decide (mm > 0)
  (if days then intText dd 0 ' ' ++ "D ".toList else []) ++
    (if hours then intText hh 0 ' ' ++ "H ".toList else []) ++
    (if minutes then intText mm 0 ' ' ++ "M ".toList else []) ++
    (intText secs 0 ' ' ++ "S".toList)

/-- `fmt_dura`. -/
def fmtDura (dura : Dura) : Str := duraText (castSecs dura)

/-! ## What a text says -/

/-- The seconds that a letter stands for. -/
def letterSecs : Char → ℤ
  | 'D' => 86400
  | 'H' => 3600
  | 'M' => 60
  | 'S' => 1
  | _ => 0

/-- The components of a text, added up, with the number that has been read so far. -/
def addUp : Bool → ℕ → Str → ℤ
  | _, _, [] => 0
  | neg, n, c :: s =>
    if c.isDigit then addUp neg (10 * n + (c.toNat - '0'.toNat)) s
    else if c = '-' then addUp true n s
    else (if neg then -(n : ℤ) else n) * letterSecs c + addUp false 0 s

theorem addUp_digits {ds : Str} (h : ∀ c ∈ ds, c.isDigit = true) (neg : Bool) (n : ℕ) (s : Str) :
    addUp neg n (ds ++ s) = addUp neg (Nat.ofDigitChars 10 ds n) s := by
  induction ds generalizing n with
  | nil => rw [List.nil_append, Nat.ofDigitChars_nil]
  | cons c ds ih =>
    obtain ⟨hc, hds⟩ := List.forall_mem_cons.mp h
    rw [List.cons_append, addUp, if_pos hc, ih hds, Nat.ofDigitChars_cons]

/-- A component, and what follows it. -/
theorem addUp_component (v : ℤ) {c : Char} (hc : c.isDigit = false) (hminus : c ≠ '-') (s : Str) :
    addUp false 0 (intText v 0 ' ' ++ c :: s) = v * letterSecs c + addUp false 0 s := by
  have hdigits : ∀ c ∈ Nat.toDigits 10 v.natAbs, c.isDigit = true := fun c => isDigit_toDigits
  have hc' : ¬ c.isDigit = true := by rw [hc]; decide
  rw [intText_plain, List.append_assoc]
  by_cases hneg : v < 0
  · have habs : -(v.natAbs : ℤ) = v := by omega
    rw [if_pos hneg, List.singleton_append, addUp, if_neg (by decide), if_pos rfl,
      addUp_digits hdigits, Nat.ofDigitChars_ten_toDigits, addUp, if_neg hc', if_neg hminus,
      if_pos rfl, habs]
  · have habs : (v.natAbs : ℤ) = v := by omega
    rw [if_neg hneg, List.nil_append, addUp_digits hdigits, Nat.ofDigitChars_ten_toDigits, addUp,
      if_neg hc', if_neg hminus, if_neg Bool.false_ne_true, habs]

/-! ## What is printed -/

theorem addUp_blank (s : Str) : addUp false 0 (' ' :: s) = addUp false 0 s := by
  rw [addUp, if_neg (by decide), if_neg (by decide), letterSecs, mul_zero, zero_add]
  · decide
  · decide
  · decide
  · decide

/-- A component that is printed or left out. -/
theorem addUp_ite (b : Bool) (v : ℤ) {c : Char} (hc : c.isDigit = false) (hminus : c ≠ '-')
    (s : Str) : addUp false 0 ((if b then intText v 0 ' ' ++ [c, ' '] else []) ++ s) =
      (if b then v * letterSecs c else 0) + addUp false 0 s := by
  cases b with
  | false => exact (zero_add _).symm
  | true =>
    rw [if_pos rfl, if_pos rfl, List.append_assoc]
    show addUp false 0 (intText v 0 ' ' ++ c :: (' ' :: s)) = _
    rw [addUp_component v hc hminus, addUp_blank]

/-- Of seconds that are not positive only the last ones are printed. -/
theorem duraText_of_nonpos {secs : ℤ} (h : secs ≤ 0) :
    duraText secs = intText (secs.tmod 60) 0 ' ' ++ ['S'] := by
  obtain ⟨hd, hd86400, -, -, hd'⟩ := tdiv_tmod (m := 86400) (by norm_num) secs
  obtain ⟨hh, hh3600, -, -, hh'⟩ := tdiv_tmod (m := 3600) (by norm_num) (secs.tmod 86400)
  obtain ⟨hm, hm60, -, -, -⟩ := tdiv_tmod (m := 60) (by norm_num) ((secs.tmod 86400).tmod 3600)
  have hdays : decide (secs.tdiv 86400 > 0) = false := decide_eq_false (by omega)
  have hhours : decide ((secs.tmod 86400).tdiv 3600 > 0) = false := decide_eq_false (by omega)
  have hminutes : decide (((secs.tmod 86400).tmod 3600).tdiv 60 > 0) = false :=
    decide_eq_false (by omega)
  have hsecs : ((secs.tmod 86400).tmod 3600).tmod 60 = secs.tmod 60 := by
    rw [Int.tmod_tmod_of_dvd _ (by norm_num), Int.tmod_tmod_of_dvd _ (by norm_num)]
  simp only [duraText, hdays, hhours, hminutes, hsecs, Bool.or_false, Bool.false_eq_true, if_false,
    List.nil_append]
  rfl

/-- **What the components add up to**: the seconds, if they are positive. -/
theorem addUp_duraText (secs : ℤ) :
    addUp false 0 (duraText secs) = if secs ≤ 0 then secs.tmod 60 else secs := by
  split
  · rename_i h
    rw [duraText_of_nonpos h, addUp_component _ rfl (by decide), letterSecs, addUp, mul_one,
      add_zero]
  · rename_i h
    obtain ⟨hdays, -, hdays', hrest, -⟩ := tdiv_tmod (m := 86400) (by norm_num) secs
    obtain ⟨hhours, -, hhours', hrest', -⟩ :=
      tdiv_tmod (m := 3600) (by norm_num) (secs.tmod 86400)
    obtain ⟨hminutes, -, hminutes', hrest'', -⟩ :=
      tdiv_tmod (m := 60) (by norm_num) ((secs.tmod 86400).tmod 3600)
    have hlast := addUp_component (((secs.tmod 86400).tmod 3600).tmod 60) (c := 'S') rfl
      (by decide) []
    rw [duraText]
    generalize secs.tdiv 86400 = dd at *
    generalize (secs.tmod 86400).tdiv 3600 = hh at *
    generalize ((secs.tmod 86400).tmod 3600).tdiv 60 = mm at *
    generalize ((secs.tmod 86400).tmod 3600).tmod 60 = ss at *
    simp only [List.append_assoc]
    refine (addUp_ite _ dd (c := 'D') rfl (by decide) _).trans ?_
    refine (congrArg _ (addUp_ite _ hh (c := 'H') rfl (by decide) _)).trans ?_
    refine (congrArg _ (congrArg _ (addUp_ite _ mm (c := 'M') rfl (by decide) _))).trans ?_
    refine (congrArg _ (congrArg _ (congrArg _ hlast))).trans ?_
    simp only [letterSecs, addUp, Bool.or_eq_true, decide_eq_true_eq]
    split <;> split <;> split <;> omega

/-! ## Durations -/

/-- The seconds of a fine unit are in range. -/
theorem tdiv_range {x k : ℤ} (hk : 0 < k) (h : Int64Range x) : Int64Range (x.tdiv k) := by
  obtain ⟨hx, hlow, hhigh, -, -⟩ := tdiv_tmod hk x
  obtain ⟨hxlow, hxhigh⟩ := h
  constructor
  · by_contra hneg
    have hmul : k * x.tdiv k ≤ k * (-2 ^ 63 - 1) := Int.mul_le_mul_of_nonneg_left (by omega) hk.le
    norm_num at *
    omega
  · by_contra hneg
    have hmul : k * 2 ^ 63 ≤ k * x.tdiv k := Int.mul_le_mul_of_nonneg_left (by omega) hk.le
    norm_num at *
    omega

/-- The cast gives the whole seconds, in 64 bits. -/
theorem castSecs_eq (dura : Dura) : castSecs dura = int64 (wholeSecs dura) := by
  obtain ⟨unit, count, hrange⟩ := dura
  rw [castSecs, wholeSecs]
  dsimp only
  rcases unit.nanos_cases with ⟨hcoarse, hsecond⟩ | ⟨hfine, k, hk, h0, -, hpos, hsecond⟩
  · rw [if_pos hcoarse]
    conv_rhs => rw [← hsecond, ← mul_assoc, Int.mul_tdiv_cancel _ (by norm_num)]
  · have hquot : (count * unit.nanos).tdiv (10 ^ 9) = count.tdiv k := by
      rw [← hsecond, Int.mul_tdiv_mul_of_pos_left _ _ hpos]
    obtain ⟨hlow, hhigh⟩ := tdiv_range h0 hrange
    rw [if_neg hfine, hk, hquot, int64_eq hlow hhigh]

theorem int64_range (x : ℤ) : Int64Range (int64 x) := by
  constructor
  · have hle := Int.le_bmod (x := x) (m := 2 ^ 64) (by norm_num)
    norm_num at hle ⊢
    exact hle
  · have hlt := Int.bmod_lt (x := x) (m := 2 ^ 64) (by norm_num)
    norm_num at hlt ⊢
    exact hlt

theorem tmod_minute {x : ℤ} (h : x ≤ 0) : -60 < x.tmod 60 ∧ x.tmod 60 ≤ 0 := by
  obtain ⟨-, hlow, -, -, hle⟩ := tdiv_tmod (m := 60) (by norm_num) x
  exact ⟨hlow, hle h⟩

/-- The components add up just if nothing but seconds is there to be printed, or the duration is
positive. -/
theorem fmtDura_adds (dura : Dura) : addUp false 0 (fmtDura dura) = wholeSecs dura ↔
    -60 < wholeSecs dura ∧ wholeSecs dura < 2 ^ 63 := by
  obtain ⟨hlow, hhigh⟩ := int64_range (wholeSecs dura)
  rw [fmtDura, castSecs_eq, addUp_duraText]
  constructor
  · intro h
    split at h
    · rename_i hle
      obtain ⟨hmod, hmod'⟩ := tmod_minute hle
      exact ⟨by omega, by norm_num; omega⟩
    · exact ⟨by omega, by omega⟩
  · rintro ⟨h60, h63⟩
    rw [int64_eq (by norm_num; omega) h63]
    split
    · obtain ⟨hdiv, hmod, -, -, hmod'⟩ := tdiv_tmod (m := 60) (by norm_num) (wholeSecs dura)
      omega
    · rfl

/-- Seconds that are printed alike: equal ones, and two that are not positive and leave the same
remainder of a minute. -/
def Alike (x y : ℤ) : Prop := x = y ∨ (x ≤ 0 ∧ y ≤ 0 ∧ x.tmod 60 = y.tmod 60)

instance (x y : ℤ) : Decidable (Alike x y) := inferInstanceAs (Decidable (_ ∨ _))

theorem duraText_eq_iff (x y : ℤ) : duraText x = duraText y ↔ Alike x y := by
  constructor
  · intro h
    have hadd := congrArg (addUp false 0) h
    rw [addUp_duraText, addUp_duraText] at hadd
    split at hadd <;> split at hadd
    · rename_i hx hy
      exact Or.inr ⟨hx, hy, hadd⟩
    · rename_i hx hy
      exact absurd (hadd ▸ (tmod_minute hx).2) hy
    · rename_i hx hy
      exact absurd (hadd ▸ (tmod_minute hy).2) hx
    · exact Or.inl hadd
  · rintro (rfl | ⟨hx, hy, hmod⟩)
    · rfl
    · rw [duraText_of_nonpos hx, duraText_of_nonpos hy, hmod]

/-- **The components of a duration** add up to its whole seconds just if these are more than minus a
minute, and less than `2 ^ 63`. Two durations with different whole seconds are printed differently
just if these, in 64 bits, are not `Alike`. -/
theorem fmtDura_adds_iff (d e : Dura) :
    (addUp false 0 (fmtDura d) = wholeSecs d ↔ -60 < wholeSecs d ∧ wholeSecs d < 2 ^ 63) ∧
      (wholeSecs d ≠ wholeSecs e →
        (fmtDura d ≠ fmtDura e ↔ ¬ Alike (int64 (wholeSecs d)) (int64 (wholeSecs e)))) := by
  refine ⟨fmtDura_adds d, fun _ => not_congr ?_⟩
  rw [fmtDura, fmtDura, castSecs_eq, castSecs_eq, duraText_eq_iff]

/-- An hour, and a minute more. -/
theorem fmtDura_adds_iff_hour :
    addUp false 0 (fmtDura ⟨.hours, 1, by decide⟩) = 3600 ∧
      fmtDura ⟨.hours, 1, by decide⟩ ≠ fmtDura ⟨.minutes, 61, by decide⟩ :=
  ⟨(fmtDura_adds_iff ⟨.hours, 1, by decide⟩ ⟨.minutes, 61, by decide⟩).1.mpr (by decide),
    ((fmtDura_adds_iff ⟨.hours, 1, by decide⟩ ⟨.minutes, 61, by decide⟩).2 (by decide)).mpr
      (by decide)⟩

/-- Minus one hour, which is printed as nothing at all is. -/
theorem not_fmtDura_adds :
    addUp false 0 (fmtDura ⟨.hours, -1, by decide⟩) ≠ wholeSecs ⟨.hours, -1, by decide⟩ ∧
      fmtDura ⟨.hours, -1, by decide⟩ = fmtDura ⟨.ss, 0, by decide⟩ ∧
      wholeSecs ⟨.hours, -1, by decide⟩ ≠ wholeSecs ⟨.ss, 0, by decide⟩ := by
  decide

end Chrono

end LeonUtils
