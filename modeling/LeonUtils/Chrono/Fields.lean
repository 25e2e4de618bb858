import LeonUtils.Chrono.Parse

/-!
# Where the parsers of dates and times end

All of them read three numbers, the first of four digits or of two, and step over one character
between two numbers if it is no digit. The NUL is no digit. Where a string ends in the place of such
a character, its end is stepped over, and the next number is read behind it (`inside_iff`). The
fraction of a second is nine characters long wherever the string ends.

Of a string that does not end there, the numbers are what their digits say, whatever stands between
them (`datetime_gaps`).

## Main definitions

* `parseTimeTm`, `parseDate`, `parseDatetimeTm`, `validDate` — the functions that are not in
  `Chrono.Parse`
* `threeInts` — what they have in common
* `Parser`, `Parser.Safe`, `Parser.Fits` — all of them, and when they stay inside the string
* `Gap` — what may stand between two numbers

## Main results

* `threeInts_of_fits`, `threeInts_eq_none` — what three numbers leave of a string
* `inside_iff` — a parser stays inside the string just when the string fits
* `datetime_gaps` — the numbers that a `tm` gets, with anything in the gaps
-/

namespace LeonUtils

namespace Chrono

open Text

/-! ## The code -/

/-- `parse_time`, into a `tm`. -/
def parseTimeTm (tm : Tm) (s : CharCp) : Option (Tm × CharCp) := do
  let (hour, s) ← parseInt s 2
  let s ← skip s
  let (min, s) ← parseInt s 2
  let s ← skip s
  let (sec, s) ← parseInt s 2
  some ({ tm with hour, min, sec }, s)

/-- `parse_date`. -/
def parseDate (env : Env) (s : CharCp) : Option ℤ := do
  let (tm1, _) ← parseDateTm {} s
  some (fromTimeT (mktime env tm1))

/-- `parse_datetime`, into a `tm`. -/
def parseDatetimeTm (tm : Tm) (s : CharCp) : Option (Tm × CharCp) := do
  let (tm, s) ← parseDateTm tm s
  let s ← skip s
  parseTimeTm tm s

def dateFormat : Str := "%Y%m%d".toList

/-- `fmt_date`, for a time point in nanoseconds. -/
def fmtDate (env : Env) (tp : ℤ) : Str := fmt env 1 tp dateFormat

/-- `valid_date`. -/
def validDate (env : Env) (s : Str) : Option Bool := do
  let tp ← parseDate env (some s)
  some (fmtDate env tp == s)

/-! ## Three numbers -/

/-- Three numbers, and what may stand between them. -/
def threeInts (n : ℕ) (s : CharCp) : Option (ℤ × ℤ × ℤ × CharCp) := do
  let (a, s) ← parseInt s n
  let s ← skip s
  let (b, s) ← parseInt s 2
  let s ← skip s
  let (c, s) ← parseInt s 2
  some (a, b, c, s)

theorem parseDateTm_eq (tm : Tm) (s : CharCp) : parseDateTm tm s =
    (threeInts 4 s).map fun x =>
      ({ tm with year := x.1 - 1900, mon := x.2.1 - 1, mday := x.2.2.1 }, x.2.2.2) := by
  simp only [parseDateTm, threeInts, Option.bind_eq_bind, Option.map_bind, Function.comp_def,
    Option.map_some]

theorem parseTimeTm_eq (tm : Tm) (s : CharCp) : parseTimeTm tm s =
    (threeInts 2 s).map fun x =>
      ({ tm with hour := x.1, min := x.2.1, sec := x.2.2.1 }, x.2.2.2) := by
  simp only [parseTimeTm, threeInts, Option.bind_eq_bind, Option.map_bind, Function.comp_def,
    Option.map_some]

/-- The fraction, if there is a point. -/
def point (result : ℤ) (s : CharCp) : Option ℤ := do
  let c ← s.deref
  if c ≠ '.' then some result
  else do
    let nanos ← fraction 9 0 s.next
    some (result + nanos)

theorem parseTime_eq (s : CharCp) : parseTime s =
    (threeInts 2 s).bind fun x =>
      point ((x.1 * 3600 + x.2.1 * 60 + x.2.2.1) * 10 ^ 9) x.2.2.2 := by
  simp only [parseTime, threeInts, point, Option.bind_eq_bind, Option.bind_assoc,
    Option.bind_some]

/-- What is left of a string behind a number of at most `n` digits. -/
def behind : ℕ → Str → Str
  | n + 1, c :: s => if c.isDigit then behind n s else c :: s
  | _, s => s

/-- What is left of a string behind a character that is no digit, if it begins with one. -/
def gap : Str → Str
  | c :: s => if c.isDigit then c :: s else s
  | [] => []

/-- What is left of a string behind three numbers. -/
def behindThree (n : ℕ) (s : Str) : Str := behind 2 (gap (behind 2 (gap (behind n s))))

/-- The string goes on behind the first of three numbers, and behind the second. -/
def Fits (n : ℕ) (s : Str) : Prop := behind n s ≠ [] ∧ behind 2 (gap (behind n s)) ≠ []

instance (n : ℕ) (s : Str) : Decidable (Fits n s) := inferInstanceAs (Decidable (_ ∧ _))

theorem behind_suffix (n : ℕ) (s : Str) : behind n s <:+ s := by
  induction n generalizing s with
  | zero => cases s <;> exact List.suffix_rfl
  | succ n ih =>
    cases s with
    | nil => exact List.suffix_rfl
    | cons c s =>
      rw [behind]
      split
      · exact (ih s).trans (List.suffix_cons c s)
      · exact List.suffix_rfl

theorem gap_suffix (s : Str) : gap s <:+ s := by
  cases s with
  | nil => exact List.suffix_rfl
  | cons c s =>
    rw [gap]
    split
    · exact List.suffix_rfl
    · exact List.suffix_cons c s

theorem behindThree_suffix (n : ℕ) (s : Str) : behindThree n s <:+ s :=
  (behind_suffix 2 _).trans <| (gap_suffix _).trans <| (behind_suffix 2 _).trans <|
    (gap_suffix _).trans (behind_suffix n s)

/-- A number ends inside the string. -/
theorem parseIntFrom_some (n : ℕ) (r : ℤ) (s : Str) :
    ∃ v, parseIntFrom n r (some s) = some (v, some (behind n s)) := by
  induction n generalizing r s with
  | zero => cases s <;> exact ⟨r, rfl⟩
  | succ n ih =>
    cases s with
    | nil => exact ⟨r, rfl⟩
    | cons c s =>
      by_cases hc : c.isDigit
      · obtain ⟨v, hv⟩ := ih (r * 10 + digit c) s
        refine ⟨v, ?_⟩
        simp only [parseIntFrom, CharCp.deref, CharCp.next, Option.bind_eq_bind, Option.bind_some,
          hc, Bool.not_true, Bool.false_eq_true, if_false, hv, behind, if_true]
      · refine ⟨r, ?_⟩
        simp only [parseIntFrom, CharCp.deref, Option.bind_eq_bind, Option.bind_some, hc,
          Bool.not_false, if_true, behind, Bool.false_eq_true, if_false]

theorem parseInt_some (n : ℕ) (s : Str) :
    ∃ v, parseInt (some s) n = some (v, some (behind n s)) := parseIntFrom_some n 0 s

/-- Behind the string there is no number. -/
theorem parseInt_none {n : ℕ} (hn : 0 < n) : parseInt none n = none := by
  obtain ⟨n, rfl⟩ := Nat.exists_eq_add_of_le' hn
  rfl

theorem isDigit_not_iff (c : Char) : c.isDigit = false ↔ c < '0' ∨ c > '9' := by
  rw [← Bool.not_eq_true, isDigit_iff, not_and_or, ge_iff_le, Char.not_le, Char.not_le]

/-- A string that goes on is not left. -/
theorem skip_some {s : Str} (hs : s ≠ []) : skip (some s) = some (some (gap s)) := by
  obtain ⟨c, s, rfl⟩ := List.exists_cons_of_ne_nil hs
  simp only [skip, CharCp.deref, CharCp.next, Option.bind_eq_bind, Option.bind_some, gap,
    ← isDigit_not_iff]
  cases c.isDigit <;> rfl

/-- The end of a string is stepped over. -/
theorem skip_nil : skip (some []) = some none := by
  have hzero : Char.ofNat 0 < '0' := by decide
  simp [skip, CharCp.deref, CharCp.next, hzero]

/-- Three numbers in a string that fits. -/
theorem threeInts_of_fits {n : ℕ} {s : Str} (h : Fits n s) :
    ∃ a b c, threeInts n (some s) = some (a, b, c, some (behindThree n s)) := by
  obtain ⟨a, ha⟩ := parseInt_some n s
  obtain ⟨b, hb⟩ := parseInt_some 2 (gap (behind n s))
  obtain ⟨c, hc⟩ := parseInt_some 2 (gap (behind 2 (gap (behind n s))))
  refine ⟨a, b, c, ?_⟩
  simp only [threeInts, ha, hb, hc, skip_some h.1, skip_some h.2, Option.bind_eq_bind,
    Option.bind_some, behindThree]

/-- In another string there are no three numbers. -/
theorem threeInts_eq_none {n : ℕ} {s : Str} (h : ¬ Fits n s) : threeInts n (some s) = none := by
  obtain ⟨a, ha⟩ := parseInt_some n s
  obtain ⟨b, hb⟩ := parseInt_some 2 (gap (behind n s))
  have hbehind := parseInt_none (show 0 < 2 by decide)
  by_cases hfirst : behind n s = []
  · simp only [threeInts, ha, hfirst, skip_nil, hbehind, Option.bind_eq_bind, Option.bind_some,
      Option.bind_none]
  · have hsecond : behind 2 (gap (behind n s)) = [] := by
      by_contra hne
      exact h ⟨hfirst, hne⟩
    rw [hsecond] at hb
    simp only [threeInts, ha, skip_some hfirst, hb, skip_nil, hbehind, Option.bind_eq_bind,
      Option.bind_some, Option.bind_none]

/-! ## Inside the string -/

/-- The functions that read a date or a time, each in its two forms, and `valid_date`. -/
inductive Parser
  | timeTm
  | time
  | dateTm
  | date
  | datetimeTm
  | datetime
  | validDate

/-- The function reads nothing behind the NUL of `s`, and a pointer that it returns points into `s`
or to its NUL. -/
def Parser.Safe (env : Env) (s : Str) : Parser → Prop
  | timeTm => ∀ tm, ∃ tm' rest, parseTimeTm tm (some s) = some (tm', some rest) ∧ rest <:+ s
  | time => (parseTime (some s)).isSome
  | dateTm => ∀ tm, ∃ tm' rest, parseDateTm tm (some s) = some (tm', some rest) ∧ rest <:+ s
  | date => (parseDate env (some s)).isSome
  | datetimeTm =>
    ∀ tm, ∃ tm' rest, parseDatetimeTm tm (some s) = some (tm', some rest) ∧ rest <:+ s
  | datetime => (parseDatetime env (some s)).isSome
  | validDate => (Chrono.validDate env s).isSome

/-- What follows is no point, or a point and at least eight characters. -/
def PointFits (s : Str) : Prop := ∀ rest, s = '.' :: rest → 8 ≤ rest.length

/-- A date, something behind it, and a time behind that. -/
def DatetimeFits (s : Str) : Prop :=
  Fits 4 s ∧ behindThree 4 s ≠ [] ∧ Fits 2 (gap (behindThree 4 s))

/-- The string goes on in all places where a character may be stepped over, and long enough behind
a point. -/
def Parser.Fits (s : Str) : Parser → Prop
  | timeTm => Chrono.Fits 2 s
  | time => Chrono.Fits 2 s ∧ PointFits (behindThree 2 s)
  | dateTm | date | validDate => Chrono.Fits 4 s
  | datetimeTm => DatetimeFits s
  | datetime => DatetimeFits s ∧ PointFits (behindThree 2 (gap (behindThree 4 s)))

/-- Nine characters are read, the NUL at most as the last of them. -/
theorem fraction_isSome (n : ℕ) (r : ℤ) (s : Str) :
    (fraction n r (some s)).isSome ↔ n ≤ s.length + 1 := by
  induction n generalizing r s with
  | zero => simp [fraction]
  | succ n ih =>
    cases s with
    | nil =>
      rw [fraction_nil]
      by_cases hn : n = 0 <;> simp [hn]
    | cons c s =>
      rw [fraction_cons, ih, List.length_cons]
      omega

/-- Behind a point there is a fraction. -/
theorem point_dot (result : ℤ) (s : Str) :
    point result (some ('.' :: s)) = (fraction 9 0 (some s)).map (result + ·) := by
  rw [Option.map_eq_bind]
  rfl

theorem point_isSome (result : ℤ) (s : Str) : (point result (some s)).isSome ↔ PointFits s := by
  cases s with
  | nil => simp [point, CharCp.deref, PointFits]
  | cons c s =>
    by_cases hc : c = '.'
    · subst hc
      rw [point_dot, Option.isSome_map, fraction_isSome]
      simp only [PointFits, List.cons.injEq, true_and, forall_eq']
      omega
    · simp [point, CharCp.deref, PointFits, hc]

section Safe

variable (env : Env) (tm : Tm) (s : Str)

/-- Three numbers are read inside the string, or not at all. -/
theorem map_threeInts_safe (n : ℕ) (f : ℤ × ℤ × ℤ × CharCp → Tm) :
    (∃ tm' rest, (threeInts n (some s)).map (fun x => (f x, x.2.2.2)) = some (tm', some rest) ∧
      rest <:+ s) ↔ Fits n s := by
  constructor
  · rintro ⟨tm', rest, hread, -⟩
    by_contra hfits
    rw [threeInts_eq_none hfits] at hread
    cases hread
  · intro hfits
    obtain ⟨a, b, c, hthree⟩ := threeInts_of_fits hfits
    rw [hthree]
    exact ⟨_, _, rfl, behindThree_suffix n s⟩

theorem parseTimeTm_safe : (∃ tm' rest, parseTimeTm tm (some s) = some (tm', some rest) ∧
    rest <:+ s) ↔ Fits 2 s := by
  rw [parseTimeTm_eq]
  exact map_threeInts_safe s 2 _

theorem parseDateTm_safe : (∃ tm' rest, parseDateTm tm (some s) = some (tm', some rest) ∧
    rest <:+ s) ↔ Fits 4 s := by
  rw [parseDateTm_eq]
  exact map_threeInts_safe s 4 _

theorem parseDateTm_of_fits (h : Fits 4 s) :
    ∃ tm', parseDateTm tm (some s) = some (tm', some (behindThree 4 s)) := by
  obtain ⟨a, b, c, hthree⟩ := threeInts_of_fits h
  rw [parseDateTm_eq, hthree]
  exact ⟨_, rfl⟩

theorem parseDateTm_eq_none (h : ¬ Fits 4 s) : parseDateTm tm (some s) = none := by
  rw [parseDateTm_eq, threeInts_eq_none h, Option.map_none]

theorem parseTime_isSome :
    (parseTime (some s)).isSome ↔ Fits 2 s ∧ PointFits (behindThree 2 s) := by
  rw [parseTime_eq]
  by_cases hfits : Fits 2 s
  · obtain ⟨a, b, c, hthree⟩ := threeInts_of_fits hfits
    rw [hthree, Option.bind_some, point_isSome]
    exact (and_iff_right hfits).symm
  · rw [threeInts_eq_none hfits]
    simp [hfits]

theorem parseDate_isSome : (parseDate env (some s)).isSome ↔ Fits 4 s := by
  rw [parseDate]
  by_cases hfits : Fits 4 s
  · obtain ⟨tm', hparse⟩ := parseDateTm_of_fits {} s hfits
    simp [hparse, hfits]
  · simp [parseDateTm_eq_none {} s hfits, hfits]

theorem validDate_isSome : (validDate env s).isSome ↔ Fits 4 s := by
  rw [← parseDate_isSome env, validDate]
  cases parseDate env (some s) <;> rfl

/-- A date and a time, if the string goes on behind the date. -/
theorem parseDatetimeTm_of_date (h : Fits 4 s) (hbehind : behindThree 4 s ≠ []) :
    ∃ tm', parseDatetimeTm tm (some s) = parseTimeTm tm' (some (gap (behindThree 4 s))) := by
  obtain ⟨tm', hparse⟩ := parseDateTm_of_fits tm s h
  refine ⟨tm', ?_⟩
  simp only [parseDatetimeTm, hparse, skip_some hbehind, Option.bind_eq_bind, Option.bind_some]

theorem parseDatetimeTm_eq_none (h : Fits 4 s → behindThree 4 s = []) :
    parseDatetimeTm tm (some s) = none := by
  by_cases hfits : Fits 4 s
  · obtain ⟨tm', hparse⟩ := parseDateTm_of_fits tm s hfits
    simp only [parseDatetimeTm, hparse, h hfits, skip_nil, Option.bind_eq_bind, Option.bind_some]
    rfl
  · simp only [parseDatetimeTm, parseDateTm_eq_none tm s hfits, Option.bind_eq_bind,
      Option.bind_none]

theorem parseDatetime_of_date (h : Fits 4 s) (hbehind : behindThree 4 s ≠ []) :
    ∃ date, parseDatetime env (some s) =
      (parseTime (some (gap (behindThree 4 s)))).map fun time => int64 (date + time) := by
  obtain ⟨tm', hparse⟩ := parseDateTm_of_fits {} s h
  refine ⟨fromTimeT (mktime env tm'), ?_⟩
  simp only [parseDatetime, hparse, skip_some hbehind, Option.bind_eq_bind, Option.bind_some,
    Option.map_eq_bind, Function.comp_def]

theorem parseDatetime_eq_none (h : Fits 4 s → behindThree 4 s = []) :
    parseDatetime env (some s) = none := by
  by_cases hfits : Fits 4 s
  · obtain ⟨tm', hparse⟩ := parseDateTm_of_fits {} s hfits
    simp only [parseDatetime, hparse, h hfits, skip_nil, Option.bind_eq_bind, Option.bind_some]
    rfl
  · simp only [parseDatetime, parseDateTm_eq_none {} s hfits, Option.bind_eq_bind,
      Option.bind_none]

theorem parseDatetimeTm_safe : (∃ tm' rest, parseDatetimeTm tm (some s) = some (tm', some rest) ∧
    rest <:+ s) ↔ DatetimeFits s := by
  by_cases hdate : Fits 4 s ∧ behindThree 4 s ≠ []
  · obtain ⟨tm', hparse⟩ := parseDatetimeTm_of_date tm s hdate.1 hdate.2
    rw [hparse, DatetimeFits, and_iff_right hdate.1, and_iff_right hdate.2]
    constructor
    · rintro ⟨tm'', rest, hrest, -⟩
      by_contra hfits
      rw [parseTimeTm_eq, threeInts_eq_none hfits] at hrest
      cases hrest
    · intro hfits
      obtain ⟨tm'', rest, hrest, hsuffix⟩ := (parseTimeTm_safe tm' _).mpr hfits
      exact ⟨tm'', rest, hrest, hsuffix.trans ((gap_suffix _).trans (behindThree_suffix 4 s))⟩
  · rw [parseDatetimeTm_eq_none tm s fun hfits => not_not.mp fun hne => hdate ⟨hfits, hne⟩]
    exact ⟨by rintro ⟨_, _, ⟨⟩, _⟩, fun hfits => absurd ⟨hfits.1, hfits.2.1⟩ hdate⟩

theorem parseDatetime_isSome : (parseDatetime env (some s)).isSome ↔
    DatetimeFits s ∧ PointFits (behindThree 2 (gap (behindThree 4 s))) := by
  by_cases hdate : Fits 4 s ∧ behindThree 4 s ≠ []
  · obtain ⟨date, hparse⟩ := parseDatetime_of_date env s hdate.1 hdate.2
    rw [hparse, Option.isSome_map, parseTime_isSome, DatetimeFits, and_iff_right hdate.1,
      and_iff_right hdate.2]
  · rw [parseDatetime_eq_none env s fun hfits => not_not.mp fun hne => hdate ⟨hfits, hne⟩]
    exact ⟨by rintro ⟨⟩, fun hfits => absurd ⟨hfits.1.1, hfits.1.2.1⟩ hdate⟩

end Safe

/-- **A parser stays inside the string just when the string fits**: when it goes on behind each
number that a character may be stepped over after, and has eight characters or more behind a
point. -/
theorem inside_iff (env : Env) (s : Str) (p : Parser) : p.Safe env s ↔ p.Fits s := by
  cases p with
  | timeTm => exact ⟨fun h => (parseTimeTm_safe {} s).mp (h {}),
      fun h tm => (parseTimeTm_safe tm s).mpr h⟩
  | time => exact parseTime_isSome s
  | dateTm => exact ⟨fun h => (parseDateTm_safe {} s).mp (h {}),
      fun h tm => (parseDateTm_safe tm s).mpr h⟩
  | date => exact parseDate_isSome env s
  | datetimeTm => exact ⟨fun h => (parseDatetimeTm_safe {} s).mp (h {}),
      fun h tm => (parseDatetimeTm_safe tm s).mpr h⟩
  | datetime => exact parseDatetime_isSome env s
  | validDate => exact validDate_isSome env s

/-- An empty string is no date, and `valid_date` reads behind it. -/
theorem not_safe_empty : ¬ Parser.Safe east8 [] .validDate := by
  rw [Parser.Safe, validDate_isSome]
  decide

/-! ## Anything between the numbers -/

/-- What may stand between two numbers: nothing, or one character that is no digit. -/
def Gap : Type := { o : Option Char // ∀ c ∈ o, c.isDigit = false ∧ c ≠ '\x00' }

/-- No character. -/
def Gap.nothing : Gap := ⟨none, by simp⟩

/-- One character. -/
def Gap.char (c : Char) (h : c.isDigit = false ∧ c ≠ '\x00') : Gap := ⟨some c, by simpa using h⟩

def Gap.text (g : Gap) : Str := g.1.toList

/-- Digits are not stepped over. -/
theorem skip_digits {ds : Str} (hpos : 0 < ds.length) (h : ∀ c ∈ ds, c.isDigit = true)
    (rest : Str) : skip (some (ds ++ rest)) = some (some (ds ++ rest)) := by
  obtain ⟨c, ds, rfl⟩ := List.exists_cons_of_length_pos hpos
  rw [List.cons_append, skip_some (List.cons_ne_nil _ _), gap, if_pos (h c List.mem_cons_self)]

/-- A gap before a number is stepped over. -/
theorem skip_gap (g : Gap) {k n : ℕ} (hk : 0 < k) (hn : n < 10 ^ k) (rest : Str) :
    skip (some (g.text ++ (padded k n ++ rest))) = some (some (padded k n ++ rest)) := by
  obtain ⟨_ | c, hc⟩ := g
  · exact skip_digits (by rwa [length_padded hk hn]) (fun _ => isDigit_padded) rest
  · exact skip_eq ((isDigit_not_iff c).mp (hc c rfl).1) _

/-- Three numbers are read back, whatever stands between them. -/
theorem threeInts_gaps {n a b c : ℕ} (hn : 0 < n) (ha : a < 10 ^ n) (hb : b < 10 ^ 2)
    (hc : c < 10 ^ 2) (g₁ g₂ : Gap) (rest : Str) :
    threeInts n (some (padded n a ++ (g₁.text ++ (padded 2 b ++ (g₂.text ++
      (padded 2 c ++ rest)))))) = some ((a : ℤ), (b : ℤ), (c : ℤ), some rest) := by
  simp only [threeInts, parseInt_padded hn ha, parseInt_padded (show 0 < 2 by decide) hb,
    parseInt_padded (show 0 < 2 by decide) hc, skip_gap g₁ (show 0 < 2 by decide) hb,
    skip_gap g₂ (show 0 < 2 by decide) hc, Option.bind_eq_bind, Option.bind_some]

/-- **A date and a time, with anything in the gaps.** Whatever the digits are, and whatever single
characters that are no digits stand between the numbers, or none, `parse_datetime` stores these
numbers, and returns the position behind the seconds. -/
theorem datetime_gaps (tm : Tm) {y mo d h mi s : ℕ} (hy : y < 10 ^ 4) (hmo : mo < 10 ^ 2)
    (hd : d < 10 ^ 2) (hh : h < 10 ^ 2) (hmi : mi < 10 ^ 2) (hs : s < 10 ^ 2)
    (g₁ g₂ g₃ g₄ g₅ : Gap) (rest : Str) :
    parseDatetimeTm tm (some (padded 4 y ++ (g₁.text ++ (padded 2 mo ++ (g₂.text ++
      (padded 2 d ++ (g₃.text ++ (padded 2 h ++ (g₄.text ++ (padded 2 mi ++ (g₅.text ++
      (padded 2 s ++ rest)))))))))))) =
    some (⟨s, mi, h, d, mo - 1, y - 1900⟩, some rest) := by
  have hdate := fun rest => threeInts_gaps (show 0 < 4 by decide) hy hmo hd g₁ g₂ rest
  have htime := threeInts_gaps (show 0 < 2 by decide) hh hmi hs g₄ g₅ rest
  simp only [parseDatetimeTm, parseDateTm_eq, parseTimeTm_eq, hdate, htime,
    skip_gap g₃ (show 0 < 2 by decide) hh, Option.bind_eq_bind, Option.bind_some, Option.map_some]

/-- `2019-07/29T1515:59Z`. -/
theorem datetime_gaps_mixed : parseDatetimeTm {} (some "2019-07/29T1515:59Z".toList) =
    some (⟨59, 15, 15, 29, 6, 119⟩, some ['Z']) :=
  datetime_gaps {} (show 2019 < 10 ^ 4 by norm_num) (show 7 < 10 ^ 2 by norm_num)
    (show 29 < 10 ^ 2 by norm_num) (show 15 < 10 ^ 2 by norm_num) (show 15 < 10 ^ 2 by norm_num)
    (show 59 < 10 ^ 2 by norm_num)
    (.char '-' (by decide)) (.char '/' (by decide)) (.char 'T' (by decide)) .nothing
    (.char ':' (by decide)) ['Z']

end Chrono

end LeonUtils
