import LeonUtils.Chrono.Format

/-!
# Text as points in time

`parse_date`, `parse_time` and `parse_datetime` read numbers of a fixed number of digits and step
over one character between them if it is no digit. The fraction of a second is nine characters long,
whatever these are.

A `char_cp` is what is left of a string up to its NUL. A pointer behind the NUL may come about, but
nothing can be read there: a function that does so has no result.

## Main definitions

* `CharCp` — a pointer into a string
* `parseInt`, `parseTime`, `parseDateTm`, `parseDatetime` — the functions

## Main results

* `parseInt_padded`, `fraction_padded` — numbers with leading zeros are read back
* `parse_fmt` — what the full format with nine digits prints is read back
-/

namespace LeonUtils

namespace Chrono

open Text Calendar

/-! ## Reading a string -/

/-- `char_cp`: what is left up to the NUL, if the pointer is not behind it. -/
abbrev CharCp : Type := Option Str

/-- `*s`. -/
def CharCp.deref : CharCp → Option Char
  | some (c :: _) => some c
  | some [] => some '\x00'
  | none => none

/-- `s + 1`. -/
def CharCp.next : CharCp → CharCp
  | some (_ :: s) => some s
  | _ => none

/-- `c - '0'`. -/
def digit (c : Char) : ℤ := c.toNat - '0'.toNat

/-- `parse_int`, with `n` characters to go. -/
def parseIntFrom : ℕ → ℤ → CharCp → Option (ℤ × CharCp)
  | 0, result, s => some (result, s)
  | n + 1, result, s => do
    let c ← s.deref
    if !c.isDigit then some (result, s)
    else parseIntFrom n (result * 10 + digit c) s.next

def parseInt (s : CharCp) (n : ℕ) : Option (ℤ × CharCp) := parseIntFrom n 0 s

/-- One character that is no digit is stepped over. -/
def skip (s : CharCp) : Option CharCp := do
  let c ← s.deref
  some (if c < '0' ∨ c > '9' then s.next else s)

/-- The digits behind the point, nine characters of them. -/
def fraction : ℕ → ℤ → CharCp → Option ℤ
  | 0, ss, _ => some ss
  | n + 1, ss, s => do
    let c ← s.deref
    fraction n (if c ≥ '0' ∧ c ≤ '9' then ss * 10 + digit c else ss * 10) s.next

/-- `parse_time`, in nanoseconds. -/
def parseTime (s : CharCp) : Option ℤ := do
  let (hh, s) ← parseInt s 2
  let s ← skip s
  let (mi, s) ← parseInt s 2
  let s ← skip s
  let (ss, s) ← parseInt s 2
  let result := (hh * 3600 + mi * 60 + ss) * 10 ^ 9
  let c ← s.deref
  if c ≠ '.' then some result
  else do
    let nanos ← fraction 9 0 s.next
    some (result + nanos)

/-- `parse_date`, into a `tm`. -/
def parseDateTm (tm : Tm) (s : CharCp) : Option (Tm × CharCp) := do
  let (year, s) ← parseInt s 4
  let s ← skip s
  let (mon, s) ← parseInt s 2
  let s ← skip s
  let (mday, s) ← parseInt s 2
  some ({ tm with year := year - 1900, mon := mon - 1, mday }, s)

/-- `parse_datetime`. -/
def parseDatetime (env : Env) (s : CharCp) : Option ℤ := do
  let (tm1, s) ← parseDateTm {} s
  let s ← skip s
  let time ← parseTime s
  some (int64 (fromTimeT (mktime env tm1) + time))

/-! ## Numbers are read back -/

theorem digit_eq {c : Char} (h : c.isDigit = true) : digit c = ((c.toNat - '0'.toNat : ℕ) : ℤ) := by
  simp only [Char.isDigit, Bool.and_eq_true, decide_eq_true_eq] at h
  have hlow : '0'.toNat ≤ c.toNat := h.1
  rw [digit]
  omega

theorem isDigit_iff (c : Char) : c.isDigit = true ↔ c ≥ '0' ∧ c ≤ '9' := by
  simp only [Char.isDigit, Bool.and_eq_true, decide_eq_true_eq]
  exact Iff.rfl

/-- One digit more. -/
theorem digit_step {c : Char} (h : c.isDigit = true) (r : ℕ) :
    (r : ℤ) * 10 + digit c = ((10 * r + (c.toNat - '0'.toNat) : ℕ) : ℤ) := by
  rw [digit_eq h]
  omega

theorem parseIntFrom_digits {ds : Str} (h : ∀ c ∈ ds, c.isDigit = true) (rest : Str) (r : ℕ) :
    parseIntFrom ds.length r (some (ds ++ rest)) =
      some (((Nat.ofDigitChars 10 ds r : ℕ) : ℤ), some rest) := by
  induction ds generalizing r with
  | nil => rfl
  | cons c ds ih =>
    obtain ⟨hc, hds⟩ := List.forall_mem_cons.mp h
    simp only [List.length_cons, parseIntFrom, List.cons_append, CharCp.deref, CharCp.next, hc,
      Option.bind_eq_bind, Option.bind_some, Bool.not_true, Bool.false_eq_true, if_false]
    rw [digit_step hc, ih hds, Nat.ofDigitChars_cons]

/-- One character more of a fraction. -/
theorem fraction_cons (n : ℕ) (r : ℤ) (c : Char) (s : Str) :
    fraction (n + 1) r (some (c :: s)) =
      fraction n (if c.isDigit = true then r * 10 + digit c else r * 10) (some s) := by
  simp only [fraction, CharCp.deref, CharCp.next, Option.bind_eq_bind, Option.bind_some,
    isDigit_iff]

/-- At the end there is the NUL, and nothing behind it. -/
theorem fraction_nil (n : ℕ) (r : ℤ) :
    fraction (n + 1) r (some []) = if n = 0 then some (r * 10) else none := by
  cases n with
  | zero => rfl
  | succ n => rfl

/-- The digits at the beginning are read. -/
theorem fraction_append {ds : Str} (h : ∀ c ∈ ds, c.isDigit = true) (n r : ℕ) (rest : Str) :
    fraction (ds.length + n) r (some (ds ++ rest)) =
      fraction n (Nat.ofDigitChars 10 ds r : ℕ) (some rest) := by
  induction ds generalizing r with
  | nil =>
    rw [List.length_nil, Nat.zero_add, List.nil_append, Nat.ofDigitChars_nil]
  | cons c ds ih =>
    obtain ⟨hc, hds⟩ := List.forall_mem_cons.mp h
    rw [List.length_cons, Nat.add_right_comm, List.cons_append, fraction_cons, if_pos hc,
      digit_step hc, ih hds, Nat.ofDigitChars_cons]

theorem fraction_digits {ds : Str} (h : ∀ c ∈ ds, c.isDigit = true) (rest : Str) (r : ℕ) :
    fraction ds.length r (some (ds ++ rest)) = some ((Nat.ofDigitChars 10 ds r : ℕ) : ℤ) :=
  fraction_append h 0 r rest

/-- So many digits are read. -/
theorem parseInt_digits {ds : Str} {k : ℕ} (hlen : ds.length = k)
    (h : ∀ c ∈ ds, c.isDigit = true) (rest : Str) :
    parseInt (some (ds ++ rest)) k = some (((Nat.ofDigitChars 10 ds 0 : ℕ) : ℤ), some rest) := by
  subst hlen
  exact parseIntFrom_digits h rest 0

/-- A number with leading zeros is read back. -/
theorem parseInt_padded {k n : ℕ} (hk : 0 < k) (h : n < 10 ^ k) (rest : Str) :
    parseInt (some (padded k n ++ rest)) k = some ((n : ℤ), some rest) := by
  rw [parseInt_digits (length_padded hk h) (fun _ => isDigit_padded), ofDigitChars_padded]

theorem fraction_padded {k n : ℕ} (hk : 0 < k) (h : n < 10 ^ k) (rest : Str) :
    fraction k 0 (some (padded k n ++ rest)) = some (n : ℤ) := by
  have hread := fraction_digits (fun _ => isDigit_padded (k := k) (n := n)) rest 0
  rwa [length_padded hk h, ofDigitChars_padded] at hread

theorem skip_eq {c : Char} (h : c < '0' ∨ c > '9') (rest : Str) :
    skip (some (c :: rest)) = some (some rest) := by
  simp only [skip, CharCp.deref, CharCp.next, Option.bind_eq_bind, Option.bind_some, if_pos h]

/-! ## The full format is read back -/

theorem parseDateTm_full {y m d : ℕ} (hy : y < 10 ^ 4) (hm : m < 10 ^ 2) (hd : d < 10 ^ 2)
    (tm : Tm) (rest : Str) :
    parseDateTm tm (some (padded 4 y ++ '-' :: (padded 2 m ++ '-' :: (padded 2 d ++ rest)))) =
      some ({ tm with year := y - 1900, mon := m - 1, mday := d }, some rest) := by
  simp only [parseDateTm, parseInt_padded (show 0 < 4 by decide) hy,
    parseInt_padded (show 0 < 2 by decide) hm, parseInt_padded (show 0 < 2 by decide) hd,
    skip_eq (c := '-') (Or.inl (by decide)), Option.bind_eq_bind, Option.bind_some]

theorem parseTime_full {h m s n : ℕ} (hh : h < 10 ^ 2) (hm : m < 10 ^ 2) (hs : s < 10 ^ 2)
    (hn : n < 10 ^ 9) :
    parseTime (some (padded 2 h ++ ':' :: (padded 2 m ++ ':' :: (padded 2 s ++
      '.' :: padded 9 n)))) = some ((h * 3600 + m * 60 + s) * 10 ^ 9 + n : ℤ) := by
  have hfraction := fraction_padded (show 0 < 9 by decide) hn []
  rw [List.append_nil] at hfraction
  simp only [parseTime, parseInt_padded (show 0 < 2 by decide) hh,
    parseInt_padded (show 0 < 2 by decide) hm, parseInt_padded (show 0 < 2 by decide) hs,
    skip_eq (c := ':') (Or.inr (by decide)), Option.bind_eq_bind, Option.bind_some, CharCp.deref,
    CharCp.next, ne_eq, not_true_eq_false, if_false, hfraction]

/-- The date in a broken-down time, as it is printed. -/
theorem Tm.date_digits {tm : Tm} (hy : 0 ≤ tm.year + 1900) (hm : 0 ≤ tm.mon) (hd : 0 ≤ tm.mday) :
    (⟨0, 0, 0, (tm.mday.toNat : ℤ), ((tm.mon + 1).toNat : ℤ) - 1,
      ((tm.year + 1900).toNat : ℤ) - 1900⟩ : Tm) = tm.date := by
  simp only [Tm.date, Tm.mk.injEq, true_and]
  omega

/-- The time of the day and the fraction are what the date left out. -/
theorem date_add_time (tp x : ℤ) :
    (tp / 10 ^ 9 - x) * 10 ^ 9 + (x * 10 ^ 9 + (tp % 10 ^ 9).toNat) = tp := by
  omega

/-- Midnight of a day inside the range is inside the range. -/
theorem fromTimeT_midnight {tp x : ℤ} (hlow : -2 ^ 63 + 86400 * 10 ^ 9 < tp) (hhigh : tp < 2 ^ 63)
    (hx : 0 ≤ x) (hx' : x < 86400) :
    fromTimeT (tp / 10 ^ 9 - x) = (tp / 10 ^ 9 - x) * 10 ^ 9 :=
  int64_eq (by omega) (by omega)

/-- **What is printed is read back**: every time that is a day inside the range of 64-bit
nanoseconds, before 1970 or after, in every time zone. -/
theorem parse_fmt (env : Env) {tp : ℤ} (hlow : -2 ^ 63 + 86400 * 10 ^ 9 < tp)
    (hhigh : tp < 2 ^ 63 - 86400 * 10 ^ 9) :
    ∃ text, fmtPrec env tp 9 fullFormat = .ok text ∧ parseDatetime env (some text) = some tp := by
  refine ⟨_, fmtPrec_full env (by omega) (by omega), ?_⟩
  set t := tp / 10 ^ 9 with ht
  set n := (tp % 10 ^ 9).toNat with hn
  obtain ⟨⟨hy, hy'⟩, ⟨hm, hm'⟩, ⟨hd, hd'⟩, ⟨hh, hh'⟩, ⟨hmi, hmi'⟩, ⟨hs, hs'⟩⟩ :=
    localtime_range env (t := t) (by omega) (by omega)
  have hmidnight := mktime_midnight env t
  have hsecs := localtime_secs env t
  -- the date that is read is the one that was printed
  have hdate := Tm.date_digits (by omega) hm (zero_le_one.trans hd)
  -- and so is the time of the day
  have htime : ((localtime env t).hour.toNat : ℤ) * 3600 + ((localtime env t).min.toNat : ℤ) * 60 +
      ((localtime env t).sec.toNat : ℤ) = (t + env.offset) % 86400 := by
    rw [← hsecs, Int.toNat_of_nonneg hh, Int.toNat_of_nonneg hmi, Int.toNat_of_nonneg hs]
  have hfrom : fromTimeT (mktime env (localtime env t).date) =
      (t - (t + env.offset) % 86400) * 10 ^ 9 := by
    rw [hmidnight]
    exact fromTimeT_midnight hlow (by omega) (Int.emod_nonneg _ (by norm_num))
      (Int.emod_lt_of_pos _ (by norm_num))
  rw [fullText, parseDatetime, parseDateTm_full (by norm_num; omega) (by norm_num; omega)
    (by norm_num; omega)]
  simp only [Option.bind_eq_bind, Option.bind_some, skip_eq (c := ' ') (Or.inl (by decide))]
  rw [parseTime_full (by norm_num; omega) (by norm_num; omega) (by norm_num; omega)
    (by norm_num; omega)]
  simp only [Option.bind_some, hdate, hfrom, htime]
  rw [date_add_time, int64_eq (by omega) (by omega)]

/-- Eight hours east of Greenwich. -/
def east8 : Env := ⟨28800, by norm_num, fun _ _ => []⟩

/-- The last nanosecond before 1970. -/
theorem parse_fmt_before_1970 : ∃ text, fmtPrec east8 (-1) 9 fullFormat = .ok text ∧
    parseDatetime east8 (some text) = some (-1) :=
  parse_fmt east8 (by norm_num) (by norm_num)

end Chrono

end LeonUtils
