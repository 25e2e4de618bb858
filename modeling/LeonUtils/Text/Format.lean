import Mathlib.Algebra.Order.Field.Rat
import Mathlib.Data.List.Basic
import Mathlib.Data.List.Induction
import Mathlib.Tactic.NormNum

/-!
# Numbers as text

`fmt`, for `double` and for types of integers. A finite `double` is a sign and a rational number, so
that there are two zeros; that the rational number has few enough digits to be a `double` plays no
part here.

What a stream prints for it is written out: `std::fixed` with a precision rounds the exact value,
halves to even, and the digits before the point are grouped. Text is a list of characters, each of
which stands for one `char`.

## Widths

`fmt` takes its width as a `size_t`, so that a negative one is very large, and hands it on to
`setw` as an `int`. A string longer than `std::string` allows throws.

## Main definitions

* `Double` — the values of `double`
* `Double.text` — what a stream prints
* `fmtText`, `fmt` — the function

## Main results

* `fmt_fits` — a width that is neither zero nor too large for `int` is the length of the result
* `fmtInt_padded` — a number with leading zeros
* `fmt_printable` — the result is printable ASCII if the fill and the separator are
-/

namespace LeonUtils

/-- A `double`. -/
inductive Double
  | nan
  | inf (neg : Bool)
  | finite (neg : Bool) (abs : ℚ≥0)
deriving DecidableEq

/-- `std::string`. -/
abbrev Str : Type := List Char

namespace Text

/-- How a call can fail. -/
inductive Exn
  /-- `std::length_error`: a string that would be too long. -/
  | length
  /-- `std::range_error`: bytes that are not UTF-8. -/
  | range
  /-- An element of a vector that is not there, which the source leaves undefined. -/
  | outside
deriving DecidableEq

/-- A sequence that ends well does so in both parts. -/
theorem bind_ok {α β : Type} {x : Except Exn α} {f : α → Except Exn β} {b : β}
    (h : x >>= f = .ok b) : ∃ a, x = .ok a ∧ f a = .ok b := by
  cases x with
  | error e => cases h
  | ok a => exact ⟨a, rfl, h⟩

/-! ## What a stream prints -/

/-- `a / b` rounded to the nearest integer, halves to even. -/
def roundDiv (a b : ℕ) : ℕ :=
  if 2 * (a % b) < b then a / b
  else if b < 2 * (a % b) then a / b + 1
  else a / b + a / b % 2

/-- Digits in groups of `g`, counted from the last one, with `s` between them. -/
def group (g : ℕ) (s : Char) : Str → Str
  | [] => []
  | d :: ds =>
    if ds ≠ [] ∧ ds.length % g = 0 then d :: s :: group g s ds else d :: group g s ds

/-- `std::numpunct::do_grouping`: one group width for all groups; there is no grouping when it is
not positive, or `CHAR_MAX`. -/
def grouped (g : ℤ) (s : Char) (ds : Str) : Str :=
  if 0 < g ∧ g ≠ 127 then group g.toNat s ds else ds

/-- `std::setprecision`: a negative precision is taken as if there were none. -/
def places (p : ℤ) : ℕ := if p < 0 then 6 else p.toNat

/-- The digits of `n` in at least `k` places. -/
def padded (k n : ℕ) : Str :=
  List.replicate (k - (Nat.toDigits 10 n).length) '0' ++ Nat.toDigits 10 n

/-- What a stream prints with `std::fixed`, before it is padded. -/
def fixed (neg : Bool) (abs : ℚ≥0) (p g : ℤ) (s : Char) : Str :=
  let k := places p
  let n := roundDiv (abs.num * 10 ^ k) abs.den
  (if neg then ['-'] else []) ++ grouped g s (Nat.toDigits 10 (n / 10 ^ k)) ++
    (if k = 0 then [] else '.' :: padded k (n % 10 ^ k))

end Text

namespace Double

open Text

/-- `std::numeric_limits<double>::max()`. -/
def maxAbs : ℚ≥0 := (2 ^ 53 - 1) * 2 ^ 971

/-- What a stream prints for a value. -/
def text (v : Double) (p g : ℤ) (s : Char) : Str :=
  match v with
  | .nan => "nan".toList
  | .inf neg => (if neg then "-inf" else "inf").toList
  | .finite neg abs => fixed neg abs p g s

/-- The values that `fmt` has a name for: `isnan`, `isinf`, `strict_max` and `strict_low`. -/
def special : Double → Option Str
  | .nan => some "nan".toList
  | .inf _ => some "inf".toList
  | .finite neg abs =>
    if abs = maxAbs then some (if neg then "lowest" else "maximu").toList else none

end Double

namespace Text

/-- The values that `fmt` has a name for, for a type whose largest value is `maxAbs`. -/
def specialName (maxAbs : ℚ≥0) : Double → Option Str
  | .nan => some "nan".toList
  | .inf _ => some "inf".toList
  | .finite neg abs =>
    if abs = maxAbs then some (if neg then "lowest" else "maximu").toList else none

/-! ## `fmt` -/

/-- A string of `n` equal characters. -/
def fill (n : ℕ) (c : Char) : Except Exn Str :=
  if n < 2 ^ 63 then .ok (List.replicate n c) else .error .length

/-- A text printed with `std::setw( n )` and `std::setfill( f )`. -/
def setw (n : ℤ) (f : Char) (text : Str) : Str :=
  List.replicate (n.toNat - text.length) f ++ text

/-- `fmt`, for a value with the name `special` and the text `text`. -/
def fmtText (special : Option Str) (text : Str) (w : ℕ) (f : Char) : Except Exn Str :=
  match special with
  | some name => do
    let blanks ← fill w f
    .ok (((blanks ++ name).drop 3).take w)
  | none =>
    let result := setw (Int.bmod w (2 ^ 32)) f text
    if 0 < w ∧ w < result.length then fill w '*' else .ok result

/-- `fmt<double>`. -/
def fmt (v : Double) (w : ℕ) (p g : ℤ) (f s : Char) : Except Exn Str :=
  fmtText v.special (v.text p g s) w f

/-- What a stream prints for an integer. -/
def intText (v g : ℤ) (s : Char) : Str :=
  (if v < 0 then ['-'] else []) ++ grouped g s (Nat.toDigits 10 v.natAbs)

/-- `fmt`, for a type of integers; the precision plays no part. -/
def fmtInt (v : ℤ) (w : ℕ) (g : ℤ) (f s : Char) : Except Exn Str :=
  fmtText none (intText v g s) w f

/-- An integer without groups. -/
theorem intText_plain (v : ℤ) (s : Char) :
    intText v 0 s = (if v < 0 then ['-'] else []) ++ Nat.toDigits 10 v.natAbs := by
  simp only [intText, grouped, lt_irrefl, false_and, if_false]

/-! ## How long the result is -/

theorem length_setw (n : ℤ) (f : Char) (text : Str) :
    (setw n f text).length = max n.toNat text.length := by
  rw [setw, List.length_append, List.length_replicate]
  omega

theorem fill_eq {n : ℕ} (h : n < 2 ^ 63) (c : Char) : fill n c = .ok (List.replicate n c) :=
  if_pos h

theorem fill_error {n : ℕ} (h : ¬ n < 2 ^ 63) (c : Char) : fill n c = .error .length :=
  if_neg h

/-- The names that there are. -/
theorem specialName_cases {maxAbs : ℚ≥0} {v : Double} {name : Str}
    (h : specialName maxAbs v = some name) :
    name ∈ ["nan".toList, "inf".toList, "maximu".toList, "lowest".toList] := by
  cases v with
  | nan =>
    cases h
    decide
  | inf neg =>
    cases h
    decide
  | finite neg abs =>
    simp only [specialName] at h
    split at h <;> cases h
    cases neg <;> decide

/-- Names are checked one after the other. -/
theorem special_of_all {P : Str → Prop} {v : Double} {name : Str} (h : v.special = some name)
    (hall : ∀ name ∈ ["nan".toList, "inf".toList, "maximu".toList, "lowest".toList], P name) :
    P name :=
  hall name (@specialName_cases Double.maxAbs v name h)

/-- Every name is long enough to be cut from. -/
theorem length_special {v : Double} {name : Str} (h : v.special = some name) : 3 ≤ name.length :=
  @special_of_all (3 ≤ ·.length) v name h (by decide)

/-- **The result fits**: it is exactly as long as was asked for. -/
theorem fmt_fits (v : Double) {w : ℕ} (h0 : 0 < w) (hw : w < 2 ^ 31) (p g : ℤ) (f s : Char) :
    ∃ r, fmt v w p g f s = .ok r ∧ r.length = w := by
  have hlt : w < 2 ^ 63 := hw.trans (by norm_num)
  simp only [fmt, fmtText]
  split
  · rename_i name hname
    have hlen := length_special hname
    refine ⟨_, by rw [fill_eq hlt]; rfl, ?_⟩
    simp only [List.length_take, List.length_drop, List.length_append, List.length_replicate]
    omega
  · have hint : (Int.bmod (w : ℤ) (2 ^ 32)).toNat = w := by
      rw [Int.bmod_eq_of_le (by omega) (by omega), Int.toNat_natCast]
    have hset := length_setw (Int.bmod (w : ℤ) (2 ^ 32)) f (v.text p g s)
    rw [hint] at hset
    by_cases hlong : w < (setw (Int.bmod (w : ℤ) (2 ^ 32)) f (v.text p g s)).length
    · exact ⟨_, by rw [if_pos ⟨h0, hlong⟩, fill_eq hlt], List.length_replicate⟩
    · refine ⟨_, if_neg fun h => hlong h.2, ?_⟩
      omega

/-! ## Numbers with leading zeros -/

theorem length_padded {k n : ℕ} (hk : 0 < k) (h : n < 10 ^ k) : (padded k n).length = k := by
  have hle := (Nat.length_toDigits_le_iff (by norm_num) hk).mpr h
  rw [padded, List.length_append, List.length_replicate]
  omega

theorem isDigit_toDigits {n : ℕ} {c : Char} (h : c ∈ Nat.toDigits 10 n) : c.isDigit = true :=
  Nat.isDigit_of_mem_toDigits (by norm_num) le_rfl h

theorem isDigit_padded {k n : ℕ} {c : Char} (h : c ∈ padded k n) : c.isDigit = true := by
  rcases List.mem_append.mp h with h | h
  · obtain rfl := List.eq_of_mem_replicate h
    rfl
  · exact isDigit_toDigits h

/-- The digits say what the number is. -/
theorem ofDigitChars_padded (k n : ℕ) : Nat.ofDigitChars 10 (padded k n) 0 = n := by
  rw [padded, Nat.ofDigitChars_append, Nat.ofDigitChars_replicate_zero, Nat.mul_zero,
    Nat.ofDigitChars_ten_toDigits]

theorem isDigit_toNat {c : Char} (h : c.isDigit = true) : 48 ≤ c.toNat ∧ c.toNat ≤ 57 := by
  simp only [Char.isDigit, Bool.and_eq_true, decide_eq_true_eq] at h
  exact h

/-- A number determines its digits, if it is known how many they are. -/
theorem ofDigitChars_inj {ds es : Str} (hd : ∀ c ∈ ds, c.isDigit = true)
    (he : ∀ c ∈ es, c.isDigit = true) (hlen : ds.length = es.length)
    (h : Nat.ofDigitChars 10 ds 0 = Nat.ofDigitChars 10 es 0) : ds = es := by
  induction ds using List.reverseRecOn generalizing es with
  | nil => exact (List.length_eq_zero_iff.mp hlen.symm).symm
  | append_singleton ds c ih =>
    rcases List.eq_nil_or_concat es with rfl | ⟨es, e, rfl⟩
    · simp at hlen
    · rw [List.concat_eq_append] at *
      obtain ⟨hds, hc⟩ := List.forall_mem_append.mp hd
      obtain ⟨hes, he⟩ := List.forall_mem_append.mp he
      have hc := isDigit_toNat (hc c (List.mem_singleton_self c))
      have he := isDigit_toNat (he e (List.mem_singleton_self e))
      have hzero : '0'.toNat = 48 := rfl
      simp only [Nat.ofDigitChars_append, Nat.ofDigitChars_cons, Nat.ofDigitChars_nil, hzero] at h
      -- the last digit is the number modulo ten
      have hlast : c = e := Char.toNat_inj.mp (by omega)
      rw [hlast, ih hds hes (by simpa using hlen) (by omega)]

theorem ofDigitChars_lt {ds : Str} (h : ∀ c ∈ ds, c.isDigit = true) :
    Nat.ofDigitChars 10 ds 0 < 10 ^ ds.length := by
  induction ds with
  | nil => exact Nat.one_pos
  | cons c ds ih =>
    obtain ⟨hc, hds⟩ := List.forall_mem_cons.mp h
    have hdigit := isDigit_toNat hc
    have hzero : '0'.toNat = 48 := rfl
    have hle : 10 ^ ds.length * (c.toNat - 48) ≤ 10 ^ ds.length * 9 :=
      Nat.mul_le_mul_left _ (by omega)
    have hrest := ih hds
    rw [Nat.ofDigitChars_cons, Nat.ofDigitChars_eq_ofDigitChars_zero, Nat.mul_zero, Nat.zero_add,
      hzero, List.length_cons, pow_succ]
    omega

/-- **Truncation**: the first digits of a number are those of its quotient by a power of ten. -/
theorem take_padded {k n p : ℕ} (h : n < 10 ^ k) (hp0 : 0 < p) (hp : p ≤ k) :
    (padded k n).take p = padded p (n / 10 ^ (k - p)) := by
  have hlen : (padded k n).length = k := length_padded (by omega) h
  have hdigits : ∀ c ∈ padded k n, c.isDigit = true := fun c hc => isDigit_padded hc
  have hsmall : n / 10 ^ (k - p) < 10 ^ p := by
    apply Nat.div_lt_of_lt_mul
    rwa [← pow_add, Nat.sub_add_cancel hp]
  have hdrop : ((padded k n).drop p).length = k - p := by rw [List.length_drop, hlen]
  have hrest := @ofDigitChars_lt ((padded k n).drop p)
    fun c hc => hdigits c (List.mem_of_mem_drop hc)
  have hsplit := ofDigitChars_padded k n
  rw [← List.take_append_drop p (padded k n), Nat.ofDigitChars_append,
    Nat.ofDigitChars_eq_ofDigitChars_zero, hdrop] at hsplit
  rw [hdrop] at hrest
  refine ofDigitChars_inj (fun c hc => hdigits c (List.mem_of_mem_take hc))
    (fun c hc => isDigit_padded hc) ?_ ?_
  · rw [List.length_take, hlen, min_eq_left hp, length_padded hp0 hsmall]
  · rw [ofDigitChars_padded]
    conv_rhs => rw [← hsplit]
    rw [Nat.mul_add_div (by positivity), Nat.div_eq_of_lt hrest, Nat.add_zero]

/-- A number of so many digits needs no zeros before it. -/
theorem padded_eq_toDigits {k n : ℕ} (h : 10 ^ (k - 1) ≤ n) (hk : 1 < k) :
    padded k n = Nat.toDigits 10 n := by
  have hlt : ¬ (Nat.toDigits 10 n).length ≤ k - 1 := by
    rw [Nat.length_toDigits_le_iff (by norm_num) (by omega)]
    exact not_lt.mpr h
  have hnone : k - (Nat.toDigits 10 n).length = 0 := by omega
  rw [padded, hnone, List.replicate_zero, List.nil_append]

/-- A number padded with zeros to a width it fits into. -/
theorem fmtInt_padded {k n : ℕ} (hk : 0 < k) (hlt : k < 2 ^ 31) (h : n < 10 ^ k) (s : Char) :
    fmtInt n k 0 '0' s = .ok (padded k n) := by
  have htext : intText n 0 s = Nat.toDigits 10 n := by
    rw [intText_plain, if_neg (by omega), Int.natAbs_natCast, List.nil_append]
  have hint : (Int.bmod (k : ℤ) (2 ^ 32)).toNat = k := by
    rw [Int.bmod_eq_of_le (by omega) (by omega), Int.toNat_natCast]
  have hset : setw (Int.bmod (k : ℤ) (2 ^ 32)) '0' (Nat.toDigits 10 n) = padded k n := by
    rw [setw, hint, padded]
  simp only [fmtInt, fmtText, htext, hset, length_padded hk h]
  exact if_neg fun hlong => lt_irrefl k hlong.2

/-! ## What it consists of -/

/-- Printable ASCII. -/
def Printable (c : Char) : Prop := 0x20 ≤ c.toNat ∧ c.toNat ≤ 0x7e

instance : DecidablePred Printable := fun _ => inferInstanceAs (Decidable (_ ∧ _))

theorem printable_of_isDigit {c : Char} (h : c.isDigit = true) : Printable c := by
  obtain ⟨hlow, hhigh⟩ := isDigit_toNat h
  exact ⟨le_trans (by decide) hlow, hhigh.trans (by decide)⟩

theorem printable_toDigits {n : ℕ} {c : Char} (h : c ∈ Nat.toDigits 10 n) : Printable c :=
  printable_of_isDigit (isDigit_toDigits h)

theorem mem_group {g : ℕ} {s c : Char} {ds : Str} (h : c ∈ group g s ds) : c = s ∨ c ∈ ds := by
  induction ds with
  | nil => cases h
  | cons d ds ih =>
    rw [group] at h
    split at h <;> simp only [List.mem_cons] at h ⊢ <;> tauto

theorem mem_grouped {g : ℤ} {s c : Char} {ds : Str} (h : c ∈ grouped g s ds) : c = s ∨ c ∈ ds := by
  rw [grouped] at h
  split at h
  · exact mem_group h
  · exact Or.inr h

theorem printable_fixed {neg : Bool} {abs : ℚ≥0} {p g : ℤ} {s c : Char} (hs : Printable s)
    (h : c ∈ fixed neg abs p g s) : Printable c := by
  simp only [fixed, List.mem_append] at h
  rcases h with (h | h) | h
  · split at h
    · obtain rfl := List.mem_singleton.mp h
      decide
    · cases h
  · rcases mem_grouped h with rfl | h
    · exact hs
    · exact printable_toDigits h
  · split at h
    · cases h
    · rcases List.mem_cons.mp h with rfl | h
      · decide
      · rcases List.mem_append.mp h with h | h
        · obtain rfl := List.eq_of_mem_replicate h
          decide
        · exact printable_toDigits h

/-- Names are checked one character after the other. -/
theorem printable_of_all {s : Str} (h : s.all (fun c => decide (Printable c)) = true) :
    ∀ c ∈ s, Printable c :=
  fun c hc => of_decide_eq_true (List.all_eq_true.mp h c hc)

theorem printable_special {v : Double} {name : Str} (h : v.special = some name) :
    ∀ c ∈ name, Printable c :=
  @special_of_all (∀ c ∈ ·, Printable c) v name h fun name hname => by
    apply printable_of_all
    simp only [List.mem_cons, List.not_mem_nil, or_false] at hname
    rcases hname with rfl | rfl | rfl | rfl <;> decide

/-- **The result is printable ASCII.** -/
theorem fmt_printable {v : Double} {w : ℕ} {p g : ℤ} {f s : Char} {r : Str} (hf : Printable f)
    (hs : Printable s) (h : fmt v w p g f s = .ok r) : ∀ c ∈ r, Printable c := by
  have hfill : ∀ {n : ℕ} {x : Char} {xs : Str}, Printable x → fill n x = .ok xs →
      ∀ c ∈ xs, Printable c := by
    intro n x xs hx hxs c hc
    rw [fill] at hxs
    split at hxs <;> cases hxs
    obtain rfl := List.eq_of_mem_replicate hc
    exact hx
  intro c hc
  simp only [fmt, fmtText] at h
  split at h
  · rename_i name hname
    cases hblanks : fill w f with
    | error e =>
      rw [hblanks] at h
      cases h
    | ok blanks =>
      rw [hblanks] at h
      cases h
      rcases List.mem_append.mp (List.mem_of_mem_drop (List.mem_of_mem_take hc)) with hc | hc
      · exact hfill hf hblanks c hc
      · exact printable_special hname c hc
  · rename_i hnone
    split at h
    · exact hfill (by decide) h c hc
    · cases h
      rcases List.mem_append.mp hc with hc | hc
      · obtain rfl := List.eq_of_mem_replicate hc
        exact hf
      · cases v with
        | finite neg abs => exact printable_fixed hs hc
        | nan => cases hnone
        | inf neg => cases hnone

example : fmt (.finite false ((11113335 : ℚ≥0) / 1000)) 9 2 4 ' ' '\'' =
    .ok "1'1113.34".toList := by
  decide +kernel

end Text

end LeonUtils
