import LeonUtils.Text.Format
import Mathlib.Data.BitVec

/-!
# Is it a number?

`is_number` walks along a C string with three loops that share a pointer and a counter of type
`size_t`: blanks, digits, blanks again. It stops at a NUL or when the counter is used up.

A byte sequence is a function from positions to bytes, so that it has no end of its own. A call
reports the positions that it looked at. The counter wraps around, as a `size_t` does; the loops are
given fuel, and `isNumber_iff` says how much is enough.

## Main definitions

* `isNumber` — the function
* `text` — the bytes before the first NUL, or as many as the counter says
* `Number` — blanks, digits and blanks

## Main results

* `isNumber_iff` — the function ends, looks at nothing beyond the text and its NUL, and tells
  numbers from other texts
-/

namespace LeonUtils

namespace Text

/-! ## The loops -/

/-- What a call answers, and where it has looked. -/
structure Scan where
  answer : Bool
  seen : List ℕ
deriving DecidableEq

/-- A look at the byte at `pc`, before all that follows. -/
def look (pc : ℕ) (r : Option Scan) : Option Scan := r.map fun r => ⟨r.answer, pc :: r.seen⟩

/-- The last loop: nothing but blanks may follow. -/
def trailing (byte : ℕ → Char) : ℕ → ℕ → BitVec 64 → Option Scan
  | 0, _, _ => none
  | fuel + 1, pc, s =>
    if s ≤ 0 then some ⟨true, []⟩
    else
      let c := byte pc
      look pc <|
        if c = '\x00' then some ⟨true, []⟩
        else if c ≠ ' ' then some ⟨false, []⟩
        else trailing byte fuel (pc + 1) (s - 1)

/-- The loop in the middle: digits, up to a blank. -/
def middle (byte : ℕ → Char) : ℕ → ℕ → BitVec 64 → Option Scan
  | 0, _, _ => none
  | fuel + 1, pc, s =>
    if s ≤ 0 then some ⟨true, []⟩
    else
      let c := byte pc
      look pc <|
        if c = '\x00' then some ⟨true, []⟩
        else if c = ' ' then trailing byte fuel (pc + 1) (s - 1)
        else if !c.isDigit then some ⟨false, []⟩
        else middle byte fuel (pc + 1) (s - 1)

/-- The first loop: blanks, up to a digit. -/
def leading (byte : ℕ → Char) : ℕ → ℕ → BitVec 64 → Option Scan
  | 0, _, _ => none
  | fuel + 1, pc, s =>
    if s ≤ 0 then some ⟨false, []⟩
    else
      let c := byte pc
      look pc <|
        if c = '\x00' then some ⟨false, []⟩
        else if c.isDigit then middle byte fuel (pc + 1) (s - 1)
        else if c ≠ ' ' then some ⟨false, []⟩
        else leading byte fuel (pc + 1) (s - 1)

/-- `is_number`, for `n` bytes, with so much fuel. -/
def isNumber (byte : ℕ → Char) (fuel : ℕ) (n : BitVec 64) : Option Scan := leading byte fuel 0 n

/-! ## Numbers as texts -/

def Blanks (l : Str) : Prop := ∀ c ∈ l, c = ' '

def Digits (l : Str) : Prop := ∀ c ∈ l, c.isDigit = true

/-- Digits, and blanks behind them. -/
def NumberTail (l : Str) : Prop := ∃ ds bs, l = ds ++ bs ∧ Digits ds ∧ Blanks bs

/-- Blanks, at least one digit, and blanks. -/
def Number (l : Str) : Prop :=
  ∃ as ds bs, l = as ++ (ds ++ bs) ∧ Blanks as ∧ (Digits ds ∧ ds ≠ []) ∧ Blanks bs

theorem blanks_cons {c : Char} {l : Str} : Blanks (c :: l) ↔ c = ' ' ∧ Blanks l :=
  List.forall_mem_cons

theorem digits_cons {c : Char} {l : Str} : Digits (c :: l) ↔ c.isDigit = true ∧ Digits l :=
  List.forall_mem_cons

theorem numberTail_cons {c : Char} {l : Str} :
    NumberTail (c :: l) ↔ (c.isDigit = true ∧ NumberTail l) ∨ (c = ' ' ∧ Blanks l) := by
  constructor
  · rintro ⟨ds, bs, hl, hds, hbs⟩
    cases ds with
    | nil =>
      rw [List.nil_append] at hl
      exact Or.inr (blanks_cons.mp (hl ▸ hbs))
    | cons d ds =>
      obtain ⟨rfl, rfl⟩ := List.cons_eq_cons.mp hl
      exact Or.inl ⟨(digits_cons.mp hds).1, ds, bs, rfl, (digits_cons.mp hds).2, hbs⟩
  · rintro (⟨hc, ds, bs, rfl, hds, hbs⟩ | ⟨hc, hl⟩)
    · exact ⟨c :: ds, bs, rfl, digits_cons.mpr ⟨hc, hds⟩, hbs⟩
    · exact ⟨[], c :: l, rfl, List.forall_mem_nil _, blanks_cons.mpr ⟨hc, hl⟩⟩

theorem number_cons {c : Char} {l : Str} :
    Number (c :: l) ↔ (c.isDigit = true ∧ NumberTail l) ∨ (c = ' ' ∧ Number l) := by
  constructor
  · rintro ⟨as, ds, bs, hl, has, ⟨hds, hne⟩, hbs⟩
    cases as with
    | cons a as =>
      obtain ⟨rfl, rfl⟩ := List.cons_eq_cons.mp hl
      obtain ⟨hc, has⟩ := blanks_cons.mp has
      exact Or.inr ⟨hc, as, ds, bs, rfl, has, ⟨hds, hne⟩, hbs⟩
    | nil =>
      cases ds with
      | nil => exact absurd rfl hne
      | cons d ds =>
        obtain ⟨rfl, rfl⟩ := List.cons_eq_cons.mp hl
        obtain ⟨hc, hds⟩ := digits_cons.mp hds
        exact Or.inl ⟨hc, ds, bs, rfl, hds, hbs⟩
  · rintro (⟨hc, ds, bs, rfl, hds, hbs⟩ | ⟨hc, as, ds, bs, rfl, has, hds, hbs⟩)
    · exact ⟨[], c :: ds, bs, rfl, List.forall_mem_nil _,
        ⟨digits_cons.mpr ⟨hc, hds⟩, List.cons_ne_nil c ds⟩, hbs⟩
    · exact ⟨c :: as, ds, bs, rfl, blanks_cons.mpr ⟨hc, has⟩, hds, hbs⟩

theorem not_number_nil : ¬ Number [] := by
  rintro ⟨as, ds, bs, hl, -, ⟨-, hne⟩, -⟩
  obtain ⟨-, hl⟩ := List.append_eq_nil_iff.mp hl.symm
  exact hne (List.append_eq_nil_iff.mp hl).1

/-! ## What is left of the text -/

/-- The bytes from `pc` on, up to a NUL, and at most `s` of them. -/
def text (byte : ℕ → Char) : ℕ → ℕ → Str
  | _, 0 => []
  | pc, s + 1 => if byte pc = '\x00' then [] else byte pc :: text byte (pc + 1) s

/-- All positions are within the text, or that of the NUL that ends it. -/
def Within (byte : ℕ → Char) (pc s : ℕ) (seen : List ℕ) : Prop :=
  ∀ i ∈ seen, i < pc + s ∧ ∀ j, pc ≤ j → j < i → byte j ≠ '\x00'

/-- A loop has ended and has told whether what is left of the text is as `P` says. -/
def Tells (byte : ℕ → Char) (pc s : ℕ) (P : Str → Prop) (r : Option Scan) : Prop :=
  ∃ answer seen, r = some ⟨answer, seen⟩ ∧ Within byte pc s seen ∧
    (answer = true ↔ P (text byte pc s))

section Tells

variable {byte : ℕ → Char} {pc s : ℕ} {P Q : Str → Prop} {answer : Bool}

/-- The counter is used up. -/
theorem tells_zero (h : answer = true ↔ P []) : Tells byte pc 0 P (some ⟨answer, []⟩) :=
  ⟨answer, [], rfl, List.forall_mem_nil _, h⟩

/-- A look that settles it. -/
theorem tells_look (h : answer = true ↔ P (text byte pc (s + 1))) :
    Tells byte pc (s + 1) P (look pc (some ⟨answer, []⟩)) := by
  refine ⟨answer, [pc], rfl, fun i hi => ?_, h⟩
  obtain rfl := List.mem_singleton.mp hi
  exact ⟨by omega, fun j hj hlt => absurd hlt (by omega)⟩

/-- A look at a NUL. -/
theorem tells_nul (hc : byte pc = '\x00') (h : answer = true ↔ P []) :
    Tells byte pc (s + 1) P (look pc (some ⟨answer, []⟩)) :=
  tells_look (by rwa [text, if_pos hc])

/-- A look after which it goes on. -/
theorem tells_next (hc : byte pc ≠ '\x00') {r : Option Scan} (hr : Tells byte (pc + 1) s Q r)
    (h : ∀ l, P (byte pc :: l) ↔ Q l) : Tells byte pc (s + 1) P (look pc r) := by
  obtain ⟨answer, seen, rfl, hwithin, hanswer⟩ := hr
  refine ⟨answer, pc :: seen, rfl, fun i hi => ?_, ?_⟩
  · rcases List.mem_cons.mp hi with rfl | hi
    · exact ⟨by omega, fun j hj hlt => absurd hlt (by omega)⟩
    · obtain ⟨hlt, hbefore⟩ := hwithin i hi
      refine ⟨by omega, fun j hj hji => ?_⟩
      rcases hj.eq_or_lt with rfl | hj
      · exact hc
      · exact hbefore j hj hji
  · rw [text, if_neg hc, h, hanswer]

end Tells

/-! ## What the loops tell -/

/-- A counter that is not used up does not wrap around. -/
theorem counter_pred {s : BitVec 64} (h : ¬ s ≤ 0) : s.toNat = (s - 1).toNat + 1 := by
  have hpos : 0 < s.toNat := Nat.pos_of_ne_zero fun h0 => h (BitVec.le_def.mpr h0.le)
  have hlt := s.isLt
  rw [BitVec.toNat_sub]
  show s.toNat = (2 ^ 64 - 1 + s.toNat) % 2 ^ 64 + 1
  omega

theorem counter_zero {s : BitVec 64} (h : s ≤ 0) : s.toNat = 0 :=
  Nat.le_zero.mp (BitVec.le_def.mp h)

/-- One round of a loop. It ends where the counter is used up and at a NUL, with the same answer. -/
theorem tells_round {byte : ℕ → Char} {pc : ℕ} {s : BitVec 64} {P : Str → Prop} {answer : Bool}
    {r : Option Scan} (hnil : answer = true ↔ P [])
    (hr : s.toNat = (s - 1).toNat + 1 → byte pc ≠ '\x00' →
      Tells byte pc ((s - 1).toNat + 1) P (look pc r)) :
    Tells byte pc s.toNat P (if s ≤ 0 then some ⟨answer, []⟩
      else look pc (if byte pc = '\x00' then some ⟨answer, []⟩ else r)) := by
  split
  · rename_i hs
    rw [counter_zero hs]
    exact tells_zero hnil
  · rename_i hs
    have hpred := counter_pred hs
    rw [hpred]
    by_cases hnul : byte pc = '\x00'
    · rw [if_pos hnul]
      exact tells_nul hnul hnil
    · rw [if_neg hnul]
      exact hr hpred hnul

theorem trailing_tells (byte : ℕ → Char) {fuel : ℕ} (pc : ℕ) {s : BitVec 64}
    (h : s.toNat < fuel) : Tells byte pc s.toNat Blanks (trailing byte fuel pc s) := by
  induction fuel generalizing pc s with
  | zero => omega
  | succ fuel ih =>
    refine tells_round (iff_of_true rfl (List.forall_mem_nil _)) fun hpred hnul => ?_
    by_cases hblank : byte pc = ' '
    · rw [if_neg (not_not.mpr hblank)]
      refine tells_next hnul (ih (pc + 1) (by omega)) fun l => ?_
      rw [blanks_cons, and_iff_right hblank]
    · rw [if_pos hblank]
      refine tells_look (iff_of_false Bool.false_ne_true ?_)
      rw [text, if_neg hnul, blanks_cons]
      exact fun h => hblank h.1

theorem middle_tells (byte : ℕ → Char) {fuel : ℕ} (pc : ℕ) {s : BitVec 64}
    (h : s.toNat < fuel) : Tells byte pc s.toNat NumberTail (middle byte fuel pc s) := by
  have hnil : NumberTail [] := ⟨[], [], rfl, List.forall_mem_nil _, List.forall_mem_nil _⟩
  induction fuel generalizing pc s with
  | zero => omega
  | succ fuel ih =>
    refine tells_round (iff_of_true rfl hnil) fun hpred hnul => ?_
    by_cases hblank : byte pc = ' '
    · rw [if_pos hblank]
      refine tells_next hnul (trailing_tells byte (pc + 1) (by omega)) fun l => ?_
      rw [numberTail_cons, and_iff_right hblank]
      refine or_iff_right fun h => ?_
      rw [hblank] at h
      cases h.1
    · rw [if_neg hblank]
      by_cases hdigit : (byte pc).isDigit = true
      · rw [if_neg (by rw [hdigit]; decide)]
        refine tells_next hnul (ih (pc + 1) (by omega)) fun l => ?_
        rw [numberTail_cons, and_iff_right hdigit]
        exact or_iff_left fun h => hblank h.1
      · rw [if_pos (by simpa using hdigit)]
        refine tells_look (iff_of_false Bool.false_ne_true ?_)
        rw [text, if_neg hnul, numberTail_cons]
        rintro (h | h)
        · exact hdigit h.1
        · exact hblank h.1

theorem leading_tells (byte : ℕ → Char) {fuel : ℕ} (pc : ℕ) {s : BitVec 64}
    (h : s.toNat < fuel) : Tells byte pc s.toNat Number (leading byte fuel pc s) := by
  induction fuel generalizing pc s with
  | zero => omega
  | succ fuel ih =>
    refine tells_round (iff_of_false Bool.false_ne_true not_number_nil) fun hpred hnul => ?_
    by_cases hdigit : (byte pc).isDigit = true
    · rw [if_pos hdigit]
      refine tells_next hnul (middle_tells byte (pc + 1) (by omega)) fun l => ?_
      rw [number_cons, and_iff_right hdigit]
      refine or_iff_left fun h => ?_
      rw [h.1] at hdigit
      cases hdigit
    · rw [if_neg hdigit]
      by_cases hblank : byte pc = ' '
      · rw [if_neg (not_not.mpr hblank)]
        refine tells_next hnul (ih (pc + 1) (by omega)) fun l => ?_
        rw [number_cons, and_iff_right hblank]
        exact or_iff_right fun h => hdigit h.1
      · rw [if_pos hblank]
        refine tells_look (iff_of_false Bool.false_ne_true ?_)
        rw [text, if_neg hnul, number_cons]
        rintro (h | h)
        · exact hdigit h.1
        · exact hblank h.1

/-- **Numbers are told from other texts**: whatever the bytes are and however many are to be looked
at, the call ends, no position at or behind the end of the text is looked at but that of the NUL,
and the answer is right. -/
theorem isNumber_iff (byte : ℕ → Char) (n : BitVec 64) (more : ℕ) :
    ∃ answer seen, isNumber byte (n.toNat + 1 + more) n = some ⟨answer, seen⟩ ∧
      (∀ i ∈ seen, i < n.toNat ∧ ∀ j < i, byte j ≠ '\x00') ∧
      (answer = true ↔ Number (text byte 0 n.toNat)) := by
  obtain ⟨answer, seen, hr, hwithin, hanswer⟩ := leading_tells byte 0 (s := n)
    (show n.toNat < n.toNat + 1 + more by omega)
  refine ⟨answer, seen, hr, fun i hi => ?_, hanswer⟩
  obtain ⟨hlt, hbefore⟩ := hwithin i hi
  exact ⟨by omega, fun j hj => hbefore j (Nat.zero_le j) hj⟩

end Text

end LeonUtils
