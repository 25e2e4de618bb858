import LeonUtils.Text.Format
import Mathlib.Data.List.TakeWhile

/-!
# From GB 18030

A string in GB 18030 is converted to wide characters in a scratch buffer on the stack, which has one
cell more than the string has bytes and is not initialised. `gb_2_u8` hands on what was converted,
from the beginning of the buffer to where the converter stopped. `gb_2_ws` returns the buffer as it
is, which is taken for a string up to a zero; nobody has put one there.

The converter comes with the system. It is any function that writes no more wide characters than
there are bytes. A wide character is a number of 32 bits; not all of them have a form in UTF-8.

## Main definitions

* `Converter`, `Scratch` — the converter, and what a buffer holds before a call
* `gb2u8`, `gb2ws`, `ws2u8` — the functions

## Main results

* `gb2ws_exact_iff` — `gb_2_ws` returns what was converted, and both ways to UTF-8 agree, just if
  nothing was converted to zero and a zero happens to be behind
-/

namespace LeonUtils

namespace Text

/-! ## The converters -/

/-- `codecvt::in` of the locale, for a whole string: what it writes if the result is `ok`. -/
structure Converter where
  convert : Str → Option (List UInt32)
  length_le : ∀ s ws, convert s = some ws → ws.length ≤ s.length

/-- What a buffer for `n` bytes holds before the call. -/
structure Scratch (n : ℕ) where
  cells : List UInt32
  length_cells : cells.length = n + 1

/-- The UTF-8 form of a wide character. -/
def utf8 (c : UInt32) : Except Exn Str :=
  let n := c.toNat
  if n < 0x80 then .ok [Char.ofNat n]
  else if n < 0x800 then .ok [Char.ofNat (0xC0 + n / 64), Char.ofNat (0x80 + n % 64)]
  else if 0xD800 ≤ n ∧ n ≤ 0xDFFF ∨ 0x10FFFF < n then .error .range
  else if n < 0x10000 then
    .ok [Char.ofNat (0xE0 + n / 4096), Char.ofNat (0x80 + n / 64 % 64), Char.ofNat (0x80 + n % 64)]
  else
    .ok [Char.ofNat (0xF0 + n / 262144), Char.ofNat (0x80 + n / 4096 % 64),
      Char.ofNat (0x80 + n / 64 % 64), Char.ofNat (0x80 + n % 64)]

/-- `to_bytes`. -/
def toBytes : List UInt32 → Except Exn Str
  | [] => .ok []
  | c :: ws => do
    let bytes ← utf8 c
    let rest ← toBytes ws
    .ok (bytes ++ rest)

/-! ## The functions -/

/-- The buffer once the converter has written to its beginning. -/
def Scratch.written {n : ℕ} (buf : Scratch n) (ws : List UInt32) : List UInt32 :=
  ws ++ buf.cells.drop ws.length

/-- A wide string from a pointer to its first character. There is none if no zero comes before the
end of the memory. -/
def wideString (cells : List UInt32) : Option (List UInt32) :=
  if 0 ∈ cells then some (cells.takeWhile (· ≠ 0)) else none

/-- `gb_2_u8`. -/
def gb2u8 (conv : Converter) (s : Str) (buf : Scratch s.length) : Except Exn Str :=
  match conv.convert s with
  | some ws => toBytes ((buf.written ws).take ws.length)
  | none => .ok []

/-- `gb_2_ws`. -/
def gb2ws (conv : Converter) (s : Str) (buf : Scratch s.length) : Option (List UInt32) :=
  match conv.convert s with
  | some ws => wideString (buf.written ws)
  | none => some []

/-- `ws_2_u8`. -/
def ws2u8 (ws : List UInt32) : Except Exn Str := toBytes ws

/-! ## What is returned -/

/-- The wide characters that the converter produced. -/
def Converter.produced (conv : Converter) (s : Str) : List UInt32 := (conv.convert s).getD []

/-- The call returns just what was converted, and both ways to UTF-8 agree. -/
def Exact (conv : Converter) (s : Str) (buf buf' : Scratch s.length) : Prop :=
  gb2ws conv s buf = some (conv.produced s) ∧
    (gb2ws conv s buf).map ws2u8 = some (gb2u8 conv s buf')

/-- `gb_2_u8` does not depend on the buffer. -/
theorem gb2u8_eq (conv : Converter) (s : Str) (buf : Scratch s.length) :
    gb2u8 conv s buf = ws2u8 (conv.produced s) := by
  rw [gb2u8, Converter.produced]
  cases conv.convert s with
  | none => rfl
  | some ws =>
    show toBytes ((buf.written ws).take ws.length) = toBytes ws
    rw [Scratch.written, List.take_left]

/-- A string ends where its first zero is. -/
theorem wideString_append_cons (ws rest : List UInt32) (x : UInt32) :
    wideString (ws ++ x :: rest) = some ws ↔ 0 ∉ ws ∧ x = 0 := by
  constructor
  · intro h
    rw [wideString] at h
    split at h
    · have h := Option.some_inj.mp h
      have hws : 0 ∉ ws := by
        intro h0
        rw [← h] at h0
        have himp := List.mem_takeWhile_imp h0
        exact absurd himp (by decide)
      refine ⟨hws, by_contra fun hx => ?_⟩
      have hall : ∀ c ∈ ws, decide (c ≠ 0) = true :=
        fun c hc => decide_eq_true fun h0 => hws (h0 ▸ hc)
      rw [List.takeWhile_append_of_pos hall, List.takeWhile_cons, if_pos (decide_eq_true hx)] at h
      have hlen := congrArg List.length h
      rw [List.length_append, List.length_cons] at hlen
      omega
    · cases h
  · rintro ⟨hws, rfl⟩
    have hall : ∀ c ∈ ws, decide (c ≠ 0) = true :=
      fun c hc => decide_eq_true fun h0 => hws (h0 ▸ hc)
    rw [wideString, if_pos (List.mem_append_right _ List.mem_cons_self),
      List.takeWhile_append_of_pos hall, List.takeWhile_cons_of_neg (by decide), List.append_nil]

/-- **Exact just by luck**: if the conversion succeeds, what it produced has to be without zeros,
and the cell behind it must have held a zero before. -/
theorem gb2ws_exact_iff (conv : Converter) (s : Str) (buf buf' : Scratch s.length) :
    Exact conv s buf buf' ↔
      ∀ ws, conv.convert s = some ws → 0 ∉ ws ∧ buf.cells[ws.length]? = some 0 := by
  rw [Exact, gb2u8_eq]
  have hsecond : gb2ws conv s buf = some (conv.produced s) →
      (gb2ws conv s buf).map ws2u8 = some (ws2u8 (conv.produced s)) := fun h => by
    rw [h, Option.map_some]
  rw [and_iff_left_of_imp hsecond, gb2ws, Converter.produced]
  cases hconv : conv.convert s with
  | none => exact iff_of_true rfl fun ws h => by cases h
  | some ws =>
    have hlt : ws.length < buf.cells.length := by
      rw [buf.length_cells]
      exact Nat.lt_succ_of_le (conv.length_le s ws hconv)
    show wideString (buf.written ws) = some ws ↔ _
    rw [Scratch.written, List.drop_eq_getElem_cons hlt, wideString_append_cons]
    constructor
    · rintro ⟨hws, hx⟩ ws' h
      cases h
      exact ⟨hws, (List.getElem?_eq_getElem hlt).trans (congrArg some hx)⟩
    · intro h
      obtain ⟨hws, hx⟩ := h ws rfl
      rw [List.getElem?_eq_getElem hlt] at hx
      exact ⟨hws, Option.some_inj.mp hx⟩

/-- A converter that knows one Chinese character. -/
def oneCharacter : Converter where
  convert s := if s = "\xb0\xa1".toList then some [0x554A] else none
  length_le s ws h := by
    split at h
    · rename_i hs
      cases h
      rw [hs]
      decide
    · cases h

/-- This character, and a letter that was in the buffer before. -/
theorem not_gb2ws_exact : ¬ Exact oneCharacter "\xb0\xa1".toList
    ⟨[7, 98, 0], rfl⟩ ⟨[7, 98, 0], rfl⟩ := by
  have hrun : gb2ws oneCharacter "\xb0\xa1".toList ⟨[7, 98, 0], rfl⟩ = some [0x554A, 98] := by
    decide
  intro h
  have hexact := h.1
  rw [hrun] at hexact
  exact absurd hexact (by decide)

end Text

end LeonUtils
