import LeonUtils.UnionTypes

/-!
# Strings in shorter words

`U16_u` and `U32_u` are written like `U64_u`, for two and four characters. Where `U64_u` copies in
a loop that stops at the end of the string, they read the bytes one by one.

A string is the list of its characters here, whether it comes as a `std::string` or as a C string.
Behind the characters a NUL can be read, and nothing behind that: a call that tries to has no
result. An assignment is given what the union held before.

## Main definitions

* `charAt` — a character of a string, or its NUL
* `U16`, `U32` — the unions, with the constructors and assignments from strings, and `str`
* `zeroPadded` — what a union is meant to hold of a string

## Main results

* `short_strings_iff` — for which strings and bit patterns the two behave like `U64_u`
-/

namespace LeonUtils

open Bytes

/-- A character of a string, or the NUL behind the last one. -/
def charAt (s : List UInt8) (i : ℕ) : Option UInt8 := (s ++ [0])[i]?

/-- The first `n` bytes of a string, with zero bytes behind them. -/
def zeroPadded (n : ℕ) (s : List UInt8) : List UInt8 :=
  s.take n ++ List.replicate (n - s.length) 0

/-! ## Two characters -/

/-- The union `U16_u`, by its bytes. -/
structure U16 where
  b0 : UInt8
  b1 : UInt8
deriving DecidableEq

namespace U16

def asA (u : U16) : List UInt8 := [u.b0, u.b1]

/-- The constructor from a `char_cp`, which may be null. -/
def ofCStr : Option (List UInt8) → Option U16
  | none => some ⟨0, 0⟩
  | some p => do
    let b0 ← charAt p 0
    let b1 ← charAt p 1
    some ⟨b0, b1⟩

/-- The constructor from a `std::string`. -/
def ofStr (s : List UInt8) : Option U16 := do
  let b0 ← if s.isEmpty then some 0 else charAt s 0
  let b1 ← if 1 < s.length then charAt s 1 else some 0
  some ⟨b0, b1⟩

/-- `operator =` for a `char_cp`. -/
def assignCStr (u : U16) : Option (List UInt8) → Option U16
  | none => some { u with b0 := 0, b1 := 0 }
  | some p => do
    let b0 ← charAt p 0
    let u := { u with b0 }
    let b1 ← charAt p 1
    some { u with b1 }

/-- `operator =` for a `std::string`. -/
def assignStr (u : U16) (s : List UInt8) : Option U16 := do
  let b0 ← if s.isEmpty then some 0 else charAt s 0
  let u := { u with b0 }
  let b1 ← if 1 < s.length then charAt s 1 else some 0
  some { u with b1 }

/-- `str`. -/
def str (u : U16) : Option (List UInt8) :=
  if u.b1 = 0 then ofNulTerminated u.asA else some u.asA

end U16

/-! ## Four characters -/

/-- The union `U32_u`, by its bytes. -/
structure U32 where
  b0 : UInt8
  b1 : UInt8
  b2 : UInt8
  b3 : UInt8
deriving DecidableEq

namespace U32

def asA (u : U32) : List UInt8 := [u.b0, u.b1, u.b2, u.b3]

/-- `asU`. -/
def asU (u : U32) : BitVec 32 := BitVec.ofNat 32 (littleEndian u.asA)

/-- `b0 = p_[0]; b1 = p_[1]; b2 = p_[2]; b3 = p_[3];` -/
def copy (u : U32) (p : List UInt8) : Option U32 := do
  let b0 ← charAt p 0
  let u := { u with b0 }
  let b1 ← charAt p 1
  let u := { u with b1 }
  let b2 ← charAt p 2
  let u := { u with b2 }
  let b3 ← charAt p 3
  some { u with b3 }

/-- `operator =` for a `char_cp`, which may be null. -/
def assignCStr (u : U32) : Option (List UInt8) → Option U32
  | none => some ⟨0, 0, 0, 0⟩
  | some p => u.copy p

/-- `operator =` for a `std::string`. -/
def assignStr (u : U32) (s : List UInt8) : Option U32 :=
  if s.isEmpty then some ⟨0, 0, 0, 0⟩ else u.copy s

/-- The constructor from a `char_cp`, on a union that holds anything. -/
def ofCStr (u : U32) (p : Option (List UInt8)) : Option U32 := u.assignCStr p

/-- The constructor from a `std::string`, on a union that holds anything. -/
def ofStr (u : U32) (s : List UInt8) : Option U32 := u.assignStr s

/-- `str`. -/
def str (u : U32) : Option (List UInt8) :=
  if (u.asU - 0x01010101) &&& ~~~u.asU &&& 0x80808080 ≠ 0 then ofNulTerminated u.asA
  else some u.asA

end U32

/-! ## What is copied -/

namespace U16

/-- A `std::string` is copied with two checks on its length. -/
theorem ofStr_asA (s : List UInt8) : (ofStr s).map asA = some (zeroPadded 2 s) := by
  rcases s with _ | ⟨a, _ | ⟨b, s⟩⟩
  · rfl
  · rfl
  · simp [ofStr, asA, zeroPadded, charAt]

theorem assignStr_eq (u : U16) (s : List UInt8) : u.assignStr s = ofStr s := rfl

/-- A C string is copied without a check, so that it must have a character. -/
theorem ofCStr_asA_iff (s : List UInt8) :
    (ofCStr (some s)).map asA = some (zeroPadded 2 s) ↔ s ≠ [] := by
  rcases s with _ | ⟨a, _ | ⟨b, s⟩⟩
  · simp [ofCStr, charAt]
  · simp [ofCStr, asA, zeroPadded, charAt]
  · simp [ofCStr, asA, zeroPadded, charAt]

theorem assignCStr_eq (u : U16) (p : Option (List UInt8)) : u.assignCStr p = ofCStr p := by
  cases p <;> rfl

/-- `str` only looks at the second byte. -/
theorem str_iff (u : U16) :
    u.str = some (u.asA.takeWhile (· ≠ 0)) ↔ (u.b0 = 0 → u.b1 = 0) := by
  obtain ⟨b0, b1⟩ := u
  by_cases h0 : b0 = 0 <;> by_cases h1 : b1 = 0 <;>
    simp [str, asA, ofNulTerminated, h0, h1, Ne.symm]

end U16

namespace U32

/-- Four characters are copied if the string and its NUL have them. -/
theorem copy_asA_iff (u : U32) (s : List UInt8) :
    (u.copy s).map asA = some (zeroPadded 4 s) ↔ 3 ≤ s.length := by
  rcases s with _ | ⟨a, _ | ⟨b, _ | ⟨c, s⟩⟩⟩
  · simp [copy, charAt]
  · simp [copy, charAt]
  · simp [copy, charAt]
  · cases s <;> simp [copy, asA, zeroPadded, charAt]

theorem assignStr_asA_iff (u : U32) (s : List UInt8) :
    (u.assignStr s).map asA = some (zeroPadded 4 s) ↔ s = [] ∨ 3 ≤ s.length := by
  cases s with
  | nil => exact iff_of_true rfl (Or.inl rfl)
  | cons a s => exact (u.copy_asA_iff (a :: s)).trans (or_iff_right (List.cons_ne_nil a s)).symm

theorem toNat_asU (u : U32) : u.asU.toNat = littleEndian u.asA :=
  Nat.mod_eq_of_lt ((littleEndian_lt u.asA).trans_eq (by norm_num [asA]))

/-- The test finds a zero byte if there is one. -/
theorem test_iff (u : U32) :
    (u.asU - 0x01010101) &&& ~~~u.asU &&& 0x80808080 ≠ 0 ↔ 0 ∈ u.asA := by
  have htest : zeroTest 4 (littleEndian u.asA) = 0 ↔ 0 ∉ u.asA := zeroTest_eq_zero_iff u.asA
  have hnat : ((u.asU - 0x01010101) &&& ~~~u.asU &&& 0x80808080).toNat =
      zeroTest 4 (littleEndian u.asA) := by
    rw [BitVec.toNat_and, BitVec.toNat_and, BitVec.toNat_sub, BitVec.toNat_not, toNat_asU]
    rfl
  rw [← not_iff_not, ← htest, ← hnat, not_not, ← BitVec.toNat_inj]
  rfl

/-- **What `str` gives**, whatever the bits are. -/
theorem str_eq (u : U32) : u.str = some (u.asA.takeWhile (· ≠ 0)) :=
  nulTerminated_of_test u.test_iff

end U32

/-- **For which strings and bit patterns the short unions behave like `U64_u`.** Of a
`std::string`, `U16_u` copies what it should, and `U32_u` does so if the string is empty or has
three characters, since then nothing is read behind its NUL. Of a C string the one needs one
character and the other three. `U16_u::str` is right unless only the first byte is zero,
`U32_u::str` always. -/
theorem short_strings_iff (s : List UInt8) (u : U16) (v : U32) :
    ((U16.ofStr s).map U16.asA = some (zeroPadded 2 s) ∧
      (u.assignStr s).map U16.asA = some (zeroPadded 2 s)) ∧
    (((v.ofStr s).map U32.asA = some (zeroPadded 4 s) ↔ s = [] ∨ 3 ≤ s.length) ∧
      ((v.assignStr s).map U32.asA = some (zeroPadded 4 s) ↔ s = [] ∨ 3 ≤ s.length)) ∧
    (((U16.ofCStr (some s)).map U16.asA = some (zeroPadded 2 s) ↔ s ≠ []) ∧
      ((u.assignCStr (some s)).map U16.asA = some (zeroPadded 2 s) ↔ s ≠ [])) ∧
    (((v.ofCStr (some s)).map U32.asA = some (zeroPadded 4 s) ↔ 3 ≤ s.length) ∧
      ((v.assignCStr (some s)).map U32.asA = some (zeroPadded 4 s) ↔ 3 ≤ s.length)) ∧
    (u.str = some (u.asA.takeWhile (· ≠ 0)) ↔ (u.b0 = 0 → u.b1 = 0)) ∧
    v.str = some (v.asA.takeWhile (· ≠ 0)) := by
  refine ⟨⟨U16.ofStr_asA s, ?_⟩, ⟨v.assignStr_asA_iff s, v.assignStr_asA_iff s⟩,
    ⟨U16.ofCStr_asA_iff s, ?_⟩, ⟨v.copy_asA_iff s, v.copy_asA_iff s⟩, u.str_iff, v.str_eq⟩
  · rw [U16.assignStr_eq]
    exact U16.ofStr_asA s
  · rw [U16.assignCStr_eq]
    exact U16.ofCStr_asA_iff s

/-- An empty C string, a `std::string` of one character, and a zero byte before another. -/
theorem not_short_strings : (U16.ofCStr (some [])).map U16.asA ≠ some (zeroPadded 2 []) ∧
    (U32.ofStr ⟨0, 0, 0, 0⟩ [49]).map U32.asA ≠ some (zeroPadded 4 [49]) ∧
    U16.str ⟨0, 49⟩ ≠ some ((U16.asA ⟨0, 49⟩).takeWhile (· ≠ 0)) := by
  decide

end LeonUtils
