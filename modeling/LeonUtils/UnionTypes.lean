import LeonUtils.Bytes
import Mathlib.Data.BitVec
import Mathlib.Data.List.TakeWhile
import Mathlib.Tactic.IntervalCases

/-!
# Strings in a word

`U64_u` keeps up to eight characters in a word of 64 bits, so that short strings can be compared as
numbers. Its bytes are the union's array of characters; the machine is little-endian, so that the
first character is the lowest byte of the number.

## C strings

A pointer is what can be read from it on, which need not end anywhere. A `std::string` is a list of
bytes, zero bytes included; its `c_str` has a NUL behind it, and anything at all behind that.

`str` takes the array for a C string when the test on the whole word finds a zero byte. Should there
be none after all, the C string would go on behind the union: it has no result then.

## Main definitions

* `U64`, `U64.asU` — the union, and its number
* `U64.ofStr`, `U64.ofCStr`, `U64.ofUInt` — the constructors
* `U64.str` — the string in it

## Main results

* `U64.str_eq` — what `str` gives, for every bit pattern
* `U64.strings` — the constructors and `str` fit together
-/

namespace LeonUtils

open Bytes

/-- The union `U64_u`, by its bytes `asA`. -/
structure U64 where
  asA : List UInt8
  length_asA : asA.length = 8
deriving DecidableEq

/-- `c_str`: the characters of a string, a NUL, and what happens to follow. -/
def cStr (s : List UInt8) (behind : ℕ → UInt8) (i : ℕ) : UInt8 :=
  if h : i < s.length then s[i] else if i = s.length then 0 else behind i

/-- A string from characters up to a NUL, as long as there is one among them. -/
def ofNulTerminated (bs : List UInt8) : Option (List UInt8) :=
  if 0 ∈ bs then some (bs.takeWhile (· ≠ 0)) else none

/-- With a test that finds a zero byte if there is one, nothing is read behind the bytes. -/
theorem nulTerminated_of_test {bs : List UInt8} {test : Prop} [Decidable test]
    (h : test ↔ 0 ∈ bs) :
    (if test then ofNulTerminated bs else some bs) = some (bs.takeWhile (· ≠ 0)) := by
  split
  · rename_i htest
    rw [ofNulTerminated, if_pos (h.mp htest)]
  · rename_i htest
    have hall : ∀ b ∈ bs, decide (b ≠ 0) = true := by
      rintro b hb
      exact decide_eq_true fun h0 => htest (h.mpr (h0 ▸ hb))
    rw [List.takeWhile_eq_self_iff.mpr hall]

namespace U64

@[ext]
theorem ext {u v : U64} (h : u.asA = v.asA) : u = v := by
  cases u
  cases v
  exact (U64.mk.injEq ..).mpr h

/-! ## The number -/

/-- `asU`. -/
def asU (u : U64) : BitVec 64 := BitVec.ofNat 64 (littleEndian u.asA)

/-- The constructor from a `uint64_t`. -/
def ofUInt (x : BitVec 64) : U64 := ⟨bytesOf 8 x.toNat, length_bytesOf 8 x.toNat⟩

theorem toNat_asU (u : U64) : u.asU.toNat = littleEndian u.asA := by
  have hlt := littleEndian_lt u.asA
  rw [u.length_asA] at hlt
  exact Nat.mod_eq_of_lt (hlt.trans_eq (by norm_num))

theorem asU_ofUInt (x : BitVec 64) : (ofUInt x).asU = x := by
  apply BitVec.eq_of_toNat_eq
  rw [toNat_asU]
  exact littleEndian_bytesOf (x.isLt.trans_eq (by norm_num))

theorem asU_inj {u v : U64} : u.asU = v.asU ↔ u = v := by
  refine ⟨fun h => ext (littleEndian_inj ?_ ?_), congrArg asU⟩
  · rw [u.length_asA, v.length_asA]
  · rw [← toNat_asU, h, toNat_asU]

/-- `operator ==`. -/
def eq (u v : U64) : Bool := u.asU == v.asU

theorem eq_iff {u v : U64} : u.eq v = true ↔ u = v := by
  rw [eq, beq_iff_eq, asU_inj]

/-! ## The constructors -/

/-- `asI = 0`. -/
def zero : U64 := ⟨List.replicate 8 0, List.length_replicate⟩

/-- `asA[i] = c`. -/
def set (u : U64) (i : ℕ) (c : UInt8) : U64 :=
  ⟨u.asA.set i c, (List.length_set ..).trans u.length_asA⟩

/-- The loop over a C string, with `left` characters to go. -/
def copyCStr (p : ℕ → UInt8) : ℕ → ℕ → U64 → U64
  | 0, _, u => u
  | left + 1, i, u =>
    let c := p i
    if c = 0 then u else copyCStr p left (i + 1) (u.set i c)

/-- The constructor from a `char_cp`, which may be null. -/
def ofCStr : Option (ℕ → UInt8) → U64
  | none => zero
  | some p => copyCStr p 8 0 zero

/-- The loop over a string that is shorter than the union. -/
def copyStr : List UInt8 → ℕ → U64 → U64
  | [], _, u => u
  | c :: s, i, u => copyStr s (i + 1) (u.set i c)

/-- The constructor from a `std::string`. -/
def ofStr (s : List UInt8) : U64 :=
  if s.length = 0 then zero
  else if h : 8 ≤ s.length then
    ⟨[s[0], s[1], s[2], s[3], s[4], s[5], s[6], s[7]], rfl⟩
  else copyStr s 0 zero

/-! ## What is copied

The loops write the characters of a string over the zero bytes, one after the other. -/

theorem set_asA {u : U64} {done : List UInt8} {left : ℕ}
    (h : u.asA = done ++ List.replicate (left + 1) 0) (c : UInt8) :
    (u.set done.length c).asA = done ++ [c] ++ List.replicate left 0 := by
  show u.asA.set done.length c = _
  rw [h, List.set_append_right _ _ le_rfl, Nat.sub_self, List.replicate_succ,
    List.set_cons_zero, List.append_assoc]
  rfl

theorem copyStr_asA {s done : List UInt8} {left : ℕ} {u : U64}
    (h : u.asA = done ++ List.replicate (s.length + left) 0) :
    (copyStr s done.length u).asA = done ++ s ++ List.replicate left 0 := by
  induction s generalizing done u with
  | nil =>
    rw [copyStr, h, List.length_nil, Nat.zero_add, List.append_nil]
  | cons c s ih =>
    rw [List.length_cons, Nat.add_right_comm] at h
    have hlen : done.length + 1 = (done ++ [c]).length := by rw [List.length_append]; rfl
    rw [copyStr, hlen, ih (set_asA h c), List.append_assoc done, List.singleton_append]

/-- A character of a C string. -/
theorem cStr_append_cons (done s : List UInt8) (c : UInt8) (behind : ℕ → UInt8) :
    cStr (done ++ c :: s) behind done.length = c := by
  have hlt : done.length < (done ++ c :: s).length := by
    rw [List.length_append, List.length_cons]
    omega
  rw [cStr, dif_pos hlt, List.getElem_append_right le_rfl]
  simp only [Nat.sub_self, List.getElem_cons_zero]

/-- The NUL of a C string. -/
theorem cStr_length (s : List UInt8) (behind : ℕ → UInt8) : cStr s behind s.length = 0 := by
  rw [cStr, dif_neg (lt_irrefl _), if_pos rfl]

theorem copyCStr_asA {s done : List UInt8} (h0 : 0 ∉ s) (behind : ℕ → UInt8) {left : ℕ} {u : U64}
    (h : u.asA = done ++ List.replicate left 0) :
    (copyCStr (cStr (done ++ s) behind) left done.length u).asA =
      done ++ s.take left ++ List.replicate (left - s.length) 0 := by
  induction left generalizing s done u with
  | zero =>
    rw [copyCStr, h, List.take_zero, List.append_nil, Nat.zero_sub]
  | succ left ih =>
    cases s with
    | nil =>
      simp only [copyCStr, List.append_nil, cStr_length, if_true, h, List.take_nil,
        List.length_nil, Nat.sub_zero]
    | cons c s =>
      obtain ⟨hc, h0⟩ := not_or.mp (mt List.mem_cons.mpr h0)
      have hlen : done.length + 1 = (done ++ [c]).length := by rw [List.length_append]; rfl
      have happend : done ++ c :: s = done ++ [c] ++ s := by
        rw [List.append_assoc, List.singleton_append]
      simp only [copyCStr, cStr_append_cons, Ne.symm hc, if_false]
      rw [hlen, happend, ih h0 (set_asA h c), List.take_succ_cons, List.length_cons,
        Nat.add_sub_add_right, List.append_assoc done, List.singleton_append]

/-- The bytes of a string, as many as there is room for, and zero bytes after them. -/
theorem ofStr_asA (s : List UInt8) :
    (ofStr s).asA = s.take 8 ++ List.replicate (8 - s.length) 0 := by
  rw [ofStr]
  split
  · rename_i hlen
    obtain rfl := List.length_eq_zero_iff.mp hlen
    rfl
  · split
    · rename_i hlen
      have htake : s.take 8 = [s[0], s[1], s[2], s[3], s[4], s[5], s[6], s[7]] := by
        apply List.ext_getElem
        · simpa using hlen
        · intro i hi hi'
          rw [List.getElem_take]
          have hi' : i < 8 := hi'
          interval_cases i <;> rfl
      rw [htake, Nat.sub_eq_zero_of_le hlen, List.replicate_zero, List.append_nil]
    · rename_i hlen
      have hlen : s.length + (8 - s.length) = 8 := by omega
      have hzero : zero.asA = [] ++ List.replicate (s.length + (8 - s.length)) 0 := by
        rw [hlen]
        rfl
      rw [List.take_of_length_le (by omega)]
      exact copyStr_asA hzero

/-- Both constructors copy the same bytes. -/
theorem ofCStr_eq {s : List UInt8} (h0 : 0 ∉ s) (behind : ℕ → UInt8) :
    ofCStr (some (cStr s behind)) = ofStr s := by
  apply ext
  rw [ofStr_asA]
  exact @copyCStr_asA s [] h0 behind 8 zero rfl

/-! ## The string in it -/

/-- `str`. -/
def str (u : U64) : Option (List UInt8) :=
  if (u.asU - 0x0101010101010101) &&& ~~~u.asU &&& 0x8080808080808080 ≠ 0 then
    ofNulTerminated u.asA
  else some u.asA

/-- The test finds a zero byte if there is one. -/
theorem test_iff (u : U64) :
    (u.asU - 0x0101010101010101) &&& ~~~u.asU &&& 0x8080808080808080 ≠ 0 ↔ 0 ∈ u.asA := by
  have htest := zeroTest_eq_zero_iff u.asA
  have hnat : ((u.asU - 0x0101010101010101) &&& ~~~u.asU &&& 0x8080808080808080).toNat =
      zeroTest u.asA.length (littleEndian u.asA) := by
    rw [BitVec.toNat_and, BitVec.toNat_and, BitVec.toNat_sub, BitVec.toNat_not, toNat_asU,
      u.length_asA]
    rfl
  rw [← not_iff_not, ← htest, ← hnat, not_not, ← BitVec.toNat_inj]
  rfl

/-- **What `str` gives**, whatever the bits are. -/
theorem str_eq (u : U64) : u.str = some (u.asA.takeWhile (· ≠ 0)) :=
  nulTerminated_of_test u.test_iff

/-- A string comes back, as far as there was room for it. -/
theorem str_ofStr {s : List UInt8} (h0 : 0 ∉ s) : (ofStr s).str = some (s.take 8) := by
  have htake : ∀ b ∈ s.take 8, decide (b ≠ 0) = true := by
    intro b hb
    exact decide_eq_true fun h => h0 (h ▸ List.mem_of_mem_take hb)
  rw [str_eq, ofStr_asA, List.takeWhile_append_of_pos htake]
  cases 8 - s.length with
  | zero => rw [List.replicate_zero, List.takeWhile_nil, List.append_nil]
  | succ k =>
    rw [List.replicate_succ, List.takeWhile_cons_of_neg (by decide), List.append_nil]

/-- Short strings are told apart. -/
theorem ofStr_inj {s t : List UInt8} (hs : 0 ∉ s) (ht : 0 ∉ t) (hs8 : s.length ≤ 8)
    (ht8 : t.length ≤ 8) : ofStr s = ofStr t ↔ s = t := by
  refine ⟨fun h => ?_, congrArg ofStr⟩
  have hstr := congrArg str h
  rwa [str_ofStr hs, str_ofStr ht, List.take_of_length_le hs8, List.take_of_length_le ht8,
    Option.some_inj] at hstr

/-- **Strings in words**: the two constructors copy the same bytes of a string without NUL, as many
as there is room for. `str` gives the bytes before the first zero byte, whatever the bits are, so
that a string comes back as far as there was room. Strings that fit are equal when the words are. -/
theorem strings :
    (∀ (s : List UInt8) (behind : ℕ → UInt8), 0 ∉ s → ofCStr (some (cStr s behind)) = ofStr s ∧
      (ofStr s).asA = s.take 8 ++ List.replicate (8 - s.length) 0) ∧
    (∀ x : BitVec 64, (ofUInt x).asU = x ∧
      (ofUInt x).str = some ((bytesOf 8 x.toNat).takeWhile (· ≠ 0))) ∧
    (∀ s : List UInt8, 0 ∉ s → (ofStr s).str = some (s.take 8)) ∧
    (∀ s t : List UInt8, 0 ∉ s → 0 ∉ t → s.length ≤ 8 → t.length ≤ 8 →
      ((ofStr s).eq (ofStr t) = true ↔ s = t)) := by
  refine ⟨fun s behind h0 => ⟨ofCStr_eq h0 behind, ofStr_asA s⟩, fun x => ⟨asU_ofUInt x, ?_⟩,
    fun s h0 => str_ofStr h0, fun s t hs ht hs8 ht8 => ?_⟩
  · rw [str_eq]
    rfl
  · rw [eq_iff, ofStr_inj hs ht hs8 ht8]

theorem strings_abc : ofCStr (some (cStr [97, 98, 99] fun _ => 7)) = ofStr [97, 98, 99] ∧
    (ofStr [97, 98, 99]).str = some [97, 98, 99] :=
  ⟨(strings.1 [97, 98, 99] (fun _ => 7) (by decide)).1, strings.2.2.1 [97, 98, 99] (by decide)⟩

end U64

end LeonUtils
