import LeonUtils.Shm.Layout

/-!
# The ring queue of one thread

`RingQue_t<T, SizeType>`: an array whose length is a power of two, a mask, and two counters. `_tail`
counts what has been put in and `_head` what has been taken out; the mask makes an array index of
either.

## Integers

`SizeType` is any integer type, given by its width and its signedness, and its values are integers.
`SizeType.store` is what storing a result does to it. Arithmetic on a type narrower than `int` is
done in `int`, and nothing is lost there before the result is stored: that is the difference
between `SizeType.sub` and `SizeType.store`.

Overflow of a signed counter is undefined in C++; here it wraps. No result speaks of a run in which
it happens.

## Memory

The array is a list. An access outside of it has no result: `none`. Taking an element out moves from
it, and what a move leaves behind is up to the element type and to the caller, so the call says what
it is.

## Main definitions

* `SizeType`, `ElemSize` — the parameters of the class template
* `RingQue`, `construct` — the data, and the constructor
* `RingQue.call` — one call

## Main results

* `SizeType.store_of_le` — up to the maximum of the type nothing is lost
* `construct_eq` — the capacity is a power of two that the type can represent
-/

namespace LeonUtils

namespace RingQue

open ShmAtmRQ (bitFloor)

/-! ## The integer type -/

/-- An integer type. -/
structure SizeType where
  width : ℕ
  signed : Bool
deriving DecidableEq

namespace SizeType

variable (t : SizeType)

/-- `std::numeric_limits<SizeType>::max()`. -/
def max : ℤ := if t.signed then 2 ^ (t.width - 1) - 1 else 2 ^ t.width - 1

/-- The conversion of an integer to the type. -/
def store (x : ℤ) : ℤ := if t.signed then Int.bmod x (2 ^ t.width) else x % 2 ^ t.width

/-- The difference of two values, in the type in which it is computed: `int` for types narrower
than that. -/
def sub (x y : ℤ) : ℤ := if t.width < 32 then x - y else t.store (x - y)

variable {t}

theorem store_congr {x y : ℤ} (h : x % 2 ^ t.width = y % 2 ^ t.width) : t.store x = t.store y := by
  have hcast : ((2 ^ t.width : ℕ) : ℤ) = 2 ^ t.width := by push_cast; rfl
  simp only [store, Int.bmod_def, hcast, h]

theorem store_emod (x : ℤ) : t.store x % 2 ^ t.width = x % 2 ^ t.width := by
  have hcast : ((2 ^ t.width : ℕ) : ℤ) = 2 ^ t.width := by push_cast; rfl
  rw [store]
  split
  · rw [← hcast, Int.bmod_emod]
  · exact Int.emod_emod_of_dvd _ dvd_rfl

/-- What has been stored may be stored again, whatever is added. -/
theorem store_store_add (x y : ℤ) : t.store (t.store x + y) = t.store (x + y) := by
  refine store_congr ?_
  rw [Int.add_emod, store_emod, ← Int.add_emod]

theorem max_lt : t.max < 2 ^ t.width := by
  rw [max]
  split
  · have hle : (2 : ℤ) ^ (t.width - 1) ≤ 2 ^ t.width :=
      pow_le_pow_right₀ (by norm_num) (Nat.sub_le _ _)
    omega
  · omega

/-- Up to the maximum nothing is lost. -/
theorem store_of_le {x : ℤ} (h0 : 0 ≤ x) (hle : x ≤ t.max) : t.store x = x := by
  have hlt := max_lt (t := t)
  rw [max] at hle
  rw [store]
  split at hle <;> rename_i hs
  · rw [if_pos hs]
    cases hw : t.width with
    | zero =>
      simp only [hw] at hle
      obtain rfl : x = 0 := by simp at hle; omega
      rfl
    | succ w =>
      simp only [hw, Nat.add_sub_cancel] at hle
      have hpow : (2 : ℤ) ^ (w + 1) = 2 * 2 ^ w := by rw [pow_succ, mul_comm]
      rw [Int.bmod_eq_of_le]
      · push_cast
        omega
      · push_cast
        omega
  · rw [if_neg hs]
    exact Int.emod_eq_of_lt h0 (by omega)

/-- A difference up to the maximum is computed exactly. -/
theorem sub_of_le {x y : ℤ} (hle : y ≤ x) (hmax : x - y ≤ t.max) : t.sub x y = x - y := by
  rw [sub]
  split
  · rfl
  · exact store_of_le (by omega) hmax

end SizeType

/-! ## The class -/

/-- `MAX_MEM_USAGE`. -/
def maxMemUsage : ℕ := 0x40000000

/-- The size of an element. One that is larger than all the memory a queue may use cannot be
queued: then `MOST_ELEMENTS` is zero, and there is no capacity. -/
structure ElemSize where
  bytes : ℕ
  pos : 0 < bytes
  fits : bytes ≤ maxMemUsage

/-- `MOST_ELEMENTS`. -/
def mostElements (e : ElemSize) : ℕ := bitFloor (maxMemUsage / e.bytes)

end RingQue

open RingQue (SizeType)

/-- `RingQue_t<T, SizeType>`. -/
structure RingQue (T : Type) (t : SizeType) where
  base : List T
  mask : ℤ
  head : ℤ
  tail : ℤ
deriving DecidableEq

namespace RingQue

open ShmAtmRQ (bitCeil bitFloor bitCeil_eq_two_pow)

variable {T : Type} {t : SizeType}

/-- The constructor, asked for `capa` elements; `init` is what the elements are at first. It throws
when the capacity it arrives at is beyond the maximum of `SizeType`. -/
def construct (T : Type) (t : SizeType) (e : ElemSize) (init : T) (capa : ℕ) :
    Option (RingQue T t) :=
  let c := min (mostElements e) (bitCeil capa)
  if t.max < c then none
  else some ⟨List.replicate c init, t.store (c - 1), 0, 0⟩

/-- **What the constructor arrives at**: a capacity that is a power of two, and a mask that the type
can represent. -/
theorem construct_eq {e : ElemSize} {init : T} {capa : ℕ} {q : RingQue T t}
    (h : construct T t e init capa = some q) :
    ∃ k < t.width, (2 : ℤ) ^ k ≤ t.max ∧ q = ⟨List.replicate (2 ^ k) init, 2 ^ k - 1, 0, 0⟩ := by
  obtain ⟨k, hk⟩ : ∃ k, min (mostElements e) (bitCeil capa) = 2 ^ k := by
    obtain ⟨a, ha⟩ := bitCeil_eq_two_pow capa
    have hne : maxMemUsage / e.bytes ≠ 0 := (Nat.div_pos e.fits e.pos).ne'
    rw [mostElements, bitFloor, if_neg hne, ha]
    rcases min_choice (2 ^ Nat.log2 (maxMemUsage / e.bytes)) (2 ^ a) with hmin | hmin
    · exact ⟨_, hmin⟩
    · exact ⟨_, hmin⟩
  simp only [construct, hk] at h
  push_cast at h
  split at h
  · cases h
  · rename_i hle
    have hle : (2 : ℤ) ^ k ≤ t.max := not_lt.mp hle
    have hpos : (0 : ℤ) < 2 ^ k := by positivity
    refine ⟨k, ?_, hle, ?_⟩
    · have hlt : (2 : ℤ) ^ k < 2 ^ t.width := hle.trans_lt SizeType.max_lt
      exact (pow_lt_pow_iff_right₀ (by norm_num)).mp hlt
    · rw [SizeType.store_of_le (by omega) (by omega)] at h
      exact (Option.some.inj h).symm

variable (q : RingQue T t)

/-- `counter & _mask`, as an index into the array. -/
def slot (i : ℤ) : ℕ := (Int.land i q.mask).toNat

def capa : ℤ := t.store (q.mask + 1)

def clear : RingQue T t := { q with tail := 0, head := 0 }

def empty : Bool := decide (q.tail ≤ q.head)

def full : Bool := decide (q.mask < t.sub q.tail q.head)

def size : ℤ := t.store (t.sub q.tail q.head)

/-- `head()`. Outside the array there is no element. -/
def front : Option T := q.base[q.slot q.head]?

/-- An assignment to `tail()`. -/
def writeTail (v : T) : Option (RingQue T t) :=
  if q.slot q.tail < q.base.length then some { q with base := q.base.set (q.slot q.tail) v }
  else none

/-- `enque()`. -/
def bump : RingQue T t := { q with tail := t.store (q.tail + 1) }

/-- `enque( v )`. -/
def enque (v : T) : Option (RingQue T t) := (q.writeTail v).map bump

/-- Both forms of `deque`: the element, and the queue. The element is moved from, by `deque` itself
or by its caller, which leaves some value `left` in its place. -/
def deque (left : T) : Option (T × RingQue T t) :=
  q.front.map fun v =>
    (v, { q with base := q.base.set (q.slot q.head) left, head := t.store (q.head + 1) })

def rtail : RingQue T t := { q with tail := t.store (q.tail - 1) }

/-! ## Calls -/

/-- What a caller may ask. -/
inductive Op (T : Type)
  | enque (v : T)
  /-- A write through `tail()`, followed by `enque()`. -/
  | tailEnque (v : T)
  | deque (left : T)
  | dequeInto (left : T)
  | rtail
  | clear
  | size
  | empty
  | full
  | head

/-- What a call gives back. -/
inductive Ans (T : Type)
  | done
  | elem (v : T)
  | num (n : ℤ)
  | flag (b : Bool)
deriving DecidableEq

/-- One call. -/
def call : Op T → Option (Ans T × RingQue T t)
  | .enque v => (q.enque v).map fun q => (.done, q)
  | .tailEnque v => (q.writeTail v).map fun q => (.done, q.bump)
  | .deque left | .dequeInto left => (q.deque left).map fun x => (.elem x.1, x.2)
  | .rtail => some (.done, q.rtail)
  | .clear => some (.done, q.clear)
  | .size => some (.num q.size, q)
  | .empty => some (.flag q.empty, q)
  | .full => some (.flag q.full, q)
  | .head => q.front.map fun v => (.elem v, q)

/-- Calls one after the other. -/
def calls (q : RingQue T t) : List (Op T) → Option (List (Ans T) × RingQue T t)
  | [] => some ([], q)
  | op :: ops =>
    match q.call op with
    | none => none
    | some (a, q') => (q'.calls ops).map fun x => (a :: x.1, x.2)

end RingQue

end LeonUtils
