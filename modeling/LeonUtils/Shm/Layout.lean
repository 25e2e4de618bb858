import Mathlib.Data.Int.Bitwise
import Mathlib.Logic.Function.Basic
import Mathlib.Tactic.Linarith

/-!
# The shared segment of the queue

What `ShmAtmRQ_t` keeps in shared memory, what each handle copies out of it, and how `make`
initialises it. Every process maps the same segment; the queue itself is in `Shm.Machine`.

## Integers

`SIZE_TYPE` is `int64_t` and is read here as `ℤ`. The counters only grow, one step for each
operation, so nothing computed from them leaves the range of `int64_t` in fewer than `2 ^ 63`
operations; past that the C++ program has no defined meaning. The one place where width matters
is `alignCapa`, whose argument goes through `size_t` and back, and there it is spelled out.

## Initialisation is a program

`make` is a list of `Init` instructions rather than a formula, one for each store or load of
shared memory. Run without interruption it gives the initial state of the queue; interleaved
with another process's `plug`, it is what `Shm.Attach` is about.

## Main definitions

* `Meta`, `Node`, `Shm`, `Handle` — the data
* `alignCapa` — `ShmAtmRQ_t::_AlignCapa`
* `makeProgram`, `make`, `plug` — creating a segment and attaching to one

## Main results

* `alignCapa_eq_two_pow` — the capacity is a power of two between `32` and `2 ^ 23`
* `land_mask` — masking with `capacity - 1` is reduction modulo the capacity
* `make_shm`, `make_handle` — what initialisation leaves behind
-/

namespace LeonUtils

namespace ShmAtmRQ

/-! ## Capacity -/

/-- `sizeof( Node_t )`. -/
def sizeofNode : ℕ := 128

/-- `sizeof( Meta_t )`: two cache lines. -/
def sizeofMeta : ℕ := 128

/-- `LOAD_SIZE`, the bytes of one payload. -/
def loadSize : ℕ := 112

/-- `MAX_SHM_USAGE`. -/
def maxShmUsage : ℕ := 0x40000000

/-- `std::bit_ceil`: the least power of two not below `x`. -/
def bitCeil (x : ℕ) : ℕ := if x ≤ 1 then 1 else 2 ^ (Nat.log2 (x - 1) + 1)

/-- `std::bit_floor`: the greatest power of two not above `x`. -/
def bitFloor (x : ℕ) : ℕ := if x = 0 then 0 else 2 ^ Nat.log2 x

/-- `static_cast<size_t>` of a 64-bit signed value. -/
def toSize (w : ℤ) : ℕ := (w % 2 ^ 64).toNat

/-- The conversion of a `size_t` back to `SIZE_TYPE`. -/
def ofSize (x : ℕ) : ℤ := Int.bmod x (2 ^ 64)

/-- `LEAST_ELEMNTS`: one page of nodes. -/
def leastElemnts : ℤ := (4096 / sizeofNode : ℕ)

/-- `MOST_ELEMENTS`. -/
def mostElements : ℤ := bitFloor (maxShmUsage / sizeofNode)

/-- `ShmAtmRQ_t::_AlignCapa`, without its log lines. -/
def alignCapa (w : ℤ) : ℤ :=
  let w := ofSize (bitCeil (toSize w))
  let w := if w < leastElemnts then leastElemnts else w
  if w > mostElements then mostElements else w

theorem leastElemnts_eq : leastElemnts = 2 ^ 5 := by decide

theorem mostElements_eq : mostElements = 2 ^ 23 := by decide +kernel

theorem bitCeil_eq_two_pow (x : ℕ) : ∃ k, bitCeil x = 2 ^ k := by
  rw [bitCeil]
  split
  · exact ⟨0, rfl⟩
  · exact ⟨_, rfl⟩

/-- A power of two that fits in `int64_t` survives the conversion; a larger one does not come
back positive. -/
theorem ofSize_two_pow (k : ℕ) : ofSize (2 ^ k) = 2 ^ k ∨ ofSize (2 ^ k) ≤ 0 := by
  unfold ofSize
  rcases Nat.lt_or_ge k 63 with hk | hk
  · left
    have hlt : (2 : ℕ) ^ k < 2 ^ 63 := Nat.pow_lt_pow_right (by norm_num) hk
    have hpos := Nat.two_pow_pos k
    rw [Int.bmod_eq_of_le (by omega) (by omega)]
    push_cast
    rfl
  · right
    rcases Nat.eq_or_lt_of_le hk with rfl | hk
    · decide
    · rw [Int.bmod_eq_zero_of_dvd]
      exact_mod_cast pow_dvd_pow 2 (show 64 ≤ k by omega)

/-- **The capacity is a power of two** within the limits of the class, whatever was asked for. -/
theorem alignCapa_eq_two_pow (w : ℤ) : ∃ k, 5 ≤ k ∧ k ≤ 23 ∧ alignCapa w = 2 ^ k := by
  obtain ⟨k, hk⟩ := bitCeil_eq_two_pow (toSize w)
  have hcast := ofSize_two_pow k
  simp only [alignCapa, hk, leastElemnts_eq, mostElements_eq]
  have hmono : ∀ {a b : ℕ}, (2 : ℤ) ^ a ≤ 2 ^ b → a ≤ b := fun h =>
    (pow_le_pow_iff_right₀ (by norm_num : (1 : ℤ) < 2)).mp h
  split_ifs with hlow hhigh hhigh
  · norm_num at hhigh
  · exact ⟨5, le_rfl, by norm_num, rfl⟩
  · exact ⟨23, by norm_num, le_rfl, rfl⟩
  · rcases hcast with hcast | hcast
    · push_cast at hcast hlow hhigh ⊢
      rw [hcast] at hlow hhigh ⊢
      exact ⟨k, hmono (by omega), hmono (by omega), rfl⟩
    · push_cast at hcast hlow
      omega

theorem alignCapa_bounds (w : ℤ) : 32 ≤ alignCapa w ∧ alignCapa w ≤ 8388608 := by
  obtain ⟨k, hk5, hk23, hk⟩ := alignCapa_eq_two_pow w
  rw [hk]
  constructor
  · exact_mod_cast Nat.pow_le_pow_right (n := 2) (by norm_num) hk5
  · exact_mod_cast Nat.pow_le_pow_right (n := 2) (by norm_num) hk23

theorem alignCapa_pos (w : ℤ) : 0 < alignCapa w := by
  have := alignCapa_bounds w
  omega

/-- Masking with `2 ^ k - 1` is reduction modulo `2 ^ k`, for negative indices too. -/
theorem land_two_pow_sub_one (i : ℤ) (k : ℕ) : Int.land i (2 ^ k - 1) = i % 2 ^ k := by
  have hcast : ((2 : ℤ) ^ k - 1) = ((2 ^ k - 1 : ℕ) : ℤ) := by
    rw [Nat.cast_sub Nat.one_le_two_pow]
    simp
  rw [hcast]
  cases i with
  | ofNat a =>
    change (((a &&& (2 ^ k - 1) : ℕ)) : ℤ) = _
    rw [Nat.and_two_pow_sub_one_eq_mod]
    simp
  | negSucc a =>
    change ((Nat.ldiff (2 ^ k - 1) a : ℕ) : ℤ) = _
    have hlt : a % 2 ^ k < 2 ^ k := Nat.mod_lt _ (Nat.two_pow_pos k)
    -- clearing the bits of `a` leaves the complement of `a % 2 ^ k` in `k` bits
    have hbits : Nat.ldiff (2 ^ k - 1) a = 2 ^ k - (a % 2 ^ k + 1) := by
      refine Nat.eq_of_testBit_eq ?_
      intro b
      rw [Nat.testBit_ldiff, Nat.testBit_two_pow_sub_succ hlt, Nat.testBit_two_pow_sub_one,
        Nat.testBit_mod_two_pow]
      by_cases hb : b < k <;> simp [hb]
    rw [hbits, Int.negSucc_emod _ (by positivity)]
    have hmod : ((a : ℤ) % 2 ^ k) = ((a % 2 ^ k : ℕ) : ℤ) := by push_cast; rfl
    rw [hmod]
    push_cast [Nat.cast_sub hlt]
    omega

/-- `index & _mask` is `index mod capacity`. -/
theorem land_mask (i w : ℤ) : Int.land i (alignCapa w - 1) = i % alignCapa w := by
  obtain ⟨k, -, -, hk⟩ := alignCapa_eq_two_pow w
  rw [hk]
  exact land_two_pow_sub_one i k

/-! ## Shared memory -/

/-- The bytes of one payload, `Node_t::goods`. -/
abbrev Goods : Type := Fin loadSize → UInt8

/-- `Node_t`. -/
structure Node where
  hTag : ℤ
  goods : Goods
  tTag : ℤ

/-- `Meta_t`, the control area. `_flag` is left out: no operation of the queue reads it. -/
structure Meta where
  head : ℤ
  capa : ℤ
  mask : ℤ
  tail : ℤ

/-- A segment: the control area, then the nodes (`_base`). -/
structure Shm extends Meta where
  base : ℤ → Node

/-- What a handle keeps for itself: `_capa`, `_mask` and `_errs`. -/
structure Handle where
  capa : ℤ
  mask : ℤ
  errs : ℤ

/-- A segment as the operating system hands it out. -/
def zeroed : Shm := ⟨⟨0, 0, 0, 0⟩, fun _ => ⟨0, fun _ => 0, 0⟩⟩

/-- A store to shared memory. -/
inductive Store
  | capa (v : ℤ)
  | mask (v : ℤ)
  | head (v : ℤ)
  | tail (v : ℤ)
  | hTag (j v : ℤ)
  | tTag (j v : ℤ)
  | byte (j : ℤ) (b : Fin loadSize) (v : UInt8)

/-- Change one node. -/
def Shm.setNode (m : Shm) (j : ℤ) (x : Node) : Shm :=
  { m with base := Function.update m.base j x }

/-- The effect of a store. -/
def Shm.store (m : Shm) : Store → Shm
  | .capa v => { m with capa := v }
  | .mask v => { m with mask := v }
  | .head v => { m with head := v }
  | .tail v => { m with tail := v }
  | .hTag j v => m.setNode j { m.base j with hTag := v }
  | .tTag j v => m.setNode j { m.base j with tTag := v }
  | .byte j b v => m.setNode j { m.base j with goods := Function.update (m.base j).goods b v }

/-! ## Creating and attaching -/

/-- One access to shared memory made by `make`. -/
inductive Init
  | store (x : Store)
  | loadCapa
  | loadMask

/-- Execute one access of `make`, on the segment and on the handle under construction. -/
def Init.exec (x : Shm × Handle) : Init → Shm × Handle
  | .store st => (x.1.store st, x.2)
  | .loadCapa => (x.1, { x.2 with capa := x.1.capa })
  | .loadMask => (x.1, { x.2 with mask := x.1.mask })

/-- The loop at the end of `make`: both tags of every node. -/
def tagProgram (capa : ℤ) : ℕ → List Init
  | 0 => []
  | i + 1 => tagProgram capa i ++ [.store (.hTag i (i - capa)), .store (.tTag i i)]

/-- The accesses of `make` to shared memory, in program order. -/
def makeProgram (capa : ℤ) : List Init :=
  [.store (.capa capa), .store (.mask (capa - 1)), .store (.head 0), .store (.tail 0),
    .loadCapa, .loadMask] ++ tagProgram capa capa.toNat

/-- A handle before `make` or `plug`. -/
def Handle.fresh : Handle := ⟨0, 0, 0⟩

/-- `ShmAtmRQ_t::make` on a new segment, run without interruption. -/
def make (capa : ℤ) : Shm × Handle :=
  (makeProgram (alignCapa capa)).foldl Init.exec (zeroed, .fresh)

/-- The size a segment must have for the capacity stored in it. The product is taken in
`size_t`. -/
def wantBytes (capa : ℤ) : ℕ := toSize (sizeofMeta + capa * sizeofNode)

/-- `ShmAtmRQ_t::plug` on a mapped segment of `realBytes` bytes, run without interruption. -/
def plug (realBytes : ℕ) (m : Shm) : Except String Handle :=
  if realBytes ≠ wantBytes m.capa then .error ":实际尺寸与期望尺寸不符!"
  else .ok ⟨m.capa, m.mask, 0⟩

/-- Changing none of the nodes. -/
theorem upTo_zero {α : Type*} (base f : ℤ → α) :
    (fun j => if 0 ≤ j ∧ j < ((0 : ℕ) : ℤ) then f j else base j) = base :=
  funext fun j => if_neg (by omega)

/-- Changing one node after another. -/
theorem update_upTo {α : Type*} (base f : ℤ → α) (n : ℕ) :
    Function.update (fun j => if 0 ≤ j ∧ j < (n : ℤ) then f j else base j) n (f n) =
      fun j => if 0 ≤ j ∧ j < ((n + 1 : ℕ) : ℤ) then f j else base j := by
  funext j
  by_cases hj : j = n
  · subst hj
    rw [Function.update_self, if_pos ⟨by omega, by omega⟩]
  · have hiff : (0 ≤ j ∧ j < (n : ℤ)) ↔ (0 ≤ j ∧ j < ((n + 1 : ℕ) : ℤ)) := by
      push_cast
      omega
    simp only [Function.update_of_ne hj, hiff]

theorem foldl_tagProgram (capa : ℤ) (n : ℕ) (m : Shm) (h : Handle) :
    (tagProgram capa n).foldl Init.exec (m, h) =
      ({ m with base := fun j =>
          if 0 ≤ j ∧ j < n then ⟨j - capa, (m.base j).goods, j⟩ else m.base j }, h) := by
  induction n with
  | zero =>
    rw [upTo_zero m.base fun j => ⟨j - capa, (m.base j).goods, j⟩]
    rfl
  | succ n ih =>
    rw [tagProgram, List.foldl_append, ih,
      ← update_upTo m.base (fun j => ⟨j - capa, (m.base j).goods, j⟩)]
    simp only [List.foldl_cons, List.foldl_nil, Init.exec, Shm.store, Shm.setNode,
      Function.update_self, Function.update_idem, lt_irrefl, and_false, if_false]

/-- The segment after `make`: empty, with `t_tag = j` and `h_tag = j - capacity` in node `j`. -/
theorem make_shm (w : ℤ) :
    (make w).1 = ⟨⟨0, alignCapa w, alignCapa w - 1, 0⟩, fun j =>
      if 0 ≤ j ∧ j < alignCapa w then ⟨j - alignCapa w, fun _ => 0, j⟩
      else ⟨0, fun _ => 0, 0⟩⟩ := by
  have hn : ((alignCapa w).toNat : ℤ) = alignCapa w := Int.toNat_of_nonneg (alignCapa_pos w).le
  rw [make, makeProgram, List.foldl_append, List.foldl_cons, List.foldl_cons, List.foldl_cons,
    List.foldl_cons, List.foldl_cons, List.foldl_cons, List.foldl_nil]
  simp only [Init.exec, Shm.store, zeroed]
  rw [foldl_tagProgram]
  simp only [hn]

theorem make_handle (w : ℤ) : (make w).2 = ⟨alignCapa w, alignCapa w - 1, 0⟩ := by
  rw [make, makeProgram, List.foldl_append, List.foldl_cons, List.foldl_cons, List.foldl_cons,
    List.foldl_cons, List.foldl_cons, List.foldl_cons, List.foldl_nil]
  simp only [Init.exec, Shm.store, Handle.fresh]
  rw [foldl_tagProgram]

end ShmAtmRQ

end LeonUtils
