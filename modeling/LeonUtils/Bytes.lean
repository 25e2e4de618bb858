import Mathlib.Data.Nat.Digits.Defs
import Mathlib.Tactic.NormNum

/-!
# Words of bytes

The bytes of a word are a list, the least significant first. `littleEndian` is the number they
stand for, and `bytesOf` the way back.

## Looking for a zero byte

`zeroTest` is a well-known test on the whole word: subtract one from every byte, keep the bits that
were clear before, and look at the highest of each byte. A subtraction borrows from the byte above,
so that a byte above a zero byte may be marked wrongly. It does not matter, since the lowest mark is
right.

## Main results

* `littleEndian_bytesOf`, `bytesOf_littleEndian` — the inverse pair
* `zeroTest_eq_zero_iff` — the test is right, for words of any length
-/

namespace Bytes

/-- The number that the bytes stand for. -/
def littleEndian : List UInt8 → ℕ
  | [] => 0
  | b :: bs => b.toNat + 256 * littleEndian bs

/-- The lowest bytes of a number, so many of them. -/
def bytesOf : ℕ → ℕ → List UInt8
  | 0, _ => []
  | n + 1, u => UInt8.ofNat u :: bytesOf n (u / 256)

/-! ## The inverse pair -/

@[simp]
theorem length_bytesOf (n u : ℕ) : (bytesOf n u).length = n := by
  induction n generalizing u with
  | zero => rfl
  | succ n ih => rw [bytesOf, List.length_cons, ih]

theorem littleEndian_lt (bs : List UInt8) : littleEndian bs < 256 ^ bs.length := by
  induction bs with
  | nil => exact Nat.one_pos
  | cons b bs ih =>
    have hb := b.toNat_lt
    rw [littleEndian, List.length_cons, pow_succ]
    omega

theorem littleEndian_bytesOf {n u : ℕ} (h : u < 256 ^ n) : littleEndian (bytesOf n u) = u := by
  induction n generalizing u with
  | zero =>
    rw [pow_zero, Nat.lt_one_iff] at h
    rw [h]
    rfl
  | succ n ih =>
    rw [bytesOf, littleEndian, ih (Nat.div_lt_of_lt_mul (by rwa [pow_succ'] at h)),
      UInt8.toNat_ofNat']
    exact Nat.mod_add_div u 256

theorem bytesOf_littleEndian (bs : List UInt8) : bytesOf bs.length (littleEndian bs) = bs := by
  induction bs with
  | nil => rfl
  | cons b bs ih =>
    have hb : b.toNat < 256 := b.toNat_lt
    have hdiv : (b.toNat + 256 * littleEndian bs) / 256 = littleEndian bs := by omega
    have hmod : UInt8.ofNat (b.toNat + 256 * littleEndian bs) = b := by
      apply UInt8.toNat_inj.mp
      rw [UInt8.toNat_ofNat']
      omega
    rw [List.length_cons, littleEndian, bytesOf, hmod, hdiv, ih]

/-- Words of one length are told apart by their numbers. -/
theorem littleEndian_inj {as bs : List UInt8} (hlen : as.length = bs.length)
    (h : littleEndian as = littleEndian bs) : as = bs := by
  rw [← bytesOf_littleEndian as, hlen, h, bytesOf_littleEndian]

/-! ## Looking for a zero byte -/

/-- The word whose bytes are all `b`. -/
def every (n : ℕ) (b : UInt8) : ℕ := littleEndian (List.replicate n b)

theorem every_succ (n : ℕ) (b : UInt8) : every (n + 1) b = b.toNat + 256 * every n b := rfl

theorem every_lt (n : ℕ) (b : UInt8) : every n b < 256 ^ n := by
  have h := littleEndian_lt (List.replicate n b)
  rwa [List.length_replicate] at h

/-- `(u - 0x01..01) & ~u & 0x80..80`, in words of `n` bytes. -/
def zeroTest (n u : ℕ) : ℕ :=
  (256 ^ n - every n 1 + u) % 256 ^ n &&& (256 ^ n - 1 - u) &&& every n 0x80

/-- Bits are taken of the lowest byte and of the others. -/
theorem and_cons {a b : ℕ} (ha : a < 256) (hb : b < 256) (x y : ℕ) :
    (a + 256 * x) &&& (b + 256 * y) = (a &&& b) + 256 * (x &&& y) := by
  have hmod : ((a + 256 * x) &&& (b + 256 * y)) % 2 ^ 8 = a &&& b := by
    rw [Nat.and_mod_two_pow]
    congr 1 <;> omega
  have hdiv : ((a + 256 * x) &&& (b + 256 * y)) / 2 ^ 8 = x &&& y := by
    rw [Nat.and_div_two_pow]
    congr 1 <;> omega
  have hsplit := Nat.mod_add_div ((a + 256 * x) &&& (b + 256 * y)) (2 ^ 8)
  rw [hmod, hdiv] at hsplit
  exact hsplit.symm

/-- A byte that is not zero has no mark of its own. -/
theorem mark_of_ne_zero {b : ℕ} (h0 : b ≠ 0) (hb : b < 256) :
    (b - 1) &&& (255 - b) &&& 128 = 0 := by
  have hall : ∀ b : Fin 256, b.val ≠ 0 → (b.val - 1) &&& (255 - b.val) &&& 128 = 0 := by
    decide +kernel
  exact hall ⟨b, hb⟩ h0

/-- A remainder leaves the lowest byte as it is. -/
theorem mod_cons {a : ℕ} (ha : a < 256) (x M : ℕ) :
    (a + 256 * x) % (256 * M) = a + 256 * (x % M) := by
  have hmod : (a + 256 * x) % 256 = a := by omega
  have hdiv : (a + 256 * x) / 256 = x := by omega
  rw [Nat.mod_mul, hmod, hdiv]

/-- The subtraction in the lowest byte, and what it does to the bytes above: if the lowest byte is
zero, it borrows. -/
theorem sub_ones_cons {b M o u : ℕ} (hb : b < 256) (ho : o < M) :
    (256 * M - (1 + 256 * o) + (b + 256 * u)) % (256 * M) =
      if b = 0 then 255 + 256 * ((M - 1 - o + u) % M) else b - 1 + 256 * ((M - o + u) % M) := by
  split
  · have hsum : 256 * M - (1 + 256 * o) + (b + 256 * u) = 255 + 256 * (M - 1 - o + u) := by omega
    rw [hsum, mod_cons (by norm_num)]
  · have hsum : 256 * M - (1 + 256 * o) + (b + 256 * u) = b - 1 + 256 * (M - o + u) := by omega
    rw [hsum, mod_cons (by omega)]

/-- The test, by the lowest byte: if it is zero, it is marked. Otherwise nothing is borrowed, and
the bytes above are tested by themselves. -/
theorem zeroTest_cons (b : UInt8) {n u : ℕ} (hu : u < 256 ^ n) :
    ∃ x, zeroTest (n + 1) (b.toNat + 256 * u) =
      if b = 0 then 128 + 256 * x else 256 * zeroTest n u := by
  have hb : b.toNat < 256 := b.toNat_lt
  have hone : (1 : UInt8).toNat = 1 := rfl
  have hmark : (0x80 : UInt8).toNat = 128 := rfl
  have hnot : 256 * 256 ^ n - 1 - (b.toNat + 256 * u) =
      255 - b.toNat + 256 * (256 ^ n - 1 - u) := by omega
  rw [zeroTest, every_succ, every_succ, hone, hmark, pow_succ', hnot,
    sub_ones_cons hb (every_lt n 1)]
  by_cases hzero : b = 0
  · subst hzero
    refine ⟨(256 ^ n - 1 - every n 1 + u) % 256 ^ n &&& (256 ^ n - 1 - u) &&& every n 0x80, ?_⟩
    rw [if_pos rfl, if_pos UInt8.toNat_zero, UInt8.toNat_zero, and_cons (by norm_num) (by norm_num),
      and_cons (by norm_num) (by norm_num)]
    rfl
  · have hne : b.toNat ≠ 0 := fun h => hzero (UInt8.toNat_inj.mp h)
    refine ⟨0, ?_⟩
    rw [if_neg hne, if_neg hzero, and_cons (by omega) (by omega),
      and_cons (Nat.and_lt_two_pow (n := 8) _ (by omega)) (by norm_num), mark_of_ne_zero hne hb,
      zero_add, zeroTest]

/-- **The test is right**, for words of any length. -/
theorem zeroTest_eq_zero_iff (bs : List UInt8) :
    zeroTest bs.length (littleEndian bs) = 0 ↔ 0 ∉ bs := by
  induction bs with
  | nil => exact iff_of_true rfl List.not_mem_nil
  | cons b bs ih =>
    obtain ⟨x, hx⟩ := zeroTest_cons b (littleEndian_lt bs)
    rw [List.length_cons, littleEndian, hx]
    by_cases hb : b = 0
    · rw [if_pos hb]
      exact iff_of_false (by omega) fun h => h (hb ▸ List.mem_cons_self)
    · rw [if_neg hb, List.mem_cons, not_or, ← ih]
      constructor
      · intro h
        exact ⟨Ne.symm hb, by omega⟩
      · rintro ⟨-, h⟩
        rw [h]

end Bytes
