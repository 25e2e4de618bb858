import LeonUtils.Shm.Layout
import Mathlib.Order.Bounds.Basic

/-!
# The capacity asked for and the capacity given

`_AlignCapa` rounds a request up to a power of two, in `size_t`, and stores the result in a signed
number of the same width before it looks at the limits. Up to `2 ^ 62` that is the power asked for.
Above, the power of two is `2 ^ 63`, which is negative when it comes back; so the largest requests
get the smallest capacity.

## Main results

* `bitCeil_isLeast` — what `std::bit_ceil` is
* `alignCapa_eq`, `alignCapa_of_lt` — requests up to `2 ^ 62`, and above
* `alignCapa_iff` — when the capacity is the power of two asked for, within the limits
-/

namespace LeonUtils

namespace ShmAtmRQ

/-- **`std::bit_ceil`** is the least power of two that is not below its argument. -/
theorem bitCeil_isLeast (x : ℕ) : IsLeast {p : ℕ | (∃ k, p = 2 ^ k) ∧ x ≤ p} (bitCeil x) := by
  rw [bitCeil]
  split
  · rename_i hx
    refine ⟨⟨⟨0, rfl⟩, hx⟩, ?_⟩
    rintro p ⟨⟨k, rfl⟩, -⟩
    exact Nat.one_le_two_pow
  · rename_i hx
    have hpred : x - 1 ≠ 0 := by omega
    refine ⟨⟨⟨_, rfl⟩, ?_⟩, ?_⟩
    · have hlt : x - 1 < 2 ^ (Nat.log2 (x - 1) + 1) := Nat.lt_log2_self
      omega
    · rintro p ⟨⟨k, rfl⟩, hk⟩
      have hlog : Nat.log2 (x - 1) < k := (Nat.log2_lt hpred).mpr (by omega)
      exact Nat.pow_le_pow_right (by norm_num) hlog

/-- The least power of two not below a request. -/
theorem bitCeil_toSize {w : ℤ} (h0 : 0 ≤ w) (hlt : w < 2 ^ 63) :
    IsLeast {p : ℤ | (∃ k : ℕ, p = 2 ^ k) ∧ w ≤ p} (bitCeil (toSize w)) := by
  have hsize : (toSize w : ℤ) = w := by
    rw [toSize, Int.emod_eq_of_lt h0 (by omega), Int.toNat_of_nonneg h0]
  obtain ⟨⟨⟨k, hk⟩, hle⟩, hleast⟩ := bitCeil_isLeast (toSize w)
  refine ⟨⟨⟨k, by exact_mod_cast hk⟩, by omega⟩, ?_⟩
  rintro p ⟨⟨j, rfl⟩, hj⟩
  have hmem : toSize w ≤ 2 ^ j := by
    rw [← hsize] at hj
    exact_mod_cast hj
  exact_mod_cast hleast ⟨⟨j, rfl⟩, hmem⟩

/-- Up to `2 ^ 62` the capacity is the power of two asked for, within the limits. -/
theorem alignCapa_eq {w p : ℤ} (h0 : 0 ≤ w) (hle : w ≤ 2 ^ 62)
    (hp : IsLeast {p : ℤ | (∃ k : ℕ, p = 2 ^ k) ∧ w ≤ p} p) :
    alignCapa w = min mostElements (max leastElemnts p) := by
  have hceil : (bitCeil (toSize w) : ℤ) = p := (bitCeil_toSize h0 (by omega)).unique hp
  have hmem : (2 : ℤ) ^ 62 ∈ {p : ℤ | (∃ k : ℕ, p = 2 ^ k) ∧ w ≤ p} := ⟨⟨62, rfl⟩, hle⟩
  have hp62 : p ≤ 2 ^ 62 := hp.2 hmem
  have hback : ofSize (bitCeil (toSize w)) = p := by
    rw [← hceil] at hp62 ⊢
    exact Int.bmod_eq_of_le (by norm_num) (by norm_num; omega)
  simp only [alignCapa, hback]
  have hlimits : leastElemnts ≤ mostElements := by
    rw [leastElemnts_eq, mostElements_eq]
    norm_num
  split <;> split <;> omega

/-- Above, it is the least capacity there is. -/
theorem alignCapa_of_lt {w : ℤ} (hlow : 2 ^ 62 < w) (hhigh : w < 2 ^ 63) :
    alignCapa w = leastElemnts := by
  have hpow : IsLeast {p : ℤ | (∃ k : ℕ, p = 2 ^ k) ∧ w ≤ p} (2 ^ 63) := by
    have hmem : (2 : ℤ) ^ 63 ∈ {p : ℤ | (∃ k : ℕ, p = 2 ^ k) ∧ w ≤ p} := ⟨⟨63, rfl⟩, hhigh.le⟩
    refine ⟨hmem, ?_⟩
    rintro p ⟨⟨k, rfl⟩, hk⟩
    have hlt : (2 : ℤ) ^ 62 < 2 ^ k := hlow.trans_le hk
    exact pow_le_pow_right₀ (by norm_num) ((pow_lt_pow_iff_right₀ (by norm_num)).mp hlt)
  have hceil : (bitCeil (toSize w) : ℤ) = 2 ^ 63 :=
    (bitCeil_toSize (by omega) hhigh).unique hpow
  have hback : ofSize (bitCeil (toSize w)) = -2 ^ 63 := by
    unfold ofSize
    rw [hceil]
    rfl
  simp only [alignCapa, hback, leastElemnts_eq, mostElements_eq]
  decide

/-- Which is not what was asked for. -/
theorem alignCapa_ne {w p : ℤ} (hlow : 2 ^ 62 < w) (hhigh : w < 2 ^ 63)
    (hp : IsLeast {p : ℤ | (∃ k : ℕ, p = 2 ^ k) ∧ w ≤ p} p) :
    alignCapa w ≠ min mostElements (max leastElemnts p) := by
  have hgreat : w ≤ p := hp.1.2
  have hmax : max (2 ^ 5) p = p := max_eq_right (by omega)
  rw [alignCapa_of_lt hlow hhigh, leastElemnts_eq, mostElements_eq, hmax]
  omega

/-- The capacity grows with the request, up to `2 ^ 62`. -/
theorem alignCapa_le {v w : ℤ} (h0 : 0 ≤ v) (hvw : v ≤ w) (hle : w ≤ 2 ^ 62) :
    alignCapa v ≤ alignCapa w := by
  have hv := bitCeil_toSize h0 (by omega)
  have hw := bitCeil_toSize (h0.trans hvw) (by omega)
  rw [alignCapa_eq h0 (hvw.trans hle) hv, alignCapa_eq (h0.trans hvw) hle hw]
  have hmono : (bitCeil (toSize v) : ℤ) ≤ bitCeil (toSize w) := hv.2 ⟨hw.1.1, hvw.trans hw.1.2⟩
  exact min_le_min_left _ (max_le_max_left _ hmono)

/-- **When a queue has the capacity asked for**, rounded up to a power of two and cut to the limits:
for requests up to `2 ^ 62`. -/
theorem alignCapa_iff {w : ℤ} (h0 : 0 ≤ w) (hlt : w < 2 ^ 63) :
    ((∃ p, IsLeast {p : ℤ | (∃ k : ℕ, p = 2 ^ k) ∧ w ≤ p} p ∧
        alignCapa w = min mostElements (max leastElemnts p)) ∧
      (∀ v, 0 ≤ v → v ≤ w → alignCapa v ≤ alignCapa w) ∧
      (make w).2.capa = alignCapa w ∧ (make w).2.mask = alignCapa w - 1 ∧
      ∀ i, Int.land i (make w).2.mask = i % (make w).2.capa) ↔ w ≤ 2 ^ 62 := by
  have hleast := bitCeil_toSize h0 hlt
  constructor
  · rintro ⟨⟨p, hp, heq⟩, -⟩
    by_contra hlarge
    exact alignCapa_ne (not_le.mp hlarge) hlt hp heq
  · intro hle
    refine ⟨⟨_, hleast, alignCapa_eq h0 hle hleast⟩, fun v hv hvw => alignCapa_le hv hvw hle,
      ?_, ?_, fun i => ?_⟩
    · rw [make_handle]
    · rw [make_handle]
    · simpa only [make_handle] using land_mask i w

/-- The largest request gets the smallest queue, and a smaller request a larger one. -/
theorem not_alignCapa_large :
    (¬ ∃ p, IsLeast {p : ℤ | (∃ k : ℕ, p = 2 ^ k) ∧ (2 ^ 63 - 1 : ℤ) ≤ p} p ∧
      alignCapa (2 ^ 63 - 1) = min mostElements (max leastElemnts p)) ∧
    alignCapa (2 ^ 63 - 1) < alignCapa 100 := by
  refine ⟨?_, by decide +kernel⟩
  rintro ⟨p, hp, heq⟩
  exact alignCapa_ne (by norm_num) (by norm_num) hp heq

/-- A request for twenty elements. -/
theorem alignCapa_iff_twenty :
    ((∃ p, IsLeast {p : ℤ | (∃ k : ℕ, p = 2 ^ k) ∧ (20 : ℤ) ≤ p} p ∧
        alignCapa 20 = min mostElements (max leastElemnts p)) ∧
      (∀ v, 0 ≤ v → v ≤ 20 → alignCapa v ≤ alignCapa 20) ∧
      (make 20).2.capa = alignCapa 20 ∧ (make 20).2.mask = alignCapa 20 - 1 ∧
      ∀ i, Int.land i (make 20).2.mask = i % (make 20).2.capa) ↔ (20 : ℤ) ≤ 2 ^ 62 :=
  alignCapa_iff (by norm_num) (by norm_num)

end ShmAtmRQ

end LeonUtils
