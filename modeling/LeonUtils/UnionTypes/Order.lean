import LeonUtils.UnionTypes.Short
import Mathlib.Data.List.Lex

/-!
# Words in order

The three unions compare as numbers, so that they can be sorted and looked up. The machine is
little-endian: of two words the last byte in which they differ decides. For strings that fit this
means that the longer one is the greater, and of two strings of one length the last character in
which they differ decides, which is not the order of `std::string`.

`view` shows all bytes of a word, so that a word can be made again from its view, whatever the bytes
are.

## Main definitions

* `Words.lt` and others — the operators of one union
* `Words.Ordered` — what they say of it
* `Words.Shorter` — the order of strings

## Main results

* `Bytes.littleEndian_lt_iff` — numbers and their bytes
* `Words.order` — the order of the three unions
-/

namespace Bytes

theorem littleEndian_append (as bs : List UInt8) :
    littleEndian (as ++ bs) = littleEndian as + 256 ^ as.length * littleEndian bs := by
  induction as with
  | nil => rw [List.nil_append, List.length_nil, pow_zero, one_mul, littleEndian, zero_add]
  | cons a as ih =>
    rw [List.cons_append, littleEndian, ih, littleEndian, List.length_cons, pow_succ']
    ring

theorem littleEndian_zeros (k : ℕ) : littleEndian (List.replicate k 0) = 0 := by
  induction k with
  | zero => rfl
  | succ k ih => rw [List.replicate_succ, littleEndian, ih]; rfl

/-- The higher digit decides. -/
theorem digit_lt_iff {M x y a b : ℕ} (hx : x < M) (hy : y < M) :
    x + M * a < y + M * b ↔ a < b ∨ a = b ∧ x < y := by
  rcases lt_trichotomy a b with hab | rfl | hba
  · have hle : M * a + M ≤ M * b := Nat.mul_le_mul_left M hab
    exact iff_of_true (by omega) (Or.inl hab)
  · omega
  · have hle : M * b + M ≤ M * a := Nat.mul_le_mul_left M hba
    exact iff_of_false (by omega) (by omega)

/-- **Numbers compare as their bytes do**, the last byte first. -/
theorem littleEndian_lt_iff {as bs : List UInt8} (hlen : as.length = bs.length) :
    littleEndian as < littleEndian bs ↔ List.Lex (· < ·) as.reverse bs.reverse := by
  induction as using List.reverseRecOn generalizing bs with
  | nil =>
    obtain rfl := List.length_eq_zero_iff.mp hlen.symm
    exact iff_of_false (lt_irrefl _) List.not_lex_nil
  | append_singleton as a ih =>
    rcases List.eq_nil_or_concat bs with rfl | ⟨bs, b, rfl⟩
    · simp at hlen
    rw [List.concat_eq_append] at hlen ⊢
    have hlen : as.length = bs.length := by simpa using hlen
    have has := littleEndian_lt as
    rw [hlen] at has
    rw [List.reverse_concat, List.reverse_concat, List.cons_lex_cons_iff, ← ih hlen,
      littleEndian_append, littleEndian_append, hlen]
    simp only [littleEndian, Nat.mul_zero, Nat.add_zero]
    rw [digit_lt_iff has (littleEndian_lt bs), UInt8.lt_iff_toNat_lt, UInt8.toNat_inj]

/-- A word without zero bytes needs all of its bytes. -/
theorem le_littleEndian {bs : List UInt8} (h0 : 0 ∉ bs) (hne : bs ≠ []) :
    256 ^ (bs.length - 1) ≤ littleEndian bs := by
  obtain ⟨bs, b, rfl⟩ := (List.eq_nil_or_concat bs).resolve_left hne
  rw [List.concat_eq_append] at h0 ⊢
  have hb : b ≠ 0 := fun h => h0 (List.mem_append_right _ (List.mem_singleton.mpr h.symm))
  have hpos : 1 ≤ b.toNat := Nat.one_le_iff_ne_zero.mpr fun h => hb (UInt8.toNat_inj.mp h)
  have hle : 256 ^ bs.length * 1 ≤ 256 ^ bs.length * b.toNat := Nat.mul_le_mul_left _ hpos
  rw [littleEndian_append, List.length_append, List.length_singleton, Nat.add_sub_cancel]
  simp only [littleEndian, Nat.mul_zero, Nat.add_zero]
  omega

/-- The longer one of two words is the greater, if neither has a zero byte. -/
theorem littleEndian_lt_of_length {as bs : List UInt8} (h0 : 0 ∉ bs)
    (hlen : as.length < bs.length) : littleEndian as < littleEndian bs := by
  have hne : bs ≠ [] := List.ne_nil_of_length_pos (by omega)
  calc littleEndian as < 256 ^ as.length := littleEndian_lt as
    _ ≤ 256 ^ (bs.length - 1) := Nat.pow_le_pow_right (by norm_num) (by omega)
    _ ≤ littleEndian bs := le_littleEndian h0 hne

end Bytes

namespace LeonUtils

open Bytes

namespace Words

/-! ## The operators -/

section Operators

variable {α : Type} {n : ℕ} (asU : α → BitVec n)

def lt (u o : α) : Bool := decide (asU u < asU o)

def le (u o : α) : Bool := decide (asU u ≤ asU o)

def gt (u o : α) : Bool := decide (asU u > asU o)

def ge (u o : α) : Bool := decide (asU u ≥ asU o)

def ne (u o : α) : Bool := asU u != asU o

def eq (u o : α) : Bool := asU u == asU o

end Operators

/-- What the operators say: `lt` is a strict order in which different words are never on a par, and
the others follow from it. -/
structure Ordered {α : Type} (lt le gt ge ne eq : α → α → Bool) : Prop where
  irrefl : ∀ u, lt u u = false
  trans : ∀ u v w, lt u v = true → lt v w = true → lt u w = true
  total : ∀ u v, u = v ∨ lt u v = true ∨ lt v u = true
  le_iff : ∀ u v, le u v = true ↔ lt u v = true ∨ u = v
  gt_eq : ∀ u v, gt u v = lt v u
  ge_eq : ∀ u v, ge u v = le v u
  ne_iff : ∀ u v, ne u v = true ↔ u ≠ v
  eq_iff : ∀ u v, eq u v = true ↔ u = v

theorem ordered {α : Type} {n : ℕ} {asU : α → BitVec n} (hinj : Function.Injective asU) :
    Ordered (lt asU) (le asU) (gt asU) (ge asU) (ne asU) (eq asU) where
  irrefl u := decide_eq_false (BitVec.lt_irrefl _)
  trans u v w huv hvw :=
    decide_eq_true (BitVec.lt_trans (of_decide_eq_true huv) (of_decide_eq_true hvw))
  total u v := by
    rw [lt, lt, decide_eq_true_iff, decide_eq_true_iff, ← hinj.eq_iff, ← BitVec.toNat_inj,
      BitVec.lt_def, BitVec.lt_def]
    omega
  le_iff u v := by
    rw [le, lt, decide_eq_true_iff, decide_eq_true_iff, ← hinj.eq_iff, ← BitVec.toNat_inj,
      BitVec.lt_def, BitVec.le_def]
    exact le_iff_lt_or_eq
  gt_eq _ _ := rfl
  ge_eq _ _ := rfl
  ne_iff u v := by rw [ne, bne_iff_ne, hinj.ne_iff]
  eq_iff u v := by rw [eq, beq_iff_eq, hinj.eq_iff]

end Words

namespace U16

/-- `asU`. -/
def asU (u : U16) : BitVec 16 := BitVec.ofNat 16 (littleEndian u.asA)

def lt : U16 → U16 → Bool := Words.lt asU
def le : U16 → U16 → Bool := Words.le asU
def gt : U16 → U16 → Bool := Words.gt asU
def ge : U16 → U16 → Bool := Words.ge asU
def ne : U16 → U16 → Bool := Words.ne asU
def eq : U16 → U16 → Bool := Words.eq asU

def view (u : U16) : List UInt8 := u.asA

theorem toNat_asU (u : U16) : u.asU.toNat = littleEndian u.asA :=
  Nat.mod_eq_of_lt ((littleEndian_lt u.asA).trans_eq (by norm_num [asA]))

theorem asU_injective : Function.Injective asU := by
  intro u v h
  have hbytes := @littleEndian_inj u.asA v.asA rfl (by rw [← toNat_asU, h, toNat_asU])
  cases u
  cases v
  simpa [asA] using hbytes

end U16

namespace U32

def lt : U32 → U32 → Bool := Words.lt asU
def le : U32 → U32 → Bool := Words.le asU
def gt : U32 → U32 → Bool := Words.gt asU
def ge : U32 → U32 → Bool := Words.ge asU
def ne : U32 → U32 → Bool := Words.ne asU
def eq : U32 → U32 → Bool := Words.eq asU

def view (u : U32) : List UInt8 := u.asA

theorem asU_injective : Function.Injective asU := by
  intro u v h
  have hbytes := @littleEndian_inj u.asA v.asA rfl (by rw [← toNat_asU, h, toNat_asU])
  cases u
  cases v
  simpa [asA] using hbytes

end U32

namespace U64

def lt : U64 → U64 → Bool := Words.lt asU
def le : U64 → U64 → Bool := Words.le asU
def gt : U64 → U64 → Bool := Words.gt asU
def ge : U64 → U64 → Bool := Words.ge asU
def ne : U64 → U64 → Bool := Words.ne asU

def view (u : U64) : List UInt8 := u.asA

theorem asU_injective : Function.Injective asU := fun _ _ => asU_inj.mp

end U64

namespace Words

/-- The order of strings: by their lengths, then by their characters from the last one on. -/
def Shorter (s t : List UInt8) : Prop :=
  s.length < t.length ∨ s.length = t.length ∧ List.Lex (· < ·) s.reverse t.reverse

/-- A word holds a string that fits as a whole. -/
def Holds (bytes s : List UInt8) : Prop :=
  0 ∉ s ∧ s.length ≤ bytes.length ∧ bytes = zeroPadded bytes.length s

theorem littleEndian_of_holds {bytes s : List UInt8} (h : Holds bytes s) :
    littleEndian bytes = littleEndian s := by
  obtain ⟨-, hlen, hbytes⟩ := h
  rw [hbytes, zeroPadded, List.take_of_length_le hlen, littleEndian_append, littleEndian_zeros,
    Nat.mul_zero, Nat.add_zero]

/-- Words compare as the strings that they hold. -/
theorem lt_of_holds {bytes bytes' s t : List UInt8} (hs : Holds bytes s) (ht : Holds bytes' t) :
    littleEndian bytes < littleEndian bytes' ↔ Shorter s t := by
  rw [littleEndian_of_holds hs, littleEndian_of_holds ht, Shorter]
  rcases lt_trichotomy s.length t.length with hlen | hlen | hlen
  · exact iff_of_true (littleEndian_lt_of_length ht.1 hlen) (Or.inl hlen)
  · rw [littleEndian_lt_iff hlen, or_iff_right hlen.not_lt, and_iff_right hlen]
  · have hgt := littleEndian_lt_of_length hs.1 hlen
    exact iff_of_false hgt.not_gt (by omega)

/-- What `operator <` says of two words of one union, and of the strings in them. -/
def Compares {α : Type} (lt : α → α → Bool) (asA : α → List UInt8) : Prop :=
  (∀ u v, lt u v = true ↔ List.Lex (· < ·) (asA u).reverse (asA v).reverse) ∧
  ∀ u v s t, Holds (asA u) s → Holds (asA v) t → (lt u v = true ↔ Shorter s t)

theorem compares {α : Type} {n : ℕ} {asU : α → BitVec n} {asA : α → List UInt8}
    (hnat : ∀ u, (asU u).toNat = littleEndian (asA u)) {k : ℕ} (hlen : ∀ u, (asA u).length = k) :
    Compares (lt asU) asA := by
  have hlt : ∀ u v, lt asU u v = true ↔ littleEndian (asA u) < littleEndian (asA v) := by
    intro u v
    rw [lt, decide_eq_true_iff, BitVec.lt_def, hnat, hnat]
  refine ⟨fun u v => ?_, fun u v s t hs ht => ?_⟩
  · rw [hlt, littleEndian_lt_iff ((hlen u).trans (hlen v).symm)]
  · rw [hlt, lt_of_holds hs ht]

/-- **Words in order.** The comparison operators of each union are those of one linear order, in
which the last byte that differs decides. Of strings that fit, without NUL, the longer one is the
greater, and of two that are equally long the last character that differs decides. A word that is
made of the view of another one is the same. -/
theorem order :
    (Ordered U16.lt U16.le U16.gt U16.ge U16.ne U16.eq ∧
      Ordered U32.lt U32.le U32.gt U32.ge U32.ne U32.eq ∧
      Ordered U64.lt U64.le U64.gt U64.ge U64.ne U64.eq) ∧
    (Compares U16.lt U16.asA ∧ Compares U32.lt U32.asA ∧ Compares U64.lt U64.asA) ∧
    (∀ s t, 0 ∉ s → 0 ∉ t → s.length ≤ 8 → t.length ≤ 8 →
      ((U64.ofStr s).lt (U64.ofStr t) = true ↔ Shorter s t)) ∧
    (∀ u, U16.ofStr (U16.view u) = some u) ∧ (∀ u v, U32.ofStr v (U32.view u) = some u) ∧
    ∀ u, U64.ofStr (U64.view u) = u := by
  have hcompares : Compares U64.lt U64.asA := compares U64.toNat_asU U64.length_asA
  have hholds : ∀ s, 0 ∉ s → s.length ≤ 8 → Holds (U64.ofStr s).asA s := by
    intro s h0 hlen
    rw [Holds, (U64.ofStr s).length_asA]
    exact ⟨h0, hlen, U64.ofStr_asA s⟩
  refine ⟨⟨ordered U16.asU_injective, ordered U32.asU_injective, ordered U64.asU_injective⟩,
    ⟨compares U16.toNat_asU (k := 2) fun _ => rfl, compares U32.toNat_asU (k := 4) fun _ => rfl,
      hcompares⟩, fun s t hs ht hs8 ht8 => ?_, fun _ => rfl, fun _ _ => rfl, fun u => U64.ext ?_⟩
  · exact hcompares.2 _ _ s t (hholds s hs hs8) (hholds t ht ht8)
  · rw [U64.ofStr_asA, U64.view, u.length_asA, Nat.sub_self, List.replicate_zero, List.append_nil,
      List.take_of_length_le u.length_asA.le]

/-- The string `b` comes before `aa`. -/
theorem order_aa : (U64.ofStr [98]).lt (U64.ofStr [97, 97]) = true :=
  (order.2.2.1 [98] [97, 97] (by decide) (by decide) (by decide) (by decide)).mpr
    (Or.inl (by decide))

end Words

end LeonUtils
