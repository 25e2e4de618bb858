import LeonUtils.SetOps.Integral

/-!
# Equality of integers

`eq` of two integers of one type is `operator ==`. For two types there is a template that applies
`operator ==` as well, and specialisations for three signed types and the unsigned types that belong
to them. The operator converts both numbers to a common type first; where that is unsigned, a
negative number becomes a large one. The specialisations look at the sign, but other pairs of types
have none, be they of different widths or of the same one.

A type is more than a width and a sign: `long` and `long long` have the same values, and a
specialisation for the one is none for the other. Types are therefore named (`IntType`), and what
values they have is a function of the name, as it is on x86-64 Linux.

## Main definitions

* `IntType` — the integer types
* `promote`, `common` — integral promotions and the usual arithmetic conversions
* `opEq`, `eqInt`, `neInt` — `operator ==`, `eq` and `ne`
* `Wraps` — a negative number that is converted to another

## Main results

* `eqInt_eq_true_iff` — which integers are taken for equal
* `eqInt_exact_iff` — `eq` is equality but for numbers of which one is converted to the other
-/

namespace LeonUtils

namespace Algorithms

open SetOps (Integral)

/-! ## Types -/

/-- The integer types. `int8_t` is `signedChar`, `int16_t` is `short`, `int32_t` is `int`, `int64_t`
is `long`, and so for the unsigned ones. -/
inductive IntType
  | bool
  | char
  | signedChar
  | unsignedChar
  | short
  | unsignedShort
  | int
  | unsignedInt
  | long
  | unsignedLong
  | longLong
  | unsignedLongLong
  | wchar
  | char8
  | char16
  | char32
deriving DecidableEq

/-- The values of a type. -/
def IntType.repr : IntType → Integral
  | bool => .bool
  | char | signedChar => .i8
  | unsignedChar | char8 => .u8
  | short => .i16
  | unsignedShort | char16 => .u16
  | int | wchar => .i32
  | unsignedInt | char32 => .u32
  | long | longLong => .i64
  | unsignedLong | unsignedLongLong => .u64

abbrev IntType.Val (T : IntType) : Type := T.repr.Val

/-! ## Conversions -/

/-- The integral promotions: what is shorter than an `int` becomes an `int`. -/
def promote (T : Integral) : Integral := if T.bits < 32 then .i32 else T

/-- The common type of two integers. -/
def common (T1 T2 : Integral) : Integral :=
  let T1 := promote T1
  let T2 := promote T2
  if T1.signed = T2.signed then
    if T1.bits < T2.bits then T2 else T1
  else
    let (s, u) := if T1.signed then (T1, T2) else (T2, T1)
    if s.bits ≤ u.bits then u else s

/-- `operator ==`. -/
def opEq {T1 T2 : Integral} (v1 : T1.Val) (v2 : T2.Val) : Bool :=
  (common T1 T2).narrow v1.val == (common T1 T2).narrow v2.val

/-! ## `eq` -/

/-- The signed and unsigned types with a specialisation of their own. There is one more for each in
the other order, which calls the first. -/
def specialised : List (IntType × IntType) :=
  [(.short, .unsignedShort), (.int, .unsignedInt), (.long, .unsignedLong)]

/-- `eq` for these. -/
def eqSigned {T1 T2 : Integral} (i : T1.Val) (u : T2.Val) : Bool :=
  decide (0 ≤ i.val) && opEq (T2.narrow i.val) u

section Eq

variable {T1 T2 : IntType}

/-- `eq`. -/
def eqInt (v1 : T1.Val) (v2 : T2.Val) : Bool :=
  if (T1, T2) ∈ specialised then eqSigned v1 v2
  else if (T2, T1) ∈ specialised then eqSigned v2 v1
  else opEq v1 v2

/-- `ne`. -/
def neInt (v1 : T1.Val) (v2 : T2.Val) : Bool := !eqInt v1 v2

end Eq

/-! ## Which values convert into each other -/

/-- Signed values, and unsigned ones that they are converted to. -/
def Converts (T1 T2 : Integral) : Prop :=
  T1.signed = true ∧ T2.signed = false ∧ T1.bits ≤ T2.bits ∧ 32 ≤ T2.bits

instance (T1 T2 : Integral) : Decidable (Converts T1 T2) := inferInstanceAs (Decidable (_ ∧ _))

/-- All values of the one type are values of the other. -/
def FitsInto (T C : Integral) : Prop :=
  C.low ≤ T.low ∧ T.low + 2 ^ T.bits ≤ C.low + 2 ^ C.bits

instance (T C : Integral) : Decidable (FitsInto T C) := inferInstanceAs (Decidable (_ ∧ _))

section Values

variable {T1 T2 : Integral}

theorem common_comm (T1 T2 : Integral) : common T1 T2 = common T2 T1 := by
  cases T1 <;> cases T2 <;> rfl

theorem common_cases (T1 T2 : Integral) :
    (Converts T1 T2 ∧ common T1 T2 = T2) ∨ (Converts T2 T1 ∧ common T1 T2 = T1) ∨
      (¬ Converts T1 T2 ∧ ¬ Converts T2 T1 ∧ FitsInto T1 (common T1 T2) ∧
        FitsInto T2 (common T1 T2)) := by
  cases T1 <;> cases T2 <;> decide

theorem Converts.not_converts (h : Converts T1 T2) : ¬ Converts T2 T1 := fun h' => by
  rw [Converts, h.1] at h'
  cases h'.2.1

theorem narrow_of_range {C : Integral} {x : ℤ} (hlow : C.low ≤ x) (hhigh : x < C.low + 2 ^ C.bits) :
    (C.narrow x).val = x :=
  congrArg Subtype.val (Integral.narrow_val (T := C) ⟨x, hlow, hhigh⟩)

theorem narrow_of_fits {T C : Integral} (h : FitsInto T C) (v : T.Val) :
    (C.narrow v.val).val = v.val := by
  obtain ⟨hlow, hhigh⟩ := h
  have hv := v.property
  exact narrow_of_range (by omega) (by omega)

theorem opEq_iff_of_fits (h1 : FitsInto T1 (common T1 T2)) (h2 : FitsInto T2 (common T1 T2))
    (v1 : T1.Val) (v2 : T2.Val) : opEq v1 v2 = true ↔ v1.val = v2.val := by
  rw [opEq, beq_iff_eq, Subtype.ext_iff, narrow_of_fits h1, narrow_of_fits h2]

/-- The conversion to an unsigned type adds its width to what is negative. -/
theorem narrow_of_converts (h : Converts T1 T2) (v : T1.Val) :
    (T2.narrow v.val).val = if v.val < 0 then v.val + 2 ^ T2.bits else v.val := by
  obtain ⟨hs1, hs2, hle, hlong⟩ := h
  have hbool : T2 ≠ .bool := by
    rintro rfl
    exact absurd hlong (by decide)
  have hlow1 : T1.low = -2 ^ (T1.bits - 1) := by simp [Integral.low, hs1]
  have hlow2 : T2.low = 0 := by simp [Integral.low, hs2]
  have hle : (2 : ℤ) ^ T1.bits ≤ 2 ^ T2.bits := pow_le_pow_right₀ (by norm_num) hle
  have hhalf : (2 : ℤ) ^ (T1.bits - 1) ≤ 2 ^ T1.bits :=
    pow_le_pow_right₀ (by norm_num) (Nat.sub_le _ _)
  have hpos : (0 : ℤ) < 2 ^ (T1.bits - 1) := by positivity
  obtain ⟨v, hv, hv'⟩ := v
  rw [Integral.narrow, dif_neg hbool]
  simp only [hlow2, sub_zero, add_zero]
  split
  · rw [← Int.add_emod_right, Int.emod_eq_of_lt (by omega) (by omega)]
  · exact Int.emod_eq_of_lt (by omega) (by omega)

theorem opEq_iff_of_converts (h : Converts T1 T2) (hcommon : common T1 T2 = T2) (v1 : T1.Val)
    (v2 : T2.Val) :
    opEq v1 v2 = true ↔ v1.val = v2.val ∨ (v1.val < 0 ∧ v2.val = v1.val + 2 ^ T2.bits) := by
  have hnonneg := v2.property.1
  have hlow : T2.low = 0 := by simp [Integral.low, h.2.1]
  rw [opEq, beq_iff_eq, hcommon, Integral.narrow_val, Subtype.ext_iff, narrow_of_converts h]
  split <;> omega

theorem opEq_comm (v1 : T1.Val) (v2 : T2.Val) : opEq v1 v2 = opEq v2 v1 := by
  rw [opEq, opEq, common_comm, Bool.beq_comm]

/-- A negative number that is converted to another by `operator ==`. -/
def WrapsTo (v1 : T1.Val) (v2 : T2.Val) : Prop :=
  Converts T1 T2 ∧ v1.val < 0 ∧ v2.val = v1.val + 2 ^ T2.bits

/-- What `operator ==` takes for equal. -/
theorem opEq_iff (v1 : T1.Val) (v2 : T2.Val) :
    opEq v1 v2 = true ↔ v1.val = v2.val ∨ WrapsTo v1 v2 ∨ WrapsTo v2 v1 := by
  rcases common_cases T1 T2 with ⟨h, hcommon⟩ | ⟨h, hcommon⟩ | ⟨h, h', hfits1, hfits2⟩
  · have h21 : ¬ WrapsTo v2 v1 := fun hw => h.not_converts hw.1
    rw [opEq_iff_of_converts h hcommon, or_iff_left h21, WrapsTo, and_iff_right h]
  · have h12 : ¬ WrapsTo v1 v2 := fun hw => h.not_converts hw.1
    rw [opEq_comm, opEq_iff_of_converts h ((common_comm T2 T1).trans hcommon), or_iff_right h12,
      WrapsTo, and_iff_right h, eq_comm]
  · have h12 : ¬ WrapsTo v1 v2 := fun hw => h hw.1
    have h21 : ¬ WrapsTo v2 v1 := fun hw => h' hw.1
    rw [opEq_iff_of_fits hfits1 hfits2, or_iff_left (not_or.2 ⟨h12, h21⟩)]

/-- What the specialisations take for equal. -/
theorem eqSigned_iff (hsigned : T1.signed = true) (hunsigned : T2.signed = false)
    (hbits : T1.bits = T2.bits) (i : T1.Val) (u : T2.Val) :
    eqSigned i u = true ↔ i.val = u.val := by
  have hfits : FitsInto T2 (common T2 T2) := by cases T2 <;> decide
  have hlow1 : T1.low = -2 ^ (T1.bits - 1) := by simp [Integral.low, hsigned]
  have hlow2 : T2.low = 0 := by simp [Integral.low, hunsigned]
  have hnonneg := u.property.1
  have hpos : (0 : ℤ) < 2 ^ (T1.bits - 1) := by positivity
  have hlt : i.val < T2.low + 2 ^ T2.bits := by
    have hi := i.property.2
    rw [← hbits]
    omega
  rw [eqSigned, Bool.and_eq_true, decide_eq_true_eq, opEq_iff_of_fits hfits hfits]
  constructor
  · rintro ⟨hi0, h⟩
    rw [← h]
    exact (narrow_of_range (by omega) hlt).symm
  · intro h
    exact ⟨by omega, (narrow_of_range (by omega) hlt).trans h⟩

end Values

/-! ## What is taken for equal -/

section Exact

variable {T1 T2 : IntType}

/-- A specialisation is for a signed type and an unsigned one of the same width. -/
theorem of_specialised (h : (T1, T2) ∈ specialised) :
    T1.repr.signed = true ∧ T2.repr.signed = false ∧ T1.repr.bits = T2.repr.bits := by
  simp only [specialised, List.mem_cons, Prod.mk.injEq, List.not_mem_nil, or_false] at h
  rcases h with ⟨rfl, rfl⟩ | ⟨rfl, rfl⟩ | ⟨rfl, rfl⟩ <;> decide

/-- The first number is negative and is converted to the second, as no specialisation prevents. -/
def Wraps (v1 : T1.Val) (v2 : T2.Val) : Prop := (T1, T2) ∉ specialised ∧ WrapsTo v1 v2

theorem Wraps.val_ne {v1 : T1.Val} {v2 : T2.Val} (h : Wraps v1 v2) : v1.val ≠ v2.val := by
  obtain ⟨-, ⟨-, hunsigned, -⟩, hneg, -⟩ := h
  have hnonneg := v2.property.1
  have hlow : T2.repr.low = 0 := by simp [Integral.low, hunsigned]
  omega

/-- With a specialisation nothing wraps, in neither order. -/
theorem not_wraps_of_specialised (h : (T1, T2) ∈ specialised) (v1 : T1.Val) (v2 : T2.Val) :
    ¬ (Wraps v1 v2 ∨ Wraps v2 v1) := by
  rintro (hw | hw)
  · exact hw.1 h
  · have hsigned := hw.2.1.1
    rw [(of_specialised h).2.1] at hsigned
    cases hsigned

/-- Equal integers are found to be equal, and so are a negative number and what it is converted
to. -/
theorem eqInt_eq_true_iff (v1 : T1.Val) (v2 : T2.Val) :
    eqInt v1 v2 = true ↔ v1.val = v2.val ∨ Wraps v1 v2 ∨ Wraps v2 v1 := by
  rw [eqInt]
  by_cases h12 : (T1, T2) ∈ specialised
  · obtain ⟨hsigned, hunsigned, hbits⟩ := of_specialised h12
    rw [if_pos h12, eqSigned_iff hsigned hunsigned hbits,
      or_iff_left (not_wraps_of_specialised h12 v1 v2)]
  rw [if_neg h12]
  by_cases h21 : (T2, T1) ∈ specialised
  · obtain ⟨hsigned, hunsigned, hbits⟩ := of_specialised h21
    rw [if_pos h21, eqSigned_iff hsigned hunsigned hbits, or_comm (a := Wraps v1 v2),
      or_iff_left (not_wraps_of_specialised h21 v2 v1), eq_comm]
  · rw [if_neg h21, opEq_iff, Wraps, Wraps, and_iff_right h12, and_iff_right h21]

/-- `eq` tells whether two integers are the same, unless one of them is negative and is converted
to the other. -/
theorem eqInt_exact_iff (v1 : T1.Val) (v2 : T2.Val) :
    ((eqInt v1 v2 = true ↔ v1.val = v2.val) ∧ eqInt v1 v2 = eqInt v2 v1 ∧
      neInt v1 v2 = !eqInt v1 v2) ↔ ¬ (Wraps v1 v2 ∨ Wraps v2 v1) := by
  constructor
  · rintro ⟨hexact, -, -⟩ hwraps
    have hval := hexact.1 ((eqInt_eq_true_iff v1 v2).2 (.inr hwraps))
    rcases hwraps with h | h
    · exact h.val_ne hval
    · exact h.val_ne hval.symm
  · intro hwraps
    refine ⟨?_, ?_, rfl⟩
    · rw [eqInt_eq_true_iff, or_iff_left hwraps]
    · rw [Bool.eq_iff_iff, eqInt_eq_true_iff, eqInt_eq_true_iff, or_comm (a := Wraps v1 v2),
        eq_comm]

end Exact

example : @eqInt .longLong .unsignedLong ⟨-1, by decide⟩ ⟨2 ^ 64 - 1, by decide⟩ = true := by decide

example : @eqInt .long .unsignedLong ⟨-1, by decide⟩ ⟨2 ^ 64 - 1, by decide⟩ = false := by decide

/-- The `int8_t` minus one is taken for the greatest `uint32_t`. -/
theorem not_eqInt_exact :
    ¬ ∀ (T1 T2 : IntType) (v1 : T1.Val) (v2 : T2.Val),
      (eqInt v1 v2 = true ↔ v1.val = v2.val) ∧ eqInt v1 v2 = eqInt v2 v1 ∧
        neInt v1 v2 = !eqInt v1 v2 := by
  intro h
  have hexact := (h .signedChar .unsignedInt ⟨-1, by decide⟩ ⟨4294967295, by decide⟩).1
  exact absurd (hexact.1 (by decide)) (by decide)

end Algorithms

end LeonUtils
