import LeonUtils.Text.Format

/-!
# What a width does

A text is padded at the left to the width that was asked for, and replaced by asterisks where it is
too long. `fmt` leaves this to the stream for most values. The special values of the floating types
take a way of their own: so many fill characters as the width says, and then the name, of which
three characters are cut at the left whatever its length, and the rest at the right.

A `float` is printed as the `double` of the same value, so that `Double` serves for both. They
differ in what the largest value is.

## Main definitions

* `Value`, `Value.fmt` — the values of all types, and the function
* `Value.text` — what the stream prints, or a name
* `LaidOut` — the text in a field of a width

## Main results

* `fmt_laidOut_iff` — for which widths the text is laid out
-/

namespace LeonUtils

namespace Text

/-! ## The values -/

/-- `std::numeric_limits<float>::max()`. -/
def floatMaxAbs : ℚ≥0 := ((2 ^ 24 - 1) * 2 ^ 104 : ℕ)

/-- `fmt<float>`. -/
def fmtFloat (v : Double) (w : ℕ) (p g : ℤ) (f s : Char) : Except Exn Str :=
  fmtText (specialName floatMaxAbs v) (v.text p g s) w f

/-- A value of one of the types that `fmt` is instantiated for. -/
inductive Value
  /-- One of the types from `int8_t` to `uint64_t`. -/
  | int (v : ℤ)
  | float (v : Double)
  | double (v : Double)

namespace Value

/-- `fmt`. -/
def fmt : Value → ℕ → ℤ → ℤ → Char → Char → Except Exn Str
  | int v, w, _, g, f, s => fmtInt v w g f s
  | float v, w, p, g, f, s => fmtFloat v w p g f s
  | double v, w, p, g, f, s => Text.fmt v w p g f s

/-- The name of a special value. -/
def name : Value → Option Str
  | int _ => none
  | float v => specialName floatMaxAbs v
  | double v => v.special

/-- What the stream prints. -/
def stream : Value → ℤ → ℤ → Char → Str
  | int v, _, g, s => intText v g s
  | float v, p, g, s => v.text p g s
  | double v, p, g, s => v.text p g s

/-- What the stream prints, or the name of a special value. -/
def text (v : Value) (p g : ℤ) (s : Char) : Str := v.name.getD (v.stream p g s)

theorem fmt_eq (v : Value) (w : ℕ) (p g : ℤ) (f s : Char) :
    v.fmt w p g f s = fmtText v.name (v.stream p g s) w f := by
  cases v <;> rfl

end Value

/-- A text in a field of width `w`: the whole of it if there is no width, otherwise so many
characters, which are the text behind fill characters, or asterisks if it is too long. -/
def LaidOut (w : ℕ) (f : Char) (text r : Str) : Prop :=
  if w = 0 then r = text
  else r.length = w ∧ ((∃ k, r = List.replicate k f ++ text) ∨
    (w < text.length ∧ r = List.replicate w '*'))

/-- The widths for which a value is laid out. A stream takes its width as an `int`. A special value
needs a name of three characters and room for it. -/
def Value.Fits (v : Value) (w : ℕ) (p g : ℤ) (s : Char) : Prop :=
  match v.name with
  | none => w < 2 ^ 31 ∨ w = (v.stream p g s).length ∨
      (w < (v.stream p g s).length ∧ w < 2 ^ 63)
  | some name => name.length = 3 ∧ 3 ≤ w ∧ w < 2 ^ 63

/-! ## Special values -/

/-- A name is three or six characters long. The third is neither an asterisk nor the last of
six. -/
theorem Value.name_spec {v : Value} {name : Str} (h : v.name = some name) :
    (name.length = 3 ∨ name.length = 6 ∧ name.getLast? ≠ name[2]?) ∧ name[2]? ≠ some '*' := by
  have hmem : name ∈ ["nan".toList, "inf".toList, "maximu".toList, "lowest".toList] := by
    cases v with
    | int v => cases h
    | float v => exact specialName_cases h
    | double v => exact @specialName_cases Double.maxAbs v name h
  have hall : ∀ name ∈ ["nan".toList, "inf".toList, "maximu".toList, "lowest".toList],
      (name.length = 3 ∨ name.length = 6 ∧ name.getLast? ≠ name[2]?) ∧ name[2]? ≠ some '*' := by
    decide
  exact hall name hmem

theorem length_cut {name : Str} (hname : 3 ≤ name.length) (w : ℕ) (f : Char) :
    (((List.replicate w f ++ name).drop 3).take w).length = w := by
  rw [List.length_take, List.length_drop, List.length_append, List.length_replicate]
  omega

/-- Of a name that is cut, the third character is the last. -/
theorem getLast?_cut {name : Str} (hname : 3 ≤ name.length) {w : ℕ} (hw : 0 < w) (f : Char) :
    (((List.replicate w f ++ name).drop 3).take w).getLast? = name[2]? := by
  rw [List.getLast?_eq_getElem?, length_cut hname, List.getElem?_take_of_lt (by omega),
    List.getElem?_drop, List.getElem?_append_right (by rw [List.length_replicate]; omega),
    List.length_replicate]
  congr 1
  omega

/-- A name of three characters, with room for it. -/
theorem cut_of_room {name : Str} (hname : name.length = 3) {w : ℕ} (hw : 3 ≤ w) (f : Char) :
    ((List.replicate w f ++ name).drop 3).take w = List.replicate (w - 3) f ++ name := by
  rw [List.drop_append_of_le_length (by rw [List.length_replicate]; omega), List.drop_replicate,
    List.take_of_length_le]
  rw [List.length_append, List.length_replicate]
  omega

theorem cut_laidOut_iff {name : Str} {w : ℕ} (f : Char)
    (hname : name.length = 3 ∨ name.length = 6 ∧ name.getLast? ≠ name[2]?)
    (hstar : name[2]? ≠ some '*') :
    LaidOut w f name (((List.replicate w f ++ name).drop 3).take w) ↔
      name.length = 3 ∧ 3 ≤ w := by
  have h3 : 3 ≤ name.length := by omega
  rw [LaidOut]
  split
  · rename_i h0
    subst h0
    refine iff_of_false (fun h => ?_) (by omega)
    rw [List.take_zero] at h
    rw [← h] at h3
    cases h3
  · rename_i h0
    have hw := Nat.pos_of_ne_zero h0
    have hlast := getLast?_cut h3 hw f
    have hlen := length_cut h3 w f
    constructor
    · rintro ⟨-, ⟨k, hk⟩ | ⟨-, hk⟩⟩
      · rw [hk, List.length_append] at hlen
        rw [hk, List.getLast?_append_of_ne_nil _ (List.ne_nil_of_length_pos (by omega))] at hlast
        rcases hname with hname | ⟨-, hne⟩
        · exact ⟨hname, by omega⟩
        · exact absurd hlast hne
      · obtain ⟨w, rfl⟩ := Nat.exists_eq_add_of_lt hw
        rw [hk, Nat.zero_add, List.replicate_succ', List.getLast?_concat] at hlast
        exact absurd hlast.symm hstar
    · rintro ⟨hname, hroom⟩
      exact ⟨hlen, Or.inl ⟨w - 3, cut_of_room hname hroom f⟩⟩

/-! ## Other values -/

/-- The width that a stream sees, which is never more than the one asked for. -/
theorem setw_width (w : ℕ) :
    (w < 2 ^ 31 ∧ (Int.bmod w (2 ^ 32)).toNat = w) ∨
      (2 ^ 31 ≤ w ∧ (Int.bmod w (2 ^ 32)).toNat < w) := by
  rcases lt_or_ge w (2 ^ 31) with hw | hw
  · left
    rw [Int.bmod_eq_of_le (by norm_num) (by norm_num; omega), Int.toNat_natCast]
    exact ⟨hw, rfl⟩
  · right
    have hlt : Int.bmod w (2 ^ 32) < (2 ^ 32 + 1) / 2 := Int.bmod_lt (by norm_num)
    norm_num at hlt hw ⊢
    omega

/-- A text that a stream pads, or asterisks. -/
theorem setw_laidOut_iff (w : ℕ) (f : Char) (text : Str) :
    (∃ r, fmtText none text w f = .ok r ∧ LaidOut w f text r) ↔
      w < 2 ^ 31 ∨ w = text.length ∨ (w < text.length ∧ w < 2 ^ 63) := by
  have hset := length_setw (Int.bmod w (2 ^ 32)) f text
  have hwidth := setw_width w
  by_cases hlong : 0 < w ∧ w < (setw (Int.bmod w (2 ^ 32)) f text).length
  · have hrun : fmtText none text w f = fill w '*' := if_pos hlong
    obtain ⟨hpos, hlong⟩ := hlong
    rw [hset] at hlong
    have htext : w < text.length := by omega
    rw [hrun]
    by_cases hw : w < 2 ^ 63
    · refine iff_of_true ⟨_, fill_eq hw '*', ?_⟩ (Or.inr (Or.inr ⟨htext, hw⟩))
      rw [LaidOut, if_neg hpos.ne']
      exact ⟨List.length_replicate, Or.inr ⟨htext, rfl⟩⟩
    · refine iff_of_false ?_ (by omega)
      rintro ⟨r, hr, -⟩
      rw [fill_error hw] at hr
      cases hr
  · have hrun : fmtText none text w f = .ok (setw (Int.bmod w (2 ^ 32)) f text) := if_neg hlong
    rw [hset] at hlong
    have hlaid : LaidOut w f text (setw (Int.bmod w (2 ^ 32)) f text) ↔
        w = 0 ∨ max (Int.bmod w (2 ^ 32)).toNat text.length = w := by
      rw [LaidOut]
      split
      · rename_i h0
        subst h0
        have hnone : Int.bmod ((0 : ℕ) : ℤ) (2 ^ 32) = 0 := by decide
        rw [hnone, setw, Int.toNat_zero, Nat.zero_sub, List.replicate_zero]
        exact iff_of_true rfl (Or.inl rfl)
      · rename_i h0
        rw [hset, or_iff_right h0]
        exact and_iff_left (Or.inl ⟨_, rfl⟩)
    rw [hrun]
    constructor
    · rintro ⟨r, hr, hr'⟩
      cases hr
      have hcases := hlaid.mp hr'
      omega
    · intro h
      exact ⟨_, rfl, hlaid.mpr (by omega)⟩

/-- **What a width does**: the value is laid out just if the width fits into an `int`, or is not
more than the text needs; of the special values, just those with a name of three characters, and
these if there is room. -/
theorem fmt_laidOut_iff (v : Value) (w : ℕ) (p g : ℤ) (f s : Char) :
    (∃ r, v.fmt w p g f s = .ok r ∧ LaidOut w f (v.text p g s) r) ↔ v.Fits w p g s := by
  rw [Value.fmt_eq, Value.text, Value.Fits]
  cases hname : v.name with
  | none => exact setw_laidOut_iff w f _
  | some name =>
    obtain ⟨hlen, hstar⟩ := Value.name_spec hname
    have hcut := cut_laidOut_iff (w := w) f hlen hstar
    show (∃ r, (fill w f >>= fun blanks => Except.ok (((blanks ++ name).drop 3).take w)) = .ok r ∧
      LaidOut w f name r) ↔ _
    by_cases hw : w < 2 ^ 63
    · rw [fill_eq hw]
      constructor
      · rintro ⟨r, hr, hlaid⟩
        cases hr
        obtain ⟨h3, hroom⟩ := hcut.mp hlaid
        exact ⟨h3, hroom, hw⟩
      · rintro ⟨h3, hroom, -⟩
        exact ⟨_, rfl, hcut.mpr ⟨h3, hroom⟩⟩
    · refine iff_of_false ?_ fun h => hw h.2.2
      rintro ⟨r, hr, -⟩
      rw [fill_error hw] at hr
      cases hr

/-- The largest `double` in a field of ten characters. -/
theorem not_fmt_laidOut : ¬ ∃ r, (Value.double (.finite false Double.maxAbs)).fmt 10 3 0 ' ' '\'' =
    .ok r ∧ LaidOut 10 ' ' ((Value.double (.finite false Double.maxAbs)).text 3 0 '\'') r := by
  have hname : (Value.double (.finite false Double.maxAbs)).name = some "maximu".toList :=
    if_pos rfl
  rw [Value.fmt_eq, Value.text, hname]
  rintro ⟨r, hr, hlaid⟩
  have hr : r = "       max".toList := (Except.ok.inj hr).symm
  obtain ⟨-, ⟨k, hk⟩ | ⟨hlt, -⟩⟩ := hlaid
  · rw [hr] at hk
    have hlast := congrArg List.getLast? hk
    rw [List.getLast?_append_of_ne_nil _ (by decide)] at hlast
    exact absurd hlast (by decide)
  · exact absurd hlt (by decide)

end Text

end LeonUtils
