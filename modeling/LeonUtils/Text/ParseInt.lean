import LeonUtils.ShowStamp
import LeonUtils.SetOps.Integral
import LeonUtils.Text.Padding
import Mathlib.Data.Int.ModEq

/-!
# Numbers there and back

`parse_int` is a template over the type of its result. It reads digits, as many as there are and as
it is allowed to read, and computes in the type: types shorter than `int` compute as `int` and are
cut after each digit, unsigned types wrap around, and for `int` and longer signed types a number
that is too large has no result.

## What a digit does

A type that is cut after each digit ends up with the same value as if it had been cut once, at the
end. A type that must not overflow does not overflow on the way if it does not at the end, since the
number only grows. So the result is that of the whole number (`parseIntFrom_eq`).

`fmt` prints what can be read back in the widths that are not too small, unless it has a sign or is
in groups: that is what `is_number` tells.

## Main definitions

* `Integral.parseInt`, `Integral.parseAll` — `parse_int`, `parse_all`

## Main results

* `Integral.parseInt_eq` — what `parse_int` reads
* `fmt_parseInt` — what `fmt` prints is read back
-/

namespace LeonUtils

namespace SetOps

open Text Chrono

namespace Integral

/-! ## Reading digits -/

/-- A number that the type has. -/
def Has (T : Integral) (x : ℤ) : Prop := T.low ≤ x ∧ x < T.low + 2 ^ T.bits

instance (T : Integral) (x : ℤ) : Decidable (T.Has x) := inferInstanceAs (Decidable (_ ∧ _))

/-- A type that computes as it is and must not overflow. -/
def traps (T : Integral) : Bool := T.signed && decide (32 ≤ T.bits)

/-- `result_ = result_ * 10 + ( c - '0' )`. -/
def push (T : Integral) (result : T.Val) (c : Char) : Option T.Val :=
  let shifted := result.val * 10
  let next := shifted + digit c
  if T.traps = true ∧ ¬ (T.Has shifted ∧ T.Has next) then none else some (T.narrow next)

/-- The loop of `parse_int`, with `n` characters to go. -/
def parseIntFrom (T : Integral) : ℕ → T.Val → CharCp → Option (T.Val × CharCp)
  | 0, result, s => some (result, s)
  | n + 1, result, s => do
    let c ← s.deref
    if !c.isDigit then some (result, s)
    else do
      let result ← T.push result c
      parseIntFrom T n result s.next

/-- `parse_int`, of a pointer that may be null. -/
def parseInt (T : Integral) (s : Option CharCp) (n : ℕ) : Option (T.Val × Option CharCp) :=
  match s with
  | none => some (T.narrow 0, none)
  | some s => (T.parseIntFrom n (T.narrow 0) s).map fun r => (r.1, some r.2)

/-- The loop of `parse_all`. -/
def parseAllFrom (T : Integral) : T.Val → Str → Option (T.Val × CharCp)
  | result, [] => some (result, some [])
  | result, c :: s =>
    if !c.isDigit then some (result, some (c :: s))
    else do
      let result ← T.push result c
      parseAllFrom T result s

/-- `parse_all`. -/
def parseAll (T : Integral) (s : Option Str) : Option (T.Val × Option CharCp) :=
  match s with
  | none => some (T.narrow 0, none)
  | some s => (T.parseAllFrom (T.narrow 0) s).map fun r => (r.1, some r.2)

/-! ## What is read -/

/-- A number that has been read, with what is left, if the type does not overflow. -/
def stored (T : Integral) (k : ℕ) (rest : Str) : Option (T.Val × CharCp) :=
  if T.traps = true ∧ ¬ T.Has k then none else some (T.narrow k, some rest)

theorem low_nonpos (T : Integral) : T.low ≤ 0 := by
  cases T <;> decide

theorem narrow_of_has {T : Integral} {x : ℤ} (h : T.Has x) : (T.narrow x).val = x :=
  congrArg Subtype.val (T.narrow_val ⟨x, h⟩)

/-- To cut a number before the next digit makes no difference. -/
theorem narrow_step (T : Integral) (k d : ℕ) :
    T.narrow ((T.narrow k).val * 10 + d) = T.narrow (k * 10 + d) := by
  apply Subtype.ext
  by_cases hT : T = bool
  · subst hT
    have hval : ∀ x : ℤ, (bool.narrow x).val = if x = 0 then 0 else 1 := fun x => rfl
    rw [hval, hval, hval]
    split_ifs <;> omega
  · have hval : ∀ x : ℤ, (T.narrow x).val = (x - T.low) % 2 ^ T.bits + T.low := by
      intro x
      rw [narrow, dif_neg hT]
    have hcut : (T.narrow k).val ≡ k [ZMOD 2 ^ T.bits] := by
      have hmod := (Int.mod_modEq (k - T.low) (2 ^ T.bits)).add_right T.low
      rwa [sub_add_cancel, ← hval] at hmod
    have hstep := ((hcut.mul_right 10).add_right d).sub_right T.low
    rw [hval ((T.narrow k).val * 10 + d), hval (k * 10 + d)]
    exact congrArg (· + T.low) hstep

theorem le_ofDigitChars (ds : Str) (k : ℕ) : k ≤ Nat.ofDigitChars 10 ds k := by
  rw [Nat.ofDigitChars_eq_ofDigitChars_zero]
  exact (Nat.le_mul_of_pos_left _ (by positivity)).trans (Nat.le_add_right _ _)

/-- A number only grows. -/
theorem Has.of_le {T : Integral} {j k : ℕ} (h : T.Has k) (hle : j ≤ k) : T.Has j := by
  have hlow := T.low_nonpos
  exact ⟨by omega, by have := h.2; omega⟩

/-- One digit more, or an overflow. -/
theorem push_eq (T : Integral) {k : ℕ} (hk : T.traps = true → T.Has k) {c : Char}
    (hc : c.isDigit = true) :
    (T.push (T.narrow k) c = some (T.narrow ↑(10 * k + (c.toNat - '0'.toNat))) ∧
        (T.traps = true → T.Has ↑(10 * k + (c.toNat - '0'.toNat)))) ∨
      (T.push (T.narrow k) c = none ∧ T.traps = true ∧
        ¬ T.Has ↑(10 * k + (c.toNat - '0'.toNat))) := by
  have hdigit := digit_step hc k
  have hd := digit_eq hc
  set next := 10 * k + (c.toNat - '0'.toNat) with hnext
  by_cases hover : T.traps = true ∧ ¬ T.Has next
  · obtain ⟨htraps, hnot⟩ := hover
    right
    refine ⟨?_, htraps, hnot⟩
    rw [push, narrow_of_has (hk htraps), hdigit]
    exact if_pos ⟨htraps, fun h => hnot h.2⟩
  · left
    have hhas : T.traps = true → T.Has next := fun htraps => not_not.mp fun h => hover ⟨htraps, h⟩
    refine ⟨?_, hhas⟩
    rw [push, if_neg]
    · rw [hd, narrow_step, ← hd, hdigit]
    · rintro ⟨htraps, hnot⟩
      rw [narrow_of_has (hk htraps), hdigit] at hnot
      refine hnot ⟨?_, hhas htraps⟩
      have hle := (hhas htraps).of_le (show k * 10 ≤ next by omega)
      rwa [Nat.cast_mul] at hle

/-- **The loop reads a number**: the digits that come next, behind those of `k`. -/
theorem parseIntFrom_eq (T : Integral) (n : ℕ) {k : ℕ} (hk : T.traps = true → T.Has k) (s : Str) :
    T.parseIntFrom n (T.narrow k) (some s) =
      T.stored (Nat.ofDigitChars 10 ((s.take n).takeWhile Char.isDigit) k)
        (s.drop ((s.take n).takeWhile Char.isDigit).length) := by
  have hstop : T.stored k s = some (T.narrow k, some s) := if_neg fun h => h.2 (hk h.1)
  induction n generalizing k s with
  | zero =>
    rw [List.take_zero, List.takeWhile_nil, Nat.ofDigitChars_nil, List.length_nil, List.drop_zero,
      hstop]
    rfl
  | succ n ih =>
    cases s with
    | nil =>
      rw [List.take_nil, List.takeWhile_nil, Nat.ofDigitChars_nil, List.length_nil, List.drop_zero,
        hstop]
      rfl
    | cons c s =>
      by_cases hc : c.isDigit = true
      · have hrun : T.parseIntFrom (n + 1) (T.narrow k) (some (c :: s)) =
            (T.push (T.narrow k) c).bind fun result => T.parseIntFrom n result (some s) := by
          simp only [parseIntFrom, CharCp.deref, CharCp.next, hc, Option.bind_eq_bind,
            Option.bind_some, Bool.not_true, Bool.false_eq_true, if_false]
        rw [hrun, List.take_succ_cons, List.takeWhile_cons_of_pos hc, List.length_cons,
          List.drop_succ_cons, Nat.ofDigitChars_cons]
        rcases T.push_eq hk hc with ⟨hpush, hnext⟩ | ⟨hpush, htraps, hnot⟩
        · rw [hpush, Option.bind_some]
          exact ih hnext s (if_neg fun h => h.2 (hnext h.1))
        · -- too large now, and too large at the end
          rw [hpush, stored, if_pos ⟨htraps, fun h => hnot (h.of_le (le_ofDigitChars _ _))⟩]
          rfl
      · have hnone : (c :: s.take n).takeWhile Char.isDigit = [] :=
          List.takeWhile_cons_of_neg hc
        rw [List.take_succ_cons, hnone, Nat.ofDigitChars_nil, List.length_nil, List.drop_zero,
          hstop]
        simp only [parseIntFrom, CharCp.deref, hc, Option.bind_eq_bind, Option.bind_some,
          Bool.not_false, if_true]

theorem has_zero (T : Integral) : T.Has (0 : ℕ) := by
  cases T <;> decide

/-- `parse_all` is `parse_int` with no limit. -/
theorem parseAllFrom_eq (T : Integral) (result : T.Val) {n : ℕ} {s : Str} (hn : s.length ≤ n) :
    T.parseAllFrom result s = T.parseIntFrom n result (some s) := by
  induction s generalizing n result with
  | nil => cases n <;> rfl
  | cons c s ih =>
    obtain ⟨n, rfl⟩ := Nat.exists_eq_add_of_le' (show 1 ≤ n from le_trans (by simp) hn)
    have hn : s.length ≤ n := Nat.le_of_succ_le_succ hn
    simp only [parseAllFrom, parseIntFrom, CharCp.deref, CharCp.next, Option.bind_eq_bind,
      Option.bind_some]
    split
    · rfl
    · cases T.push result c with
      | none => rfl
      | some r => exact ih r hn

/-- **What `parse_int` reads**: the digits at the beginning of a string, `n` of them at most, and
nothing behind them. Types that are shorter than `int` or unsigned end up with the number modulo
their size; for the others a number that is too large has no result. `parse_all` does the same
without a limit, and a null pointer is given back. -/
theorem parseInt_eq (T : Integral) (s : Str) (n : ℕ) :
    (T.parseInt (some (some s)) n =
      (T.stored (Nat.ofDigitChars 10 ((s.take n).takeWhile Char.isDigit) 0)
        (s.drop ((s.take n).takeWhile Char.isDigit).length)).map fun r => (r.1, some r.2)) ∧
    (s.length ≤ n → T.parseAll (some s) = T.parseInt (some (some s)) n) ∧
    T.parseInt none n = some (T.narrow 0, none) := by
  have hrun := T.parseIntFrom_eq n (fun _ => T.has_zero) s
  refine ⟨?_, fun hn => ?_, rfl⟩
  · exact congrArg (Option.map fun r => (r.1, some r.2)) hrun
  · exact congrArg (Option.map fun r => (r.1, some r.2)) (T.parseAllFrom_eq _ hn)

end Integral

end SetOps

namespace Text

open SetOps Chrono ShowStamp

/-! ## What `fmt` prints -/

/-- All characters of a number are blanks or digits. -/
theorem Number.chars {l : Str} (h : Number l) {c : Char} (hc : c ∈ l) :
    c = ' ' ∨ c.isDigit = true := by
  obtain ⟨as, ds, bs, rfl, has, ⟨hds, -⟩, hbs⟩ := h
  rcases List.mem_append.mp hc with hc | hc
  · exact Or.inl (has c hc)
  · rcases List.mem_append.mp hc with hc | hc
    · exact Or.inr (hds c hc)
    · exact Or.inl (hbs c hc)

/-- Digits in more than one group have a separator. -/
theorem group_cases (g : ℕ) (s : Char) (ds : Str) : group g s ds = ds ∨ s ∈ group g s ds := by
  induction ds with
  | nil => exact Or.inl rfl
  | cons d ds ih =>
    rw [group]
    split
    · exact Or.inr (by simp)
    · rcases ih with ih | ih
      · exact Or.inl (congrArg (d :: ·) ih)
      · exact Or.inr (List.mem_cons_of_mem d ih)

theorem grouped_cases (g : ℤ) (s : Char) (ds : Str) :
    grouped g s ds = ds ∨ s ∈ grouped g s ds := by
  rw [grouped]
  split
  · exact group_cases ..
  · exact Or.inl rfl

theorem length_group_le (g : ℕ) (s : Char) (ds : Str) :
    (group g s ds).length ≤ 2 * ds.length := by
  induction ds with
  | nil => exact Nat.zero_le _
  | cons d ds ih =>
    rw [group]
    split <;> simp only [List.length_cons] <;> omega

/-- The values of a type are not long. -/
theorem length_intText_le {T : Integral} (v : T.Val) (g : ℤ) (s : Char) :
    (intText v.val g s).length ≤ 41 := by
  have hdigits : (Nat.toDigits 10 v.val.natAbs).length ≤ 20 := by
    rw [Nat.length_toDigits_le_iff (by norm_num) (by norm_num)]
    obtain ⟨v, hlow, hhigh⟩ := v
    cases T <;> simp only [Integral.low, Integral.signed, Integral.bits] at hlow hhigh ⊢ <;>
      norm_num at hlow hhigh ⊢ <;> omega
  have hgrouped : (grouped g s (Nat.toDigits 10 v.val.natAbs)).length ≤ 40 := by
    rw [grouped]
    split
    · exact (length_group_le ..).trans (Nat.mul_le_mul_left 2 hdigits)
    · omega
  rw [intText, List.length_append]
  split <;> simp only [List.length_singleton, List.length_nil] <;> omega

/-- All of a number is read, and stored if the type has it. -/
theorem parseInt_digits {T : Integral} (v : T.Val) {ds : Str} (hds : Digits ds)
    (hv : ((Nat.ofDigitChars 10 ds 0 : ℕ) : ℤ) = v.val) :
    T.parseInt (some (some ds)) ds.length = some (v, some (some [])) := by
  have hall : (ds.take ds.length).takeWhile Char.isDigit = ds := by
    rw [List.take_length]
    exact List.takeWhile_eq_self_iff.mpr hds
  have hstored : T.stored (Nat.ofDigitChars 10 ds 0) [] = some (v, some []) := by
    rw [Integral.stored, hv, if_neg fun h => h.2 v.2, T.narrow_val]
  have hrun := T.parseIntFrom_eq ds.length (fun _ => T.has_zero) ds
  rw [hall, List.drop_length, hstored] at hrun
  exact congrArg (Option.map fun r => (r.1, some r.2)) hrun

/-- A field is as wide as it should be, or full of asterisks. -/
theorem laidOut_cases {w : ℕ} {f : Char} {text r : Str} (h : LaidOut w f text r) :
    ((w = 0 ∨ text.length ≤ w) ∧ ∃ k, r = List.replicate k f ++ text) ∨
      (¬ (w = 0 ∨ text.length ≤ w) ∧ r = List.replicate w '*') := by
  rw [LaidOut] at h
  split at h
  · rename_i h0
    exact Or.inl ⟨Or.inl h0, 0, h⟩
  · rename_i h0
    obtain ⟨hlen, ⟨k, hk⟩ | ⟨hlt, hstars⟩⟩ := h
    · refine Or.inl ⟨Or.inr ?_, k, hk⟩
      rw [← hlen, hk, List.length_append]
      omega
    · exact Or.inr ⟨by omega, hstars⟩

theorem laidOut_length {w : ℕ} {f : Char} {text r : Str} (h : LaidOut w f text r) :
    r.length = w ∨ r.length = text.length := by
  rw [LaidOut] at h
  split at h
  · exact Or.inr (congrArg List.length h)
  · exact Or.inl h.1

section Back

variable {T : Integral} (v : T.Val) {w : ℕ} {g : ℤ} {f s : Char} {r : Str}

/-- What a text is made of. -/
theorem mem_intText {v : ℤ} {c : Char} (h : c ∈ intText v g s) :
    c = '-' ∨ c = s ∨ c.isDigit = true := by
  rcases List.mem_append.mp h with h | h
  · split at h
    · exact Or.inl (List.mem_singleton.mp h)
    · cases h
  · rcases mem_grouped h with h | h
    · exact Or.inr (Or.inl h)
    · exact Or.inr (Or.inr (isDigit_toDigits h))

/-- A number without a sign, in one group. -/
def Plain (v g : ℤ) (s : Char) : Prop :=
  0 ≤ v ∧ grouped g s (Nat.toDigits 10 v.natAbs) = Nat.toDigits 10 v.natAbs

theorem intText_of_plain {v : ℤ} (h : Plain v g s) : intText v g s = Nat.toDigits 10 v.natAbs := by
  rw [intText, h.2, if_neg (not_lt.mpr h.1), List.nil_append]

/-- A text that is not plain has a character in it that is in no number. -/
theorem exists_of_not_plain {v : ℤ} (hs : s.isDigit = false ∧ s ≠ ' ') (h : ¬ Plain v g s) :
    ∃ c ∈ intText v g s, c ≠ ' ' ∧ c.isDigit = false := by
  by_cases hneg : v < 0
  · refine ⟨'-', ?_, by decide, by decide⟩
    rw [intText, if_pos hneg]
    exact List.mem_cons_self
  · rcases grouped_cases g s (Nat.toDigits 10 v.natAbs) with hone | hmem
    · exact absurd ⟨not_lt.mp hneg, hone⟩ h
    · exact ⟨s, List.mem_append_right _ hmem, hs.2, hs.1⟩

/-- What is laid out is a number just if it is plain and there is room for it. -/
theorem number_laidOut_iff {v : ℤ} (hf : f = ' ' ∨ f = '0') (hs : s.isDigit = false ∧ s ≠ ' ')
    (hr : LaidOut w f (intText v g s) r) :
    Number r ↔ Plain v g s ∧ (w = 0 ∨ (intText v g s).length ≤ w) := by
  rcases laidOut_cases hr with ⟨hroom, k, rfl⟩ | ⟨hroom, rfl⟩
  · rw [and_iff_left hroom]
    constructor
    · intro hnumber
      by_contra hplain
      obtain ⟨c, hc, hblank, hdigit⟩ := exists_of_not_plain hs hplain
      rcases hnumber.chars (List.mem_append_right _ hc) with h | h
      · exact hblank h
      · rw [hdigit] at h
        cases h
    · intro hplain
      have hdigits : Digits (Nat.toDigits 10 v.natAbs) := fun c hc => isDigit_toDigits hc
      have hne : Nat.toDigits 10 v.natAbs ≠ [] := Nat.toDigits_ne_nil
      rw [intText_of_plain hplain]
      rcases hf with rfl | rfl
      · refine ⟨List.replicate k ' ', _, [], by rw [List.append_nil], ?_, ⟨hdigits, hne⟩,
          List.forall_mem_nil _⟩
        exact fun c hc => List.eq_of_mem_replicate hc
      · refine ⟨[], List.replicate k '0' ++ Nat.toDigits 10 v.natAbs, [], by simp,
          List.forall_mem_nil _, ⟨fun c hc => ?_, List.append_ne_nil_of_right_ne_nil _ hne⟩,
          List.forall_mem_nil _⟩
        rcases List.mem_append.mp hc with hc | hc
        · rw [List.eq_of_mem_replicate hc]
          rfl
        · exact hdigits c hc
  · refine iff_of_false (fun hnumber => ?_) fun h => hroom h.2
    have hstar : '*' ∈ List.replicate w '*' := List.mem_replicate.mpr ⟨by omega, rfl⟩
    rcases hnumber.chars hstar with h | h <;> cases h

/-- Behind the blanks there are digits, and perhaps zeros before them. -/
theorem trimL_field (hf : f = ' ' ∨ f = '0') (k n : ℕ) :
    ∃ j, trimL (List.replicate k f ++ Nat.toDigits 10 n) =
      List.replicate j '0' ++ Nat.toDigits 10 n := by
  have hdigits : ∀ j, (List.replicate j '0' ++ Nat.toDigits 10 n).dropWhile (· == ' ') =
      List.replicate j '0' ++ Nat.toDigits 10 n := by
    intro j
    have hhead : ∀ c ∈ List.replicate j '0' ++ Nat.toDigits 10 n, (c == ' ') = false := by
      intro c hc
      rcases List.mem_append.mp hc with hc | hc
      · rw [List.eq_of_mem_replicate hc]
        rfl
      · refine beq_eq_false_iff_ne.mpr fun h => ?_
        rw [h] at hc
        cases isDigit_toDigits hc
    rw [List.dropWhile_eq_self_iff]
    intro hpos
    rw [hhead _ (List.getElem_mem hpos)]
    exact Bool.false_ne_true
  rcases hf with rfl | rfl
  · refine ⟨0, ?_⟩
    have hblanks : ∀ c ∈ List.replicate k ' ', (c == ' ') = true :=
      fun c hc => beq_iff_eq.mpr (List.eq_of_mem_replicate hc)
    rw [trimL_eq, List.dropWhile_append_of_pos hblanks]
    exact hdigits 0
  · exact ⟨k, (trimL_eq _).trans (hdigits k)⟩

/-- **What `fmt` prints is read back.** A value of an integral type, printed with blanks or zeros in
front, is told to be a number just if it has no sign, is in one group, and the width is zero or
enough. Then `parse_int` for the type, after the blanks, reads all of the text and gives the
value. -/
theorem fmt_parseInt (hw : w < 2 ^ 31) (g : ℤ) (hf : f = ' ' ∨ f = '0')
    (hs : s.isDigit = false ∧ s ≠ ' ') (h0 : s ≠ '\x00') :
    ∃ r, fmtInt v.val w g f s = .ok r ∧
      (isNumberStr r = true ↔ Plain v.val g s ∧ (w = 0 ∨ (intText v.val g s).length ≤ w)) ∧
      (isNumberStr r = true →
        T.parseInt (some (some (trimL r))) (trimL r).length = some (v, some (some []))) := by
  obtain ⟨r, hr, hlaid⟩ := (setw_laidOut_iff w f (intText v.val g s)).mpr (Or.inl hw)
  have hlen : r.length < 2 ^ 64 := by
    have htext := length_intText_le v g s
    rcases laidOut_length hlaid with hlen | hlen <;> omega
  have hnul : '\x00' ∉ r := by
    intro hmem
    rcases laidOut_cases hlaid with ⟨-, k, rfl⟩ | ⟨-, rfl⟩
    · rcases List.mem_append.mp hmem with hmem | hmem
      · rcases hf with rfl | rfl <;> cases List.eq_of_mem_replicate hmem
      · rcases mem_intText hmem with h | h | h
        · cases h
        · exact h0 h.symm
        · cases h
    · cases List.eq_of_mem_replicate hmem
  have hiff := number_laidOut_iff hf hs hlaid
  have hnumber := isNumberStr_iff ⟨r, hnul, hlen⟩
  refine ⟨r, hr, hnumber.trans hiff, fun his => ?_⟩
  obtain ⟨hplain, hroom⟩ := hiff.mp (hnumber.mp his)
  obtain ⟨k, rfl⟩ : ∃ k, r = List.replicate k f ++ Nat.toDigits 10 v.val.natAbs := by
    rw [← intText_of_plain hplain]
    rcases laidOut_cases hlaid with ⟨-, hk⟩ | ⟨hnot, -⟩
    · exact hk
    · exact absurd hroom hnot
  obtain ⟨j, htrim⟩ := trimL_field hf k v.val.natAbs
  rw [htrim]
  refine parseInt_digits v (fun c hc => ?_) ?_
  · rcases List.mem_append.mp hc with hc | hc
    · rw [List.eq_of_mem_replicate hc]
      rfl
    · exact isDigit_toDigits hc
  · rw [Nat.ofDigitChars_append, Nat.ofDigitChars_replicate_zero, Nat.mul_zero,
      Nat.ofDigitChars_ten_toDigits]
    exact Int.natAbs_of_nonneg hplain.1

end Back

/-- The number seven, in a field of three. -/
theorem fmt_parseInt_seven : ∃ r, fmtInt 7 3 0 ' ' '\'' = .ok r ∧ isNumberStr r = true ∧
    Integral.u8.parseInt (some (some (trimL r))) (trimL r).length =
      some (⟨7, by decide⟩, some (some [])) := by
  obtain ⟨r, hr, hiff, hback⟩ := fmt_parseInt (T := .u8) ⟨7, by decide⟩ (w := 3) (by norm_num) 0
    (f := ' ') (s := '\'') (Or.inl rfl) ⟨by decide, by decide⟩ (by decide)
  have hnumber := hiff.mpr ⟨⟨by decide, by decide⟩, Or.inr (by decide)⟩
  exact ⟨r, hr, hnumber, hback hnumber⟩

end Text

end LeonUtils
