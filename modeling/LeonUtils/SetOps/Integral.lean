import LeonUtils.Chrono.Timespec
import LeonUtils.SetOps

/-!
# Sets of integers as text

`split2set` for an integral type takes the pieces of a string as a set of strings, has each of them
read by `stoll` or `stoull`, and converts what was read to the type, which wraps it around. `to_str`
leaves it to the stream what is printed, and a stream prints a type of one byte as a character.

## Main definitions

* `Integral`, `Integral.Val` — the types, and their values
* `stoll`, `stoull` — reading a number
* `split2ints`, `intsToStr` — the functions

## Main results

* `stoll_intText`, `stoull_intText` — what the stream prints of a number is read back
* `split2ints_toStr_iff` — a set of integers that was written is read back just if the type is
  longer than a byte, is `bool`, or the set is empty
-/

namespace LeonUtils

namespace SetOps

open Text

/-! ## Types and their values -/

/-- The integral types that a narrow stream prints. -/
inductive Integral
  | bool | i8 | u8 | i16 | u16 | i32 | u32 | i64 | u64
deriving DecidableEq

namespace Integral

def bits : Integral → ℕ
  | bool => 1
  | i8 | u8 => 8
  | i16 | u16 => 16
  | i32 | u32 => 32
  | i64 | u64 => 64

/-- `std::is_signed_v`. -/
def signed : Integral → Bool
  | i8 | i16 | i32 | i64 => true
  | bool | u8 | u16 | u32 | u64 => false

/-- The least value. -/
def low (T : Integral) : ℤ := if T.signed then -2 ^ (T.bits - 1) else 0

/-- The values of a type. -/
abbrev Val (T : Integral) : Type := { v : ℤ // T.low ≤ v ∧ v < T.low + 2 ^ T.bits }

/-- The conversion of an integer to the type: to `bool` it asks whether it is zero, to the other
types it wraps around. -/
def narrow (T : Integral) (x : ℤ) : T.Val :=
  if h : T = bool then ⟨if x = 0 then 0 else 1, by subst h; split <;> decide⟩
  else ⟨(x - T.low) % 2 ^ T.bits + T.low, by
    have hpos : (0 : ℤ) < 2 ^ T.bits := by positivity
    have hnonneg := Int.emod_nonneg (x - T.low) hpos.ne'
    have hlt := Int.emod_lt_of_pos (x - T.low) hpos
    omega⟩

/-- A type of one byte that the stream takes for a character. -/
def isChar : Integral → Bool
  | i8 | u8 => true
  | _ => false

/-- What a stream prints of a value. -/
def put (T : Integral) (v : T.Val) : Str :=
  if T.isChar then [Char.ofNat (v.val % 256).toNat] else intText v.val 0 ' '

theorem narrow_val {T : Integral} (v : T.Val) : T.narrow v.val = v := by
  obtain ⟨v, hlow, hhigh⟩ := v
  by_cases hT : T = bool
  · subst hT
    have hlow : 0 ≤ v := hlow
    have hhigh : v < 2 := hhigh
    rw [narrow, dif_pos rfl]
    apply Subtype.ext
    show (if v = 0 then 0 else 1) = v
    split <;> omega
  · rw [narrow, dif_neg hT]
    apply Subtype.ext
    show (v - T.low) % 2 ^ T.bits + T.low = v
    rw [Int.emod_eq_of_lt (by omega) (by omega)]
    omega

end Integral

/-! ## Reading a number -/

/-- `isspace`. -/
def isSpace (c : Char) : Bool := c == ' ' || (0x09 ≤ c.toNat && c.toNat ≤ 0x0d)

/-- A sign, if there is one. -/
def readSign : Str → Bool × Str
  | '-' :: s => (true, s)
  | '+' :: s => (false, s)
  | s => (false, s)

/-- White space, a sign and digits, as `strtoll` and `strtoull` read them; what follows is left. -/
def readNumber (s : Str) : Option (Bool × ℕ) :=
  let (neg, s) := readSign (s.dropWhile isSpace)
  let ds := s.takeWhile Char.isDigit
  if ds = [] then none else some (neg, Nat.ofDigitChars 10 ds 0)

/-- How the conversions fail. -/
inductive StoExn
  /-- `std::invalid_argument`. -/
  | invalid
  /-- `std::out_of_range`. -/
  | range
deriving DecidableEq

def stoll (s : Str) : Except StoExn ℤ :=
  match readNumber s with
  | none => .error .invalid
  | some (neg, n) =>
    let v : ℤ := if neg then -n else n
    if Int64Range v then .ok v else .error .range

/-- `stoull`, which takes a sign as well. -/
def stoull (s : Str) : Except StoExn ℤ :=
  match readNumber s with
  | none => .error .invalid
  | some (neg, n) =>
    if n < 2 ^ 64 then .ok (if neg then -(n : ℤ) % 2 ^ 64 else n) else .error .range

/-- The conversion that is taken for a type. -/
def sto (T : Integral) (s : Str) : Except StoExn ℤ := if T.signed then stoll s else stoull s

/-! ## The functions -/

/-- The loop of `split2set` over the strings. -/
def insertAll (T : Integral) : List Str → Finset T.Val → Except StoExn (Finset T.Val)
  | [], result => .ok result
  | s :: ss, result =>
    if s = [] then insertAll T ss result
    else do
      let v ← sto T s
      insertAll T ss (insert (T.narrow v) result)

/-- `split2set`, for an integral type. -/
def split2ints (T : Integral) (src : Str) (d : Char) : Except StoExn (Finset T.Val) :=
  let strSet := split2set src d
  if strSet = ∅ then .ok ∅ else insertAll T strSet.sort ∅

/-- `to_str`, for an integral type. -/
def intsToStr (T : Integral) (S : Finset T.Val) (d : Char) : Str := toStr T.put d S

/-! ## What was printed is read back -/

theorem not_isSpace_of_isDigit {c : Char} (h : c.isDigit = true) : isSpace c = false := by
  obtain ⟨hlow, -⟩ := isDigit_toNat h
  have hblank : c ≠ ' ' := by
    rintro rfl
    exact absurd hlow (by decide)
  simp only [isSpace, beq_eq_false_iff_ne.mpr hblank, Bool.false_or, Bool.and_eq_false_iff,
    decide_eq_false_iff_not]
  omega

/-- Without a sign there is none to be read. -/
theorem readSign_of_isDigit {s : Str} (h : ∀ c ∈ s, c.isDigit = true) :
    readSign s = (false, s) := by
  cases s with
  | nil => rfl
  | cons c s =>
    have hc := h c List.mem_cons_self
    rw [readSign]
    · rintro s' ⟨⟩
      cases hc
    · rintro s' ⟨⟩
      cases hc

/-- The digits of a number, with a sign or without one. -/
theorem readNumber_sign (neg : Bool) (n : ℕ) :
    readNumber ((if neg then ['-'] else []) ++ Nat.toDigits 10 n) = some (neg, n) := by
  have hdigits : ∀ c ∈ Nat.toDigits 10 n, c.isDigit = true := fun c => isDigit_toDigits
  have hsign : readSign (((if neg then ['-'] else []) ++ Nat.toDigits 10 n).dropWhile isSpace) =
      (neg, Nat.toDigits 10 n) := by
    cases neg with
    | true => rfl
    | false =>
      have hdrop : (Nat.toDigits 10 n).dropWhile isSpace = Nat.toDigits 10 n := by
        refine List.dropWhile_eq_self_iff.mpr fun hpos hspace => ?_
        rw [not_isSpace_of_isDigit (hdigits _ (List.getElem_mem hpos))] at hspace
        cases hspace
      exact (congrArg readSign hdrop).trans (readSign_of_isDigit hdigits)
  have htake : (Nat.toDigits 10 n).takeWhile Char.isDigit = Nat.toDigits 10 n :=
    List.takeWhile_eq_self_iff.mpr hdigits
  simp only [readNumber, hsign, htake, Nat.toDigits_ne_nil, if_false, Nat.ofDigitChars_ten_toDigits]

theorem readNumber_intText (v : ℤ) :
    readNumber (intText v 0 ' ') = some (decide (v < 0), v.natAbs) := by
  rw [← readNumber_sign, intText_plain]
  simp only [decide_eq_true_eq]

theorem stoll_intText {v : ℤ} (h : Int64Range v) : stoll (intText v 0 ' ') = .ok v := by
  have habs : (if decide (v < 0) = true then -(v.natAbs : ℤ) else v.natAbs) = v := by
    split <;> rename_i hneg <;> rw [decide_eq_true_eq] at hneg <;> omega
  simp only [stoll, readNumber_intText, habs, h, if_true]

theorem stoull_intText {v : ℤ} (h0 : 0 ≤ v) (h : v < 2 ^ 64) :
    stoull (intText v 0 ' ') = .ok v := by
  have hneg : decide (v < 0) = false := decide_eq_false (by omega)
  have habs : v.natAbs < 2 ^ 64 := by omega
  have hcast : ((v.natAbs : ℕ) : ℤ) = v := by omega
  rw [stoull, readNumber_intText]
  simp only [hneg, habs, if_true, Bool.false_eq_true, if_false, hcast]

/-- Every value fits into the numbers that are read. -/
theorem sto_intText {T : Integral} (v : T.Val) : sto T (intText v.val 0 ' ') = .ok v.val := by
  obtain ⟨v, hlow, hhigh⟩ := v
  show sto T (intText v 0 ' ') = .ok v
  rw [sto]
  cases T <;> simp only [Integral.low, Integral.signed, Integral.bits] at hlow hhigh ⊢ <;>
    norm_num at hlow hhigh <;>
    first
    | exact stoll_intText ⟨by norm_num; omega, by norm_num; omega⟩
    | exact stoull_intText (by omega) (by norm_num; omega)

/-- A digit, a sign or a blank. -/
def InNumbers (c : Char) : Prop := c.isDigit = true ∨ c = '-' ∨ c = '+' ∨ c = ' '

instance : DecidablePred InNumbers := fun _ => inferInstanceAs (Decidable (_ ∨ _))

theorem mem_intText {v : ℤ} {c : Char} (h : c ∈ intText v 0 ' ') : c = '-' ∨ c.isDigit = true := by
  rw [intText_plain] at h
  rcases List.mem_append.mp h with h | h
  · split at h
    · exact Or.inl (List.mem_singleton.mp h)
    · cases h
  · exact Or.inr (isDigit_toDigits h)

theorem intText_ne_nil (v : ℤ) : intText v 0 ' ' ≠ [] := by
  rw [intText_plain]
  exact List.append_ne_nil_of_right_ne_nil _ Nat.toDigits_ne_nil

/-- A printed number is a piece that is read back as it is. -/
theorem intText_piece (v : ℤ) {d : Char} (hd : ¬ InNumbers d) :
    intText v 0 ' ' ≠ [] ∧ d ∉ intText v 0 ' ' ∧ Neat (intText v 0 ' ') := by
  have hblank : ' ' ∉ intText v 0 ' ' := by
    intro h
    rcases mem_intText h with h | h <;> cases h
  refine ⟨intText_ne_nil v, fun h => ?_, fun h => ?_, fun h => ?_⟩
  · rcases mem_intText h with h | h
    · exact hd (Or.inr (Or.inl h))
    · exact hd (Or.inl h)
  · exact hblank (List.mem_of_mem_head? h)
  · exact hblank (List.mem_of_getLast? h)

/-- What a string is read as, if it can be read at all. -/
def read (T : Integral) (s : Str) : T.Val :=
  match sto T s with
  | .ok v => T.narrow v
  | .error _ => T.narrow 0

theorem read_intText {T : Integral} (v : T.Val) : read T (intText v.val 0 ' ') = v := by
  rw [read, sto_intText]
  exact Integral.narrow_val v

/-- The loop over strings all of which can be read. -/
theorem insertAll_of_ok {T : Integral} {ss : List Str}
    (h : ∀ s ∈ ss, s ≠ [] ∧ ∃ v, sto T s = .ok v) (result : Finset T.Val) :
    insertAll T ss result = .ok (result ∪ (ss.map (read T)).toFinset) := by
  induction ss generalizing result with
  | nil => simp only [insertAll, List.map_nil, List.toFinset_nil, Finset.union_empty]
  | cons s ss ih =>
    obtain ⟨⟨hs, v, hsto⟩, hss⟩ := List.forall_mem_cons.mp h
    have hread : read T s = T.narrow v := by rw [read, hsto]
    rw [insertAll, if_neg hs, hsto]
    show insertAll T ss (insert (T.narrow v) result) = _
    rw [ih hss, List.map_cons, List.toFinset_cons, hread, Finset.insert_union, Finset.union_insert]

/-- The elements of a set, in order, with a function applied to them. -/
theorem toFinset_map_sort {K L : Type*} [LinearOrder K] [DecidableEq L] (S : Finset K)
    (f : K → L) : (S.sort.map f).toFinset = S.image f := by
  ext x
  simp only [List.mem_toFinset, List.mem_map, Finset.mem_sort, Finset.mem_image]

/-- **A set of integers is read back**, for the types that are printed as numbers. -/
theorem split2ints_of_numbers {T : Integral} (hT : T.isChar = false) (S : Finset T.Val) {d : Char}
    (hd : ¬ InNumbers d) : split2ints T (intsToStr T S d) d = .ok S := by
  have hput : T.put = fun v : T.Val => intText v.val 0 ' ' := by
    funext v
    rw [Integral.put, if_neg (by rw [hT]; decide)]
  have hset : split2set (intsToStr T S d) d = S.image T.put := by
    rw [intsToStr, toStr_eq, split2set_intercalate, toFinset_map_sort]
    intro s hs
    obtain ⟨v, -, rfl⟩ := List.mem_map.mp hs
    rw [hput]
    exact intText_piece v.val hd
  have hall : ∀ s ∈ (S.image T.put).sort, s ≠ [] ∧ ∃ v, sto T s = .ok v := by
    intro s hs
    obtain ⟨v, -, rfl⟩ := Finset.mem_image.mp ((Finset.mem_sort _).mp hs)
    rw [hput]
    exact ⟨intText_ne_nil v.val, v.val, sto_intText v⟩
  have hback : read T ∘ T.put = id := by
    funext v
    rw [hput]
    exact read_intText v
  rw [split2ints, hset]
  split
  · rename_i hempty
    rw [Finset.image_eq_empty.mp hempty]
  · rw [insertAll_of_ok hall, toFinset_map_sort, Finset.empty_union, Finset.image_image,
      hback, Finset.image_id]

/-! ## Types of one byte

A value is printed as one character. What is read back is at most a digit, the character of a
greater value. -/

/-- The pieces of strings with a delimiter between them are pieces of one of the strings. -/
theorem splitOn_intercalate_flatMap (d : Char) {l : List Str} (hl : l ≠ []) :
    ([d].intercalate l).splitOn d = l.flatMap (·.splitOn d) := by
  induction l with
  | nil => exact absurd rfl hl
  | cons x l ih =>
    cases l with
    | nil =>
      rw [List.intercalate_singleton, List.flatMap_cons, List.flatMap_nil, List.append_nil]
    | cons y l =>
      rw [List.intercalate_cons_cons, List.append_assoc, List.singleton_append,
        List.splitOn_append_cons_self, ih (List.cons_ne_nil y l), List.flatMap_cons (x := x)]

/-- A piece of a single character is empty, or it is this character. -/
theorem mem_splitOn_singleton {c d : Char} {p : Str} (h : p ∈ [c].splitOn d) :
    p = [] ∨ p = [c] := by
  by_cases hc : c = d
  · subst hc
    have hsplit : [c].splitOn c = [[], []] := by
      rw [List.splitOn_cons_eq_if_modifyHead, if_pos (beq_self_eq_true c), List.splitOn_nil]
    rw [hsplit] at h
    rcases List.mem_cons.mp h with h | h
    · exact Or.inl h
    · exact Or.inl (List.mem_singleton.mp h)
  · have hsplit : [c].splitOn d = [[c]] :=
      List.splitOn_eq_singleton fun hmem => hc (List.mem_singleton.mp hmem).symm
    rw [hsplit] at h
    exact Or.inr (List.mem_singleton.mp h)

/-- A piece that comes out is one of the pieces, stripped or not. -/
theorem mem_split2set {s p : Str} {d : Char} (h : p ∈ split2set s d) :
    p ≠ [] ∧ ∃ q ∈ s.splitOn d, p = q ∨ p = strip q := by
  rw [split2set_eq, Finset.mem_erase, Finset.mem_insert, List.mem_toFinset, List.mem_map] at h
  obtain ⟨hne, h⟩ := h
  refine ⟨hne, ?_⟩
  rcases h with rfl | ⟨q, hq, rfl⟩
  · exact ⟨lastPiece d s, List.getLast_mem _, Or.inl rfl⟩
  · exact ⟨q, List.mem_of_mem_dropLast hq, Or.inr rfl⟩

/-- Stripping leaves a single character or nothing. -/
theorem eq_singleton_of_strip {c : Char} {p q : Str} (hq : q = [] ∨ q = [c])
    (hp : p = q ∨ p = strip q) (hne : p ≠ []) : p = [c] := by
  have hnil : strip [] = [] := rfl
  rcases hq with rfl | rfl
  · rw [hnil, or_self] at hp
    exact absurd hp hne
  · rcases hp with rfl | rfl
    · rfl
    · by_cases hc : c = ' '
      · subst hc
        exact absurd rfl hne
      · refine (strip_eq_self_iff [c]).mpr ⟨fun h => hc ?_, fun h => hc ?_⟩ <;>
          exact Option.some_inj.mp h

theorem intsToStr_empty (T : Integral) (d : Char) : intsToStr T ∅ d = [] := by
  rw [intsToStr, toStr, Finset.sort_empty, toStrLoop]

/-- What comes out of single characters is some of them. -/
theorem mem_split2set_chars {T : Integral} (hT : T.isChar = true) {S : Finset T.Val} {d : Char}
    {p : Str} (h : p ∈ split2set (intsToStr T S d) d) :
    ∃ v ∈ S, p = [Char.ofNat (v.val % 256).toNat] := by
  by_cases hS : S = ∅
  · rw [hS, intsToStr_empty] at h
    exact absurd h (Finset.notMem_empty p)
  · have hl : S.sort.map T.put ≠ [] := by
      intro hnil
      apply hS
      rw [← S.sort_toFinset (· ≤ ·), List.map_eq_nil_iff.mp hnil, List.toFinset_nil]
    obtain ⟨hne, q, hq, hpq⟩ := mem_split2set h
    rw [intsToStr, toStr_eq, splitOn_intercalate_flatMap d hl] at hq
    obtain ⟨s, hs, hq⟩ := List.mem_flatMap.mp hq
    obtain ⟨v, hv, rfl⟩ := List.mem_map.mp hs
    rw [Integral.put, if_pos hT] at hq
    exact ⟨v, (Finset.mem_sort _).mp hv,
      eq_singleton_of_strip (mem_splitOn_singleton hq) hpq hne⟩

theorem readSign_singleton (c : Char) : (readSign [c]).2 = [] ∨ (readSign [c]).2 = [c] := by
  rw [readSign.eq_def]
  split
  · rename_i hcons
    exact Or.inl (List.cons_eq_cons.mp hcons).2.symm
  · rename_i hcons
    exact Or.inl (List.cons_eq_cons.mp hcons).2.symm
  · exact Or.inr rfl

/-- A single character is read only if it is a digit. -/
theorem readNumber_singleton {c : Char} {neg : Bool} {n : ℕ}
    (h : readNumber [c] = some (neg, n)) : c.isDigit = true ∧ neg = false ∧ n = c.toNat - 48 := by
  by_cases hspace : isSpace c = true
  · have hnone : readNumber [c] = none := by
      simp only [readNumber, List.dropWhile_cons, hspace, if_true]
      rfl
    rw [hnone] at h
    cases h
  · by_cases hc : c.isDigit = true
    · have hsign : readSign ([c].dropWhile isSpace) = (false, [c]) := by
        rw [List.dropWhile_cons, if_neg hspace]
        exact readSign_of_isDigit fun x hx => List.mem_singleton.mp hx ▸ hc
      simp only [readNumber, hsign, List.takeWhile_cons, hc, if_true, List.takeWhile_nil,
        List.cons_ne_nil, if_false, Option.some_inj, Prod.mk.injEq] at h
      obtain ⟨hneg, hn⟩ := h
      refine ⟨hc, hneg.symm, ?_⟩
      rw [← hn, Nat.ofDigitChars_cons, Nat.ofDigitChars_nil, Nat.mul_zero, Nat.zero_add]
      rfl
    · have hdrop : [c].dropWhile isSpace = [c] := by rw [List.dropWhile_cons, if_neg hspace]
      have hnone : (readSign [c]).2.takeWhile Char.isDigit = [] := by
        rcases readSign_singleton c with hsign | hsign
        · rw [hsign, List.takeWhile_nil]
        · rw [hsign, List.takeWhile_cons, if_neg hc]
      simp only [readNumber, hdrop, hnone, if_true] at h
      cases h

/-- The loop only inserts what was read of one of the strings. -/
theorem mem_of_insertAll {T : Integral} {ss : List Str} {A R : Finset T.Val}
    (h : insertAll T ss A = .ok R) {v : T.Val} (hv : v ∈ R) :
    v ∈ A ∨ ∃ s ∈ ss, ∃ x, sto T s = .ok x ∧ v = T.narrow x := by
  induction ss generalizing A with
  | nil =>
    cases h
    exact Or.inl hv
  | cons s ss ih =>
    rw [insertAll] at h
    split at h
    · rcases ih h with hA | ⟨s', hs', hx⟩
      · exact Or.inl hA
      · exact Or.inr ⟨s', List.mem_cons_of_mem s hs', hx⟩
    · cases hsto : sto T s with
      | error e =>
        rw [hsto] at h
        cases h
      | ok x =>
        rw [hsto] at h
        rcases ih h with hA | ⟨s', hs', hx⟩
        · rcases Finset.mem_insert.mp hA with rfl | hA
          · exact Or.inr ⟨s, List.mem_cons_self, x, hsto, rfl⟩
          · exact Or.inl hA
        · exact Or.inr ⟨s', List.mem_cons_of_mem s hs', hx⟩

theorem isChar_cases {T : Integral} (hT : T.isChar = true) : T = .i8 ∨ T = .u8 := by
  cases T <;> first | exact Or.inl rfl | exact Or.inr rfl | cases hT

/-- A single character that is read is a digit. -/
theorem sto_singleton {T : Integral} {c : Char} {x : ℤ} (h : sto T [c] = .ok x) :
    c.isDigit = true ∧ x = (c.toNat - 48 : ℕ) := by
  cases hread : readNumber [c] with
  | none =>
    simp only [sto, stoll, stoull, hread, ite_self] at h
    cases h
  | some p =>
    obtain ⟨neg, n⟩ := p
    obtain ⟨hc, rfl, hn⟩ := readNumber_singleton hread
    refine ⟨hc, hn ▸ ?_⟩
    simp only [sto, stoll, stoull, hread, Bool.false_eq_true, if_false] at h
    split at h <;> split at h <;> cases h <;> rfl

/-- What is read of the character of a value is less than the value, which is no digit. -/
theorem sto_char {T : Integral} (hT : T.isChar = true) {v : T.Val} {x : ℤ}
    (h : sto T [Char.ofNat (v.val % 256).toNat] = .ok x) : 0 ≤ x ∧ x ≤ 9 ∧ v.val = x + 48 := by
  obtain ⟨hc, hx⟩ := sto_singleton h
  have hvalid : (v.val % 256).toNat.isValidChar := Or.inl (by omega)
  have hcode : (Char.ofNat (v.val % 256).toNat).toNat = (v.val % 256).toNat := by
    rw [Char.ofNat, dif_pos hvalid]
    rfl
  obtain ⟨hlow, hhigh⟩ := isDigit_toNat hc
  rw [hcode] at hx hlow hhigh
  have hrange : -128 ≤ v.val ∧ v.val < 256 := by
    obtain ⟨v, hv⟩ := v
    rcases isChar_cases hT with rfl | rfl
    · exact ⟨hv.1, hv.2.trans (by decide)⟩
    · exact ⟨le_trans (by decide) hv.1, hv.2⟩
  omega

/-- A digit fits into every type. -/
theorem narrow_digit {T : Integral} (hT : T.isChar = true) {x : ℤ} (h0 : 0 ≤ x) (h9 : x ≤ 9) :
    (T.narrow x).val = x := by
  have hx : T.low ≤ x ∧ x < T.low + 2 ^ T.bits := by
    rcases isChar_cases hT with rfl | rfl
    · exact ⟨le_trans (by decide) h0, lt_of_le_of_lt h9 (by decide)⟩
    · exact ⟨h0, lt_of_le_of_lt h9 (by decide)⟩
  exact congrArg Subtype.val (Integral.narrow_val (⟨x, hx⟩ : T.Val))

/-- **A set of integers is read back** just if it is not printed as characters, or empty. -/
theorem split2ints_toStr_iff (T : Integral) (S : Finset T.Val) {d : Char} (hd : ¬ InNumbers d) :
    split2ints T (intsToStr T S d) d = .ok S ↔ T.isChar = false ∨ S = ∅ := by
  constructor
  · intro h
    by_contra hneg
    obtain ⟨hT, hS⟩ := not_or.mp hneg
    have hT : T.isChar = true := Bool.eq_true_of_not_eq_false hT
    have hshift : ∀ v ∈ S, 0 ≤ v.val ∧ v.val ≤ 9 ∧ ∃ u ∈ S, u.val = v.val + 48 := by
      intro v hv
      rw [split2ints] at h
      split at h
      · cases h
        exact absurd rfl hS
      · rcases mem_of_insertAll h hv with hv | ⟨s, hs, x, hsto, rfl⟩
        · exact absurd hv (Finset.notMem_empty v)
        · obtain ⟨u, hu, rfl⟩ := mem_split2set_chars hT ((Finset.mem_sort _).mp hs)
          obtain ⟨h0, h9, hux⟩ := sto_char hT hsto
          rw [narrow_digit hT h0 h9]
          exact ⟨h0, h9, u, hu, hux⟩
    obtain ⟨v, hv⟩ := Finset.nonempty_of_ne_empty hS
    obtain ⟨h0, -, u, hu, huv⟩ := hshift v hv
    have h9 := (hshift u hu).2.1
    omega
  · rintro (hT | rfl)
    · exact split2ints_of_numbers hT S hd
    · rw [split2ints, intsToStr_empty]
      rfl

/-- A set of type `int32_t`. -/
theorem split2ints_toStr_iff_minus :
    split2ints .i32 (intsToStr .i32 {⟨-1, by decide⟩} ',') ',' = .ok {⟨-1, by decide⟩} :=
  (split2ints_toStr_iff .i32 {⟨-1, by decide⟩} (d := ',') (by decide)).mpr (Or.inl rfl)

/-- A set of type `uint8_t`: what is printed is the character `'5'`. -/
theorem not_split2ints_toStr :
    split2ints .u8 (intsToStr .u8 {⟨53, by decide⟩} ',') ',' ≠ .ok {⟨53, by decide⟩} := by
  have hstr : intsToStr .u8 {⟨53, by decide⟩} ',' = ['5'] := by
    rw [intsToStr, toStr, Finset.sort_singleton]
    rfl
  have hset : split2set ['5'] ',' = {['5']} := by
    rw [split2set_eq]
    decide
  have hread : insertAll .u8 [['5']] ∅ = .ok {⟨5, by decide⟩} := by
    decide
  rw [hstr, split2ints, hset, if_neg (by decide), Finset.sort_singleton, hread]
  decide

end SetOps

end LeonUtils
