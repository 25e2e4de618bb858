import LeonUtils.Chrono.Parse
import LeonUtils.Chrono.Timespec
import LeonUtils.Text.Number

/-!
# The arguments of `show-stamp`

`show-stamp` prints the point in time that so many nanoseconds since 1970 are. `ParseArgs` asks
`is_number` whether an argument is a number and has `parse_int` convert it. The two disagree about
blanks at the beginning, which the first allows and the second stops at, and `parse_int` does not
ask whether a number fits into an `int64_t`. Signed overflow is undefined, so that there is no
outcome then.

## Main definitions

* `Arg` — an argument: a string without NUL
* `parseArgs` — the function, from the arguments to what is stored or said

## Main results

* `parseArgs_stored_iff` — an argument is either rejected or stored as the number it denotes, just
  if a number is less than `2 ^ 63`, and zero if blanks are before it
-/

namespace LeonUtils

namespace ShowStamp

open Text Chrono

/-! ## The functions -/

/-- An argument of a command line. -/
structure Arg where
  chars : Str
  no_nul : '\x00' ∉ chars
  length_lt : chars.length < 2 ^ 64
deriving DecidableEq

/-- The globals `s_ns_since_epoch` and `s_has_input`. -/
structure State where
  nsSinceEpoch : ℤ
  hasInput : Bool
deriving DecidableEq

/-- How a call can end. -/
inductive Outcome
  /-- The call returns. -/
  | done (st : State)
  /-- `Help`, which ends the process. -/
  | help (hint : String)
  /-- An overflow, or a character behind the NUL. -/
  | undefined
deriving DecidableEq

/-- `is_number`, for a `std::string`. -/
def isNumberStr (s : Str) : Bool :=
  ((isNumber (s.getD · '\x00') (s.length + 1) (BitVec.ofNat 64 s.length)).map Scan.answer).getD
    false

/-- `parse_int`, into an `int64_t`, with `n` characters to go. -/
def parseInt64From : ℕ → ℤ → CharCp → Option ℤ
  | 0, result, _ => some result
  | n + 1, result, s => do
    let c ← s.deref
    if !c.isDigit then some result
    else do
      let shifted ← int64? (result * 10)
      let result ← int64? (shifted + digit c)
      parseInt64From n result s.next

/-- One run through the loop of `ParseArgs`. -/
def parseArg (argv : Arg) (st : State) : Outcome :=
  if argv.chars = "-h".toList ∨ argv.chars = "--help".toList then .help ""
  else if isNumberStr argv.chars then
    match parseInt64From argv.chars.length 0 (some argv.chars) with
    | some ns => .done { st with nsSinceEpoch := ns, hasInput := true }
    | none => .undefined
  else .help ("\"" ++ String.ofList argv.chars ++ "\"不是一个正整数!")

/-- The loop of `ParseArgs`. -/
def parseLoop : List Arg → State → Outcome
  | [], st => .done st
  | argv :: args, st =>
    match parseArg argv st with
    | .done st => parseLoop args st
    | outcome => outcome

/-- `ParseArgs`, for the arguments behind the name of the program. -/
def parseArgs (args : List Arg) : Outcome :=
  match parseLoop args ⟨0, false⟩ with
  | .done st =>
    if !st.hasInput then .help "必须要给一个数代表从UTC[1970-01-01 00:00:00]以来的纳秒数!"
    else .done st
  | outcome => outcome

/-! ## What is accepted -/

/-- The bytes of a C string are the string, if it has no NUL. -/
theorem text_getD (pre s : Str) (h : '\x00' ∉ s) :
    text ((pre ++ s).getD · '\x00') pre.length s.length = s := by
  induction s generalizing pre with
  | nil => rfl
  | cons c s ih =>
    obtain ⟨hc, hs⟩ := not_or.mp (mt List.mem_cons.mpr h)
    have hbyte : (pre ++ c :: s).getD pre.length '\x00' = c := by
      rw [List.getD_eq_getElem?_getD, List.getElem?_append_right le_rfl, Nat.sub_self]
      rfl
    have hrest := ih (pre ++ [c]) hs
    rw [List.length_append, List.append_assoc, List.singleton_append] at hrest
    rw [List.length_cons, text, hbyte, if_neg (Ne.symm hc)]
    exact congrArg (c :: ·) hrest

/-- `is_number` tells the arguments that are numbers. -/
theorem isNumberStr_iff (a : Arg) : isNumberStr a.chars = true ↔ Number a.chars := by
  have hlen : (BitVec.ofNat 64 a.chars.length).toNat = a.chars.length :=
    Nat.mod_eq_of_lt a.length_lt
  obtain ⟨answer, seen, hr, -, hanswer⟩ := leading_tells (a.chars.getD · '\x00') 0
    (s := BitVec.ofNat 64 a.chars.length) (show _ < a.chars.length + 1 by omega)
  have htext : text (a.chars.getD · '\x00') 0 a.chars.length = a.chars :=
    text_getD [] a.chars a.no_nul
  rw [hlen, htext] at hanswer
  rw [isNumberStr, isNumber, hr]
  exact hanswer

/-! ## What is stored -/

/-- The number that the digits of an argument denote. -/
def Arg.number (a : Arg) : ℕ := Nat.ofDigitChars 10 (a.chars.filter Char.isDigit) 0

/-- If the argument is a number, it is one that can be stored: it is less than `2 ^ 63`, and zero if
blanks are before it. -/
def Arg.Storable (a : Arg) : Prop :=
  Number a.chars → a.number < 2 ^ 63 ∧ (a.chars.head? = some ' ' → a.number = 0)

/-- `parse_int` reads digits, as long as they fit. -/
theorem parseInt64From_digits {ds : Str} (h : Digits ds) (k r : ℕ) (rest : Str) (hr : r < 2 ^ 63) :
    parseInt64From (ds.length + k) r (some (ds ++ rest)) =
      if Nat.ofDigitChars 10 ds r < 2 ^ 63 then
        parseInt64From k (Nat.ofDigitChars 10 ds r : ℕ) (some rest)
      else none := by
  induction ds generalizing r with
  | nil =>
    rw [Nat.ofDigitChars_nil, if_pos hr, List.length_nil, Nat.zero_add, List.nil_append]
  | cons c ds ih =>
    obtain ⟨hc, hds⟩ := digits_cons.mp h
    have hstep := digit_step hc r
    have hdigit : (0 : ℤ) ≤ digit c := by
      rw [digit_eq hc]
      omega
    have hrun : parseInt64From ((c :: ds).length + k) r (some (c :: ds ++ rest)) =
        (int64? (r * 10)).bind fun shifted => (int64? (shifted + digit c)).bind fun result =>
          parseInt64From (ds.length + k) result (some (ds ++ rest)) := by
      rw [List.length_cons, Nat.add_right_comm, parseInt64From]
      simp only [List.cons_append, CharCp.deref, CharCp.next, hc, Option.bind_eq_bind,
        Option.bind_some, Bool.not_true, Bool.false_eq_true, if_false]
    rw [hrun, Nat.ofDigitChars_cons]
    generalize hnext : 10 * r + (c.toNat - '0'.toNat) = next at hstep ⊢
    by_cases hlt : next < 2 ^ 63
    · rw [int64?_eq (by omega) (by norm_num; omega), Option.bind_some, hstep,
        int64?_eq (by omega) (by norm_num; omega), Option.bind_some, ih hds next hlt]
    · -- the number only grows, so that it cannot fit any more
      have hgrow : next ≤ Nat.ofDigitChars 10 ds next := by
        rw [Nat.ofDigitChars_eq_ofDigitChars_zero]
        exact (Nat.le_mul_of_pos_left _ (by positivity)).trans (Nat.le_add_right _ _)
      rw [if_neg (by omega)]
      have hnone : int64? next = none := if_neg fun hrange => hlt (by exact_mod_cast hrange.2)
      by_cases hshift : Int64Range (r * 10)
      · rw [int64?, if_pos hshift, Option.bind_some, hstep, hnone, Option.bind_none]
      · rw [int64?, if_neg hshift, Option.bind_none]

/-- What is no digit ends the number. -/
theorem parseInt64From_blanks {bs : Str} (h : Blanks bs) (r : ℤ) :
    parseInt64From bs.length r (some bs) = some r := by
  cases bs with
  | nil => rfl
  | cons c bs =>
    obtain rfl := (blanks_cons.mp h).1
    rfl

theorem filter_blanks {bs : Str} (h : Blanks bs) : bs.filter Char.isDigit = [] := by
  rw [List.filter_eq_nil_iff]
  intro c hc
  rw [h c hc]
  decide

/-- What becomes of a number: blanks before it are converted to zero. -/
theorem parseInt64From_number {a : Arg} (h : Number a.chars) :
    parseInt64From a.chars.length 0 (some a.chars) =
      if a.chars.head? = some ' ' then some 0
      else if a.number < 2 ^ 63 then some (a.number : ℤ) else none := by
  obtain ⟨as, ds, bs, hl, has, ⟨hds, hne⟩, hbs⟩ := h
  cases as with
  | cons c as =>
    obtain rfl := (blanks_cons.mp has).1
    rw [hl]
    rfl
  | nil =>
    rw [List.nil_append] at hl
    have hnumber : a.number = Nat.ofDigitChars 10 ds 0 := by
      rw [Arg.number, hl, List.filter_append, filter_blanks hbs, List.append_nil,
        List.filter_eq_self.mpr hds]
    have hhead : ¬ (ds ++ bs).head? = some ' ' := by
      cases ds with
      | nil => exact absurd rfl hne
      | cons d ds =>
        intro hd
        obtain rfl := Option.some_inj.mp hd
        cases (digits_cons.mp hds).1
    have hrun := parseInt64From_digits hds bs.length 0 bs (by norm_num)
    rw [hl, if_neg hhead, List.length_append, hnumber]
    rw [parseInt64From_blanks hbs] at hrun
    exact hrun

theorem not_number_minus (l : Str) : ¬ Number ('-' :: l) := by
  intro h
  rcases number_cons.mp h with ⟨hc, -⟩ | ⟨hc, -⟩ <;> cases hc

/-- An argument that is no number is rejected. -/
theorem parseArg_of_not_number {a : Arg} (h : ¬ Number a.chars) (st : State) :
    ∃ hint, parseArg a st = .help hint := by
  rw [parseArg]
  split
  · exact ⟨_, rfl⟩
  · rw [if_neg (mt (isNumberStr_iff a).mp h)]
    exact ⟨_, rfl⟩

/-- An argument that is a number is converted. -/
theorem parseArg_of_number {a : Arg} (h : Number a.chars) (st : State) :
    parseArg a st =
      if a.chars.head? = some ' ' then .done ⟨0, true⟩
      else if a.number < 2 ^ 63 then .done ⟨a.number, true⟩ else .undefined := by
  have hdash : ¬ (a.chars = "-h".toList ∨ a.chars = "--help".toList) := by
    rintro (hc | hc) <;> rw [hc] at h <;> exact not_number_minus _ h
  rw [parseArg, if_neg hdash, if_pos ((isNumberStr_iff a).mpr h), parseInt64From_number h]
  by_cases hblank : a.chars.head? = some ' '
  · rw [if_pos hblank, if_pos hblank]
  · by_cases hlt : a.number < 2 ^ 63
    · rw [if_neg hblank, if_neg hblank, if_pos hlt, if_pos hlt]
    · rw [if_neg hblank, if_neg hblank, if_neg hlt, if_neg hlt]

/-- An argument is stored as the number it denotes, or rejected, just if it can be stored. -/
theorem parseArg_stored_iff (a : Arg) (st : State) :
    (parseArg a st = .done ⟨a.number, true⟩ ∨ ∃ hint, parseArg a st = .help hint) ↔
      a.Storable := by
  by_cases hnumber : Number a.chars
  · rw [parseArg_of_number hnumber, Arg.Storable]
    simp only [hnumber, true_imp_iff]
    by_cases hblank : a.chars.head? = some ' '
    · simp only [hblank, if_true, true_imp_iff, reduceCtorEq, exists_false, or_false,
        Outcome.done.injEq, State.mk.injEq, and_true]
      omega
    · by_cases hlt : a.number < 2 ^ 63
      · rw [if_neg hblank, if_pos hlt]
        exact iff_of_true (Or.inl rfl) ⟨hlt, fun h => absurd h hblank⟩
      · rw [if_neg hblank, if_neg hlt]
        refine iff_of_false ?_ fun h => hlt h.1
        rintro (h | ⟨hint, h⟩) <;> cases h
  · exact iff_of_true (Or.inr (parseArg_of_not_number hnumber st)) fun h => absurd h hnumber

theorem parseLoop_append {before : List Arg} {st st' : State}
    (h : parseLoop before st = .done st') (args : List Arg) :
    parseLoop (before ++ args) st = parseLoop args st' := by
  induction before generalizing st with
  | nil =>
    cases h
    rfl
  | cons a before ih =>
    rw [List.cons_append, parseLoop]
    rw [parseLoop] at h
    split at h
    · exact ih h
    · rename_i hdone
      exact absurd h (hdone st')

/-- An argument that is not rejected is input. -/
theorem hasInput_of_parseArg {a : Arg} {st st' : State} (h : parseArg a st = .done st') :
    st'.hasInput = true := by
  by_cases hnumber : Number a.chars
  · rw [parseArg_of_number hnumber] at h
    split at h
    · cases h
      rfl
    · split at h <;> cases h
      rfl
  · obtain ⟨hint, hhint⟩ := parseArg_of_not_number hnumber st
    rw [hhint] at h
    cases h

/-- What the last argument does is what the call does. -/
theorem parseArgs_append {before : List Arg} {st : State}
    (h : parseLoop before ⟨0, false⟩ = .done st) (a : Arg) :
    parseArgs (before ++ [a]) = parseArg a st := by
  rw [parseArgs, parseLoop_append h, parseLoop]
  cases hrun : parseArg a st with
  | done st' => simp only [parseLoop, hasInput_of_parseArg hrun, Bool.not_true, Bool.false_eq_true,
      if_false]
  | help hint => rfl
  | undefined => rfl

/-- **What is stored**: whatever arguments went before, an argument is stored as the number it
denotes or rejected, just if, in case it is a number, it is less than `2 ^ 63`, and zero if blanks
are before it. -/
theorem parseArgs_stored_iff {before : List Arg} {st : State}
    (h : parseLoop before ⟨0, false⟩ = .done st) (a : Arg) :
    (parseArgs (before ++ [a]) = .done ⟨a.number, true⟩ ∨
      ∃ hint, parseArgs (before ++ [a]) = .help hint) ↔ a.Storable := by
  rw [parseArgs_append h a]
  exact parseArg_stored_iff a st

/-- One number after another. -/
theorem parseArgs_stored_iff_second :
    parseLoop [⟨"8 ".toList, by decide, by decide⟩] ⟨0, false⟩ = .done ⟨8, true⟩ ∧
      ((parseArgs [⟨"8 ".toList, by decide, by decide⟩, ⟨"15".toList, by decide, by decide⟩] =
          .done ⟨15, true⟩ ∨ ∃ hint, parseArgs [⟨"8 ".toList, by decide, by decide⟩,
            ⟨"15".toList, by decide, by decide⟩] = .help hint) ↔
        Arg.Storable ⟨"15".toList, by decide, by decide⟩) := by
  have hrun : parseLoop [⟨"8 ".toList, by decide, by decide⟩] ⟨0, false⟩ = .done ⟨8, true⟩ := by
    decide
  exact ⟨hrun, parseArgs_stored_iff hrun ⟨"15".toList, by decide, by decide⟩⟩

/-- A blank before a number. -/
theorem not_parseArgs_stored :
    ¬ (parseArgs [⟨" 5".toList, by decide, by decide⟩] =
        .done ⟨Arg.number ⟨" 5".toList, by decide, by decide⟩, true⟩ ∨
      ∃ hint, parseArgs [⟨" 5".toList, by decide, by decide⟩] = .help hint) := by
  have hrun : parseArgs [⟨" 5".toList, by decide, by decide⟩] = .done ⟨0, true⟩ := by decide
  rw [hrun]
  rintro (h | ⟨hint, h⟩)
  · exact absurd h (by decide)
  · cases h

end ShowStamp

end LeonUtils
