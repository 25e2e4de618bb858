import LeonUtils.Text.Format

/-!
# Starting a program with options

`forkExec` of `ProcCtrlImp_t`. The options are a map from names to values; a name with an empty
value is a flag. The child gets them in an array of 100 pointers, which is filled with a running
index. Before a process is forked the number of names is compared with the size of the array, as if
each of them had a value.

What is followed here are the calls to the operating system and the pointers that are written. A
write outside of the array has no outcome that the language defines.

## Main definitions

* `CliArgs` — the options
* `Argv` — the array, and the running index
* `forkExec` — the function

## Main results

* `fillArgs_eq` — what the array holds in the end
* `forkExec_spec` — all options arrive, or nothing is forked
-/

namespace LeonUtils

namespace ProcCtrl

/-- `max_size` of the map: each entry takes 96 bytes of memory. -/
def maxSize : ℕ := (2 ^ 63 - 1) / 96

/-- `CliArgs_t`: names with values, in the order of the names. -/
structure CliArgs where
  entries : List (Str × Str)
  sorted : entries.Pairwise fun a b => a.1 < b.1
  bounded : entries.length ≤ maxSize

/-- How a call can fail. -/
inductive Exn
  | outOfRange (what : String)
deriving DecidableEq

/-- A pointer of the array. -/
inductive Slot
  | unset
  | null
  | str (s : Str)
deriving DecidableEq

/-- `c_args` and `i`. -/
structure Argv where
  slots : Vector Slot 100
  i : ℕ

/-- A call to the operating system. -/
inductive Call
  | fork
  | execv (path : Str) (argv : Vector Slot 100)
  | exit (code : ℤ)

/-- How a call of `forkExec` ends. -/
inductive Outcome
  | returns (child : ℤ)
  | throws (e : Exn)
  /-- The process runs another program, or has ended. -/
  | gone
  | undefined

/-! ## The code -/

/-- `c_args[i++] = x`. -/
def Argv.put (a : Argv) (x : Slot) : Option Argv :=
  if h : a.i < 100 then some ⟨a.slots.set a.i x, a.i + 1⟩ else none

/-- One option: `--opt-name opt-value`, or a flag. -/
def Argv.putOpt (a : Argv) (kv : Str × Str) : Option Argv :=
  if kv.2 = [] then a.put (.str kv.1)
  else a.put (.str kv.1) >>= fun a => a.put (.str kv.2)

/-- The array before anything has been written. -/
def Argv.fresh : Argv := ⟨Vector.replicate 100 .unset, 0⟩

/-- The array for `execv`. The index is not read again after the null pointer. -/
def fillArgs (bin : Str) (args : CliArgs) : Option (Vector Slot 100) := do
  let a ← Argv.fresh.put (.str bin)
  let a ← args.entries.foldlM Argv.putOpt a
  let a ← a.put .null
  return a.slots

/-- The options are rejected. -/
def CliArgs.TooMany (args : CliArgs) : Prop :=
  (args.entries.length + 1) % 2 ^ 64 * 2 % 2 ^ 64 > 100

instance (args : CliArgs) : Decidable args.TooMany := inferInstanceAs (Decidable (_ > _))

/-- `forkExec`, with the result of `fork` in the process that goes on, and whether `execv`
succeeds. -/
def forkExec (child : ℤ) (execv : Bool) (bin : Str) (args : CliArgs) : List Call × Outcome :=
  if args.TooMany then
    ([], .throws (.outOfRange
      "ProcCtrl::forkExec内部当前采用定长数组[100]保存命令行参数, 已超限制!"))
  else if child < 0 then ([.fork], .throws (.outOfRange "ProcCtrl::fork失败.无法继续!"))
  else if child ≠ 0 then ([.fork], .returns child)
  else match fillArgs bin args with
    | none => ([.fork], .undefined)
    | some argv =>
      if execv then ([.fork, .execv bin argv], .gone)
      else ([.fork, .execv bin argv, .exit 1], .gone)

/-! ## The array -/

/-- What is passed for an option. -/
def optWords (kv : Str × Str) : List Str := if kv.2 = [] then [kv.1] else [kv.1, kv.2]

/-- What is passed to the program: its path, and the options in the order of their names. -/
def words (bin : Str) (args : CliArgs) : List Str := bin :: args.entries.flatMap optWords

/-- The array holds these pointers, and is not written behind them. -/
structure Argv.Holds (a : Argv) (xs : List Slot) : Prop where
  i : a.i = xs.length
  slots : a.slots.toList = xs ++ List.replicate (100 - xs.length) .unset

theorem Argv.holds_fresh : Argv.fresh.Holds [] := ⟨rfl, by decide⟩

section Holds

variable {a : Argv} {xs : List Slot}

theorem Argv.Holds.put (h : a.Holds xs) (hlt : xs.length < 100) (x : Slot) :
    ∃ a', a.put x = some a' ∧ a'.Holds (xs ++ [x]) := by
  have hi : a.i < 100 := h.i ▸ hlt
  refine ⟨_, dif_pos hi, ?_, ?_⟩
  · rw [List.length_append, List.length_singleton, ← h.i]
  · have hrep : List.replicate (100 - xs.length) Slot.unset =
        .unset :: List.replicate (100 - (xs ++ [x]).length) .unset := by
      rw [List.length_append, List.length_singleton, ← List.replicate_succ]
      congr 1
      omega
    rw [Vector.toList_set, h.slots, hrep, h.i, List.set_append_right _ _ le_rfl, Nat.sub_self,
      List.set_cons_zero, List.append_assoc, List.singleton_append]

/-- An option takes one place or two. -/
theorem Argv.Holds.putOpt (h : a.Holds xs) (hle : xs.length + 2 ≤ 100) (kv : Str × Str) :
    ∃ a', a.putOpt kv = some a' ∧ a'.Holds (xs ++ (optWords kv).map .str) := by
  obtain ⟨a₁, hput, h₁⟩ := h.put (by omega) (.str kv.1)
  rw [Argv.putOpt, optWords]
  split
  · exact ⟨a₁, hput, h₁⟩
  · have hlen : (xs ++ [Slot.str kv.1]).length < 100 := by
      rw [List.length_append, List.length_singleton]
      omega
    obtain ⟨a₂, hput', h₂⟩ := h₁.put hlen (.str kv.2)
    refine ⟨a₂, ?_, ?_⟩
    · rw [hput]
      exact hput'
    · rw [List.append_assoc] at h₂
      exact h₂

theorem length_optWords_le (kv : Str × Str) : (optWords kv).length ≤ 2 := by
  rw [optWords]
  split
  · exact Nat.le_succ 1
  · exact le_rfl

theorem length_flatMap_optWords_le (es : List (Str × Str)) :
    (es.flatMap optWords).length ≤ 2 * es.length := by
  induction es with
  | nil => exact le_rfl
  | cons kv es ih =>
    have := length_optWords_le kv
    rw [List.flatMap_cons, List.length_append, List.length_cons]
    omega

/-- The loop over the options. -/
theorem Argv.Holds.foldlM (h : a.Holds xs) (es : List (Str × Str))
    (hle : xs.length + 2 * es.length ≤ 100) :
    ∃ a', es.foldlM Argv.putOpt a = some a' ∧
      a'.Holds (xs ++ (es.flatMap optWords).map .str) := by
  induction es generalizing a xs with
  | nil => exact ⟨a, rfl, by simpa using h⟩
  | cons kv es ih =>
    rw [List.length_cons] at hle
    obtain ⟨a₁, hput, h₁⟩ := h.putOpt (by omega) kv
    have hlen := length_optWords_le kv
    obtain ⟨a₂, hfold, h₂⟩ := ih h₁ (by
      rw [List.length_append, List.length_map]
      omega)
    refine ⟨a₂, ?_, ?_⟩
    · rw [List.foldlM_cons, hput]
      exact hfold
    · rw [List.flatMap_cons, List.map_append, ← List.append_assoc]
      exact h₂

end Holds

/-- The check is made without overflow. -/
theorem CliArgs.tooMany_iff (args : CliArgs) : args.TooMany ↔ 49 < args.entries.length := by
  have hle : args.entries.length ≤ (2 ^ 63 - 1) / 96 := args.bounded
  rw [CliArgs.TooMany]
  omega

/-- **What the array holds**: the words, and a null pointer behind them. -/
theorem fillArgs_eq (bin : Str) {args : CliArgs} (h : ¬ args.TooMany) :
    ∃ argv, fillArgs bin args = some argv ∧
      argv.toList = (words bin args).map .str ++
        .null :: List.replicate (99 - (words bin args).length) .unset := by
  rw [args.tooMany_iff] at h
  have hlen := length_flatMap_optWords_le args.entries
  obtain ⟨a₁, hbin, h₁⟩ := Argv.holds_fresh.put (by decide) (.str bin)
  obtain ⟨a₂, hopts, h₂⟩ := h₁.foldlM args.entries (by
    rw [List.length_append, List.length_nil, List.length_singleton]
    omega)
  obtain ⟨a₃, hnull, h₃⟩ := h₂.put (by
    simp only [List.length_append, List.length_nil, List.length_singleton, List.length_map]
    omega) .null
  refine ⟨a₃.slots, ?_, ?_⟩
  · rw [fillArgs, hbin]
    simp only [Option.bind_eq_bind, Option.bind_some, hopts, hnull, pure]
  · rw [h₃.slots]
    simp only [words, List.map_cons, List.nil_append, List.cons_append, List.append_assoc,
      List.length_cons, List.length_append, List.length_map, List.length_nil]
    congr 4
    omega

/-- **All options arrive, or nothing is forked.** -/
theorem forkExec_spec (bin : Str) (args : CliArgs) :
    (args.TooMany → ∀ child execv, (forkExec child execv bin args).1 = [] ∧
      ∃ what, (forkExec child execv bin args).2 = .throws (.outOfRange what)) ∧
    (¬ args.TooMany → ∃ argv, fillArgs bin args = some argv ∧
      argv.toList = (words bin args).map .str ++
        .null :: List.replicate (99 - (words bin args).length) .unset ∧
      ∀ execv, ∃ calls,
        forkExec 0 execv bin args = (.fork :: .execv bin argv :: calls, .gone)) := by
  refine ⟨fun h child execv => ?_, fun h => ?_⟩
  · rw [forkExec, if_pos h]
    exact ⟨rfl, _, rfl⟩
  · obtain ⟨argv, hfill, hlist⟩ := fillArgs_eq bin h
    refine ⟨argv, hfill, hlist, fun execv => ?_⟩
    rw [forkExec, if_neg h, if_neg (by decide), if_neg (by decide), hfill]
    cases execv
    · exact ⟨_, rfl⟩
    · exact ⟨_, rfl⟩

/-- A flag, and an option with a value. -/
def twoOptions : CliArgs where
  entries := [(['-', 'p'], ['8', '0']), (['-', 'v'], [])]
  sorted := by decide
  bounded := by decide

theorem forkExec_spec_twoOptions :
    ∃ argv, fillArgs ['s', 'h'] twoOptions = some argv ∧
      argv.toList = (words ['s', 'h'] twoOptions).map .str ++
        .null :: List.replicate (99 - (words ['s', 'h'] twoOptions).length) .unset ∧
      ∀ execv, ∃ calls, forkExec 0 execv ['s', 'h'] twoOptions =
        (.fork :: .execv ['s', 'h'] argv :: calls, .gone) :=
  (forkExec_spec ['s', 'h'] twoOptions).2 (by decide)

end ProcCtrl

end LeonUtils
