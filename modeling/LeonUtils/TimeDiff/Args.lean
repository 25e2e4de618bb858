import LeonUtils.SetOps.Integral

/-!
# The arguments of `time-diff`

Every option takes the argument behind it for its value, whatever that is. The first argument that
cannot be taken so ends the process with a hint; if there is none, every setting is that of the last
option for it.

## Main definitions

* `Config` — the globals that options set
* `optOf`, `Opt.set` — the options
* `parseArgs` — `ParseArgs`
* `spell`, `lastOf` — pairs of an option and a value, and what the last of them say

## Main results

* `parseLoop_eq_done_iff`, `parseLoop_eq_help_iff` — how the loop ends
* `parseArgs_iff` — what is accepted, what it sets, and what is said otherwise
-/

namespace LeonUtils

namespace TimeDiff

open SetOps

/-! ## The options -/

/-- `g_sevr_addr`, `g_listen_on`, `g_as_server`, `g_for_secs` and `g_interval`, the last two in
nanoseconds. -/
structure Config where
  sevrAddr : Str := "127.0.0.1".toList
  listenOn : ℤ := 7780
  asServer : Bool := false
  forSecs : ℤ := 10 * 1000000000
  interval : ℤ := 10 * 1000000
deriving DecidableEq

/-- `atoi`. It reads a `long`, and what it gives is an `int`. -/
def atoi (s : Str) : ℤ :=
  match readNumber s with
  | none => 0
  | some (true, n) => (Integral.narrow .i32 (max (-n) (-2 ^ 63))).val
  | some (false, n) => (Integral.narrow .i32 (min n (2 ^ 63 - 1))).val

inductive Opt
  | port
  | listen
  | client
  | forSeconds
  | intervalMs
deriving DecidableEq

/-- The option that an argument names. -/
def optOf (argv : Str) : Option Opt :=
  if argv = "-p".toList ∨ argv = "--port".toList then some .port
  else if argv = "-l".toList ∨ argv = "--listen".toList then some .listen
  else if argv = "-c".toList ∨ argv = "--client".toList then some .client
  else if argv = "-f".toList ∨ argv = "--for-seconds".toList then some .forSeconds
  else if argv = "-i".toList ∨ argv = "--interval-ms".toList then some .intervalMs
  else none

/-- What an option does with its value. -/
def Opt.set (value : Str) (c : Config) : Opt → Config
  | port => { c with listenOn := atoi value }
  | listen => { c with asServer := true, sevrAddr := value }
  | client => { c with asServer := false, sevrAddr := value }
  | forSeconds => { c with forSecs := atoi value * 1000000000 }
  | intervalMs => { c with interval := atoi value * 1000000 }

/-! ## The function -/

/-- How `ParseArgs` ends: it returns, or `Help` ends the process. -/
inductive Outcome
  | done (c : Config)
  | help (hint : Str)
deriving DecidableEq

def unknownHint (argv : Str) : Str := '"' :: argv ++ "\"是无法识别的选项,无法继续!".toList

def valueHint (argv : Str) : Str := '"' :: argv ++ "\"选项后面需要选项值,无法继续!".toList

/-- The loop of `ParseArgs`. -/
def parseLoop (c : Config) : List Str → Outcome
  | [] => .done c
  | argv :: args =>
    if argv = "-h".toList ∨ argv = "--help".toList then .help []
    else
      match optOf argv with
      | none => .help (unknownHint argv)
      | some opt =>
        match args with
        | [] => .help (valueHint argv)
        | value :: args => parseLoop (opt.set value c) args

/-- `ParseArgs`, for the arguments behind the name of the program. -/
def parseArgs (args : List Str) : Outcome := parseLoop {} args

/-! ## Options and values -/

/-- An option as it was named, and its value. -/
abbrev Setting := Str × Str

/-- The arguments that settings are given by. -/
def spell (ss : List Setting) : List Str := ss.flatMap fun s => [s.1, s.2]

/-- What is set. -/
def Config.take (c : Config) (s : Setting) : Config :=
  match optOf s.1 with
  | none => c
  | some opt => opt.set s.2 c

/-- The first argument that is not taken, those behind it, and the hint. -/
inductive Stops : List Str → Str → Prop
  | help {argv : Str} {args : List Str} (h : argv = "-h".toList ∨ argv = "--help".toList) :
      Stops (argv :: args) []
  | unknown {argv : Str} {args : List Str} (hhelp : ¬ (argv = "-h".toList ∨ argv = "--help".toList))
      (h : optOf argv = none) : Stops (argv :: args) (unknownHint argv)
  | value {argv : Str} (h : optOf argv ≠ none) : Stops [argv] (valueHint argv)

/-- An option is none that asks for help. -/
theorem not_help_of_optOf {argv : Str} (h : optOf argv ≠ none) :
    ¬ (argv = "-h".toList ∨ argv = "--help".toList) := by
  rintro (rfl | rfl)
  · exact h (by decide)
  · exact h (by decide)

theorem parseLoop_cons {argv value : Str} {opt : Opt} (h : optOf argv = some opt) (c : Config)
    (args : List Str) : parseLoop c (argv :: value :: args) = parseLoop (opt.set value c) args := by
  have hhelp := not_help_of_optOf (h ▸ Option.some_ne_none opt)
  simp only [parseLoop, if_neg hhelp, h]

/-- **The loop** takes pairs of an option and a value. -/
theorem parseLoop_spell {ss : List Setting} (hss : ∀ s ∈ ss, optOf s.1 ≠ none) (c : Config)
    (args : List Str) :
    parseLoop c (spell ss ++ args) = parseLoop (ss.foldl Config.take c) args := by
  induction ss generalizing c with
  | nil => rfl
  | cons s ss ih =>
    obtain ⟨hs, hss⟩ := List.forall_mem_cons.mp hss
    obtain ⟨opt, hopt⟩ := Option.ne_none_iff_exists'.mp hs
    have htake : c.take s = opt.set s.2 c := by rw [Config.take, hopt]
    rw [List.foldl_cons, htake]
    exact (parseLoop_cons hopt c (spell ss ++ args)).trans (ih hss _)

/-- **Any arguments are settings**, followed by nothing or by an argument that is not taken. -/
theorem spell_or_stops : (args : List Str) →
    ∃ (ss : List Setting) (rest : List Str), (∀ s ∈ ss, optOf s.1 ≠ none) ∧
      args = spell ss ++ rest ∧ (rest = [] ∨ ∃ hint, Stops rest hint)
  | [] => ⟨[], [], by simp, rfl, Or.inl rfl⟩
  | argv :: args => by
    by_cases hhelp : argv = "-h".toList ∨ argv = "--help".toList
    · exact ⟨[], argv :: args, by simp, rfl, Or.inr ⟨_, .help hhelp⟩⟩
    · by_cases hopt : optOf argv = none
      · exact ⟨[], argv :: args, by simp, rfl, Or.inr ⟨_, .unknown hhelp hopt⟩⟩
      · cases args with
        | nil => exact ⟨[], [argv], by simp, rfl, Or.inr ⟨_, .value hopt⟩⟩
        | cons value args =>
          obtain ⟨ss, rest, hss, rfl, hrest⟩ := spell_or_stops args
          refine ⟨(argv, value) :: ss, rest, ?_, rfl, hrest⟩
          exact List.forall_mem_cons.mpr ⟨hopt, hss⟩

/-- The first argument that is not taken ends the loop. -/
theorem parseLoop_of_stops {args : List Str} {hint : Str} (h : Stops args hint) (c : Config) :
    parseLoop c args = .help hint := by
  cases h with
  | help h => simp only [parseLoop, if_pos h]
  | unknown hhelp h => simp only [parseLoop, if_neg hhelp, h]
  | value h =>
    obtain ⟨opt, hopt⟩ := Option.ne_none_iff_exists'.mp h
    simp only [parseLoop, if_neg (not_help_of_optOf h), hopt]

/-- The loop runs to the end just for settings. -/
theorem parseLoop_eq_done_iff {c c' : Config} {args : List Str} :
    parseLoop c args = .done c' ↔ ∃ ss : List Setting, (∀ s ∈ ss, optOf s.1 ≠ none) ∧
      args = spell ss ∧ c' = ss.foldl Config.take c := by
  constructor
  · intro h
    obtain ⟨ss, rest, hss, rfl, rfl | ⟨hint, hstops⟩⟩ := spell_or_stops args
    · rw [parseLoop_spell hss, parseLoop] at h
      exact ⟨ss, hss, List.append_nil _, (Outcome.done.inj h).symm⟩
    · rw [parseLoop_spell hss, parseLoop_of_stops hstops] at h
      cases h
  · rintro ⟨ss, hss, rfl, rfl⟩
    rw [← List.append_nil (spell ss), parseLoop_spell hss, parseLoop]

/-- It ends with a hint just for settings and an argument that is not taken. -/
theorem parseLoop_eq_help_iff {c : Config} {args : List Str} {hint : Str} :
    parseLoop c args = .help hint ↔ ∃ (ss : List Setting) (rest : List Str),
      (∀ s ∈ ss, optOf s.1 ≠ none) ∧ args = spell ss ++ rest ∧ Stops rest hint := by
  constructor
  · intro h
    obtain ⟨ss, rest, hss, rfl, rfl | ⟨hint', hstops⟩⟩ := spell_or_stops args
    · rw [parseLoop_spell hss, parseLoop] at h
      cases h
    · rw [parseLoop_spell hss, parseLoop_of_stops hstops] at h
      obtain rfl := Outcome.help.inj h
      exact ⟨ss, rest, hss, rfl, hstops⟩
  · rintro ⟨ss, rest, hss, rfl, hstops⟩
    rw [parseLoop_spell hss, parseLoop_of_stops hstops]

/-! ## The last option for a setting -/

/-- What the last setting that `f` knows something about says, or what there was before. -/
def lastOf {α : Type} (f : Opt → Str → Option α) (ss : List Setting) (before : α) : α :=
  ((ss.filterMap fun s => (optOf s.1).bind fun opt => f opt s.2).getLast?).getD before

/-- A part of the settings on which every option either puts a value of its own or none. -/
theorem foldl_take {α : Type} (get : Config → α) {f : Opt → Str → Option α}
    (hf : ∀ opt value c, get (opt.set value c) = (f opt value).getD (get c)) (ss : List Setting)
    (c : Config) : get (ss.foldl Config.take c) = lastOf f ss (get c) := by
  induction ss using List.reverseRecOn with
  | nil => rfl
  | append_singleton ss s ih =>
    rw [List.foldl_concat, lastOf, List.filterMap_append, List.filterMap_cons, List.filterMap_nil]
    rw [lastOf] at ih
    cases hopt : optOf s.1 with
    | none => simpa [Config.take, hopt] using ih
    | some opt =>
      rw [Config.take, hopt]
      simp only [hf, Option.bind_some]
      cases hval : f opt s.2 with
      | none => simpa using ih
      | some v => simp

/-- What an option says of the address, of the port, of the part to play, and of the times. -/
def addrOf : Opt → Str → Option Str
  | .listen, value | .client, value => some value
  | _, _ => none

def portOf : Opt → Str → Option ℤ
  | .port, value => some (atoi value)
  | _, _ => none

def serverOf : Opt → Str → Option Bool
  | .listen, _ => some true
  | .client, _ => some false
  | _, _ => none

def forSecsOf : Opt → Str → Option ℤ
  | .forSeconds, value => some (atoi value * 1000000000)
  | _, _ => none

def intervalOf : Opt → Str → Option ℤ
  | .intervalMs, value => some (atoi value * 1000000)
  | _, _ => none

/-- **What is accepted, what it sets, and what is said otherwise**, for all arguments. They are
accepted just if they are options with a value behind each, whatever the values are; then the last
option for a setting counts. Otherwise the first argument that is not taken decides on the hint. -/
theorem parseArgs_iff (args : List Str) :
    (∀ c, parseArgs args = .done c ↔ ∃ ss : List Setting, (∀ s ∈ ss, optOf s.1 ≠ none) ∧
      args = spell ss ∧ c = ⟨lastOf addrOf ss "127.0.0.1".toList, lastOf portOf ss 7780,
        lastOf serverOf ss false, lastOf forSecsOf ss (10 * 1000000000),
        lastOf intervalOf ss (10 * 1000000)⟩) ∧
    ∀ hint, parseArgs args = .help hint ↔ ∃ (ss : List Setting) (rest : List Str),
      (∀ s ∈ ss, optOf s.1 ≠ none) ∧ args = spell ss ++ rest ∧ Stops rest hint := by
  refine ⟨fun c => ?_, fun hint => parseLoop_eq_help_iff⟩
  have hlast : ∀ ss : List Setting, ss.foldl Config.take {} =
      ⟨lastOf addrOf ss "127.0.0.1".toList, lastOf portOf ss 7780, lastOf serverOf ss false,
        lastOf forSecsOf ss (10 * 1000000000), lastOf intervalOf ss (10 * 1000000)⟩ := by
    intro ss
    have haddr := foldl_take Config.sevrAddr (f := addrOf) (by rintro ⟨⟩ value c <;> rfl) ss {}
    have hport := foldl_take Config.listenOn (f := portOf) (by rintro ⟨⟩ value c <;> rfl) ss {}
    have hserver := foldl_take Config.asServer (f := serverOf) (by rintro ⟨⟩ value c <;> rfl) ss {}
    have hfor := foldl_take Config.forSecs (f := forSecsOf) (by rintro ⟨⟩ value c <;> rfl) ss {}
    have hinterval :=
      foldl_take Config.interval (f := intervalOf) (by rintro ⟨⟩ value c <;> rfl) ss {}
    generalize ss.foldl Config.take {} = c' at haddr hport hserver hfor hinterval
    obtain ⟨addr, port, server, secs, interval⟩ := c'
    simp only [Config.mk.injEq]
    exact ⟨haddr, hport, hserver, hfor, hinterval⟩
  rw [parseArgs, parseLoop_eq_done_iff]
  simp only [hlast]

/-- The last port counts, and what stands behind an option is its value. -/
example : parseArgs ["-p".toList, "1".toList, "-c".toList, "-h".toList, "--port".toList,
    " 80x".toList] = .done { sevrAddr := "-h".toList, listenOn := 80 } := by decide

end TimeDiff

end LeonUtils
