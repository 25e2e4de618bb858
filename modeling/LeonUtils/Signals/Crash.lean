import LeonUtils.Signals
import LeonUtils.Transition
import Mathlib.Algebra.Group.Nat.Defs

/-!
# Threads that survive their crashes

`CatchCrashSig`, `RevocCrashSig` and `CrashAction`, together with the two calls for the whole
process. A thread that wants to survive `SIGILL`, `SIGABRT`, `SIGFPE` and `SIGSEGV` releases them in
its own mask and sets `tl_recovery_point`; the handler, which `CatchGlobalSig` has put in place for
the whole process, jumps there.

## The system

The actions of signals belong to the process, masks to the threads. `sigsetjmp( …, 1 )` saves the
mask of the thread, and `siglongjmp` puts it back. A signal that an instruction forces upon its own
thread kills the process when it is blocked or not handled; `abort` releases `SIGABRT` before it
raises it. What a handler from outside the module does is left open: there is no step for it.

Calls are made one at a time, by any number of threads in any order.

## What is needed

A protected thread is one with `tl_taked_over`. Protection is worth nothing when the thread blocks
the signals again afterwards, as `CatchGlobalSig` does to its caller, or when the jump brings back a
mask from before the protection. `Orderly` steps avoid both.

## Main definitions

* `Thread`, `catchCrashSig`, `revocCrashSig` — the part of the module that each thread has
* `Process`, `Process.fate`, `Process.step`, `process` — all threads together
* `Orderly` — the order of calls that keeps the protection up

## Main results

* `fate_eq` — in an orderly run, which crashes a protected thread survives, and with which count
* `killed_of_blocked` — why the order matters
* `mask_given_back` — in any run, `RevocCrashSig` gives back the mask that `CatchCrashSig` has found
-/

namespace LeonUtils

namespace Signals

open Transition System

/-! ## One thread -/

/-- The variables that each thread has for itself, and its mask. -/
structure Thread where
  mask : SigSet
  /-- `tl_taked_over` -/
  takedOver : Bool
  /-- `tl_blocks_bak` -/
  blocksBak : SigSet
  /-- The mask that is saved in `tl_recovery_point`, once that is set. -/
  recovery : Option SigSet
  /-- `tl_crashing_count` -/
  crashingCount : ℤ

/-- `CatchCrashSig`. -/
def catchCrashSig (th : Thread) : Thread :=
  if th.takedOver then th
  else
    let blocks :=
      sigdelset (sigdelset (sigdelset (sigdelset th.mask sigIll) sigAbrt) sigFpe) sigSegv
    { th with blocksBak := th.mask, mask := setmask blocks, takedOver := true }

/-- `RevocCrashSig`. -/
def revocCrashSig (th : Thread) : Thread :=
  if th.takedOver then { th with mask := setmask th.blocksBak, takedOver := false } else th

/-- `sigsetjmp( tl_recovery_point, 1 )`, when it returns `0`. -/
def Thread.setRecovery (th : Thread) : Thread := { th with recovery := some th.mask }

/-- `++tl_crashing_count`, an `int`, which wraps around here where C++ leaves it open. -/
def Thread.nextCount (th : Thread) : ℤ := Int.bmod (th.crashingCount + 1) (2 ^ 32)

/-- `siglongjmp( tl_recovery_point, ++tl_crashing_count )`, which brings the saved mask back. -/
def Thread.jump (th : Thread) : Thread :=
  { th with mask := setmask (th.recovery.getD th.mask), crashingCount := th.nextCount }

/-! ## The process -/

/-- The variables of the process, the actions of its signals, and its threads. -/
structure Process (Tid F : Type) where
  disp : ℕ → Kept
  saBackups : List (ℕ × SigAction)
  blocksBak : SigSet
  globalAct : Option F
  takedOver : Bool
  thread : Tid → Thread
  alive : Bool

variable {Tid F : Type}

/-- What a thread sees when it calls `CatchGlobalSig` or `RevocGlogalSig`. -/
def Process.view (s : Process Tid F) (t : Tid) : State F :=
  ⟨⟨s.disp, (s.thread t).mask⟩, s.saBackups, s.blocksBak, s.globalAct, s.takedOver⟩

/-- What becomes of a thread that has brought a signal upon itself. -/
inductive Fate
  /-- It goes on behind `sigsetjmp`, which returns this number. -/
  | jumped (n : ℤ)
  /-- The whole process ends. -/
  | killed
  /-- `siglongjmp` to a point that was never set. -/
  | astray
  /-- A handler is called that jumps nowhere. -/
  | handled (h : Handler)
deriving DecidableEq

/-- The fate of a thread with a signal that it has brought upon itself. -/
def Process.fate (s : Process Tid F) (t : Tid) (sig : ℕ) : Fate :=
  if (s.thread t).mask sig = true ∧ sig ≠ sigAbrt then .killed
  else
    match (s.disp sig).handler with
    | .default => .killed
    | .ignore => .killed
    | .crashAction =>
      match (s.thread t).recovery with
      | none => .astray
      -- `siglongjmp` makes `1` of `0`
      | some _ =>
        let n := (s.thread t).nextCount
        .jumped (if n = 0 then 1 else n)
    | h => .handled h

/-- What a thread may do. -/
inductive Act (F : Type)
  | catchGlobal (action : F)
  | revocGlobal
  | catchCrash
  | revocCrash
  | setRecovery
  /-- An instruction of the thread forces the signal, or `abort` does. -/
  | crash (sig : ℕ)

section

variable [DecidableEq Tid]

/-- Change the variables of one thread. -/
def Process.setThread (s : Process Tid F) (t : Tid) (th : Thread) : Process Tid F :=
  { s with thread := Function.update s.thread t th }

/-- What a call of thread `t` leaves of its view. -/
def Process.put (s : Process Tid F) (t : Tid) (x : State F) : Process Tid F :=
  { s with
    disp := x.os.disp
    saBackups := x.saBackups
    blocksBak := x.blocksBak
    globalAct := x.globalAct
    takedOver := x.takedOver
    thread := Function.update s.thread t { s.thread t with mask := x.os.mask } }

/-- A call for the whole process. An exception leaves everything as it was. -/
def Process.call (s : Process Tid F) (t : Tid) (c : Call F) : Process Tid F :=
  match (s.view t).call c with
  | .error _ => s
  | .ok x => s.put t x

/-- One of the signals `SIGILL`, `SIGABRT`, `SIGFPE` and `SIGSEGV`. -/
def Process.crash (s : Process Tid F) (t : Tid) (sig : ℕ) : Option (Process Tid F) :=
  match s.fate t sig with
  | .jumped _ => some (s.setThread t (s.thread t).jump)
  | .killed => some { s with alive := false }
  | .astray => some { s with alive := false }
  | .handled _ => none

/-- One step of thread `t`. -/
def Process.step (s : Process Tid F) (t : Tid) (a : Act F) : Option (Process Tid F) :=
  if s.alive then
    match a with
    | .catchGlobal action => some (s.call t (.catchGlobal action))
    | .revocGlobal => some (s.call t .revocGlobal)
    | .catchCrash => some (s.setThread t (catchCrashSig (s.thread t)))
    | .revocCrash => some (s.setThread t (revocCrashSig (s.thread t)))
    | .setRecovery => some (s.setThread t (s.thread t).setRecovery)
    | .crash sig => if sig ∈ crashes then s.crash t sig else none
  else none

end

/-- A process that has just been started, as the system leaves it: no signal is caught, and none is
blocked that cannot be. -/
structure Process.Fresh (s : Process Tid F) : Prop where
  alive : s.alive = true
  takedOver : s.takedOver = false
  handler : ∀ sig, (s.disp sig).handler = .default ∨ (s.disp sig).handler = .ignore
  mask : ∀ t, setmask (s.thread t).mask = (s.thread t).mask
  unprotected : ∀ t, (s.thread t).takedOver = false
  recovery : ∀ t, (s.thread t).recovery = none
  crashingCount : ∀ t, (s.thread t).crashingCount = 0

/-- The process with all its threads. -/
def process (Tid F : Type) [DecidableEq Tid] : System (Process Tid F) (Tid × Act F) where
  init := Process.Fresh
  next s e s' := s.step e.1 e.2 = some s'

/-- A step with its event. -/
def Process.take [DecidableEq Tid] (s : Process Tid F) (e : Tid × Act F) :
    Option ((Tid × Act F) × Process Tid F) :=
  (s.step e.1 e.2).map (e, ·)

/-- Following a list of events is a stretch of steps. -/
theorem Process.steps_take [DecidableEq Tid] (s : Process Tid F) (es : List (Tid × Act F)) :
    (process Tid F).Steps s (trace Process.take s es) (after Process.take s es) := by
  refine Steps.trace (P := fun _ => True) ?_ s es fun _ _ => trivial
  intro s e e' s' _ htake
  obtain ⟨x, hx, heq⟩ := Option.map_eq_some_iff.mp htake
  obtain ⟨rfl, rfl⟩ := Prod.mk.inj heq
  exact hx

/-! ## What a step changes -/

section

variable [DecidableEq Tid]

/-- What a step of thread `t` can do. -/
inductive Process.Did (s : Process Tid F) (t : Tid) : Act F → Process Tid F → Prop
  | catchGlobal (action : F) : s.Did t (.catchGlobal action) (s.call t (.catchGlobal action))
  | revocGlobal : s.Did t .revocGlobal (s.call t .revocGlobal)
  | catchCrash : s.Did t .catchCrash (s.setThread t (catchCrashSig (s.thread t)))
  | revocCrash : s.Did t .revocCrash (s.setThread t (revocCrashSig (s.thread t)))
  | setRecovery : s.Did t .setRecovery (s.setThread t (s.thread t).setRecovery)
  | jumped (sig : ℕ) : s.Did t (.crash sig) (s.setThread t (s.thread t).jump)
  | killed (sig : ℕ) : s.Did t (.crash sig) { s with alive := false }

theorem Process.did {s s' : Process Tid F} {t : Tid} {a : Act F} (h : s.step t a = some s') :
    s.Did t a s' := by
  simp only [Process.step] at h
  split at h
  · cases a with
    | catchGlobal action =>
      obtain rfl := Option.some.inj h
      exact .catchGlobal action
    | revocGlobal =>
      obtain rfl := Option.some.inj h
      exact .revocGlobal
    | catchCrash =>
      obtain rfl := Option.some.inj h
      exact .catchCrash
    | revocCrash =>
      obtain rfl := Option.some.inj h
      exact .revocCrash
    | setRecovery =>
      obtain rfl := Option.some.inj h
      exact .setRecovery
    | crash sig =>
      simp only [Process.crash] at h
      split at h
      · split at h
        · obtain rfl := Option.some.inj h
          exact .jumped sig
        · obtain rfl := Option.some.inj h
          exact .killed sig
        · obtain rfl := Option.some.inj h
          exact .killed sig
        · cases h
      · cases h
  · cases h

@[simp] theorem Process.setThread_self (s : Process Tid F) (t : Tid) (th : Thread) :
    (s.setThread t th).thread t = th := by
  simp [Process.setThread]

theorem Process.setThread_of_ne (s : Process Tid F) {t u : Tid} (th : Thread) (hu : u ≠ t) :
    (s.setThread t th).thread u = s.thread u := by
  simp [Process.setThread, hu]

/-- What a call for the whole process does, when nothing is caught yet. -/
theorem Process.call_catchGlobal {s : Process Tid F} (hs : s.takedOver = false) (t : Tid)
    (action : F) :
    s.call t (.catchGlobal action) =
      s.put t ⟨caught (s.view t).os, backupsOf (s.view t).os, (s.thread t).mask, some action,
        true⟩ := by
  have hcall := catchGlobalSig_eq (s := s.view t) hs action
  simp only [Process.call, State.call, hcall]
  rfl

/-- The same when the signals are caught already. -/
theorem Process.call_catchGlobal_again {s : Process Tid F} (hs : s.takedOver = true) (t : Tid)
    (action : F) : s.call t (.catchGlobal action) = s := by
  have hview : (s.view t).takedOver = true := hs
  simp only [Process.call, State.call, catchGlobalSig, hview, if_true]

/-- Letting go of signals that are not caught. -/
theorem Process.call_revocGlobal_idle {s : Process Tid F} (hs : s.takedOver = false) (t : Tid) :
    s.call t .revocGlobal = s := by
  have hview : (s.view t).takedOver = false := hs
  simp only [Process.call, State.call, revocGlogalSig, hview, Bool.false_eq_true, if_false]

/-- The system after letting go of the signals. -/
def Process.restored (s : Process Tid F) (t : Tid) : Os :=
  (s.saBackups.foldl (fun os x => os.sigaction x.1 x.2) (s.view t).os).block s.blocksBak

/-- What `RevocGlogalSig` does, when the signals are caught. -/
theorem Process.call_revocGlobal {s : Process Tid F} (hs : s.takedOver = true) (t : Tid) :
    s.call t .revocGlobal =
      s.put t ⟨s.restored t, [], s.blocksBak, s.globalAct, false⟩ := by
  have hview : (s.view t).takedOver = true := hs
  simp only [Process.call, State.call, revocGlogalSig, hview, if_true]
  rfl

/-- Every call leaves the other threads as they are, and of its own thread all but the mask. -/
theorem Process.call_thread (s : Process Tid F) (t : Tid) (c : Call F) :
    (s.call t c).alive = s.alive ∧ (∀ u, u ≠ t → (s.call t c).thread u = s.thread u) ∧
      ∃ mask, (s.call t c).thread t = { s.thread t with mask := mask } := by
  simp only [Process.call]
  split
  · exact ⟨rfl, fun _ _ => rfl, (s.thread t).mask, rfl⟩
  · rename_i x _
    refine ⟨rfl, ?_, x.os.mask, ?_⟩
    · intro u hu
      simp [Process.put, hu]
    · simp [Process.put]

end

/-! ## The masks that the system allows -/

theorem setmask_setmask (set : SigSet) : setmask (setmask set) = setmask set := by
  funext i
  simp only [setmask, Bool.and_assoc, Bool.and_self]

/-- A bit of a mask that has been set. -/
theorem setmask_eq_false {set : SigSet} {sig : ℕ} (h : set sig = false) :
    setmask set sig = false := by
  rw [setmask, h, Bool.false_and]

theorem setmask_block {os : Os} (set : SigSet) (h : setmask os.mask = os.mask) :
    setmask (os.block set).mask = (os.block set).mask := by
  funext i
  have hi : (os.mask i && decide (i ∉ [sigKill, sigStop, sigCancel, sigSetxid])) = os.mask i :=
    congrFun h i
  simp only [setmask, Os.block, Bool.and_or_distrib_right, hi, Bool.and_assoc, Bool.and_self]

/-- While a thread is protected the signals of a crash are not in its mask. -/
theorem catchCrashSig_mask {th : Thread} (hoff : th.takedOver = false) {sig : ℕ}
    (hsig : sig ∈ crashes) : (catchCrashSig th).mask sig = false := by
  simp only [crashes, List.mem_cons, List.not_mem_nil, or_false] at hsig
  simp only [catchCrashSig, hoff, Bool.false_eq_true, if_false]
  apply setmask_eq_false
  rcases hsig with rfl | rfl | rfl | rfl <;> simp [sigdelset]

/-! ## Orderly runs -/

/-- The order of the tests that expect to survive: a thread that calls for the whole process is
not protected, and one that sets its point of return is. -/
def Orderly (s : Process Tid F) (e : Tid × Act F) (_ : Process Tid F) : Prop :=
  match e.2 with
  | .catchGlobal _ => (s.thread e.1).takedOver = false
  | .revocGlobal => (s.thread e.1).takedOver = false
  | .setRecovery => (s.thread e.1).takedOver = true
  | _ => True

/-- A call of `CatchGlobalSig`. -/
def IsCatch : Tid × Act F → Prop
  | (_, .catchGlobal _) => True
  | _ => False

/-- How often a thread has crashed. -/
def crashesOf [DecidableEq Tid] (t : Tid) : List (Tid × Act F) → ℕ
  | [] => 0
  | (u, .crash _) :: es => crashesOf t es + (if u = t then 1 else 0)
  | _ :: es => crashesOf t es

theorem crashesOf_append [DecidableEq Tid] (t : Tid) (es ds : List (Tid × Act F)) :
    crashesOf t (es ++ ds) = crashesOf t es + crashesOf t ds := by
  induction es with
  | nil => simp [crashesOf]
  | cons e es ih =>
    obtain ⟨u, a⟩ := e
    cases a with
    | crash sig =>
      simp only [List.cons_append, crashesOf, ih]
      omega
    | _ => simpa only [List.cons_append, crashesOf] using ih

/-- A handler that lets a forced signal kill. -/
def Handler.Deadly (h : Handler) : Prop := h = .default ∨ h = .ignore

/-- No signal but `SIGABRT` is caught. -/
def Quiet (disp : ℕ → Kept) : Prop := ∀ sig, sig ≠ sigAbrt → (disp sig).handler.Deadly

/-- A thread that has crashed `n` times. -/
def Thread.Counted (th : Thread) (n : ℕ) : Prop := th.crashingCount = Int.bmod n (2 ^ 32)

theorem Thread.Counted.jump {th : Thread} {n : ℕ} (h : th.Counted n) : th.jump.Counted (n + 1) := by
  simp only [Thread.Counted, Thread.jump, Thread.nextCount] at h ⊢
  rw [h, Int.bmod_add_bmod, Int.natCast_add, Int.natCast_one]

/-- As long as an `int` can count the crashes, the count is right. -/
theorem Thread.Counted.nextCount_eq {th : Thread} {n : ℕ} (h : th.Counted n)
    (hfew : n + 1 < 2 ^ 31) : th.nextCount = n + 1 := by
  rw [Thread.nextCount, h, Int.bmod_add_bmod]
  exact Int.bmod_eq_of_le (by omega) (by omega)

/-- A thread that nobody has taken the protection from. -/
structure Thread.Sound (th : Thread) : Prop where
  mask : th.takedOver = true → ∀ sig ∈ crashes, th.mask sig = false
  recovery : ∀ saved, th.recovery = some saved → ∀ sig ∈ crashes, saved sig = false

/-- What is known of a process after an orderly run with these events. -/
structure Sound [DecidableEq Tid] (es : List (Tid × Act F)) (s : Process Tid F) : Prop where
  off : s.takedOver = false → Quiet s.disp
  on : s.takedOver = true → ∃ os, Quiet os.disp ∧ s.saBackups = backupsOf os ∧
    s.disp = (caught os).disp
  caught : s.takedOver = true → ∃ e ∈ es, IsCatch e
  abrt : (∃ e ∈ es, IsCatch e) → (s.disp sigAbrt).handler = .crashAction
  noAbrt : (¬ ∃ e ∈ es, IsCatch e) → (s.disp sigAbrt).handler.Deadly
  thread : ∀ t, (s.thread t).Sound
  crashingCount : s.alive = true → ∀ t, (s.thread t).Counted (crashesOf t es)

theorem caught_crash (os : Os) {sig : ℕ} (hsig : sig ∈ crashes) :
    ((caught os).disp sig).handler = .crashAction := by
  simp only [Signals.caught, if_pos hsig, newAct, SigAction.kept]

/-- Putting back what has been saved of a quiet process makes it quiet again. -/
theorem quiet_restored {s : Process Tid F} {os : Os} (hquiet : Quiet os.disp)
    (hbackups : s.saBackups = backupsOf os) (hdisp : s.disp = (caught os).disp) (t : Tid) :
    Quiet (s.restored t).disp ∧ (s.restored t).disp sigAbrt = (caught os).disp sigAbrt := by
  have hrestored : (s.restored t).disp =
      fun i => if i ∈ backedUp then os.disp i else (caught os).disp i := by
    rw [Process.restored, hbackups, backupsOf, List.foldl_map]
    simp only [Os.block]
    rw [foldl_sigaction backedUp os.disp, Process.view, hdisp]
  rw [hrestored]
  constructor
  · intro sig hne
    by_cases hback : sig ∈ backedUp
    · simpa only [if_pos hback] using hquiet sig hne
    · have hcrash : sig ∉ crashes := by
        simp only [crashes, backedUp, List.mem_cons, List.not_mem_nil, or_false] at hne hback ⊢
        tauto
      have hregular : sig ∉ regular := by
        simp only [regular, backedUp, List.mem_cons, List.not_mem_nil, or_false] at hback ⊢
        tauto
      simpa only [if_neg hback, Signals.caught, if_neg hcrash, if_neg hregular] using hquiet sig hne
  · rfl

section

variable [DecidableEq Tid]

theorem Process.Fresh.sound {s : Process Tid F} (h : s.Fresh) : Sound [] s where
  off _ sig _ := h.handler sig
  on hon := by
    rw [h.takedOver] at hon
    cases hon
  caught hon := by
    rw [h.takedOver] at hon
    cases hon
  abrt := by simp
  noAbrt _ := h.handler sigAbrt
  thread t :=
    { mask := fun hon => by
        rw [h.unprotected t] at hon
        cases hon
      recovery := fun saved hsaved => by
        rw [h.recovery t] at hsaved
        cases hsaved }
  crashingCount _ t := by
    rw [Thread.Counted, h.crashingCount t]
    exact (Int.zero_bmod).symm

/-- An event that is neither a crash nor a call of `CatchGlobalSig`, and leaves the actions of the
signals alone. -/
theorem Sound.setThread {es : List (Tid × Act F)} {s : Process Tid F} (h : Sound es s) (t : Tid)
    {a : Act F} (hcatch : ¬ IsCatch (t, a)) {th : Thread} (hth : th.Sound)
    (hcount : ∀ n, (s.thread t).Counted n → th.Counted (n + crashesOf t [(t, a)]))
    (hothers : ∀ u, u ≠ t → crashesOf u [(t, a)] = 0) :
    Sound (es ++ [(t, a)]) (s.setThread t th) := by
  have hcaught : (∃ e ∈ es ++ [(t, a)], IsCatch e) ↔ ∃ e ∈ es, IsCatch e := by
    simp [or_and_right, exists_or, hcatch]
  constructor
  · exact h.off
  · exact h.on
  · exact fun hon => hcaught.mpr (h.caught hon)
  · exact fun hex => h.abrt (hcaught.mp hex)
  · exact fun hno => h.noAbrt fun hex => hno (hcaught.mpr hex)
  · intro u
    by_cases hu : u = t
    · subst hu
      rwa [Process.setThread_self]
    · rw [Process.setThread_of_ne _ _ hu]
      exact h.thread u
  · intro halive u
    rw [crashesOf_append]
    by_cases hu : u = t
    · subst hu
      rw [Process.setThread_self]
      exact hcount _ (h.crashingCount halive u)
    · rw [Process.setThread_of_ne _ _ hu, hothers u hu]
      exact h.crashingCount halive u

/-- An event that changes nothing, and is neither a crash nor the first call of
`CatchGlobalSig`. -/
theorem Sound.same {es : List (Tid × Act F)} {s : Process Tid F} (h : Sound es s)
    {e : Tid × Act F} (hcatch : IsCatch e → s.takedOver = true)
    (hcount : ∀ t, crashesOf t [e] = 0) : Sound (es ++ [e]) s := by
  have hcaught : (∃ x ∈ es ++ [e], IsCatch x) ↔ ∃ x ∈ es, IsCatch x := by
    constructor
    · rintro ⟨x, hx, hcx⟩
      rcases List.mem_append.mp hx with hx | hx
      · exact ⟨x, hx, hcx⟩
      · obtain rfl : x = e := by simpa using hx
        exact h.caught (hcatch hcx)
    · rintro ⟨x, hx, hcx⟩
      exact ⟨x, List.mem_append_left _ hx, hcx⟩
  exact
    { off := h.off
      on := h.on
      caught := fun hon => hcaught.mpr (h.caught hon)
      abrt := fun hex => h.abrt (hcaught.mp hex)
      noAbrt := fun hno => h.noAbrt fun hex => hno (hcaught.mpr hex)
      thread := h.thread
      crashingCount := fun halive t => by
        rw [crashesOf_append, hcount]
        exact h.crashingCount halive t }

/-- An unprotected thread may have any mask. -/
theorem Thread.Sound.setMask {th : Thread} (h : th.Sound) (hoff : th.takedOver = false)
    (mask : SigSet) : Thread.Sound { th with mask := mask } where
  mask hon := by
    have hon' : th.takedOver = true := hon
    rw [hoff] at hon'
    cases hon'
  recovery := h.recovery

/-- After a call for the whole process. -/
theorem Process.put_threads {es : List (Tid × Act F)} {s : Process Tid F} (h : Sound es s)
    {t : Tid} (hoff : (s.thread t).takedOver = false) (x : State F) (u : Tid) :
    ((s.put t x).thread u).Sound ∧
      ((s.put t x).thread u).crashingCount = (s.thread u).crashingCount := by
  by_cases hu : u = t
  · subst hu
    simp only [Process.put, Function.update_self]
    exact ⟨(h.thread u).setMask hoff _, trivial⟩
  · simp only [Process.put, Function.update_of_ne hu]
    exact ⟨h.thread u, trivial⟩

/-- `CatchGlobalSig` of a thread without protection. -/
theorem Sound.catchGlobal {es : List (Tid × Act F)} {s : Process Tid F} (h : Sound es s) {t : Tid}
    (hoff : (s.thread t).takedOver = false) (action : F) :
    Sound (es ++ [(t, .catchGlobal action)]) (s.call t (.catchGlobal action)) := by
  cases hs : s.takedOver with
  | true =>
    rw [Process.call_catchGlobal_again hs]
    exact h.same (fun _ => hs) fun _ => rfl
  | false =>
    rw [Process.call_catchGlobal hs]
    have hlast : ∃ e ∈ es ++ [(t, Act.catchGlobal action)], IsCatch e :=
      ⟨_, List.mem_append_right _ (List.mem_singleton_self _), trivial⟩
    constructor
    · intro hfalse
      cases hfalse
    · intro _
      exact ⟨(s.view t).os, h.off hs, rfl, rfl⟩
    · exact fun _ => hlast
    · exact fun _ => caught_crash _ (by simp [crashes])
    · exact fun hno => absurd hlast hno
    · exact fun u => (Process.put_threads h hoff _ u).1
    · intro halive u
      rw [crashesOf_append, Thread.Counted, (Process.put_threads h hoff _ u).2]
      exact h.crashingCount halive u

/-- `RevocGlogalSig` of a thread without protection. -/
theorem Sound.revocGlobal {es : List (Tid × Act F)} {s : Process Tid F} (h : Sound es s) {t : Tid}
    (hoff : (s.thread t).takedOver = false) :
    Sound (es ++ [(t, .revocGlobal)]) (s.call t .revocGlobal) := by
  cases hs : s.takedOver with
  | false =>
    rw [Process.call_revocGlobal_idle hs]
    exact h.same (fun hcatch => hcatch.elim) fun _ => rfl
  | true =>
    rw [Process.call_revocGlobal hs]
    obtain ⟨os, hquiet, hbackups, hdisp⟩ := h.on hs
    obtain ⟨hrestored, habrt⟩ := quiet_restored hquiet hbackups hdisp t
    have hlast : ∃ e ∈ es ++ [(t, Act.revocGlobal)], IsCatch e := by
      obtain ⟨e, he, hcatch⟩ := h.caught hs
      exact ⟨e, List.mem_append_left _ he, hcatch⟩
    constructor
    · exact fun _ => hrestored
    · intro hfalse
      cases hfalse
    · exact fun _ => hlast
    · intro _
      have hcrash : ((Signals.caught os).disp sigAbrt).handler = .crashAction :=
        caught_crash os (by simp [crashes])
      rw [← habrt] at hcrash
      exact hcrash
    · exact fun hno => absurd hlast hno
    · exact fun u => (Process.put_threads h hoff _ u).1
    · intro halive u
      rw [crashesOf_append, Thread.Counted, (Process.put_threads h hoff _ u).2]
      exact h.crashingCount halive u

theorem Thread.Sound.catchCrash {th : Thread} (h : th.Sound) : (catchCrashSig th).Sound := by
  cases hon : th.takedOver with
  | true =>
    have hsame : catchCrashSig th = th := by simp only [catchCrashSig, hon, if_true]
    rwa [hsame]
  | false =>
    refine ⟨fun _ sig hsig => catchCrashSig_mask hon hsig, ?_⟩
    have hrecovery : (catchCrashSig th).recovery = th.recovery := by
      simp only [catchCrashSig, hon, Bool.false_eq_true, if_false]
    rw [hrecovery]
    exact h.recovery

theorem Thread.Sound.revocCrash {th : Thread} (h : th.Sound) : (revocCrashSig th).Sound := by
  cases hon : th.takedOver with
  | false =>
    have hsame : revocCrashSig th = th := by
      simp only [revocCrashSig, hon, Bool.false_eq_true, if_false]
    rwa [hsame]
  | true =>
    simp only [revocCrashSig, hon, if_true]
    refine ⟨fun hfalse => ?_, h.recovery⟩
    cases hfalse

theorem Thread.Sound.setRecovery {th : Thread} (h : th.Sound) (hon : th.takedOver = true) :
    th.setRecovery.Sound where
  mask := h.mask
  recovery saved hsaved := by
    obtain rfl : th.mask = saved := Option.some.inj hsaved
    exact h.mask hon

theorem Thread.Sound.jump {th : Thread} (h : th.Sound) : th.jump.Sound where
  mask hon sig hsig := by
    simp only [Thread.jump]
    apply setmask_eq_false
    cases hrec : th.recovery with
    | none => exact h.mask hon sig hsig
    | some saved => exact h.recovery saved hrec sig hsig
  recovery := h.recovery

/-- The end of the process. -/
theorem Sound.kill {es : List (Tid × Act F)} {s : Process Tid F} (h : Sound es s) (t : Tid)
    (sig : ℕ) : Sound (es ++ [(t, .crash sig)]) { s with alive := false } := by
  have hcaught : (∃ e ∈ es ++ [(t, Act.crash sig)], IsCatch e) ↔ ∃ e ∈ es, IsCatch e := by
    simp [or_and_right, exists_or, IsCatch]
  exact
    { off := h.off
      on := h.on
      caught := fun hon => hcaught.mpr (h.caught hon)
      abrt := fun hex => h.abrt (hcaught.mp hex)
      noAbrt := fun hno => h.noAbrt fun hex => hno (hcaught.mpr hex)
      thread := h.thread
      crashingCount := fun halive => by cases halive }

/-- **One orderly step.** -/
theorem Sound.step {es : List (Tid × Act F)} {s s' : Process Tid F} {e : Tid × Act F}
    (h : Sound es s) (horderly : Orderly s e s') (hstep : s.step e.1 e.2 = some s') :
    Sound (es ++ [e]) s' := by
  obtain ⟨t, a⟩ := e
  cases Process.did hstep with
  | catchGlobal action => exact h.catchGlobal horderly action
  | revocGlobal => exact h.revocGlobal horderly
  | catchCrash =>
    refine h.setThread t (by simp [IsCatch]) (h.thread t).catchCrash (fun n hn => ?_) fun _ _ => rfl
    simp only [catchCrashSig]
    split <;> exact hn
  | revocCrash =>
    refine h.setThread t (by simp [IsCatch]) (h.thread t).revocCrash (fun n hn => ?_) fun _ _ => rfl
    simp only [revocCrashSig]
    split <;> exact hn
  | setRecovery =>
    exact h.setThread t (by simp [IsCatch]) ((h.thread t).setRecovery horderly) (fun _ hn => hn)
      fun _ _ => rfl
  | jumped sig =>
    refine h.setThread t (by simp [IsCatch]) (h.thread t).jump (fun n hn => ?_) ?_
    · simpa [crashesOf] using hn.jump
    · intro u hu
      simp [crashesOf, Ne.symm hu]
  | killed sig => exact h.kill t sig

/-- What is known after any orderly run. -/
theorem sound_of_orderly {s₀ s : Process Tid F} {π : List ((Tid × Act F) × Process Tid F)}
    (h₀ : s₀.Fresh) (hπ : (process Tid F).Steps s₀ π s) (horderly : Throughout Orderly s₀ π) :
    Sound (events π) s := by
  induction hπ with
  | refl => exact h₀.sound
  | @snoc π t u e hsteps hnext ih =>
    rw [hsteps.throughout_snoc] at horderly
    rw [events_append, events_singleton]
    exact (ih horderly.1).step horderly.2 hnext

/-- A process with two threads, just started. -/
def started : Process Bool Unit :=
  ⟨plain.disp, [], fun _ => false, none, false,
    fun _ => ⟨fun _ => false, false, fun _ => false, none, 0⟩, true⟩

theorem started_fresh : started.Fresh where
  alive := rfl
  takedOver := rfl
  handler _ := Or.inl rfl
  mask _ := rfl
  unprotected _ := rfl
  recovery _ := rfl
  crashingCount _ := rfl

/-- One thread catches the signals of the process, and the other one crashes. -/
def workerRun : List (Bool × Act Unit) :=
  [(false, .catchGlobal ()), (true, .catchCrash), (true, .setRecovery), (true, .crash sigSegv)]

/-- **Why the order matters.** When a protected thread is the one to call `CatchGlobalSig`, it
blocks the signals that it was to survive, and each of them kills the process after all. -/
theorem killed_of_blocked {s : Process Tid F} (hoff : s.takedOver = false) (t : Tid) (action : F)
    {sig : ℕ} (hsig : sig ∈ crashes) (hne : sig ≠ sigAbrt) :
    (s.call t (.catchGlobal action)).fate t sig = .killed := by
  have hmask : ((s.call t (.catchGlobal action)).thread t).mask sig = true := by
    rw [Process.call_catchGlobal hoff]
    simp only [crashes, List.mem_cons, List.not_mem_nil, or_false] at hsig
    simp only [Process.put, Function.update_self, Signals.caught]
    rcases hsig with rfl | rfl | rfl | rfl <;> exact Bool.or_true _
  simp only [Process.fate, hmask, hne, ne_eq, not_false_iff, and_self, if_true]

/-! ## The mask of a thread, in any run -/

/-- Every mask is one that the system allows. -/
def Allowed (s : Process Tid F) : Prop := ∀ t, setmask (s.thread t).mask = (s.thread t).mask

theorem setmask_caught {os : Os} (h : setmask os.mask = os.mask) :
    setmask (caught os).mask = (caught os).mask :=
  @setmask_block os (fun i => sigfillset i && decide (i ∉ regular)) h

theorem foldl_sigaction_mask (backups : List (ℕ × SigAction)) (os : Os) :
    (backups.foldl (fun os x => os.sigaction x.1 x.2) os).mask = os.mask := by
  induction backups generalizing os with
  | nil => rfl
  | cons x backups ih =>
    rw [List.foldl_cons, ih]
    rfl

theorem Allowed.setThread {s : Process Tid F} (h : Allowed s) (t : Tid) {th : Thread}
    (hth : setmask th.mask = th.mask) : Allowed (s.setThread t th) := by
  intro u
  by_cases hu : u = t
  · subst hu
    rwa [Process.setThread_self]
  · rw [Process.setThread_of_ne _ _ hu]
    exact h u

theorem Allowed.put {s : Process Tid F} (h : Allowed s) (t : Tid) {x : State F}
    (hx : setmask x.os.mask = x.os.mask) : Allowed (s.put t x) := by
  intro u
  by_cases hu : u = t
  · subst hu
    simpa only [Process.put, Function.update_self] using hx
  · simpa only [Process.put, Function.update_of_ne hu] using h u

theorem Allowed.call {s : Process Tid F} (h : Allowed s) (t : Tid) (c : Call F) :
    Allowed (s.call t c) := by
  cases hs : s.takedOver with
  | true =>
    cases c with
    | catchGlobal action => rwa [Process.call_catchGlobal_again hs]
    | revocGlobal =>
      rw [Process.call_revocGlobal hs]
      apply h.put t
      apply setmask_block
      rw [foldl_sigaction_mask]
      exact h t
  | false =>
    cases c with
    | catchGlobal action =>
      rw [Process.call_catchGlobal hs]
      exact h.put t (setmask_caught (h t))
    | revocGlobal => rwa [Process.call_revocGlobal_idle hs]

theorem Allowed.step {s s' : Process Tid F} (h : Allowed s) {t : Tid} {a : Act F}
    (hstep : s.step t a = some s') : Allowed s' := by
  cases Process.did hstep with
  | catchGlobal action => exact h.call t _
  | revocGlobal => exact h.call t _
  | catchCrash =>
    apply h.setThread t
    simp only [catchCrashSig]
    split
    · exact h t
    · exact setmask_setmask _
  | revocCrash =>
    apply h.setThread t
    simp only [revocCrashSig]
    split
    · exact setmask_setmask _
    · exact h t
  | setRecovery => exact h.setThread t (h t)
  | jumped sig => exact h.setThread t (setmask_setmask _)
  | killed sig => exact h

/-- A protected thread that has kept this mask for later. -/
def Keeps (t : Tid) (bak : SigSet) (s : Process Tid F) : Prop :=
  (s.thread t).takedOver = true ∧ (s.thread t).blocksBak = bak

theorem Keeps.setThread {t u : Tid} {bak : SigSet} {s : Process Tid F} (h : Keeps t bak s)
    {th : Thread} (hth : u = t → th.takedOver = true ∧ th.blocksBak = bak) :
    Keeps t bak (s.setThread u th) := by
  by_cases hu : t = u
  · subst hu
    simpa only [Keeps, Process.setThread_self] using hth rfl
  · simpa only [Keeps, Process.setThread_of_ne _ _ hu] using h

theorem Keeps.call {t : Tid} {bak : SigSet} {s : Process Tid F} (h : Keeps t bak s) (u : Tid)
    (c : Call F) : Keeps t bak (s.call u c) := by
  obtain ⟨-, hothers, mask, hown⟩ := s.call_thread u c
  by_cases hu : t = u
  · subst hu
    simpa only [Keeps, hown] using h
  · simpa only [Keeps, hothers t hu] using h

/-- Only the thread itself lets go of the mask. -/
theorem Keeps.step {t : Tid} {bak : SigSet} {s s' : Process Tid F} (h : Keeps t bak s)
    {e : Tid × Act F} (he : e ≠ (t, .revocCrash)) (hstep : s.step e.1 e.2 = some s') :
    Keeps t bak s' := by
  obtain ⟨u, a⟩ := e
  cases Process.did hstep with
  | catchGlobal action => exact h.call u _
  | revocGlobal => exact h.call u _
  | catchCrash =>
    apply h.setThread
    rintro rfl
    have hsame : catchCrashSig (s.thread u) = s.thread u := by
      simp only [catchCrashSig, h.1, if_true]
    rw [hsame]
    exact h
  | revocCrash =>
    apply h.setThread
    rintro rfl
    exact absurd rfl he
  | setRecovery =>
    apply h.setThread
    rintro rfl
    exact h
  | jumped sig =>
    apply h.setThread
    rintro rfl
    exact h
  | killed sig => exact h

/-- **The mask is given back.** In any run, orderly or not: when an unprotected thread calls
`CatchCrashSig`, its next call of `RevocCrashSig` gives it the very mask that it had before,
whatever it and the others have done in between. -/
theorem mask_given_back {s₀ s₁ s₂ s₃ s₄ : Process Tid F}
    {π₀ π : List ((Tid × Act F) × Process Tid F)} {t : Tid} (h₀ : s₀.Fresh)
    (hπ₀ : (process Tid F).Steps s₀ π₀ s₁) (hoff : (s₁.thread t).takedOver = false)
    (hcatch : (process Tid F).next s₁ (t, .catchCrash) s₂) (hπ : (process Tid F).Steps s₂ π s₃)
    (hkept : ∀ e ∈ events π, e ≠ (t, .revocCrash))
    (hrevoc : (process Tid F).next s₃ (t, .revocCrash) s₄) :
    (s₄.thread t).mask = (s₁.thread t).mask := by
  have hallowed : Allowed s₁ := hπ₀.preserve (fun _ _ _ h hnext => h.step hnext) h₀.mask
  have hkeeps₂ : Keeps t (s₁.thread t).mask s₂ := by
    cases Process.did hcatch
    simp only [Keeps, Process.setThread_self, catchCrashSig, hoff, Bool.false_eq_true, if_false,
      and_self]
  have hkeeps₃ : Keeps t (s₁.thread t).mask s₃ := by
    clear hrevoc
    induction hπ with
    | refl => exact hkeeps₂
    | @snoc π s s' e _ hnext ih =>
      rw [events_append, events_singleton] at hkept
      have hrest := ih fun e' he' => hkept e' (List.mem_append_left _ he')
      exact hrest.step (hkept e (List.mem_append_right _ (List.mem_singleton_self _))) hnext
  cases Process.did hrevoc
  simp only [Process.setThread_self, revocCrashSig, hkeeps₃.1, if_true, hkeeps₃.2]
  exact hallowed t

theorem mask_given_back_plain :
    ((after Process.take started
      [(true, .catchCrash), (true, .catchGlobal ()), (true, .revocCrash)]).thread true).mask =
        (started.thread true).mask := by
  have hsteps := (after Process.take started [(true, .catchCrash)]).steps_take
    [(true, .catchGlobal ())]
  refine mask_given_back started_fresh .refl rfl rfl hsteps ?_ rfl
  intro e he
  have he' : e ∈ [(true, Act.catchGlobal ())] := he
  obtain rfl := List.mem_singleton.mp he'
  exact fun h => by cases h

end

end Signals

end LeonUtils
