import Mathlib.Logic.Function.Basic
import Mathlib.Data.List.Basic

/-!
# Catching signals and letting go of them

`CatchGlobalSig` and `RevocGlogalSig`, which are meant to be used in pairs: the first backs up the
handling of signals and takes it over, the second puts it back.

## The system

`sigaction` and `pthread_sigmask` are as POSIX defines them. A signal is its number, a set of
signals a function to `Bool`. Two signals can neither be caught nor blocked: nobody below touches
their actions, but both are in the full set, and the system leaves them out of the masks that it
keeps, those of the actions as well. Two more are the library's own, and no mask of a thread gets
them either.

## What is put back

Which signals are backed up, which are taken over and which are put back is written down in
three places. They do not agree: `SIGABRT` is taken over without a backup. And the mask is put back
with `SIG_BLOCK`, which adds to the mask it finds, so that nothing that has been blocked is released
again.

## Main definitions

* `SigAction`, `Kept`, `Os` — the system
* `State`, `catchGlobalSig`, `revocGlogalSig` — the module
* `pairs` — what a run of calls does, pair by pair
* `Harmless` — the systems that a pair leaves as they were

## Main results

* `catchGlobalSig_eq`, `revocGlogalSig_eq` — what the two calls do
* `restored_iff` — everything is put back exactly if there was nothing to put back
* `not_restored` — the default handling, and what comes of it
-/

namespace LeonUtils

namespace Signals

/-! ## The system -/

/-- `sigset_t`. -/
abbrev SigSet : Type := ℕ → Bool

def sigHup : ℕ := 1
def sigInt : ℕ := 2
def sigQuit : ℕ := 3
def sigIll : ℕ := 4
def sigAbrt : ℕ := 6
def sigFpe : ℕ := 8
def sigKill : ℕ := 9
def sigSegv : ℕ := 11
def sigTerm : ℕ := 15
def sigChld : ℕ := 17
def sigStop : ℕ := 19

/-- `SIGCANCEL` and `SIGSETXID`, which the library keeps to itself. -/
def sigCancel : ℕ := 32
def sigSetxid : ℕ := 33

/-- `sigfillset`: the signals are numbered from `1` to `64`, and two of them are left out. -/
def sigfillset : SigSet := fun i => decide (1 ≤ i ∧ i ≤ 64 ∧ i ≠ sigCancel ∧ i ≠ sigSetxid)

/-- `sigdelset`. -/
def sigdelset (set : SigSet) (sig : ℕ) : SigSet := fun i => set i && decide (i ≠ sig)

/-- What a signal is handled by. -/
inductive Handler
  | default
  | ignore
  | globalAction
  | crashAction
  /-- Any other function. -/
  | other (n : ℕ)
deriving DecidableEq

/-- `struct sigaction`, without the flag `SA_RESTORER` that the library adds for itself. -/
structure SigAction where
  flags : ℕ
  handler : Handler
  mask : SigSet

/-- An action as the system keeps it: it blocks neither of the two signals that cannot be blocked.
-/
structure Kept extends SigAction where
  kill : mask sigKill = false
  stop : mask sigStop = false

/-- What the system keeps of an action. -/
def SigAction.kept (act : SigAction) : Kept where
  flags := act.flags
  handler := act.handler
  mask i := act.mask i && decide (i ≠ sigKill ∧ i ≠ sigStop)
  kill := by simp
  stop := by simp

/-- What has been kept is kept as it is. -/
theorem Kept.kept_toSigAction (x : Kept) : x.toSigAction.kept = x := by
  have hmask : (fun i => x.mask i && decide (i ≠ sigKill ∧ i ≠ sigStop)) = x.mask := by
    funext i
    by_cases hi : i = sigKill
    · rw [hi, x.kill, Bool.false_and]
    by_cases hi' : i = sigStop
    · rw [hi', x.stop, Bool.false_and]
    · simp [hi, hi']
  obtain ⟨⟨flags, handler, mask⟩, hkill, hstop⟩ := x
  simp only [SigAction.kept, Kept.mk.injEq, SigAction.mk.injEq, true_and]
  exact hmask

/-- `SA_SIGINFO`. -/
def saSiginfo : ℕ := 4

/-- `SA_NOCLDSTOP`. -/
def saNocldstop : ℕ := 1

/-- What the system keeps: the actions of the process, and the mask of the calling thread. -/
structure Os where
  disp : ℕ → Kept
  mask : SigSet

/-- `sigaction( sig, &act, nullptr )`. -/
def Os.sigaction (os : Os) (sig : ℕ) (act : SigAction) : Os :=
  { os with disp := Function.update os.disp sig act.kept }

/-- What `pthread_sigmask( SIG_SETMASK, &set, ... )` makes of the mask. -/
def setmask (set : SigSet) : SigSet :=
  fun i => set i && decide (i ∉ [sigKill, sigStop, sigCancel, sigSetxid])

/-- `pthread_sigmask( SIG_BLOCK, &set, ... )`. -/
def Os.block (os : Os) (set : SigSet) : Os :=
  { os with mask := fun i => os.mask i || setmask set i }

/-! ## The module -/

/-- The variables of the module, for actions of type `F`, and the system. -/
structure State (F : Type) where
  os : Os
  /-- `s_sa_backups`. The keys are distinct, so the order does not matter. -/
  saBackups : List (ℕ × SigAction)
  /-- `s_blocks_bak` -/
  blocksBak : SigSet
  /-- `s_global_act` -/
  globalAct : Option F
  /-- `s_taked_over` -/
  takedOver : Bool

variable {F : Type}

/-- `Backup`. -/
def State.backup (s : State F) (sig : ℕ) : State F :=
  { s with
    saBackups := s.saBackups.filter (·.1 ≠ sig) ++ [(sig, (s.os.disp sig).toSigAction)] }

/-- `Takeover`. -/
def takeover (new : SigAction) (x : State F × SigSet) (sig : ℕ) : State F × SigSet :=
  ({ x.1 with os := x.1.os.sigaction sig new }, sigdelset x.2 sig)

/-- The signals that are backed up. -/
def backedUp : List ℕ := [sigHup, sigInt, sigQuit, sigTerm, sigChld, sigIll, sigFpe, sigSegv]

/-- The signals that `GlobalAction` takes over. -/
def regular : List ℕ := [sigHup, sigInt, sigQuit, sigTerm, sigChld]

/-- The signals that `CrashAction` takes over. -/
def crashes : List ℕ := [sigIll, sigAbrt, sigFpe, sigSegv]

/-- `new_act`, as set up for a handler. -/
def newAct (handler : Handler) : SigAction := ⟨saSiginfo ||| saNocldstop, handler, sigfillset⟩

/-- `CatchGlobalSig`. -/
def catchGlobalSig (action : F) (s : State F) : Except String (State F) :=
  if s.takedOver then .error "全局信号处理已经设置,不能重复设置!"
  else
    let s := { s with globalAct := some action, saBackups := [] }
    let s := backedUp.foldl State.backup s
    let (s, blocks) := regular.foldl (takeover (newAct .globalAction)) (s, sigfillset)
    let s := { s with os := s.os.block blocks, blocksBak := s.os.mask }
    let (s, _) := crashes.foldl (takeover (newAct .crashAction)) (s, blocks)
    .ok { s with takedOver := true }

/-- `RevocGlogalSig`. -/
def revocGlogalSig (s : State F) : Except String (State F) :=
  if s.takedOver then
    let os := s.saBackups.foldl (fun os x => os.sigaction x.1 x.2) s.os
    .ok { s with os := os.block s.blocksBak, saBackups := [], takedOver := false }
  else .error "全局信号捕获并未设置,不能恢复!"

/-- The calls of a program. -/
inductive Call (F : Type)
  | catchGlobal (action : F)
  | revocGlobal

/-- One call. An exception leaves the module and the system as they were. -/
def State.call (s : State F) : Call F → Except String (State F)
  | .catchGlobal action => catchGlobalSig action s
  | .revocGlobal => revocGlogalSig s

/-- What a run of calls does, pair by pair: for each call that lets go of the signals, the system as
it was before the call that had caught them, and the system after it. `before` is the system before
the last call that caught them. -/
def pairs (s : State F) (before : Os) : List (Call F) → List (Os × Os)
  | [] => []
  | c :: cs =>
    match s.call c with
    | .error _ => pairs s before cs
    | .ok t =>
      match c with
      | .catchGlobal _ => pairs t s.os cs
      | .revocGlobal => (before, t.os) :: pairs t before cs

/-- The module before the first call. -/
def State.init (F : Type) (os : Os) : State F := ⟨os, [], fun _ => false, none, false⟩

/-! ## What the two calls do -/

/-- The signals that are blocked when the others are taken over. -/
def blocked : SigSet := setmask fun i => sigfillset i && decide (i ∉ regular)

/-- The system after `CatchGlobalSig`. -/
def caught (os : Os) : Os where
  disp i := if i ∈ crashes then (newAct .crashAction).kept
    else if i ∈ regular then (newAct .globalAction).kept else os.disp i
  mask i := os.mask i || blocked i

/-- The system after `RevocGlogalSig`. -/
def released (os : Os) : Os where
  disp i := if i = sigAbrt then (newAct .crashAction).kept else os.disp i
  mask i := os.mask i || blocked i

/-- Setting the actions of some signals to what has been kept. -/
theorem foldl_sigaction (sigs : List ℕ) (act : ℕ → Kept) (os : Os) :
    sigs.foldl (fun os sig => os.sigaction sig (act sig).toSigAction) os =
      { os with disp := fun i => if i ∈ sigs then act i else os.disp i } := by
  induction sigs generalizing os with
  | nil => simp
  | cons sig sigs ih =>
    rw [List.foldl_cons, ih]
    simp only [Os.sigaction, Kept.kept_toSigAction, Os.mk.injEq, and_true]
    funext i
    by_cases hi : i = sig
    · subst hi
      simp
    · simp [hi]

/-- Taking over some signals. -/
theorem foldl_takeover (new : SigAction) (sigs : List ℕ) (s : State F) (blocks : SigSet) :
    sigs.foldl (takeover new) (s, blocks) =
      ({ s with os := { s.os with disp := fun i => if i ∈ sigs then new.kept else s.os.disp i } },
        fun i => blocks i && decide (i ∉ sigs)) := by
  induction sigs generalizing s blocks with
  | nil => simp
  | cons sig sigs ih =>
    rw [List.foldl_cons, takeover, ih]
    simp only [Os.sigaction, sigdelset, Prod.mk.injEq, State.mk.injEq, Os.mk.injEq, and_true]
    constructor
    · funext i
      by_cases hi : i = sig
      · subst hi
        simp
      · simp [hi]
    · funext i
      by_cases hi : i = sig <;> simp [hi]

/-- The backups of a system. -/
def backupsOf (os : Os) : List (ℕ × SigAction) :=
  backedUp.map fun sig => (sig, (os.disp sig).toSigAction)

/-- **What `CatchGlobalSig` does**, if nothing is caught yet. -/
theorem catchGlobalSig_eq {s : State F} (hs : s.takedOver = false) (action : F) :
    catchGlobalSig action s =
      .ok ⟨caught s.os, backupsOf s.os, s.os.mask, some action, true⟩ := by
  obtain ⟨os, baks, blocks, act, taken⟩ := s
  obtain rfl : taken = false := hs
  have hbackup : backedUp.foldl State.backup ⟨os, [], blocks, some action, false⟩ =
      ⟨os, backupsOf os, blocks, some action, false⟩ := by
    simp [backedUp, backupsOf, State.backup, sigHup, sigInt, sigQuit, sigTerm, sigChld, sigIll,
      sigFpe, sigSegv]
  simp only [catchGlobalSig, Bool.false_eq_true, if_false, hbackup, foldl_takeover, Os.block,
    caught, blocked]

/-- **What `RevocGlogalSig` does**, if the signals of `os` are caught. -/
theorem revocGlogalSig_eq (os : Os) (action : Option F) :
    revocGlogalSig ⟨caught os, backupsOf os, os.mask, action, true⟩ =
      .ok ⟨released os, [], os.mask, action, false⟩ := by
  have hrestore : (backupsOf os).foldl (fun os x => os.sigaction x.1 x.2) (caught os) =
      { caught os with
        disp := fun i => if i ∈ backedUp then os.disp i else (caught os).disp i } := by
    rw [backupsOf, List.foldl_map]
    exact foldl_sigaction backedUp os.disp (caught os)
  simp only [revocGlogalSig, if_true, hrestore, Os.block, released, Except.ok.injEq, State.mk.injEq,
    Os.mk.injEq, and_true]
  constructor
  · funext i
    by_cases hi : i = sigAbrt
    · subst hi
      rfl
    · rw [if_neg hi]
      by_cases hback : i ∈ backedUp
      · rw [if_pos hback]
      · have hcrash : i ∉ crashes := by
          simp only [crashes, backedUp, List.mem_cons, List.not_mem_nil, or_false] at hi hback ⊢
          tauto
        have hregular : i ∉ regular := by
          simp only [regular, backedUp, List.mem_cons, List.not_mem_nil, or_false] at hback ⊢
          tauto
        simp only [caught, if_neg hback, if_neg hcrash, if_neg hregular]
  · funext i
    simp only [caught, setmask]
    cases os.mask i <;> simp

/-! ## Runs -/

/-- A pair leaves these systems as they were: `SIGABRT` already has the action that it is given, and
every signal that is blocked already is. -/
def Harmless (os : Os) : Prop :=
  os.disp sigAbrt = (newAct .crashAction).kept ∧ ∀ i, blocked i = true → os.mask i = true

theorem released_eq_iff (os : Os) : released os = os ↔ Harmless os := by
  constructor
  · intro h
    constructor
    · exact (congrFun (congrArg Os.disp h) sigAbrt).symm
    · intro i hi
      have hmask : (os.mask i || blocked i) = os.mask i := congrFun (congrArg Os.mask h) i
      rwa [hi, Bool.or_true, eq_comm] at hmask
  · rintro ⟨habrt, hmask⟩
    obtain ⟨disp, mask⟩ := os
    simp only [released, Os.mk.injEq] at habrt hmask ⊢
    constructor
    · funext i
      by_cases hi : i = sigAbrt
      · rw [if_pos hi, hi, habrt]
      · rw [if_neg hi]
    · funext i
      cases hi : blocked i with
      | false => exact Bool.or_false _
      | true => rw [hmask i hi, Bool.true_or]

/-- A pair leaves behind what no further pair changes. -/
theorem harmless_released (os : Os) : Harmless (released os) := by
  constructor
  · simp only [released, if_true]
  · intro i hi
    simp only [released, hi, Bool.or_true]

/-- Where a run stands: nothing is caught and the system is `os`, or what was `os` is caught. -/
def Stands (os : Os) (s : State F) (before : Os) : Prop :=
  (s.takedOver = false ∧ s.os = os) ∨
    (before = os ∧ ∃ action, s = ⟨caught os, backupsOf os, os.mask, action, true⟩)

/-- What a run does, pair by pair. The first pair starts from `os`, and the others from what it has
left. -/
theorem pairs_eq {s : State F} {os before : Os} (h : Stands os s before) (cs : List (Call F)) :
    (∀ x ∈ pairs s before cs, x = (os, released os) ∨ x = (released os, released os)) ∧
      (pairs s before cs ≠ [] → (os, released os) ∈ pairs s before cs) := by
  induction cs generalizing s os before with
  | nil => simp [pairs]
  | cons c cs ih =>
    rcases h with ⟨hs, rfl⟩ | ⟨rfl, action, rfl⟩
    · cases c with
      | catchGlobal action =>
        simp only [pairs, State.call, catchGlobalSig_eq hs]
        exact ih (Or.inr ⟨rfl, _, rfl⟩)
      | revocGlobal =>
        simp only [pairs, State.call, revocGlogalSig, hs, Bool.false_eq_true, if_false]
        exact ih (Or.inl ⟨hs, rfl⟩)
    · cases c with
      | catchGlobal action =>
        simp only [pairs, State.call, catchGlobalSig, if_true]
        exact ih (Or.inr ⟨rfl, _, rfl⟩)
      | revocGlobal =>
        simp only [pairs, State.call, revocGlogalSig_eq]
        have hstands : Stands (released before)
            (⟨released before, [], before.mask, action, false⟩ : State F) before :=
          Or.inl ⟨rfl, rfl⟩
        obtain ⟨hall, -⟩ := ih hstands
        rw [(released_eq_iff _).mpr (harmless_released before)] at hall
        constructor
        · intro x hx
          rcases List.mem_cons.mp hx with rfl | hx
          · exact Or.inl rfl
          · exact Or.inr ((hall x hx).elim id id)
        · intro _
          exact List.mem_cons_self

/-- **Everything is put back exactly if there was nothing to put back.** Over any run of calls,
refused ones included, every call that lets go of the signals leaves the system as it was before
the call that caught them if and only if there is no such call, or at the start `SIGABRT` has the
action of `CrashAction` and all that is going to be blocked is blocked, as one pair leaves it. -/
theorem restored_iff (os : Os) (cs : List (Call F)) :
    (∀ x ∈ pairs (State.init F os) os cs, x.2 = x.1) ↔
      pairs (State.init F os) os cs = [] ∨ Harmless os := by
  have hstands : Stands os (State.init F os) os := Or.inl ⟨rfl, rfl⟩
  obtain ⟨hall, hfirst⟩ := pairs_eq hstands cs
  constructor
  · intro h
    by_cases hnil : pairs (State.init F os) os cs = []
    · exact Or.inl hnil
    · exact Or.inr ((released_eq_iff os).mp (h _ (hfirst hnil)))
  · rintro (hnil | hharmless)
    · rw [hnil]
      intro x hx
      cases hx
    · have heq := (released_eq_iff os).mpr hharmless
      intro x hx
      rcases hall x hx with rfl | rfl
      · exact heq
      · rfl

/-- Every signal has its default action, and none is blocked. -/
def plain : Os := ⟨fun _ => ⟨⟨0, .default, fun _ => false⟩, rfl, rfl⟩, fun _ => false⟩

/-- **The default handling is not put back**: after one pair `SIGABRT` is still caught, and signal
`10` is still blocked. -/
theorem not_restored : ∃ after,
    pairs (State.init Unit plain) plain [.catchGlobal (), .revocGlobal] = [(plain, after)] ∧
      (after.disp sigAbrt).handler = .crashAction ∧
      (plain.disp sigAbrt).handler = .default ∧ after.mask 10 = true ∧ plain.mask 10 = false :=
  ⟨_, rfl, rfl, rfl, rfl, rfl⟩

end Signals

end LeonUtils
