import LeonUtils.SetOps.Integral
import LeonUtils.Transition

/-!
# Binding threads to processors

`ProcessOnlyCPU` and `PthreadOnlyCPU` read the numbers of processors in a text and have the kernel
keep the calling thread on these; `GetSchedCpuMask` and `GetThreadCpuMask` show where it may run,
one digit for each processor.

The kernel takes of a set of processors those that the machine has, and refuses a set of which none
is left. A new thread inherits the set of the thread that creates it. Both pairs of functions act on
the calling thread alone.

## Main definitions

* `CpuSet`, `cpuSet`, `cpuIsset` — `cpu_set_t`
* `Machine` — the kernel's view of the threads
* `makeSet`, `mask2Str`, `processOnlyCPU`, `pthreadOnlyCPU`, `getSchedCpuMask` — the module
* `Asked` — the processors that a set of numbers stands for
* `Call`, `threads` — any number of threads at work

## Main results

* `makeSet_eq` — the set that is made of numbers
* `processOnlyCPU_eq` — what a call does, for every text
* `Sane.steps` — in every run a thread has a processor to run on, and none that it may not use
* `mask_restored` — the digits that were shown, turned into numbers again, restore a set
-/

namespace LeonUtils

namespace CpuAffinity

open Transition SetOps

/-! ## Sets of processors -/

/-- `cpu_set_t`, of `CPU_SETSIZE` bits. -/
abbrev CpuSet := Fin 1024 → Bool

/-- `CPU_ZERO`. -/
def cpuZero : CpuSet := fun _ => false

/-- `CPU_SET`. The number is taken as a `size_t`, and one that has no bit is passed over. -/
def cpuSet (id : ℤ) (set : CpuSet) : CpuSet :=
  let cpu := id % 2 ^ 64
  if cpu / 8 < 128 then fun i => if (i : ℤ) = cpu then true else set i else set

/-- `CPU_ISSET`. -/
def cpuIsset (id : ℕ) (set : CpuSet) : Bool := if h : id < 1024 then set ⟨id, h⟩ else false

/-- A number that fits into an `int` sets the bit of its own, if there is one. -/
theorem cpuSet_apply {id : ℤ} (hlow : -2 ^ 31 ≤ id) (hhigh : id < 2 ^ 31) (set : CpuSet)
    (i : Fin 1024) : cpuSet id set i = true ↔ (i : ℤ) = id ∨ set i = true := by
  have hi : ((i : ℕ) : ℤ) < 1024 := by exact_mod_cast i.isLt
  simp only [cpuSet]
  split
  · rename_i hcpu
    have hid : id % 2 ^ 64 = id := by omega
    rw [hid]
    by_cases heq : (i : ℤ) = id <;> simp [heq]
  · rename_i hcpu
    have hne : (i : ℤ) ≠ id := by omega
    simp [hne]

/-! ## The machine -/

/-- What the kernel knows: how many processors are online, which of them threads may use, and where
each thread may run. -/
structure Machine (Tid : Type) where
  /-- `sysconf( _SC_NPROCESSORS_ONLN )` -/
  online : ℤ
  allowed : CpuSet
  mask : Tid → CpuSet

variable {Tid : Type}

/-- The processors of a set that the kernel lets a thread use. -/
def Machine.usable (m : Machine Tid) (set : CpuSet) : CpuSet := fun i => set i && m.allowed i

/-- `sched_setaffinity( 0, .. )`, and `pthread_setaffinity_np( pthread_self(), .. )`: a set of which
the thread can use nothing is refused. -/
def Machine.setaffinity [DecidableEq Tid] (m : Machine Tid) (t : Tid) (set : CpuSet) :
    Machine Tid :=
  if ∃ i, m.usable set i = true then { m with mask := Function.update m.mask t (m.usable set) }
  else m

/-! ## The module -/

/-- A value of type `int`. -/
abbrev IntVal := Integral.Val .i32

/-- The number that stands for all processors. -/
def minusOne : IntVal := ⟨-1, by decide⟩

def Machine.getCpuCount (m : Machine Tid) : ℤ :=
  if m.online < 1 then -1 else (Integral.narrow .i32 m.online).val

/-- `_Mask2Str`. -/
def mask2Str (mask : CpuSet) (total : ℤ) : Str :=
  (List.range total.toNat).map fun i => if cpuIsset i mask then '1' else '0'

def Machine.getSchedCpuMask (m : Machine Tid) (t : Tid) : Str :=
  if m.getCpuCount < 0 then [] else mask2Str (m.mask t) m.getCpuCount

def Machine.getThreadCpuMask (m : Machine Tid) (t : Tid) : Str :=
  if m.getCpuCount < 0 then [] else mask2Str (m.mask t) m.getCpuCount

/-- `_MakeSet`. -/
def Machine.makeSet (m : Machine Tid) (ids : Finset IntVal) : CpuSet :=
  if minusOne ∈ ids then
    (List.range m.getCpuCount.toNat).foldl (fun set (id : ℕ) => cpuSet id set) cpuZero
  else (inOrder ids).foldl (fun set id => cpuSet id.val set) cpuZero

variable [DecidableEq Tid]

def Machine.processOnlyCPU (m : Machine Tid) (t : Tid) (ids : Str) :
    Except StoExn (Machine Tid) := do
  let idSet ← split2ints .i32 ids ','
  let idSet := if idSet = ∅ then insert minusOne idSet else idSet
  return m.setaffinity t (m.makeSet idSet)

def Machine.pthreadOnlyCPU (m : Machine Tid) (t : Tid) (ids : Str) :
    Except StoExn (Machine Tid) := do
  let idSet ← split2ints .i32 ids ','
  let idSet := if idSet = ∅ then insert minusOne idSet else idSet
  return m.setaffinity t (m.makeSet idSet)

/-! ## What a call does -/

/-- The processors that a set of numbers stands for, of `cnt` that are online. -/
def Asked (cnt : ℤ) (ids : Finset IntVal) (i : Fin 1024) : Prop :=
  if ids = ∅ ∨ minusOne ∈ ids then (i : ℤ) < cnt else ∃ id ∈ ids, id.val = (i : ℤ)

omit [DecidableEq Tid] in
/-- Setting the bits of a list of numbers. -/
theorem foldl_cpuSet {K : Type} (val : K → ℤ) {ks : List K}
    (hval : ∀ k ∈ ks, -2 ^ 31 ≤ val k ∧ val k < 2 ^ 31) (set : CpuSet) (i : Fin 1024) :
    ks.foldl (fun set k => cpuSet (val k) set) set i = true ↔
      (∃ k ∈ ks, val k = (i : ℤ)) ∨ set i = true := by
  induction ks generalizing set with
  | nil => simp
  | cons k ks ih =>
    obtain ⟨hk, hks⟩ := List.forall_mem_cons.mp hval
    rw [List.foldl_cons, ih hks, cpuSet_apply hk.1 hk.2, List.exists_mem_cons_iff, or_assoc,
      or_left_comm, eq_comm (a := val k)]

omit [DecidableEq Tid] in
theorem getCpuCount_lt (m : Machine Tid) : m.getCpuCount < 2 ^ 31 := by
  rw [Machine.getCpuCount]
  split
  · norm_num
  · exact lt_of_lt_of_eq (Integral.narrow .i32 m.online).property.2 (by decide)

omit [DecidableEq Tid] in
/-- The set that is made of numbers. -/
theorem makeSet_eq (m : Machine Tid) (ids : Finset IntVal) (i : Fin 1024) :
    m.makeSet (if ids = ∅ then insert minusOne ids else ids) i = true ↔
      Asked m.getCpuCount ids i := by
  have hall : minusOne ∈ (if ids = ∅ then insert minusOne ids else ids) ↔
      ids = ∅ ∨ minusOne ∈ ids := by
    split
    · rename_i hempty
      simp [hempty]
    · rename_i hne
      simp [hne]
  rw [Machine.makeSet, Asked]
  by_cases hmem : ids = ∅ ∨ minusOne ∈ ids
  · have hlt := getCpuCount_lt m
    rw [if_pos (hall.mpr hmem), if_pos hmem, foldl_cpuSet (fun id : ℕ => (id : ℤ))]
    · simp only [cpuZero, Bool.false_eq_true, or_false, List.mem_range]
      constructor
      · rintro ⟨id, hid, heq⟩
        omega
      · intro hi
        exact ⟨i, by omega, rfl⟩
    · intro id hid
      have hid := List.mem_range.mp hid
      constructor <;> omega
  · have hne : ids ≠ ∅ := fun h => hmem (Or.inl h)
    rw [if_neg (mt hall.mp hmem), if_neg hmem, if_neg hne,
      foldl_cpuSet (fun id : IntVal => id.val)]
    · simp only [cpuZero, Bool.false_eq_true, or_false, inOrder, Finset.mem_sort]
    · rintro ⟨id, hlow, hhigh⟩ -
      exact ⟨hlow, hhigh.trans_le (by decide)⟩

/-- **What a call does**, for every text that can be read: nothing but the set of the calling thread
changes, and that one becomes what has been asked for, as far as the thread may use it; it stays as
it was if the thread may use nothing of it. -/
theorem processOnlyCPU_eq (m : Machine Tid) (t : Tid) {text : Str} {ids : Finset IntVal}
    (h : split2ints .i32 text ',' = .ok ids) :
    ∃ set, m.processOnlyCPU t text = .ok { m with mask := Function.update m.mask t set } ∧
      ((∃ i, Asked m.getCpuCount ids i ∧ m.allowed i = true) →
        ∀ i, set i = true ↔ Asked m.getCpuCount ids i ∧ m.allowed i = true) ∧
      ((¬ ∃ i, Asked m.getCpuCount ids i ∧ m.allowed i = true) → set = m.mask t) := by
  have husable : ∀ i, m.usable (m.makeSet (if ids = ∅ then insert minusOne ids else ids)) i = true ↔
      Asked m.getCpuCount ids i ∧ m.allowed i = true := by
    intro i
    rw [Machine.usable, Bool.and_eq_true, makeSet_eq]
  have hcall : m.processOnlyCPU t text =
      .ok (m.setaffinity t (m.makeSet (if ids = ∅ then insert minusOne ids else ids))) := by
    rw [Machine.processOnlyCPU, h]
    rfl
  rw [hcall]
  generalize m.makeSet (if ids = ∅ then insert minusOne ids else ids) = asked at husable
  by_cases hsome : ∃ i, m.usable asked i = true
  · refine ⟨m.usable asked, by rw [Machine.setaffinity, if_pos hsome], fun _ => husable, ?_⟩
    exact fun hno => absurd ((exists_congr husable).mp hsome) hno
  · refine ⟨m.mask t, by rw [Machine.setaffinity, if_neg hsome, Function.update_eq_self], ?_, ?_⟩
    · exact fun hask => absurd ((exists_congr husable).mpr hask) hsome
    · exact fun _ => rfl

/-- Both functions do the same. -/
theorem pthreadOnlyCPU_eq (m : Machine Tid) (t : Tid) (text : Str) :
    m.pthreadOnlyCPU t text = m.processOnlyCPU t text := rfl

/-! ## Threads at work -/

/-- What a thread does. -/
inductive Call (Tid : Type)
  | process (ids : Str)
  | pthread (ids : Str)
  | spawn (child : Tid)

/-- One call. A text that cannot be read is an exception, and changes nothing. -/
def Machine.step (m : Machine Tid) (t : Tid) : Call Tid → Machine Tid
  | .process ids =>
    match m.processOnlyCPU t ids with
    | .ok m' => m'
    | .error _ => m
  | .pthread ids =>
    match m.pthreadOnlyCPU t ids with
    | .ok m' => m'
    | .error _ => m
  | .spawn child => { m with mask := Function.update m.mask child (m.mask t) }

/-- A thread has a processor to run on, and runs on none that it may not use. -/
def Sane (m : Machine Tid) : Prop :=
  ∀ t, (∃ i, m.mask t i = true) ∧ ∀ i, m.mask t i = true → m.allowed i = true

/-- Any number of threads at work. -/
def threads (Tid : Type) [DecidableEq Tid] : System (Machine Tid) (Tid × Call Tid) where
  init := Sane
  next m e m' := m' = m.step e.1 e.2

omit [DecidableEq Tid] in
/-- A thread is given a set. -/
theorem Sane.update [DecidableEq Tid] {m : Machine Tid} (h : Sane m) (t : Tid) {set : CpuSet}
    (hne : ∃ i, set i = true) (hallowed : ∀ i, set i = true → m.allowed i = true) :
    Sane { m with mask := Function.update m.mask t set } := by
  intro u
  by_cases hu : u = t
  · subst hu
    simp only [Function.update_self]
    exact ⟨hne, hallowed⟩
  · simp only [Function.update_of_ne hu]
    exact h u

/-- A call changes neither the processors nor who may use them, and leaves the threads sane. -/
theorem Sane.process {m m' : Machine Tid} (h : Sane m) {t : Tid} {text : Str}
    (hcall : m.processOnlyCPU t text = .ok m') :
    Sane m' ∧ m'.online = m.online ∧ m'.allowed = m.allowed := by
  cases hread : split2ints .i32 text ',' with
  | error e =>
    rw [Machine.processOnlyCPU, hread] at hcall
    cases hcall
  | ok ids =>
    obtain ⟨set, hset, hsome, hno⟩ := processOnlyCPU_eq m t hread
    obtain rfl := Except.ok.inj (hcall.symm.trans hset)
    refine ⟨?_, rfl, rfl⟩
    by_cases hasked : ∃ i, Asked m.getCpuCount ids i ∧ m.allowed i = true
    · have hmem := hsome hasked
      obtain ⟨i, hi⟩ := hasked
      exact h.update t ⟨i, (hmem i).mpr hi⟩ fun j hj => ((hmem j).mp hj).2
    · rw [hno hasked]
      exact h.update t (h t).1 (h t).2

theorem Sane.step {m : Machine Tid} (h : Sane m) (t : Tid) (c : Call Tid) :
    Sane (m.step t c) ∧ (m.step t c).online = m.online ∧ (m.step t c).allowed = m.allowed := by
  cases c with
  | process ids =>
    rw [Machine.step]
    split
    · rename_i m' hcall
      exact h.process hcall
    · exact ⟨h, rfl, rfl⟩
  | pthread ids =>
    rw [Machine.step, pthreadOnlyCPU_eq]
    split
    · rename_i m' hcall
      exact h.process hcall
    · exact ⟨h, rfl, rfl⟩
  | spawn child => exact ⟨h.update child (h t).1 (h t).2, rfl, rfl⟩

/-- Any number of calls. -/
theorem Sane.steps {m m' : Machine Tid} (h : Sane m) {π : List ((Tid × Call Tid) × Machine Tid)}
    (hπ : (threads Tid).Steps m π m') :
    Sane m' ∧ m'.online = m.online ∧ m'.allowed = m.allowed := by
  induction hπ with
  | refl => exact ⟨h, rfl, rfl⟩
  | snoc _ hnext ih =>
    obtain rfl := hnext
    obtain ⟨hsane, honline, hallowed⟩ := ih
    obtain ⟨hstep, hcnt, hmay⟩ := hsane.step _ _
    exact ⟨hstep, hcnt.trans honline, hmay.trans hallowed⟩

/-! ## Showing and restoring -/

/-- The numbers of the digits `1`. -/
def shown (s : Str) : Finset IntVal :=
  (((List.range s.length).filter fun i => s[i]? = some '1').map fun (i : ℕ) =>
    Integral.narrow .i32 i).toFinset

theorem mem_shown {s : Str} {id : IntVal} :
    id ∈ shown s ↔ ∃ i : ℕ, s[i]? = some '1' ∧ Integral.narrow .i32 (i : ℤ) = id := by
  simp only [shown, List.mem_toFinset, List.mem_map, List.mem_filter, List.mem_range,
    decide_eq_true_eq]
  constructor
  · rintro ⟨i, ⟨-, hi⟩, hid⟩
    exact ⟨i, hi, hid⟩
  · rintro ⟨i, hi, hid⟩
    exact ⟨i, ⟨(List.getElem?_eq_some_iff.mp hi).1, hi⟩, hid⟩

/-- A digit that is shown. -/
theorem getElem?_mask2Str (mask : CpuSet) (total : ℤ) (i : ℕ) :
    (mask2Str mask total)[i]? = some '1' ↔ (i : ℤ) < total ∧ cpuIsset i mask = true := by
  rw [mask2Str, List.getElem?_map, Option.map_eq_some_iff]
  constructor
  · rintro ⟨j, hj, hdigit⟩
    obtain ⟨hlt, rfl⟩ := List.getElem?_eq_some_iff.mp hj
    rw [List.getElem_range] at hdigit
    rw [List.length_range] at hlt
    refine ⟨by omega, ?_⟩
    by_contra hclear
    rw [if_neg hclear] at hdigit
    cases hdigit
  · rintro ⟨hlt, hset⟩
    exact ⟨i, List.getElem?_range (by omega), if_pos hset⟩

omit [DecidableEq Tid] in
theorem getSchedCpuMask_eq (m : Machine Tid) (t : Tid) :
    m.getSchedCpuMask t = mask2Str (m.mask t) m.getCpuCount := by
  rw [Machine.getSchedCpuMask]
  split
  · rename_i hneg
    rw [mask2Str, Int.toNat_of_nonpos hneg.le]
    rfl
  · rfl

theorem cpuIsset_iff (mask : CpuSet) (i : ℕ) :
    cpuIsset i mask = true ↔ ∃ j : Fin 1024, mask j = true ∧ (j : ℕ) = i := by
  rw [cpuIsset]
  split
  · rename_i hlt
    constructor
    · intro hset
      exact ⟨⟨i, hlt⟩, hset, rfl⟩
    · rintro ⟨j, hset, rfl⟩
      exact hset
  · rename_i hge
    refine ⟨fun h => absurd h Bool.false_ne_true, ?_⟩
    rintro ⟨j, -, rfl⟩
    exact absurd j.isLt hge

/-- The number of a processor is an `int`. -/
theorem narrow_cpu (j : Fin 1024) : (Integral.narrow .i32 ((j : ℕ) : ℤ)).val = ((j : ℕ) : ℤ) := by
  have hlt : ((j : ℕ) : ℤ) < 1024 := by exact_mod_cast j.isLt
  have hlow : Integral.low .i32 ≤ ((j : ℕ) : ℤ) := le_trans (by decide) (Int.natCast_nonneg j)
  have hhigh : ((j : ℕ) : ℤ) < Integral.low .i32 + 2 ^ Integral.bits .i32 :=
    hlt.trans (by decide)
  exact congrArg Subtype.val (Integral.narrow_val (⟨_, hlow, hhigh⟩ : IntVal))

omit [DecidableEq Tid] in
/-- The numbers of the digits are those of the processors, if none is beyond the digits. -/
theorem mem_shown_mask {m : Machine Tid} {t : Tid}
    (hcnt : ∀ i, m.mask t i = true → ((i : ℕ) : ℤ) < m.getCpuCount) (id : IntVal) :
    id ∈ shown (m.getSchedCpuMask t) ↔ ∃ j : Fin 1024, m.mask t j = true ∧ id.val = (j : ℕ) := by
  rw [mem_shown, getSchedCpuMask_eq]
  constructor
  · rintro ⟨i, hdigit, rfl⟩
    obtain ⟨j, hset, rfl⟩ :=
      (cpuIsset_iff (m.mask t) i).mp ((getElem?_mask2Str (m.mask t) m.getCpuCount i).mp hdigit).2
    exact ⟨j, hset, narrow_cpu j⟩
  · rintro ⟨j, hset, hid⟩
    refine ⟨j, (getElem?_mask2Str (m.mask t) m.getCpuCount j).mpr ⟨hcnt j hset, ?_⟩, ?_⟩
    · exact (cpuIsset_iff (m.mask t) j).mpr ⟨j, hset, rfl⟩
    · exact Subtype.ext ((narrow_cpu j).trans hid.symm)

omit [DecidableEq Tid] in
theorem asked_shown {m : Machine Tid} {t : Tid} (hne : ∃ i, m.mask t i = true)
    (hcnt : ∀ i, m.mask t i = true → ((i : ℕ) : ℤ) < m.getCpuCount) (cnt : ℤ) (i : Fin 1024) :
    Asked cnt (shown (m.getSchedCpuMask t)) i ↔ m.mask t i = true := by
  have hmem := mem_shown_mask hcnt
  obtain ⟨k, hk⟩ := hne
  have hsome : shown (m.getSchedCpuMask t) ≠ ∅ := by
    rw [← Finset.nonempty_iff_ne_empty]
    exact ⟨Integral.narrow .i32 ((k : ℕ) : ℤ), (hmem _).mpr ⟨k, hk, narrow_cpu k⟩⟩
  have hminus : minusOne ∉ shown (m.getSchedCpuMask t) := by
    intro h
    obtain ⟨j, -, hj⟩ := (hmem _).mp h
    have hval : minusOne.val = -1 := rfl
    omega
  rw [Asked, if_neg (not_or.mpr ⟨hsome, hminus⟩)]
  constructor
  · rintro ⟨id, hid, hi⟩
    obtain ⟨j, hset, hj⟩ := (hmem id).mp hid
    obtain rfl : j = i := Fin.ext (by omega)
    exact hset
  · intro hset
    exact ⟨Integral.narrow .i32 ((i : ℕ) : ℤ), (hmem _).mpr ⟨i, hset, narrow_cpu i⟩, narrow_cpu i⟩

/-- **What was shown can be restored.** On a machine whose processors all have a digit, whatever
threads have done before and do in between: the numbers of the digits that were shown for a thread,
written as a text, give any thread exactly the set that the thread had then. -/
theorem mask_restored {m₀ m m' : Machine Tid} {π π' : List ((Tid × Call Tid) × Machine Tid)}
    (hinit : (threads Tid).init m₀) (hπ : (threads Tid).Steps m₀ π m)
    (hπ' : (threads Tid).Steps m π' m')
    (hcnt : ∀ i, m₀.allowed i = true → ((i : ℕ) : ℤ) < m₀.getCpuCount) (t u : Tid) :
    m'.processOnlyCPU u (intsToStr .i32 (shown (m.getSchedCpuMask t)) ',') =
      .ok { m' with mask := Function.update m'.mask u (m.mask t) } := by
  obtain ⟨hsane, honline, hallowed⟩ := Sane.steps hinit hπ
  obtain ⟨-, -, hallowed'⟩ := Sane.steps hsane hπ'
  have hcount : m.getCpuCount = m₀.getCpuCount := by rw [Machine.getCpuCount, honline]; rfl
  obtain ⟨hne, hmay⟩ := hsane t
  have hasked : ∀ i, Asked m'.getCpuCount (shown (m.getSchedCpuMask t)) i ↔ m.mask t i = true := by
    refine asked_shown hne (fun i hi => ?_) m'.getCpuCount
    rw [hcount]
    exact hcnt i (hallowed ▸ hmay i hi)
  have hread := split2ints_of_numbers (T := .i32) rfl (shown (m.getSchedCpuMask t)) (d := ',')
    (by decide)
  obtain ⟨set, hcall, hsome, -⟩ := processOnlyCPU_eq m' u hread
  have husable : ∀ i, m.mask t i = true → m'.allowed i = true := fun i hi => hallowed' ▸ hmay i hi
  have hset : set = m.mask t := by
    funext i
    obtain ⟨k, hk⟩ := hne
    have hmem := hsome ⟨k, (hasked k).mpr hk, husable k hk⟩ i
    rw [Bool.eq_iff_iff, hmem, hasked i]
    exact and_iff_left_of_imp (husable i)
  rw [hcall, hset]

/-- Two threads on a machine of four processors. -/
def fourCpus : Machine Bool := ⟨4, fun i => decide (i < 4), fun _ i => decide (i < 4)⟩

theorem sane_fourCpus : Sane fourCpus := by
  intro t
  exact ⟨⟨0, rfl⟩, fun i hi => hi⟩

/-- One of the threads takes the first processor for its own, and is set back. -/
theorem mask_restored_fourCpus :
    (fourCpus.step true (.process "0".toList)).processOnlyCPU true
        (intsToStr .i32 (shown (fourCpus.getSchedCpuMask true)) ',') =
      .ok { fourCpus.step true (.process "0".toList) with
        mask := Function.update (fourCpus.step true (.process "0".toList)).mask true
          (fourCpus.mask true) } := by
  have hcall : (threads Bool).Steps fourCpus
      [((true, .process "0".toList), fourCpus.step true (.process "0".toList))]
      (fourCpus.step true (.process "0".toList)) := System.Steps.single rfl
  refine mask_restored sane_fourCpus .refl hcall (fun i hi => ?_) true true
  have hi : i < 4 := of_decide_eq_true hi
  have hcount : fourCpus.getCpuCount = 4 := by decide
  rw [hcount]
  exact_mod_cast hi

end CpuAffinity

end LeonUtils
