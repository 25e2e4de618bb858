import LeonUtils.Shm.Layout
import LeonUtils.TicketRing
import Mathlib.Data.List.Induction

/-!
# The call stack

`Tracer_t` and `PrintCallStack`, on one thread. The names of the functions that have been entered
are kept in a ring of `64` pointers, between two counters; what is printed is the part of the ring
above `s_btm`, up to `s_top`.

A call more than `63` deep overwrites the names of outer frames. When such a frame returns, its
destructor compares its name with that of another frame, which may be the same, or not, and then
`s_top` stays where it is. None of this can be seen: by then the printed part is empty, and it stays
empty until the next function is entered (`Good`).

## Names

A name is a pointer, and names are compared as pointers. `null` is what the ring holds at first, and
`text` is what a name points to; both are arbitrary.

## Integers

The counters are `int`. Because `s_top` may stay where it is while frames return, it is not bounded
by the depth of the calls, and a thread that goes deep often enough takes it to the maximum. There
the loop of `PrintCallStack` has no end. Overflow, which is undefined in C++, wraps here; the first
state that goes wrong comes before it.

## Main definitions

* `Stack`, `Stack.enter`, `Stack.leave`, `Stack.print` — the module
* `Thread`, `run` — the tracers of one thread
* `bounded` — the stack of which `PrintCallStack` prints a picture
* `Good` — the invariant

## Main results

* `Good.enter`, `Good.leave` — what a tracer does to it
* `top_le_enters` — where `s_top` can get
* `prints_iff` — the printed text is that of the bounded stack as long as `s_top` is below the
  maximum of `int`, and when that is certain
* `prints_forever` — a thread that gets there
-/

namespace LeonUtils

namespace CallStack

open TicketRing (emod_ne_emod getElem?_snoc)
open ShmAtmRQ (land_two_pow_sub_one)

variable {P : Type}

/-! ## The module -/

/-- Storing a value into an `int`. -/
def toInt (x : ℤ) : ℤ := Int.bmod x (2 ^ 32)

theorem toInt_of_le {x : ℤ} (hlow : -2 ^ 31 ≤ x) (hhigh : x < 2 ^ 31) : toInt x = x :=
  Int.bmod_eq_of_le (by omega) (by omega)

theorem toInt_lt (x : ℤ) : toInt x < 2 ^ 31 := by
  have hlt := Int.bmod_lt (x := x) (m := 2 ^ 32) (by norm_num)
  rw [toInt]
  omega

/-- `STACK_MASK`. -/
def stackMask : ℤ := 63

/-- `tl_call_stack`, `s_top` and `s_btm`. -/
structure Stack (P : Type) where
  slots : ℤ → P
  top : ℤ
  btm : ℤ

/-- `i & STACK_MASK`. -/
def slot (i : ℤ) : ℤ := Int.land i stackMask

theorem slot_eq (i : ℤ) : slot i = i % 64 := land_two_pow_sub_one i 6

/-- `Tracer_t::Tracer_t`. -/
def Stack.enter (s : Stack P) (fn : P) : Stack P :=
  let top := toInt (s.top + 1)
  let newBtm := toInt (top - stackMask)
  ⟨Function.update s.slots (slot top) fn, top, max s.btm newBtm⟩

/-- Constructing a tracer, as long as nothing overflows. -/
theorem Stack.enter_eq (slots : ℤ → P) {top : ℤ} (btm : ℤ) (fn : P) (h0 : 0 ≤ top)
    (hlt : top + 1 < 2 ^ 31) : (⟨slots, top, btm⟩ : Stack P).enter fn =
      ⟨Function.update slots ((top + 1) % 64) fn, top + 1, max btm (top + 1 - 63)⟩ := by
  have hnext : toInt (top + 1) = top + 1 := toInt_of_le (by omega) (by omega)
  have hnew : toInt (top + 1 - 63) = top + 1 - 63 := toInt_of_le (by omega) (by omega)
  simp only [Stack.enter, stackMask, hnext, hnew, slot_eq]

/-- `Tracer_t::~Tracer_t`. -/
def Stack.leave [DecidableEq P] (s : Stack P) (name : P) : Stack P :=
  if s.top ≤ 0 ∨ s.slots (slot s.top) ≠ name then s
  else
    let top := toInt (s.top - 1)
    { s with top := top, btm := min s.btm top }

/-- What destroying a tracer can do, as long as `s_top` is an `int`. -/
theorem Stack.leave_cases [DecidableEq P] (s : Stack P) (name : P) (hlt : s.top < 2 ^ 31) :
    ((s.top ≤ 0 ∨ s.slots (slot s.top) ≠ name) ∧ s.leave name = s) ∨
      (0 < s.top ∧ s.slots (slot s.top) = name ∧
        s.leave name = ⟨s.slots, s.top - 1, min s.btm (s.top - 1)⟩) := by
  rw [Stack.leave]
  split
  · rename_i hkeep
    exact Or.inl ⟨hkeep, rfl⟩
  · rename_i hpop
    obtain ⟨hpos, hname⟩ := not_or.mp hpop
    have hprev : toInt (s.top - 1) = s.top - 1 := toInt_of_le (by omega) (by omega)
    exact Or.inr ⟨not_le.mp hpos, not_not.mp hname, by rw [hprev]⟩

/-- The loop of `PrintCallStack`. -/
def Stack.printLoop (text : P → String) (s : Stack P) : ℕ → ℤ → String → String → Option String
  | 0, _, _, _ => none
  | fuel + 1, i, tabs, os =>
    if i ≤ s.top then
      let tabs := tabs ++ "\t"
      s.printLoop text fuel (toInt (i + 1)) tabs (os ++ tabs ++ text (s.slots (slot i)) ++ "()\n")
    else some os

/-- `Tracer_t::PrintCallStack`, going round its loop at most so many times. -/
def Stack.print (text : P → String) (s : Stack P) (fuel : ℕ) : Option String :=
  s.printLoop text fuel (toInt (s.btm + 1)) "" ""

/-- `PrintCallStack` returns, and has printed `out`. -/
def Stack.Prints (text : P → String) (s : Stack P) (out : String) : Prop :=
  ∃ N, ∀ fuel, N ≤ fuel → s.print text fuel = some out

/-! ## One thread -/

/-- The stack of a thread, and the names of its tracers, the innermost one last. -/
structure Thread (P : Type) where
  stack : Stack P
  live : List P

/-- What a thread does: it constructs a tracer, or destroys the innermost one. -/
inductive Op (P : Type)
  | enter (fn : P)
  | leave

/-- One step of a thread. There has to be a tracer to destroy. -/
def Thread.step [DecidableEq P] (t : Thread P) : Op P → Option (Thread P)
  | .enter fn => some ⟨t.stack.enter fn, t.live ++ [fn]⟩
  | .leave => t.live.getLast?.map fun name => ⟨t.stack.leave name, t.live.dropLast⟩

/-- A well-nested run. -/
def run [DecidableEq P] (t : Thread P) : List (Op P) → Option (Thread P)
  | [] => some t
  | op :: ops => (t.step op).bind fun t => run t ops

/-- A thread that has entered nothing. -/
def Thread.start (null : P) : Thread P := ⟨⟨fun _ => null, 0, 0⟩, []⟩

theorem run_append [DecidableEq P] (t : Thread P) (ops ops' : List (Op P)) :
    run t (ops ++ ops') = (run t ops).bind fun t => run t ops' := by
  induction ops generalizing t with
  | nil => rfl
  | cons op ops ih =>
    rw [List.cons_append, run, run, Option.bind_assoc]
    congr 1
    funext t
    exact ih t

theorem run_cons [DecidableEq P] {t u : Thread P} {op : Op P} (h : t.step op = some u)
    (ops : List (Op P)) : run t (op :: ops) = run u ops := by
  rw [run, h, Option.bind_some]

theorem step_enter [DecidableEq P] (s : Stack P) (live : List P) (fn : P) :
    (⟨s, live⟩ : Thread P).step (.enter fn) = some ⟨s.enter fn, live ++ [fn]⟩ := rfl

theorem run_singleton [DecidableEq P] (t : Thread P) (op : Op P) : run t [op] = t.step op := by
  simp [run]

/-! ## The bounded stack -/

/-- A stack that keeps the last `63` names. -/
def bounded (names : List P) : Op P → List P
  | .enter fn => (names ++ [fn]).drop (names.length + 1 - 63)
  | .leave => names.dropLast

/-- The bounded stack after a run. -/
def boundedAfter (ops : List (Op P)) : List P := ops.foldl bounded []

/-- What is printed of some names, one deeper than `tabs`. -/
def render (text : P → String) (tabs : String) : List P → String
  | [] => ""
  | name :: rest =>
    (tabs ++ "\t") ++ text name ++ "()\n" ++ render text (tabs ++ "\t") rest

/-! ## The invariant -/

/-- The printed part of a stack is `names`, and these are the innermost frames. -/
structure Good (s : Stack P) (live names : List P) : Prop where
  btm : 0 ≤ s.btm
  top : s.top = s.btm + names.length
  lt : s.top < 2 ^ 31 - 1
  le : names.length ≤ 63
  slot : ∀ (k : ℕ) name, names[k]? = some name → s.slots ((s.btm + 1 + k) % 64) = name
  live : names <:+ live

variable {s : Stack P} {live names : List P}

/-- A new tracer is the last name, and the first one goes when there are too many. -/
theorem Good.enter (h : Good s live names) (fn : P) (hlt : s.top + 1 < 2 ^ 31 - 1) :
    Good (s.enter fn) (live ++ [fn]) (bounded names (.enter fn)) := by
  obtain ⟨hbtm, htop, -, hle, hslot, hlive⟩ := h
  have hbtm' : max s.btm (s.top + 1 - 63) = s.btm + (names.length + 1 - 63 : ℕ) := by omega
  have henter : s.enter fn = ⟨Function.update s.slots ((s.top + 1) % 64) fn, s.top + 1,
      s.btm + (names.length + 1 - 63 : ℕ)⟩ := by
    rw [← hbtm']
    exact Stack.enter_eq s.slots s.btm fn (by omega) (by omega)
  rw [henter, bounded]
  generalize hdrop : names.length + 1 - 63 = d
  refine ⟨by positivity, ?_, hlt, ?_, ?_, ?_⟩
  · simp only [List.length_drop, List.length_append, List.length_singleton]
    omega
  · simp only [List.length_drop, List.length_append, List.length_singleton]
    omega
  · intro k name hname
    rw [List.getElem?_drop] at hname
    have hindex : s.btm + (d : ℤ) + 1 + k = s.btm + 1 + (d + k : ℕ) := by
      push_cast
      omega
    simp only [hindex]
    rcases getElem?_snoc hname with ⟨hk, hname⟩ | ⟨hk, rfl⟩
    · have hne : (s.btm + 1 + (d + k : ℕ)) % 64 ≠ (s.top + 1) % 64 :=
        emod_ne_emod (by omega) (by omega)
      rw [Function.update_of_ne hne]
      exact hslot _ _ hname
    · rw [show s.btm + 1 + ((d + k : ℕ) : ℤ) = s.top + 1 by omega, Function.update_self]
  · obtain ⟨outer, rfl⟩ := hlive
    exact (List.drop_suffix _ _).trans ⟨outer, by rw [List.append_assoc]⟩

/-- A new tracer that does not take `s_top` to the maximum leaves it below. -/
theorem Good.top_lt (h : Good s live names) (fn : P) (hlast : (s.enter fn).top ≠ 2 ^ 31 - 1) :
    s.top + 1 < 2 ^ 31 - 1 := by
  have hlt := h.lt
  have hbtm := h.btm
  have htop := h.top
  have hstored : (s.enter fn).top = s.top + 1 := toInt_of_le (by omega) (by omega)
  rw [hstored] at hlast
  omega

/-- The last name is where `s_top` is. -/
theorem Good.last {front : List P} {last : P} (h : Good s live (front ++ [last])) :
    s.slots (CallStack.slot s.top) = last := by
  have htop := h.top
  have hlast := h.slot front.length last (by simp)
  rw [List.length_append, List.length_singleton] at htop
  push_cast at htop
  rwa [show s.btm + 1 + (front.length : ℤ) = s.top by omega, ← slot_eq] at hlast

variable [DecidableEq P]

/-- A tracer that goes takes the last name with it, if there is one. -/
theorem Good.leave (h : Good s live names) {name : P} (hname : live.getLast? = some name) :
    Good (s.leave name) live.dropLast (bounded names .leave) := by
  have hgood := h
  obtain ⟨hbtm, htop, hlt, hle, hslot, hlive⟩ := h
  rcases List.eq_nil_or_concat names with rfl | ⟨front, last, rfl⟩
  · -- nothing is printed; the name may or may not be one that has been overwritten
    rw [List.length_nil, Nat.cast_zero, add_zero] at htop
    rcases s.leave_cases name (by omega) with ⟨-, heq⟩ | ⟨hpos, -, heq⟩
    · rw [heq]
      exact ⟨hbtm, by simpa [bounded] using htop, hlt, hle, hslot, List.nil_suffix⟩
    · rw [heq]
      exact ⟨by simp only; omega, by simp only [bounded, List.dropLast_nil, List.length_nil]; omega,
        by simp only; omega, by simp [bounded], by simp [bounded], List.nil_suffix⟩
  · rw [List.concat_eq_append] at *
    simp only [List.length_append, List.length_singleton] at htop hle
    push_cast at htop
    obtain ⟨outer, rfl⟩ := hlive
    rw [← List.append_assoc, List.getLast?_append_of_ne_nil _ (List.cons_ne_nil _ _)] at hname
    obtain rfl : last = name := by simpa using hname
    have hleave : s.leave last = { s with top := s.top - 1 } := by
      rcases s.leave_cases last (by omega) with ⟨hkeep, -⟩ | ⟨-, -, heq⟩
      · exact absurd hgood.last (hkeep.resolve_left (by omega))
      · rw [heq, min_eq_left (by omega)]
    rw [hleave, bounded, ← List.append_assoc, List.dropLast_concat, List.dropLast_concat]
    refine ⟨hbtm, by simp only; omega, by simp only; omega, by omega, ?_, List.suffix_append _ _⟩
    intro k name hk
    have hklt := (List.getElem?_eq_some_iff.mp hk).1
    exact hslot k name (by rw [List.getElem?_append_left hklt, hk])

/-! ## Printing -/

omit [DecidableEq P] in
/-- The loop prints what is left. -/
theorem Good.printLoop (h : Good s live names) (text : P → String) {front rest : List P}
    (hnames : names = front ++ rest) (tabs os : String) {fuel : ℕ} (hfuel : rest.length < fuel) :
    s.printLoop text fuel (s.btm + 1 + front.length) tabs os =
      some (os ++ render text tabs rest) := by
  have htop := h.top
  have hlt := h.lt
  have hbtm := h.btm
  induction rest generalizing front tabs os fuel with
  | nil =>
    obtain ⟨fuel, rfl⟩ := Nat.exists_eq_add_of_le' hfuel
    subst hnames
    rw [List.append_nil] at htop
    simp only [Stack.printLoop, if_neg (show ¬ s.btm + 1 + (front.length : ℤ) ≤ s.top by omega),
      render, String.append_empty]
  | cons name rest ih =>
    obtain ⟨fuel, rfl⟩ : ∃ fuel', fuel = fuel' + 1 := Nat.exists_eq_add_one.mpr (by omega)
    rw [List.length_cons] at hfuel
    have hlen := congrArg List.length hnames
    simp only [List.length_append, List.length_cons] at hlen
    have hslot := h.slot front.length name (by rw [hnames]; simp)
    have hnext : toInt (s.btm + 1 + front.length + 1) = s.btm + 1 + (front ++ [name]).length := by
      rw [toInt_of_le (by omega) (by omega), List.length_append, List.length_singleton]
      push_cast
      omega
    simp only [Stack.printLoop, if_pos (show s.btm + 1 + (front.length : ℤ) ≤ s.top by omega),
      hnext, slot_eq, hslot]
    rw [ih (by rw [hnames, List.append_assoc]; rfl) _ _ (by omega), render]
    simp only [String.append_assoc]

omit [DecidableEq P] in
/-- What is printed is the bounded stack. -/
theorem Good.prints (h : Good s live names) (text : P → String) :
    s.Prints text (render text "" names) := by
  refine ⟨names.length + 1, ?_⟩
  intro fuel hfuel
  have htop := h.top
  have hlt := h.lt
  have hbtm := h.btm
  have hloop := h.printLoop text (List.nil_append names).symm "" "" hfuel
  rw [List.length_nil, Nat.cast_zero, add_zero] at hloop
  rw [Stack.print, toInt_of_le (by omega) (by omega), hloop, String.empty_append]

omit [DecidableEq P] in
/-- At the maximum of `int` the loop has no end. -/
theorem printLoop_max (text : P → String) (htop : s.top = 2 ^ 31 - 1) (fuel : ℕ) {i : ℤ}
    (hi : i < 2 ^ 31) (tabs os : String) : s.printLoop text fuel i tabs os = none := by
  induction fuel generalizing i tabs os with
  | zero => rfl
  | succ fuel ih =>
    simp only [Stack.printLoop, if_pos (show i ≤ s.top by omega)]
    exact ih (toInt_lt _) _ _

omit [DecidableEq P] in
theorem not_prints_max {text : P → String} (htop : s.top = 2 ^ 31 - 1) (out : String) :
    ¬ s.Prints text out := by
  rintro ⟨N, hN⟩
  have hprint := hN N le_rfl
  rw [Stack.print, printLoop_max text htop N (toInt_lt _)] at hprint
  cases hprint

/-! ## Runs -/

/-- The invariant after every run in which `s_top` has stayed below the maximum of `int`. -/
theorem good_of_run (null : P) {ops : List (Op P)} {t : Thread P}
    (h : run (.start null) ops = some t)
    (hlow : ∀ pre u, pre <+: ops → run (.start null) pre = some u → u.stack.top ≠ 2 ^ 31 - 1) :
    Good t.stack t.live (boundedAfter ops) := by
  induction ops using List.reverseRecOn generalizing t with
  | nil =>
    cases h
    exact ⟨le_rfl, rfl, by norm_num [Thread.start], by simp [boundedAfter], by simp [boundedAfter],
      List.nil_suffix⟩
  | append_singleton ops op ih =>
    rw [run_append] at h
    obtain ⟨u, hu, hop⟩ := Option.bind_eq_some_iff.mp h
    have hgood := ih hu fun pre v hpre hv => hlow pre v (hpre.trans (List.prefix_append _ _)) hv
    have hlast : t.stack.top ≠ 2 ^ 31 - 1 :=
      hlow _ t List.prefix_rfl (by rw [run_append, hu]; exact hop)
    simp only [run_singleton] at hop
    rw [boundedAfter, List.foldl_concat, ← boundedAfter]
    cases op with
    | enter fn =>
      cases hop
      exact hgood.enter fn (hgood.top_lt fn hlast)
    | leave =>
      obtain ⟨name, hname, rfl⟩ := Option.map_eq_some_iff.mp hop
      exact hgood.leave hname

/-- Whether a tracer is constructed. -/
def Op.enters : Op P → Bool
  | .enter _ => true
  | .leave => false

/-- **`s_top` counts no more than the tracers constructed.** -/
theorem top_le_enters (null : P) {ops : List (Op P)} {t : Thread P}
    (h : run (.start null) ops = some t) (hfew : ops.countP Op.enters < 2 ^ 31 - 1) :
    0 ≤ t.stack.top ∧ t.stack.top ≤ ops.countP Op.enters := by
  induction ops using List.reverseRecOn generalizing t with
  | nil =>
    cases h
    exact ⟨le_rfl, le_rfl⟩
  | append_singleton ops op ih =>
    rw [run_append] at h
    obtain ⟨u, hu, hop⟩ := Option.bind_eq_some_iff.mp h
    rw [run_singleton] at hop
    rw [List.countP_append, List.countP_singleton] at hfew ⊢
    obtain ⟨h0, hle⟩ := ih hu (by omega)
    cases op with
    | enter fn =>
      cases hop
      simp only [Op.enters, if_true] at hfew ⊢
      push_cast
      have hstored : (u.stack.enter fn).top = u.stack.top + 1 := toInt_of_le (by omega) (by omega)
      change 0 ≤ (u.stack.enter fn).top ∧ (u.stack.enter fn).top ≤ _
      rw [hstored]
      omega
    | leave =>
      obtain ⟨name, -, rfl⟩ := Option.map_eq_some_iff.mp hop
      simp only [Op.enters, Bool.false_eq_true, if_false, add_zero] at hfew ⊢
      rcases u.stack.leave_cases name (by omega) with ⟨-, heq⟩ | ⟨hpos, -, heq⟩
      · rw [heq]
        exact ⟨h0, hle⟩
      · simp only [heq]
        omega

/-- **What is printed is the bounded stack, as long as `s_top` is below the maximum of `int`.** In
every well-nested run, at every instant `PrintCallStack` returns and prints the names of the bounded
stack, which are those of the innermost frames that are active, if and only if at no instant
`s_top` is at the maximum. A run that constructs fewer than `2 ^ 31 - 1` tracers never gets there,
however deep it goes and however often. -/
theorem prints_iff (null : P) (text : P → String) (ops : List (Op P)) :
    ((∀ pre u, pre <+: ops → run (.start null) pre = some u →
        u.stack.Prints text (render text "" (boundedAfter pre)) ∧ boundedAfter pre <:+ u.live) ↔
      ∀ pre u, pre <+: ops → run (.start null) pre = some u → u.stack.top ≠ 2 ^ 31 - 1) ∧
    (ops.countP Op.enters < 2 ^ 31 - 1 →
      ∀ pre u, pre <+: ops → run (.start null) pre = some u → u.stack.top ≠ 2 ^ 31 - 1) := by
  refine ⟨⟨?_, ?_⟩, ?_⟩
  · intro hprints pre u hpre hu htop
    exact not_prints_max htop _ (hprints pre u hpre hu).1
  · intro hlow pre u hpre hu
    have hgood := good_of_run null hu fun pre' v hpre' hv => hlow pre' v (hpre'.trans hpre) hv
    exact ⟨hgood.prints text, hgood.live⟩
  · intro hfew pre u hpre hu htop
    have hcount : pre.countP Op.enters ≤ ops.countP Op.enters := hpre.sublist.countP_le
    have htop_le := (top_le_enters null hu (by omega)).2
    omega

/-! ## A thread that goes deep again and again -/

/-- Entering the same function over and over. -/
theorem run_enters (fn : P) (n : ℕ) (slots : ℤ → P) (top btm : ℤ) (live : List P) (h0 : 0 ≤ top)
    (hbtm : top - 63 ≤ btm) (hlt : top + n < 2 ^ 31) :
    ∃ slots', run ⟨⟨slots, top, btm⟩, live⟩ (List.replicate n (.enter fn)) =
        some ⟨⟨slots', top + n, max btm (top + n - 63)⟩, live ++ List.replicate n fn⟩ ∧
      (∀ j, slots' j = fn ∨ slots' j = slots j) ∧
      ∀ i, top < i → i ≤ top + n → slots' (i % 64) = fn := by
  induction n generalizing slots top btm live with
  | zero =>
    refine ⟨slots, ?_, fun _ => Or.inr rfl, fun i hlow hhigh => by omega⟩
    have hmax : max btm (top + (0 : ℕ) - 63) = btm := max_eq_left (by omega)
    rw [List.replicate_zero, List.replicate_zero, run, hmax, Nat.cast_zero, add_zero,
      List.append_nil]
  | succ n ih =>
    push_cast at hlt
    obtain ⟨slots', hrun, hold, hnew⟩ := ih (Function.update slots ((top + 1) % 64) fn)
      (top + 1) (max btm (top + 1 - 63)) (live ++ [fn]) (by omega) (by omega) (by omega)
    have hkeep : ∀ j, slots' j = fn ∨ slots' j = slots j := by
      intro j
      rcases hold j with hj | hj
      · exact Or.inl hj
      · by_cases heq : j = (top + 1) % 64
        · subst heq
          exact Or.inl (by rw [hj, Function.update_self])
        · exact Or.inr (by rw [hj, Function.update_of_ne heq])
    refine ⟨slots', ?_, hkeep, ?_⟩
    · have htop : top + 1 + n = top + (n + 1 : ℕ) := by
        push_cast
        omega
      have hmax : max (max btm (top + 1 - 63)) (top + (n + 1 : ℕ) - 63) =
          max btm (top + (n + 1 : ℕ) - 63) := by
        push_cast
        omega
      rw [htop, hmax, List.append_assoc, List.singleton_append, ← List.replicate_succ] at hrun
      rw [List.replicate_succ, run_cons (step_enter ..), Stack.enter_eq _ _ _ h0 (by omega), hrun]
    · intro i hlow hhigh
      push_cast at hhigh
      by_cases hi : i = top + 1
      · rcases hold (i % 64) with hj | hj
        · exact hj
        · rw [hj, hi, Function.update_self]
      · exact hnew i (by omega) (by omega)

/-- Returning from it over and over, when the ring holds no other name. -/
theorem run_leaves (fn : P) (n : ℕ) {slots : ℤ → P} (hslots : ∀ i, slots (i % 64) = fn)
    (top btm : ℤ) (live : List P) (hn : n ≤ top) (hbtm : btm ≤ top) (hlt : top < 2 ^ 31) :
    run ⟨⟨slots, top, btm⟩, live ++ List.replicate n fn⟩ (List.replicate n .leave) =
      some ⟨⟨slots, top - n, min btm (top - n)⟩, live⟩ := by
  induction n generalizing top btm with
  | zero => simp [run, hbtm]
  | succ n ih =>
    push_cast at hn
    have hstep : (⟨slots, top, btm⟩ : Stack P).leave fn = ⟨slots, top - 1, min btm (top - 1)⟩ := by
      rw [Stack.leave, if_neg]
      · simp only [toInt_of_le (show -2 ^ 31 ≤ top - 1 by omega) (by omega)]
      · simp only [slot_eq, hslots, ne_eq, not_true_eq_false, or_false, not_le]
        omega
    have hlast : (live ++ List.replicate (n + 1) fn).getLast? = some fn := by
      rw [List.replicate_succ', ← List.append_assoc, List.getLast?_concat]
    have hfront : (live ++ List.replicate (n + 1) fn).dropLast = live ++ List.replicate n fn := by
      rw [List.replicate_succ', ← List.append_assoc, List.dropLast_concat]
    have hmin : min (min btm (top - 1)) (top - 1 - n) = min btm (top - (n + 1 : ℕ)) := by
      push_cast
      omega
    have htop : top - 1 - n = top - (n + 1 : ℕ) := by
      push_cast
      omega
    have hleave : (⟨⟨slots, top, btm⟩, live ++ List.replicate (n + 1) fn⟩ : Thread P).step .leave =
        some ⟨⟨slots, top - 1, min btm (top - 1)⟩, live ++ List.replicate n fn⟩ := by
      simp only [Thread.step, hlast, Option.map_some, hstep, hfront]
    rw [List.replicate_succ (a := Op.leave), run_cons hleave,
      ih _ _ (by omega) (by omega) (by omega), hmin, htop]

/-- One function calls another, which calls itself, `65` deep in all. -/
def descent (outer inner : P) : List (Op P) :=
  .enter outer :: List.replicate 64 (.enter inner)

/-- And all of them return. -/
def excursion (outer inner : P) : List (Op P) :=
  descent outer inner ++ List.replicate 64 .leave ++ [.leave]

/-- Going `65` deep fills the ring with the name of the inner function. -/
theorem run_descent (outer inner : P) (slots : ℤ → P) (top : ℤ) (h0 : 0 ≤ top)
    (hlt : top + 65 < 2 ^ 31) :
    ∃ slots', run ⟨⟨slots, top, top⟩, []⟩ (descent outer inner) =
        some ⟨⟨slots', top + 65, top + 2⟩, outer :: List.replicate 64 inner⟩ ∧
      ∀ i, slots' (i % 64) = inner := by
  have hmax : max top (top + 1 - 63) = top := max_eq_left (by omega)
  obtain ⟨slots', hrun, -, hnew⟩ :=
    run_enters inner 64 (Function.update slots ((top + 1) % 64) outer) (top + 1) top [outer]
      (by omega) (by omega) (by push_cast; omega)
  refine ⟨slots', ?_, ?_⟩
  · have htop : top + 1 + (64 : ℕ) = top + 65 := by push_cast; omega
    have hmax' : max top (top + 65 - 63) = top + 2 := by omega
    rw [htop, hmax', List.singleton_append] at hrun
    rw [descent, run_cons (step_enter ..), Stack.enter_eq _ _ _ h0 (by omega), hmax,
      List.nil_append, hrun]
  · intro i
    -- some counter among the last `64` has the index of `i`
    have hcounter := hnew (top + 2 + (i - (top + 2)) % 64) (by omega) (by push_cast; omega)
    rwa [Int.add_emod_emod, add_sub_cancel] at hcounter

/-- An excursion leaves `s_top` one higher than it was. -/
theorem run_excursion {outer inner : P} (hne : inner ≠ outer) (slots : ℤ → P) (top : ℤ)
    (h0 : 0 ≤ top) (hlt : top + 65 < 2 ^ 31) :
    ∃ slots', run ⟨⟨slots, top, top⟩, []⟩ (excursion outer inner) =
      some ⟨⟨slots', top + 1, top + 1⟩, []⟩ := by
  obtain ⟨slots', hdescent, hslots⟩ := run_descent outer inner slots top h0 hlt
  have hleaves := run_leaves inner 64 hslots (top + 65) (top + 2) [outer]
    (by push_cast; omega) (by omega) hlt
  have htop : top + 65 - (64 : ℕ) = top + 1 := by push_cast; omega
  have hmin : min (top + 2) (top + 1) = top + 1 := by omega
  rw [htop, hmin] at hleaves
  -- the last destructor finds the name of the inner function where its own was
  have hstuck : (⟨slots', top + 1, top + 1⟩ : Stack P).leave outer =
      ⟨slots', top + 1, top + 1⟩ := by
    rw [Stack.leave, if_pos (Or.inr ?_)]
    simp only [slot_eq, hslots]
    exact hne
  refine ⟨slots', ?_⟩
  rw [excursion, run_append, run_append, hdescent, Option.bind_some, ← List.singleton_append,
    hleaves, Option.bind_some, run_singleton]
  simp [Thread.step, hstuck]

/-- Many excursions. -/
theorem run_excursions {outer inner : P} (hne : inner ≠ outer) (null : P) {n : ℕ}
    (hn : (n : ℤ) + 65 ≤ 2 ^ 31) :
    ∃ slots, run (.start null) (List.replicate n (excursion outer inner)).flatten =
      some ⟨⟨slots, n, n⟩, []⟩ := by
  induction n with
  | zero => exact ⟨fun _ => null, rfl⟩
  | succ n ih =>
    push_cast at hn
    obtain ⟨slots, hrun⟩ := ih (by omega)
    obtain ⟨slots', hlast⟩ := run_excursion hne slots n (by omega) (by omega)
    refine ⟨slots', ?_⟩
    rw [List.replicate_succ', List.flatten_append, List.flatten_singleton, run_append, hrun,
      Option.bind_some, hlast]
    push_cast
    rfl

/-- **A thread whose call stack cannot be printed.** Two functions, never more than `65` calls
deep, and in the end `PrintCallStack` does not return. -/
theorem prints_forever : ∃ u, run (.start 0)
      ((List.replicate (2 ^ 31 - 66) (excursion 1 2)).flatten ++ descent 1 2) = some u ∧
    u.live.length = 65 ∧ ∀ out, ¬ u.stack.Prints (fun _ : ℕ => "f") out := by
  obtain ⟨slots, hrun⟩ := run_excursions (show 2 ≠ 1 by decide) (0 : ℕ)
    (n := 2 ^ 31 - 66) (by norm_num)
  obtain ⟨slots', hlast, -⟩ := run_descent 1 2 slots (2 ^ 31 - 66 : ℕ) (by norm_num)
    (by norm_num)
  refine ⟨_, by rw [run_append, hrun, Option.bind_some, hlast], by simp, ?_⟩
  exact not_prints_max (by norm_num)

end CallStack

end LeonUtils
