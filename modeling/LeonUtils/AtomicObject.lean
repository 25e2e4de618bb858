import LeonUtils.Transition
import Mathlib.Logic.Function.Basic

/-!
# Atomic objects

An object that several threads use at once is *atomic* when every call of it may be thought of as
done at one instant between the call and its return. This module has the object of which that is
true by construction, and the way of showing that another system cannot be told apart from it.

## The object

A call is pending until its operation is carried out, and then done until it returns. A `Spec` says
what an operation may do to the value of the object. An operation may also do its work in several
instalments; each of them is one instant, and others may come in between.

## Telling systems apart

What can be seen of a step is a list, possibly empty. A `Simulation` lets one system follow another
in such a way that the same is seen of both.

## Main definitions

* `System.visible` — what is seen of a stretch of steps
* `System.Simulation` — one system follows another
* `Spec`, `object` — the atomic object of a specification

## Main results

* `System.Simulation.run` — whatever can be seen of the one can be seen of the other
* `call_steps`, `commit_steps`, `work_steps`, `ret_steps` — the steps of the object
-/

namespace Transition

namespace System

variable {σ ε τ η ω : Type*} {M : System σ ε} {N : System τ η}

/-- What is seen of a stretch that starts in `s`, when `obs` says what is seen of a step. -/
def visible (obs : σ → ε → List ω) (s : σ) : List (ε × σ) → List ω
  | [] => []
  | (e, t) :: π => obs s e ++ visible obs t π

theorem Steps.visible_append (obs : σ → ε → List ω) {s t : σ} {π : List (ε × σ)}
    (h : M.Steps s π t) (ρ : List (ε × σ)) :
    visible obs s (π ++ ρ) = visible obs s π ++ visible obs t ρ := by
  induction π generalizing s with
  | nil =>
    obtain rfl : s = t := h.last
    rfl
  | cons x π ih =>
    obtain ⟨m, hm, hrest⟩ := Steps.split (π := [x]) h
    obtain rfl : x.2 = m := hm.last
    simp only [List.cons_append, visible, ih hrest, List.append_assoc]

theorem visible_singleton (obs : σ → ε → List ω) (s : σ) (e : ε) (t : σ) :
    visible obs s [(e, t)] = obs s e :=
  List.append_nil _

/-- `N` follows `M`, as `R` relates their states: to each step of `M` there are steps of `N` of
which the same is seen. It need follow only while the history has `P`, and both `P` and `R` may
speak of the history of `M`. -/
structure Simulation (M : System σ ε) (N : System τ η) (obsM : σ → ε → List ω)
    (obsN : τ → η → List ω) (P : List (ε × σ) → Prop) (R : List (ε × σ) → σ → τ → Prop) :
    Prop where
  init : ∀ s, M.init s → ∃ t, N.init t ∧ R [] s t
  shorter : ∀ π x, P (π ++ [x]) → P π
  next : ∀ π s e s' t, M.Run π s → R π s t → M.next s e s' → P (π ++ [(e, s')]) →
    ∃ ρ t', N.Steps t ρ t' ∧ visible obsN t ρ = obsM s e ∧ R (π ++ [(e, s')]) s' t'

/-- **What is seen of the one is seen of the other.** -/
theorem Simulation.run {obsM : σ → ε → List ω} {obsN : τ → η → List ω}
    {P : List (ε × σ) → Prop} {R : List (ε × σ) → σ → τ → Prop}
    (h : Simulation M N obsM obsN P R) {s₀ s : σ} {π : List (ε × σ)} (h₀ : M.init s₀)
    (hπ : M.Steps s₀ π s) (hP : P π) :
    ∃ t₀ ρ t, N.init t₀ ∧ N.Steps t₀ ρ t ∧ visible obsN t₀ ρ = visible obsM s₀ π ∧ R π s t := by
  induction hπ with
  | refl =>
    obtain ⟨t₀, ht₀, hR⟩ := h.init s₀ h₀
    exact ⟨t₀, [], t₀, ht₀, .refl, rfl, hR⟩
  | @snoc π s s' e hπ hnext ih =>
    obtain ⟨t₀, ρ, t, ht₀, hρ, hvis, hR⟩ := ih (h.shorter _ _ hP)
    obtain ⟨ρ', t', hρ', hvis', hR'⟩ := h.next π s e s' t ⟨s₀, h₀, hπ⟩ hR hnext hP
    refine ⟨t₀, ρ ++ ρ', t', ht₀, hρ.append hρ', ?_, hR'⟩
    rw [hρ.visible_append, hπ.visible_append, hvis, hvis', visible_singleton]

end System

end Transition

namespace AtomicObject

open Transition System

/-! ## The object -/

/-- What operations may do to the value of an object. -/
structure Spec (Q Op Ans : Type*) where
  init : Q
  /-- `does q op a r`: at one instant the operation takes the value from `q` to `r` and is answered
  by `a`. -/
  does : Q → Op → Ans → Q → Prop
  /-- `works q op r`: one instalment of the operation, which is not done yet. -/
  works : Q → Op → Q → Prop

/-- How far the call of a thread is. -/
inductive Status (Op Ans : Type*)
  | idle
  | pending (op : Op)
  | done (a : Ans)

variable {Tid Q Op Ans : Type*}

/-- The value of the object, and the calls in progress. -/
structure State (Tid Q Op Ans : Type*) where
  val : Q
  thr : Tid → Status Op Ans

/-- What a thread does. -/
inductive Act (Op Ans : Type*)
  | call (op : Op)
  | work
  | commit
  | ret (a : Ans)

/-- What is seen of a thread: its calls and their returns. -/
inductive Seen (Op Ans : Type*)
  | call (op : Op)
  | ret (a : Ans)

/-- What is seen of a step of the object. -/
def seen (_ : State Tid Q Op Ans) : Tid × Act Op Ans → List (Tid × Seen Op Ans)
  | (p, .call op) => [(p, .call op)]
  | (p, .ret a) => [(p, .ret a)]
  | _ => []

variable [DecidableEq Tid]

/-- Move the call of a thread. -/
def State.goto (s : State Tid Q Op Ans) (p : Tid) (q : Q) (st : Status Op Ans) :
    State Tid Q Op Ans :=
  ⟨q, Function.update s.thr p st⟩

@[simp] theorem State.goto_thr_self (s : State Tid Q Op Ans) (p : Tid) (q : Q)
    (st : Status Op Ans) : (s.goto p q st).thr p = st := by
  simp [State.goto]

theorem State.goto_thr_of_ne (s : State Tid Q Op Ans) {p r : Tid} (q : Q) (st : Status Op Ans)
    (hr : r ≠ p) : (s.goto p q st).thr r = s.thr r := by
  simp [State.goto, hr]

theorem State.goto_self (s : State Tid Q Op Ans) (p : Tid) : s.goto p s.val (s.thr p) = s := by
  simp [State.goto]

/-- The steps of the object. -/
inductive Next (S : Spec Q Op Ans) :
    State Tid Q Op Ans → Tid × Act Op Ans → State Tid Q Op Ans → Prop
  | call {s : State Tid Q Op Ans} {p : Tid} (op : Op) (hp : s.thr p = .idle) :
      Next S s (p, .call op) (s.goto p s.val (.pending op))
  | work {s : State Tid Q Op Ans} {p : Tid} {op : Op} {q : Q} (hp : s.thr p = .pending op)
      (hq : S.works s.val op q) : Next S s (p, .work) (s.goto p q (.pending op))
  | commit {s : State Tid Q Op Ans} {p : Tid} {op : Op} {a : Ans} {q : Q}
      (hp : s.thr p = .pending op) (hq : S.does s.val op a q) :
      Next S s (p, .commit) (s.goto p q (.done a))
  | ret {s : State Tid Q Op Ans} {p : Tid} {a : Ans} (hp : s.thr p = .done a) :
      Next S s (p, .ret a) (s.goto p s.val .idle)

/-- The atomic object of a specification, used by the threads of `Tid`. -/
def object (Tid : Type*) [DecidableEq Tid] (S : Spec Q Op Ans) :
    System (State Tid Q Op Ans) (Tid × Act Op Ans) where
  init s := s = ⟨S.init, fun _ => .idle⟩
  next := Next S

/-! ## Its steps, with what is seen of them -/

variable {S : Spec Q Op Ans} {s : State Tid Q Op Ans} {p : Tid}

theorem call_steps (op : Op) (hp : s.thr p = .idle) :
    ∃ ρ, (object Tid S).Steps s ρ (s.goto p s.val (.pending op)) ∧
      visible seen s ρ = [(p, .call op)] :=
  ⟨_, .single (M := object Tid S) (.call op hp), rfl⟩

theorem work_steps {op : Op} {q : Q} (hp : s.thr p = .pending op) (hq : S.works s.val op q) :
    ∃ ρ, (object Tid S).Steps s ρ (s.goto p q (.pending op)) ∧ visible seen s ρ = [] :=
  ⟨_, .single (M := object Tid S) (.work hp hq), rfl⟩

theorem commit_steps {op : Op} {a : Ans} {q : Q} (hp : s.thr p = .pending op)
    (hq : S.does s.val op a q) :
    ∃ ρ, (object Tid S).Steps s ρ (s.goto p q (.done a)) ∧ visible seen s ρ = [] :=
  ⟨_, .single (M := object Tid S) (.commit hp hq), rfl⟩

theorem ret_steps {a : Ans} (hp : s.thr p = .done a) :
    ∃ ρ, (object Tid S).Steps s ρ (s.goto p s.val .idle) ∧ visible seen s ρ = [(p, .ret a)] :=
  ⟨_, .single (M := object Tid S) (.ret hp), rfl⟩

end AtomicObject
