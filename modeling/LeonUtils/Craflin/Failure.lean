import LeonUtils.Craflin.Machine

/-!
# Why a call of the queue inside one process fails

`enque` and `deque` load an index once, test the node of that index, and take any other tag for a
full or an empty queue. Between the load and the test the other threads may have used the index
and, one lap later, its node. Then the tag is that of a later ticket, and the call gives up on a
queue that had a free node, or a published element, all along. `ShmAtmRQ_t::enque` starts anew in
this situation (`Shm.Failure`); the queue inside one process does so only after a failed
compare-exchange.

## Main definitions

* `Unreleased`, `Unpublished` — the queue looks full, or empty, at its counter
* `TestsStale` — the test about to be made is for an index the counter has left, and will fail

## Main results

* `false_of_prompt` — a call that makes no such test fails for a reason
* `false_unfounded` — one that does may fail for none
-/

namespace LeonUtils

namespace CraflinRQ

open Transition

variable {Tid T : Type}

/-- The node of the current `_tail` has not been released for it. -/
def Unreleased (s : State Tid T) : Prop :=
  (s.mem.base (s.mem.at s.mem.tail)).tail ≠ s.mem.tail

instance : DecidablePred (@Unreleased Tid T) :=
  fun _ => inferInstanceAs (Decidable (_ ≠ _))

/-- The node of the current `_head` has not been published. -/
def Unpublished (s : State Tid T) : Prop :=
  (s.mem.base (s.mem.at s.mem.head)).head ≠ s.mem.head

instance : DecidablePred (@Unpublished Tid T) :=
  fun _ => inferInstanceAs (Decidable (_ ≠ _))

/-- The code is about to test a node for an index that the counter has left, and will find another
tag there. -/
def Pc.Stale (m : Mem T) : Pc T → Prop
  | .enqTest _ i => i ≠ m.tail ∧ (m.base (m.at i)).tail ≠ i
  | .deqTest _ i => i ≠ m.head ∧ (m.base (m.at i)).head ≠ i
  | _ => False

instance (m : Mem T) : DecidablePred (Pc.Stale m)
  | .enqTest _ i => inferInstanceAs (Decidable (i ≠ m.tail ∧ (m.base (m.at i)).tail ≠ i))
  | .deqTest _ i => inferInstanceAs (Decidable (i ≠ m.head ∧ (m.base (m.at i)).head ≠ i))
  | .enqLoad _ | .enqCas _ _ | .enqBuild _ _ | .enqStore _ _ | .deqLoad _ | .deqCas _ _
  | .deqMove _ _ | .deqKill _ _ | .deqStore _ _ | .ret _ _ => .isFalse id

/-- The same for a thread. -/
def TestsStale (p : Tid) (s : State Tid T) : Prop := ∃ pc ∈ s.thr p, pc.Stale s.mem

instance (p : Tid) : DecidablePred (TestsStale (T := T) p) :=
  fun _ => inferInstanceAs (Decidable (∃ _ ∈ _, _))

/-! ## One execution -/

section Execution

variable [DecidableEq Tid]

/-- Whether an event is a return of thread `p`. -/
def returns (p : Tid) : Event Tid T → Bool
  | (q, .ret _ _) => q = p
  | _ => false

/-- The steps `ρ` from `s` to `t` take thread `p` from `pc` to the point where it is about to
return `a`, within one execution. -/
structure Execution (p : Tid) (pc : Pc T) (a : Ans T) (s : State Tid T)
    (ρ : List (Event Tid T × State Tid T)) (t : State Tid T) : Prop where
  start : s.thr p = some pc
  inside : ∀ e ∈ System.events ρ, returns p e = false
  last : ∃ won, t.thr p = some (.ret a won)

end Execution

/-! ## What a call that fails has seen -/

/-- A call about to return `false` has seen the queue full, or empty. -/
def Founded (s : State Tid T) (ρ : List (Event Tid T × State Tid T)) : Pc T → Prop
  | .ret (.enque false) _ => System.Sees s ρ Unreleased
  | .ret (.deque false _) _ => System.Sees s ρ Unpublished
  | _ => True

theorem Founded.append {s : State Tid T} {ρ : List (Event Tid T × State Tid T)} {pc : Pc T}
    (h : Founded s ρ pc) (ρ' : List (Event Tid T × State Tid T)) : Founded s (ρ ++ ρ') pc := by
  cases pc with
  | ret a won =>
    cases a with
    | enque ok =>
      cases ok with
      | false => exact System.Sees.append h ρ'
      | true => trivial
    | deque ok d =>
      cases ok with
      | false => exact System.Sees.append h ρ'
      | true => trivial
  | _ => trivial

/-- The code comes to return `false` from a test that is not stale only when the queue looks full,
or empty, at that instant. -/
theorem founded_act {s m : State Tid T} {ρ : List (Event Tid T × State Tid T)} {l : Luck}
    {pc pc' : Pc T} (hlast : System.Sees s ρ (· = m)) (hfresh : ¬ pc.Stale m.mem)
    (hact : (act m.mem l pc).2.2 = some pc') : Founded s ρ pc' := by
  cases pc with
  | enqTest src i =>
    simp only [act] at hact
    split at hact <;> rename_i htag <;> cases hact
    · have hi : i = m.mem.tail := not_not.mp fun hne => hfresh ⟨hne, htag⟩
      refine hlast.imp ?_
      rintro _ rfl
      rwa [Unreleased, ← hi]
    · trivial
  | deqTest dest i =>
    simp only [act] at hact
    split at hact <;> rename_i htag <;> cases hact
    · have hi : i = m.mem.head := not_not.mp fun hne => hfresh ⟨hne, htag⟩
      refine hlast.imp ?_
      rintro _ rfl
      rwa [Unpublished, ← hi]
    · trivial
  | enqCas src i | deqCas dest i | enqBuild src i | deqMove dest i =>
    simp only [act] at hact
    split at hact <;> cases hact <;> trivial
  | ret a won => cases hact
  | _ =>
    cases hact
    trivial

section Results

variable [DecidableEq Tid] {sizeofNode capa : ℕ} {weak throwing : Bool} {s t : State Tid T}
  {ρ : List (Event Tid T × State Tid T)} {p : Tid}

/-- What a call that makes no stale test has seen, at each instant. -/
theorem founded_of_steps (hsteps : (queue Tid T sizeofNode capa weak throwing).Steps s ρ t)
    (hprompt : ¬ System.Makes (fun m e => e.1 = p ∧ TestsStale p m) s ρ)
    (hstart : ∀ pc, s.thr p = some pc → Founded s [] pc) {pc : Pc T} (hp : t.thr p = some pc) :
    Founded s ρ pc := by
  induction hsteps generalizing pc with
  | refl => exact hstart pc hp
  | @snoc ρ m u e hsteps hnext ih =>
    rw [hsteps.makes_snoc] at hprompt
    obtain ⟨hbefore, hnow⟩ := not_or.mp hprompt
    by_cases hne : p = e.1
    · subst hne
      rcases next_cases hnext with ⟨q, op, -, rfl, rfl⟩ | ⟨q, pc₁, l, -, hq, heq⟩
      · simp only [State.goto_thr_self, Option.some.injEq] at hp
        subst hp
        cases op <;> trivial
      · obtain ⟨rfl, rfl⟩ := Prod.mk.inj heq
        simp only [State.goto_thr_self] at hp
        refine (founded_act (hsteps.sees_last rfl) ?_ hp).append _
        intro hstale
        exact hnow ⟨rfl, pc₁, hq, hstale⟩
    · rw [thr_of_ne hnext hne] at hp
      exact (ih hbefore hp).append _

/-- **A call fails for a reason, unless it makes a stale test.** When thread `p` makes no test for
an index that the counter has left and whose node carries another tag by now, an `enque` of `p`
returns `false` only if at some instant while it ran the node of the current `_tail` had not been
released, and a `deque` only if the node of the current `_head` had not been published. -/
theorem false_of_prompt (hsteps : (queue Tid T sizeofNode capa weak throwing).Steps s ρ t)
    (hprompt : ¬ System.Makes (fun m e => e.1 = p ∧ TestsStale p m) s ρ) :
    (∀ src, Execution p (.enqLoad src) (.enque false) s ρ t → System.Sees s ρ Unreleased) ∧
    (∀ dest d, Execution p (.deqLoad dest) (.deque false d) s ρ t →
      System.Sees s ρ Unpublished) := by
  constructor
  · intro src hexec
    obtain ⟨won, hlast⟩ := hexec.last
    refine founded_of_steps hsteps hprompt ?_ hlast
    intro pc hpc
    cases hexec.start.symm.trans hpc
    trivial
  · intro dest d hexec
    obtain ⟨won, hlast⟩ := hexec.last
    refine founded_of_steps hsteps hprompt ?_ hlast
    intro pc hpc
    cases hexec.start.symm.trans hpc
    trivial

end Results

/-! ## Calls that fail for no reason -/

section Unfounded

variable [DecidableEq Tid] (p q r : Tid)

/-- A queue of capacity `4` with nothing in it, and thread `p` at the start of an `enque`. -/
def vacant : State Tid ℕ :=
  System.after State.step (State.start Tid ℕ 192 4) [.call p (.enque 5)]

/-- Thread `p` loads `_tail`; thread `q` puts an element in and thread `r` takes it out; thread `p`
tests the node. -/
def lapped : List (Sched Tid ℕ) :=
  .run p calm :: wholeEnque q 7 ++ wholeDeque r 0 ++ [.run p calm]

/-- The same queue with four elements in it, and thread `p` at the start of a `deque`. -/
def brimful : State Tid ℕ :=
  System.after State.step (State.start Tid ℕ 192 4)
    (wholeEnque q 1 ++ wholeEnque q 2 ++ wholeEnque q 3 ++ wholeEnque q 4 ++ [.call p (.deque 0)])

/-- Thread `p` loads `_head`; thread `q` takes an element out and thread `r` puts one in; thread
`p` tests the node. -/
def outrun : List (Sched Tid ℕ) :=
  .run p calm :: wholeDeque q 0 ++ wholeEnque r 9 ++ [.run p calm]

end Unfounded

theorem false_of_prompt_empty : System.Sees
    (System.after State.step (State.start (Fin 3) ℕ 192 4) [.call 0 (.deque 0)])
    (System.trace State.step (System.after State.step (State.start (Fin 3) ℕ 192 4)
      [.call 0 (.deque 0)]) [.run 0 calm, .run 0 calm]) Unpublished := by
  refine (false_of_prompt (p := 0) (steps_trace 192 4 false false _
    [.run 0 calm, .run 0 calm] (by decide)) (by decide +kernel)).2 0 0 ?_
  exact ⟨by decide +kernel, by decide +kernel, none, by decide +kernel⟩

/-- **A call may fail for no reason**: in these runs an `enque` returns `false` although the node
of the current `_tail` was free at every instant while it ran, and a `deque` although the node of
the current `_head` was published. -/
theorem false_unfounded :
    (∃ π ρ s t, (queue (Fin 3) ℕ 192 4 false false).Run π s ∧
      (queue (Fin 3) ℕ 192 4 false false).Steps s ρ t ∧
      Execution 0 (.enqLoad 5) (.enque false) s ρ t ∧ ¬ System.Sees s ρ Unreleased) ∧
    (∃ π ρ s t, (queue (Fin 3) ℕ 192 4 false false).Run π s ∧
      (queue (Fin 3) ℕ 192 4 false false).Steps s ρ t ∧
      Execution 0 (.deqLoad 0) (.deque false 0) s ρ t ∧ ¬ System.Sees s ρ Unpublished) := by
  constructor
  · refine ⟨_, System.trace State.step (vacant 0) (lapped 0 1 2), vacant 0, _,
      (System.Run.nil rfl).steps (steps_trace 192 4 false false _ _ (by decide)),
      steps_trace 192 4 false false _ _ (by decide), ⟨by decide +kernel,
      by decide +kernel, none, by decide +kernel⟩, by decide +kernel⟩
  · refine ⟨_, System.trace State.step (brimful 0 1) (outrun 0 1 2), brimful 0 1, _,
      (System.Run.nil rfl).steps (steps_trace 192 4 false false _ _ (by decide)),
      steps_trace 192 4 false false _ _ (by decide), ⟨by decide +kernel,
      by decide +kernel, none, by decide +kernel⟩, by decide +kernel⟩

end CraflinRQ

end LeonUtils
