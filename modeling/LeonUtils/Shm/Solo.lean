import LeonUtils.Shm.Machine

/-!
# One thread at a time

What a call does when nobody else moves, from whatever state the other threads were stopped in.
`State.perform` runs one call to its end; `finishes_enque`, `finishes_deque` and their companions
say what comes of it, and `Finishes` is the form in which such facts are put together.

A thread running alone meets no spurious failure of compare-exchange here; it can then lose one
only to another thread, so alone it loses none.

## Main definitions

* `State.after`, `State.trace` — following a schedule
* `State.perform` — one call, run alone
* `State.enqued`, `State.dequed`, `State.failed` — what a call alone leaves behind

## Main results

* `Finishes.perform` — a call that finishes alone is what `perform` computes
* `Finishes.steps` — and it is a stretch of steps of the queue
* `finishes_enque`, `finishes_enque_full`, `finishes_deque`, `finishes_deque_empty`
-/

namespace LeonUtils

namespace ShmAtmRQ

open Transition

variable {Tid Hid : Type} [DecidableEq Tid] [DecidableEq Hid]

/-! ## Following a schedule -/

/-- The state after a schedule. -/
abbrev State.after (s : State Tid Hid) (cs : List (Sched Tid Hid)) : State Tid Hid :=
  System.after State.step s cs

/-- The steps made in following a schedule. -/
abbrev State.trace (s : State Tid Hid) (cs : List (Sched Tid Hid)) :
    List (Event Tid Hid × State Tid Hid) :=
  System.trace State.step s cs

/-- Following an allowed schedule is a stretch of steps. -/
theorem steps_trace (w : ℤ) (weak : Bool) (s : State Tid Hid) (cs : List (Sched Tid Hid))
    (hcs : ∀ c ∈ cs, c.Allowed weak) :
    (queue Tid Hid w weak).Steps s (s.trace cs) (s.after cs) :=
  System.Steps.trace (M := queue Tid Hid w weak) (P := fun c => c.Allowed weak)
    (fun _ c _ _ hc hstep => ⟨c, hc, hstep⟩) s cs hcs

instance (weak : Bool) (c : Sched Tid Hid) : Decidable (c.Allowed weak) :=
  match c with
  | .call _ _ _ => .isTrue trivial
  | .run _ spurious => inferInstanceAs (Decidable (spurious = true → weak = true))

/-- An idle thread may start a call. -/
theorem next_call {w : ℤ} {weak : Bool} {s : State Tid Hid} {p : Tid} (hp : s.thr p = none)
    (h : Hid) (op : Op) :
    (queue Tid Hid w weak).next s (p, .call h op) (s.goto p (some (h, op.entry))) :=
  ⟨.call p h op, trivial, by simp [State.step, hp]⟩

/-! ## Running alone -/

/-- `n` turns of thread `p`. -/
def alone (p : Tid) (n : ℕ) : List (Sched Tid Hid) := List.replicate n (.run p false)

omit [DecidableEq Tid] [DecidableEq Hid] in
theorem alone_succ (p : Tid) (n : ℕ) :
    (alone p (n + 1) : List (Sched Tid Hid)) = .run p false :: alone p n :=
  List.replicate_succ

omit [DecidableEq Tid] [DecidableEq Hid] in
theorem alone_add (p : Tid) (n k : ℕ) :
    (alone p (n + k) : List (Sched Tid Hid)) = alone p n ++ alone p k := by
  rw [alone, List.replicate_add, alone, alone]

/-- An idle thread does nothing with its turns. -/
theorem alone_idle {s : State Tid Hid} {p : Tid} (hp : s.thr p = none) (n : ℕ) :
    s.after (alone p n) = s ∧ s.trace (alone p n) = [] := by
  induction n with
  | zero => exact ⟨rfl, rfl⟩
  | succ n ih =>
    rw [alone_succ]
    simpa [State.after, State.trace, System.after, System.trace, State.step, hp] using ih

/-- One call of thread `p` through handle `h`, run alone for at most `fuel` steps. It gives the
answer and the state left behind, or nothing if the call is still in progress. -/
def State.perform (s : State Tid Hid) (fuel : ℕ) (p : Tid) (h : Hid) (op : Op) :
    Option (Ans × State Tid Hid) :=
  let cs := .call p h op :: alone p fuel
  match (s.after cs).thr p, (s.trace cs).getLast? with
  | none, some ((_, .ret a _), _) => some (a, s.after cs)
  | _, _ => none

/-- From `s`, thread `p` running alone returns `a` and leaves `t`. -/
def Finishes (p : Tid) (s : State Tid Hid) (a : Ans) (won : Option ℤ) (t : State Tid Hid) : Prop :=
  ∃ n, (s.trace (alone p n)).getLast? = some ((p, .ret a won), t) ∧ s.after (alone p n) = t ∧
    t.thr p = none

variable {s t : State Tid Hid} {p : Tid} {h : Hid} {a : Ans} {won : Option ℤ}

omit [DecidableEq Hid] in
theorem goto_goto (x y : Option (Hid × Pc)) : (s.goto p x).goto p y = s.goto p y := by
  simp [State.goto]

theorem goto_write (x : Option (Hid × Pc)) (y : Effect) :
    (s.goto p x).write h y = (s.write h y).goto p x := by
  cases y <;> rfl

omit [DecidableEq Hid] in
theorem goto_idle (hp : s.thr p = none) : s.goto p none = s := by
  simp [State.goto, ← hp]

/-- The code of a thread running alone. -/
theorem step_alone {pc : Pc} : (s.goto p (some (h, pc))).step (.run p false) =
    some ((p, (act s.shm (s.hnd h) false pc).1),
      (s.write h (act (H := Hid) s.shm (s.hnd h) false pc).2.1).goto p
        ((act (H := Hid) s.shm (s.hnd h) false pc).2.2.map (h, ·))) := by
  simp [State.step, State.advance, goto_write, goto_goto]

/-- The next step of a thread running alone. -/
theorem Finishes.next {pc pc' : Pc} {x : Effect}
    (hact : (act (H := Hid) s.shm (s.hnd h) false pc).2 = (x, some pc'))
    (hrest : Finishes p ((s.write h x).goto p (some (h, pc'))) a won t) :
    Finishes p (s.goto p (some (h, pc))) a won t := by
  obtain ⟨n, htrace, hafter, hidle⟩ := hrest
  refine ⟨n + 1, ?_, ?_, hidle⟩
  · rw [alone_succ, State.trace, System.trace_cons step_alone, List.getLast?_cons, hact]
    simp [htrace]
  · rw [alone_succ, State.after, System.after_cons step_alone, hact]
    exact hafter

theorem Finishes.quiet {pc pc' : Pc}
    (hact : (act (H := Hid) s.shm (s.hnd h) false pc).2 = (.none, some pc'))
    (hrest : Finishes p (s.goto p (some (h, pc'))) a won t) :
    Finishes p (s.goto p (some (h, pc))) a won t :=
  .next hact hrest

/-- The last step of a call. -/
theorem Finishes.ret (hover : afterRet .user a = none) :
    Finishes p (s.goto p (some (h, .ret .user a won))) a won (s.goto p none) := by
  have hstep : (s.goto p (some (h, .ret .user a won))).step (.run p false) =
      some ((p, .ret a won), s.goto p none) := by
    simp [step_alone, act, hover]
  exact ⟨1, by simp [alone, State.trace, System.trace, hstep],
    by simp [alone, State.after, System.after, hstep], by simp⟩

theorem trace_call (hp : s.thr p = none) (op : Op) (cs : List (Sched Tid Hid)) :
    s.trace (.call p h op :: cs) = ((p, .call h op), s.goto p (some (h, op.entry))) ::
      (s.goto p (some (h, op.entry))).trace cs := by
  simp [State.trace, System.trace, State.step, hp]

theorem after_call (hp : s.thr p = none) (op : Op) (cs : List (Sched Tid Hid)) :
    s.after (.call p h op :: cs) = (s.goto p (some (h, op.entry))).after cs := by
  simp [State.after, System.after, State.step, hp]

/-- A call that finishes alone is what `perform` computes, given fuel enough. -/
theorem Finishes.perform {op : Op} (hfin : Finishes p (s.goto p (some (h, op.entry))) a won t)
    (hp : s.thr p = none) :
    ∃ N, ∀ fuel, N ≤ fuel → s.perform fuel p h op = some (a, t) := by
  obtain ⟨n, htrace, hafter, hidle⟩ := hfin
  refine ⟨n, ?_⟩
  intro fuel hfuel
  obtain ⟨k, rfl⟩ := Nat.exists_eq_add_of_le hfuel
  obtain ⟨hrest, hnone⟩ := alone_idle hidle k
  simp [State.perform, trace_call hp, after_call hp, alone_add, System.trace_append,
    System.after_append, hafter, hrest, hnone, hidle, List.getLast?_cons, htrace]

/-- More fuel changes nothing once a call is over. -/
theorem perform_mono {op : Op} {n fuel : ℕ} {r : Ans × State Tid Hid} (hp : s.thr p = none)
    (hr : s.perform n p h op = some r) (hfuel : n ≤ fuel) : s.perform fuel p h op = some r := by
  obtain ⟨k, rfl⟩ := Nat.exists_eq_add_of_le hfuel
  rw [← hr]
  simp only [State.perform, trace_call hp, after_call hp] at hr ⊢
  split at hr
  · rename_i hidle hlast
    obtain ⟨hrest, hnone⟩ := alone_idle hidle k
    simp only [alone_add, System.after_append, System.trace_append, hrest, hnone, List.append_nil,
      hidle, hlast]
  · cases hr

/-- A call run alone has one outcome. -/
theorem Finishes.perform_eq {op : Op} {fuel : ℕ} {r : Ans × State Tid Hid}
    (hfin : Finishes p (s.goto p (some (h, op.entry))) a won t) (hp : s.thr p = none)
    (hr : s.perform fuel p h op = some r) : r = (a, t) := by
  obtain ⟨N, hN⟩ := hfin.perform hp
  have hmax := perform_mono hp hr (le_max_right N fuel)
  exact Option.some.inj (hmax.symm.trans (hN _ (le_max_left N fuel)))

/-- A call that finishes alone is a stretch of steps of the queue. -/
theorem Finishes.steps {op : Op} (hfin : Finishes p (s.goto p (some (h, op.entry))) a won t)
    (w : ℤ) (weak : Bool) (hp : s.thr p = none) :
    ∃ π, (queue Tid Hid w weak).Steps s
      (((p, .call h op), s.goto p (some (h, op.entry))) :: π ++ [((p, .ret a won), t)]) t := by
  obtain ⟨n, htrace, hafter, -⟩ := hfin
  obtain ⟨π, hπ⟩ := List.getLast?_eq_some_iff.mp htrace
  refine ⟨π, ?_⟩
  have hsteps := steps_trace w weak s (.call p h op :: alone p n) fun c hc => by
    rcases List.mem_cons.mp hc with rfl | hc
    · trivial
    · obtain rfl := List.eq_of_mem_replicate hc
      exact fun hsp => absurd hsp (by simp)
  rwa [trace_call hp, after_call hp, hπ, hafter] at hsteps

/-! ## The steps of a call, alone

One lemma for each position of the code at which something is decided or written. -/

/-- The state with another `_tail`. -/
def State.setTail (s : State Tid Hid) (i : ℤ) : State Tid Hid :=
  { s with shm := { s.shm with tail := i } }

/-- The state with another `_head`. -/
def State.setHead (s : State Tid Hid) (i : ℤ) : State Tid Hid :=
  { s with shm := { s.shm with head := i } }

/-- The state with another node. -/
def State.setNode (s : State Tid Hid) (j : ℤ) (x : Node) : State Tid Hid :=
  { s with shm := s.shm.setNode j x }

/-- The state with another failure count in one handle. -/
def State.setErrs (s : State Tid Hid) (h : Hid) (errs : ℤ) : State Tid Hid :=
  { s with hnd := Function.update s.hnd h { s.hnd h with errs := errs } }

omit [DecidableEq Tid] [DecidableEq Hid] in
theorem setNode_self (j : ℤ) : s.setNode j (s.shm.base j) = s := by
  simp [State.setNode, Shm.setNode]

omit [DecidableEq Tid] [DecidableEq Hid] in
theorem setNode_setNode (j : ℤ) (x y : Node) : (s.setNode j x).setNode j y = s.setNode j y := by
  simp [State.setNode, Shm.setNode]

omit [DecidableEq Tid] in
theorem setErrs_nodeIdx (errs : ℤ) (k : Hid) (i : ℤ) :
    ((s.setErrs h errs).hnd k).nodeIdx i = (s.hnd k).nodeIdx i :=
  congrArg (Int.land i) (s.write_hnd h (.errs errs) k).2

omit [DecidableEq Tid] [DecidableEq Hid] in
@[simp] theorem setNode_base_self (j : ℤ) (x : Node) : (s.setNode j x).shm.base j = x := by
  simp [State.setNode, Shm.setNode]

/-- The first `k` bytes of one payload, then another. -/
def splice (k : ℕ) (x y : Goods) : Goods := fun b => if (b : ℕ) < k then x b else y b

theorem splice_loadSize (x y : Goods) : splice loadSize x y = x := funext fun b => if_pos b.isLt

theorem splice_zero (x y : Goods) : splice 0 x y = y := funext fun _ => if_neg (Nat.not_lt_zero _)

/-- Bytes of the second payload may be copied into the first in order. -/
theorem splice_update {k : ℕ} (hk : k < loadSize) (x y : Goods) :
    splice (k + 1) (Function.update x ⟨k, hk⟩ (y ⟨k, hk⟩)) y = splice k x y := by
  funext b
  simp only [splice]
  rcases eq_or_ne b ⟨k, hk⟩ with rfl | hne
  · simp
  · have hval : (b : ℕ) ≠ k := fun hbk => hne (Fin.ext hbk)
    rw [Function.update_of_ne hne]
    exact if_congr (by omega) rfl rfl

section Instructions

variable {g : Goods} {c : Caller} {i j oldIdx : ℤ} {tryCnt : ℕ}

theorem Finishes.enqLoad (hi : s.shm.tail = i)
    (hrest : Finishes p (s.goto p (some (h, .enqTest g oldIdx tryCnt i))) a won t) :
    Finishes p (s.goto p (some (h, .enqLoad g oldIdx tryCnt))) a won t :=
  .quiet (by simp [act, hi]) hrest

theorem Finishes.enqFree (hj : (s.hnd h).nodeIdx i = j) (hfree : (s.shm.base j).tTag = i)
    (hrest : Finishes p (s.goto p (some (h, .enqCas g oldIdx tryCnt i))) a won t) :
    Finishes p (s.goto p (some (h, .enqTest g oldIdx tryCnt i))) a won t :=
  .quiet (by simp [act, hj, hfree]) hrest

theorem Finishes.enqBusy {pc : Pc} (hj : (s.hnd h).nodeIdx i = j)
    (hbusy : (s.shm.base j).tTag ≠ i) (hpc : enqRetry g oldIdx tryCnt i = pc)
    (hrest : Finishes p (s.goto p (some (h, pc))) a won t) :
    Finishes p (s.goto p (some (h, .enqTest g oldIdx tryCnt i))) a won t :=
  .quiet (by simp [act, hj, hbusy, hpc]) hrest

theorem Finishes.enqWin (hi : s.shm.tail = i)
    (hrest : Finishes p ((s.setTail (i + 1)).goto p (some (h, .enqWon g i))) a won t) :
    Finishes p (s.goto p (some (h, .enqCas g oldIdx tryCnt i))) a won t :=
  .next (x := .store (.tail (i + 1))) (by simp [act, hi]) hrest

/-- The rest of the copy into a node. -/
theorem Finishes.copyIn (hj : (s.hnd h).nodeIdx i = j) {k : ℕ} (hk : k ≤ loadSize)
    (hrest : Finishes p ((s.setNode j
      { s.shm.base j with goods := splice k (s.shm.base j).goods g }).goto p
        (some (h, .enqCopy g i loadSize))) a won t) :
    Finishes p (s.goto p (some (h, .enqCopy g i k))) a won t := by
  obtain ⟨d, hd⟩ := Nat.exists_eq_add_of_le hk
  induction d generalizing s k with
  | zero =>
    obtain rfl : k = loadSize := by omega
    rwa [splice_loadSize, setNode_self] at hrest
  | succ d ih =>
    have hlt : k < loadSize := by omega
    have hact : (act (H := Hid) s.shm (s.hnd h) false (.enqCopy g i k)).2 =
        (.store (.byte j ⟨k, hlt⟩ (g ⟨k, hlt⟩)), some (.enqCopy g i (k + 1))) := by
      simp [act, hlt, hj]
    refine .next hact (ih (k := k + 1)
      (s := s.write h (.store (.byte j ⟨k, hlt⟩ (g ⟨k, hlt⟩)))) hj (by omega) ?_ (by omega))
    simpa [State.write, State.setNode, Shm.store, Shm.setNode, splice_update hlt] using hrest

theorem Finishes.publish (hj : (s.hnd h).nodeIdx i = j)
    (hrest : Finishes p ((s.setNode j { s.shm.base j with hTag := i }).goto p
      (some (h, .ret .user (.enque true) (some i)))) a won t) :
    Finishes p (s.goto p (some (h, .enqCopy g i loadSize))) a won t :=
  .next (x := .store (.hTag j i)) (by simp [act, hj]) hrest

theorem Finishes.deqLoad (hi : s.shm.head = i)
    (hrest : Finishes p (s.goto p (some (h, .deqTest c g tryCnt i))) a won t) :
    Finishes p (s.goto p (some (h, .deqLoad c g tryCnt))) a won t :=
  .quiet (by simp [act, hi]) hrest

theorem Finishes.deqFull (hj : (s.hnd h).nodeIdx i = j) (hfull : (s.shm.base j).hTag = i)
    (hrest : Finishes p (s.goto p (some (h, .deqCas c g tryCnt i))) a won t) :
    Finishes p (s.goto p (some (h, .deqTest c g tryCnt i))) a won t :=
  .quiet (by simp [act, hj, hfull]) hrest

theorem Finishes.deqEmpty (hj : (s.hnd h).nodeIdx i = j) (hempty : (s.shm.base j).hTag ≠ i)
    (hrest : Finishes p (s.goto p (some (h, .ret c (.deque false g) none))) a won t) :
    Finishes p (s.goto p (some (h, .deqTest c g tryCnt i))) a won t :=
  .quiet (by simp [act, hj, hempty]) hrest

theorem Finishes.deqWin (hi : s.shm.head = i)
    (hrest : Finishes p ((s.setHead (i + 1)).goto p (some (h, .deqWon c g i))) a won t) :
    Finishes p (s.goto p (some (h, .deqCas c g tryCnt i))) a won t :=
  .next (x := .store (.head (i + 1))) (by simp [act, hi]) hrest

/-- The rest of the copy out of a node. -/
theorem Finishes.copyOut (hj : (s.hnd h).nodeIdx i = j) {k : ℕ} (hk : k ≤ loadSize)
    (hrest : Finishes p (s.goto p
      (some (h, .deqCopy c (splice k g (s.shm.base j).goods) i loadSize))) a won t) :
    Finishes p (s.goto p (some (h, .deqCopy c g i k))) a won t := by
  obtain ⟨d, hd⟩ := Nat.exists_eq_add_of_le hk
  induction d generalizing g k with
  | zero =>
    obtain rfl : k = loadSize := by omega
    rwa [splice_loadSize] at hrest
  | succ d ih =>
    have hlt : k < loadSize := by omega
    have hact : (act (H := Hid) s.shm (s.hnd h) false (.deqCopy c g i k)).2 = (.none,
        some (.deqCopy c (Function.update g ⟨k, hlt⟩ ((s.shm.base j).goods ⟨k, hlt⟩)) i
          (k + 1))) := by
      simp [act, hlt, hj]
    refine .quiet hact (ih (by omega) ?_ (by omega))
    rwa [splice_update]

theorem Finishes.release (hj : (s.hnd h).nodeIdx i = j)
    (hrest : Finishes p ((s.setNode j { s.shm.base j with tTag := i + (s.hnd h).capa }).goto p
      (some (h, .ret c (.deque true g) (some i)))) a won t) :
    Finishes p (s.goto p (some (h, .deqCopy c g i loadSize))) a won t :=
  .next (x := .store (.tTag j (i + (s.hnd h).capa))) (by simp [act, hj]) hrest

end Instructions

/-! ## `enque` alone -/

/-- What a failed call leaves behind. -/
def State.failed (s : State Tid Hid) (h : Hid) : State Tid Hid := s.setErrs h ((s.hnd h).errs + 1)

/-- What an `enque` that succeeds leaves behind. -/
def State.enqued (s : State Tid Hid) (h : Hid) (g : Goods) : State Tid Hid :=
  let j := (s.hnd h).nodeIdx s.shm.tail
  ((s.setTail (s.shm.tail + 1)).setErrs h 0).setNode j ⟨s.shm.tail, g, (s.shm.base j).tTag⟩

/-- What a `deque` that succeeds leaves behind. -/
def State.dequed (s : State Tid Hid) (h : Hid) : State Tid Hid :=
  let j := (s.hnd h).nodeIdx s.shm.head
  ((s.setHead (s.shm.head + 1)).setErrs h 0).setNode j
    { s.shm.base j with tTag := s.shm.head + (s.hnd h).capa }

section Fields

variable (s : State Tid Hid) (h k : Hid) (g : Goods)

omit [DecidableEq Tid]

@[simp] theorem enqued_head : (s.enqued h g).shm.head = s.shm.head := rfl
@[simp] theorem enqued_tail : (s.enqued h g).shm.tail = s.shm.tail + 1 := rfl
theorem enqued_base {j : ℤ} (hj : (s.hnd h).nodeIdx s.shm.tail = j) :
    (s.enqued h g).shm.base =
      Function.update s.shm.base j ⟨s.shm.tail, g, (s.shm.base j).tTag⟩ := by
  rw [State.enqued, hj]
  rfl

theorem enqued_nodeIdx (i : ℤ) : ((s.enqued h g).hnd k).nodeIdx i = (s.hnd k).nodeIdx i :=
  setErrs_nodeIdx (s := s) 0 k i

@[simp] theorem dequed_head : (s.dequed h).shm.head = s.shm.head + 1 := rfl
@[simp] theorem dequed_tail : (s.dequed h).shm.tail = s.shm.tail := rfl
theorem dequed_base {j : ℤ} (hj : (s.hnd h).nodeIdx s.shm.head = j) :
    (s.dequed h).shm.base = Function.update s.shm.base j
      { s.shm.base j with tTag := s.shm.head + (s.hnd h).capa } := by
  rw [State.dequed, hj]
  rfl

end Fields

/-- **`enque` alone, when the node at `_tail` is free.** -/
theorem finishes_enque {g : Goods} {i j : ℤ} (hi : s.shm.tail = i) (hj : (s.hnd h).nodeIdx i = j)
    (hfree : (s.shm.base j).tTag = i) :
    Finishes p (s.goto p (some (h, (Op.enque g).entry))) (.enque true) (some i)
      ((s.enqued h g).goto p none) := by
  have hj' : (((s.setTail (i + 1)).setErrs h 0).hnd h).nodeIdx i = j :=
    (setErrs_nodeIdx 0 h i).trans hj
  have hend : s.enqued h g =
      ((s.setTail (i + 1)).setErrs h 0).setNode j ⟨i, g, (s.shm.base j).tTag⟩ := by
    rw [State.enqued, hi, hj]
  refine .enqLoad hi (.enqFree hj hfree (.enqWin hi (.next rfl (.copyIn hj' (Nat.zero_le _) ?_))))
  refine .publish hj' ?_
  rw [setNode_setNode, splice_zero, setNode_base_self, hend]
  exact .ret rfl

theorem enqRetry_first (g : Goods) (oldIdx curIdx : ℤ) :
    enqRetry g oldIdx 0 curIdx = .enqLoad g curIdx 1 := by
  simp [enqRetry]

theorem enqRetry_same (g : Goods) (curIdx : ℤ) (tryCnt : ℕ) :
    enqRetry g curIdx tryCnt curIdx =
      if tryCnt + 1 > 3 then .enqFail else .enqLoad g curIdx (tryCnt + 1) := by
  simp [enqRetry]

/-- **`enque` alone, when the node at `_tail` is taken**: it sees so four times. -/
theorem finishes_enque_full {g : Goods} {i j : ℤ} (hi : s.shm.tail = i)
    (hj : (s.hnd h).nodeIdx i = j) (hbusy : (s.shm.base j).tTag ≠ i) :
    Finishes p (s.goto p (some (h, (Op.enque g).entry))) (.enque false) none
      ((s.failed h).goto p none) :=
  .enqLoad hi <| .enqBusy hj hbusy (enqRetry_first g (-1) i) <|
    .enqLoad hi <| .enqBusy hj hbusy (enqRetry_same g i 1) <|
    .enqLoad hi <| .enqBusy hj hbusy (enqRetry_same g i 2) <|
    .enqLoad hi <| .enqBusy hj hbusy (enqRetry_same g i 3) <|
    .next rfl (.ret rfl)

/-- The state after `n` calls of `enque`, one after the other, on a fresh segment. -/
def State.filled (Tid : Type) (w : ℤ) (h : Hid) (g : ℕ → Goods) : ℕ → State Tid Hid
  | 0 => State.start Tid Hid w
  | n + 1 => (filled Tid w h g n).enqued h (g n)

/-! ## `deque` alone -/

/-- `deque` alone up to its return, when the node at `_head` is full. The caller is kept, for
`clear` goes on from there. -/
theorem Finishes.dequed {c : Caller} {g : Goods} {i j : ℤ} (hi : s.shm.head = i)
    (hj : (s.hnd h).nodeIdx i = j) (hfull : (s.shm.base j).hTag = i)
    (hrest : Finishes p ((s.dequed h).goto p
      (some (h, .ret c (.deque true (s.shm.base j).goods) (some i)))) a won t) :
    Finishes p (s.goto p (some (h, .deqLoad c g 0))) a won t := by
  have hj' : (((s.setHead (i + 1)).setErrs h 0).hnd h).nodeIdx i = j :=
    (setErrs_nodeIdx 0 h i).trans hj
  have hcapa : (((s.setHead (i + 1)).setErrs h 0).hnd h).capa = (s.hnd h).capa :=
    (s.write_hnd h (.errs 0) h).1
  refine .deqLoad hi (.deqFull hj hfull (.deqWin hi (.next rfl (.copyOut hj' (Nat.zero_le _) ?_))))
  refine .release hj' ?_
  rw [splice_zero, hcapa]
  rwa [State.dequed, hi, hj] at hrest

/-- **`deque` alone, when the node at `_head` is full.** -/
theorem finishes_deque {g : Goods} {i j : ℤ} (hi : s.shm.head = i) (hj : (s.hnd h).nodeIdx i = j)
    (hfull : (s.shm.base j).hTag = i) :
    Finishes p (s.goto p (some (h, (Op.deque g).entry))) (.deque true (s.shm.base j).goods) (some i)
      ((s.dequed h).goto p none) :=
  .dequed hi hj hfull (.ret rfl)

/-- **`deque` alone, when the node at `_head` is not full**: it gives up at once. -/
theorem finishes_deque_empty {g : Goods} {i j : ℤ} (hi : s.shm.head = i)
    (hj : (s.hnd h).nodeIdx i = j) (hempty : (s.shm.base j).hTag ≠ i) :
    Finishes p (s.goto p (some (h, (Op.deque g).entry))) (.deque false g) none (s.goto p none) :=
  .deqLoad hi (.deqEmpty hj hempty (.ret rfl))

/-! ## The observers alone -/

/-- `size`, `empty` and `full` alone see both counters as they are. -/
theorem finishes_obs (o : Obs) : Finishes p (s.goto p (some (h, .obsTail o)))
    (o.ans (s.hnd h) s.shm.tail s.shm.head) none (s.goto p none) :=
  .quiet rfl (.quiet rfl (.ret (by cases o <;> rfl)))

theorem finishes_errCnt : Finishes p (s.goto p (some (h, .errLoad)))
    (.errCnt (s.hnd h).errs) none (s.goto p none) :=
  .quiet rfl (.ret rfl)

end ShmAtmRQ

end LeonUtils
