import LeonUtils.Craflin.Refine

/-!
# What `size` answers

`CraflinRQ_t<T>::size` loads `_head`, then `_tail`, and answers with the difference. It is not part
of `Craflin.Machine`: it stores nothing, so it is added here as a second program that any thread may
run instead of `enque` or `deque`.

An element that goes out between the two loads does not matter, since `_head` has been read. One
that comes in does: the queue may have been emptied and filled again behind the observer's back, any
number of times, and all of that is counted.

## Main definitions

* `SizePc`, `sizeAct` — the code of `size`
* `Viewed`, `viewed` — the queue with threads that look at it
* `entered` — the elements that came in

## Main results

* `loaded_of_run` — a call that has read `_head` did so at some step of the run
* `size_iff` — when the answer is a possible size
-/

namespace LeonUtils

namespace CraflinRQ

open Transition

variable {Tid T : Type}

/-! ## The code -/

/-- Where a call of `size` is, with the local variable live there. -/
inductive SizePc
  /-- `head = _head.load()` -/
  | loadHead
  /-- `_tail.load() - head` -/
  | loadTail (head : ℤ)
deriving DecidableEq

/-- What a step is, of the queue or of `size`. -/
inductive Seen (T : Type)
  | que (a : Act T)
  | call
  | loadHead
  | ret (size : ℤ)

/-- The code of `size`: what the next step is, and where the call goes. -/
def sizeAct (m : Mem T) : SizePc → Seen T × Option SizePc
  | .loadHead => (.loadHead, some (.loadTail m.head))
  | .loadTail head => (.ret (wrap (m.tail - head)), none)

/-- The queue, and the calls of `size` in progress. -/
structure Viewed (Tid T : Type) where
  que : State Tid T
  obs : Tid → Option SizePc

/-- The thread a decision is about. -/
def Sched.tid : Sched Tid T → Tid
  | .call p _ | .run p _ => p

/-- What the scheduler decides: a step of the queue, the start of a call of `size`, or a step of
one. -/
inductive Choice (Tid T : Type)
  | que (c : Sched Tid T)
  | size (p : Tid)
  | look (p : Tid)

variable [DecidableEq Tid]

/-- One step, if the decision makes sense. A thread makes one call at a time. -/
def Viewed.step (v : Viewed Tid T) : Choice Tid T → Option ((Tid × Seen T) × Viewed Tid T)
  | .que c =>
    match v.obs c.tid with
    | some _ => none
    | none => (v.que.step c).map fun x => ((x.1.1, .que x.1.2), ⟨x.2, v.obs⟩)
  | .size p =>
    match v.que.thr p, v.obs p with
    | none, none => some ((p, .call), ⟨v.que, Function.update v.obs p (some .loadHead)⟩)
    | _, _ => none
  | .look p =>
    match v.obs p with
    | none => none
    | some pc =>
      let x := sizeAct v.que.mem pc
      some ((p, x.1), ⟨v.que, Function.update v.obs p x.2⟩)

/-- Only steps of the queue meet bad luck or an exception. -/
def Choice.Allowed (weak throwing : Bool) : Choice Tid T → Prop
  | .que c => c.Allowed weak throwing
  | _ => True

instance (weak throwing : Bool) : (c : Choice Tid T) → Decidable (c.Allowed weak throwing)
  | .que c => inferInstanceAs (Decidable (c.Allowed weak throwing))
  | .size _ | .look _ => .isTrue trivial

/-- The queue constructed for `capa` elements with nodes of `sizeofNode` bytes, and any threads that
look at it. -/
def viewed (Tid T : Type) [DecidableEq Tid] (sizeofNode capa : ℕ) (weak throwing : Bool) :
    System (Viewed Tid T) (Tid × Seen T) where
  init v := v = ⟨State.start Tid T sizeofNode capa, fun _ => none⟩
  next v e v' := ∃ c : Choice Tid T, c.Allowed weak throwing ∧ v.step c = some (e, v')

variable {sizeofNode capa : ℕ} {weak throwing : Bool} {v v' u u' : Viewed Tid T} {p : Tid}

theorem step_tid {s t : State Tid T} {c : Sched Tid T} {e : Event Tid T}
    (h : s.step c = some (e, t)) : e.1 = c.tid := by
  cases c with
  | call q op =>
    simp only [State.step] at h
    split at h
    · rw [← (Prod.mk.inj (Option.some.inj h)).1]
      rfl
    · cases h
  | run q l =>
    simp only [State.step] at h
    split at h
    · cases h
    · rw [← (Prod.mk.inj (Option.some.inj h)).1]
      rfl

/-- A step is one of the queue, by a thread that does not look, or one of `size`. -/
theorem viewed_cases {e : Tid × Seen T}
    (h : (viewed Tid T sizeofNode capa weak throwing).next v e v') :
    (∃ a, e = (e.1, .que a) ∧ v.obs e.1 = none ∧
      (queue Tid T sizeofNode capa weak throwing).next v.que (e.1, a) v'.que ∧ v'.obs = v.obs) ∨
    (e = (e.1, .call) ∧ v' = ⟨v.que, Function.update v.obs e.1 (some .loadHead)⟩) ∨
    (∃ pc, v.obs e.1 = some pc ∧ e = (e.1, (sizeAct v.que.mem pc).1) ∧
      v' = ⟨v.que, Function.update v.obs e.1 (sizeAct v.que.mem pc).2⟩) := by
  obtain ⟨c, hc, hstep⟩ := h
  cases c with
  | que c =>
    simp only [Viewed.step] at hstep
    split at hstep
    · cases hstep
    rename_i hobs
    obtain ⟨⟨e', t⟩, hque, heq⟩ := Option.map_eq_some_iff.mp hstep
    obtain ⟨rfl, rfl⟩ := Prod.mk.inj heq
    have htid := step_tid hque
    exact Or.inl ⟨e'.2, rfl, htid ▸ hobs, ⟨c, hc, hque⟩, rfl⟩
  | size p =>
    simp only [Viewed.step] at hstep
    split at hstep
    · obtain ⟨rfl, rfl⟩ := Prod.mk.inj (Option.some.inj hstep)
      exact Or.inr (Or.inl ⟨rfl, rfl⟩)
    · cases hstep
  | look p =>
    simp only [Viewed.step] at hstep
    split at hstep
    · cases hstep
    · rename_i pc hpc
      obtain ⟨rfl, rfl⟩ := Prod.mk.inj (Option.some.inj hstep)
      exact Or.inr (Or.inr ⟨pc, hpc, rfl, rfl⟩)

/-! ## The queue, seen alone -/

/-- A step of the queue among those of the observers. -/
def queEvent : Tid × Seen T → Option (Event Tid T)
  | (p, .que a) => some (p, a)
  | _ => none

/-- The steps of the queue. -/
def queSteps (ρ : List ((Tid × Seen T) × Viewed Tid T)) : List (Event Tid T × State Tid T) :=
  ρ.filterMap fun x => (queEvent x.1).map fun e => (e, x.2.que)

omit [DecidableEq Tid] in
@[simp]
theorem queSteps_append (ρ ρ' : List ((Tid × Seen T) × Viewed Tid T)) :
    queSteps (ρ ++ ρ') = queSteps ρ ++ queSteps ρ' :=
  List.filterMap_append

omit [DecidableEq Tid] in
theorem queEvent_sizeAct (m : Mem T) (pc : SizePc) :
    queEvent ((p, (sizeAct m pc).1) : Tid × Seen T) = none := by
  cases pc <;> rfl

/-- Without the observers a stretch is one of the queue. -/
theorem que_of_steps {ρ : List ((Tid × Seen T) × Viewed Tid T)}
    (h : (viewed Tid T sizeofNode capa weak throwing).Steps v ρ u) :
    (queue Tid T sizeofNode capa weak throwing).Steps v.que (queSteps ρ) u.que := by
  induction h with
  | refl => exact .refl
  | @snoc ρ u u' e _ hnext ih =>
    rw [queSteps_append]
    obtain ⟨p, a⟩ := e
    rcases viewed_cases hnext with ⟨a', he, -, hque, -⟩ | ⟨he, rfl⟩ | ⟨pc, -, he, rfl⟩
    · obtain ⟨-, rfl⟩ := Prod.mk.inj he
      exact ih.snoc hque
    · obtain ⟨-, rfl⟩ := Prod.mk.inj he
      simpa [queSteps, queEvent] using ih
    · obtain ⟨-, rfl⟩ := Prod.mk.inj he
      simpa [queSteps, queEvent_sizeAct] using ih

theorem que_of_run {π : List ((Tid × Seen T) × Viewed Tid T)}
    (h : (viewed Tid T sizeofNode capa weak throwing).Run π v) :
    (queue Tid T sizeofNode capa weak throwing).Run (queSteps π) v.que := by
  obtain ⟨v₀, rfl, hsteps⟩ := h
  exact ⟨_, rfl, que_of_steps hsteps⟩

/-! ## How `_tail` moves -/

/-- An element comes in. -/
def Act.enters : Act T → Bool
  | .enqWin _ _ => true
  | _ => false

/-- The elements that came in. -/
def entered (es : List (Event Tid T)) : ℕ := es.countP fun e => e.2.enters

omit [DecidableEq Tid] in
theorem entered_le_wins (es : List (Event Tid T)) : entered es ≤ wins es := by
  induction es with
  | nil => exact le_rfl
  | cons e es ih =>
    have hone : (if e.2.enters then 1 else 0) ≤ e.2.wins := by
      obtain ⟨p, a⟩ := e
      cases a <;> simp [Act.enters, Act.wins, Act.won]
    rw [entered, List.countP_cons, ← entered, wins, List.map_cons, List.sum_cons, ← wins]
    omega

omit [DecidableEq Tid] in
theorem wins_append (es es' : List (Event Tid T)) : wins (es ++ es') = wins es + wins es' := by
  rw [wins, List.map_append, List.sum_append, ← wins, ← wins]

omit [DecidableEq Tid] in
/-- `_tail` moves when an element comes in, and only then. -/
theorem tail_act (m : Mem T) (l : Luck) (pc : Pc T) :
    ((act m l pc).1.enters = true ∧ (act m l pc).2.1.tail = wrap (m.tail + 1)) ∨
      ((act m l pc).1.enters = false ∧ (act m l pc).2.1.tail = m.tail) := by
  cases pc with
  | enqCas src tail =>
    simp only [act]
    split
    · rename_i hwin
      exact Or.inl ⟨rfl, by rw [hwin.1]⟩
    · exact Or.inr ⟨rfl, rfl⟩
  | enqTest _ _ | enqBuild _ _ | deqTest _ _ | deqCas _ _ | deqMove _ _ =>
    simp only [act]
    split <;> exact Or.inr ⟨rfl, rfl⟩
  | _ => exact Or.inr ⟨rfl, rfl⟩

theorem tail_of_next {s t : State Tid T} {e : Event Tid T}
    (h : (queue Tid T sizeofNode capa weak throwing).next s e t) :
    (e.2.enters = true ∧ t.mem.tail = wrap (s.mem.tail + 1)) ∨
      (e.2.enters = false ∧ t.mem.tail = s.mem.tail) := by
  rcases next_cases h with ⟨p, op, -, rfl, rfl⟩ | ⟨p, pc, l, -, -, heq⟩
  · exact Or.inr ⟨rfl, rfl⟩
  · obtain ⟨rfl, rfl⟩ := Prod.mk.inj heq
    exact tail_act s.mem l pc

/-- `_tail` has moved by the number of elements that came in, in the arithmetic of `size_t`. -/
theorem tail_of_steps {s t : State Tid T} {ρ : List (Event Tid T × State Tid T)}
    (h : (queue Tid T sizeofNode capa weak throwing).Steps s ρ t) :
    wrap t.mem.tail = wrap (s.mem.tail + entered (System.events ρ)) := by
  induction h with
  | refl => simp [entered]
  | @snoc ρ t u e _ hnext ih =>
    have hsum : entered (System.events (ρ ++ [(e, u)])) =
        entered (System.events ρ) + if e.2.enters then 1 else 0 := by
      simp [entered, List.countP_append, List.countP_singleton]
    simp only [wrap] at ih ⊢
    rcases tail_of_next hnext with ⟨he, hu⟩ | ⟨he, hu⟩
    · rw [hsum, he, if_pos rfl, hu, wrap]
      push_cast
      omega
    · rw [hsum, he, if_neg Bool.false_ne_true, hu, add_zero]
      exact ih

/-! ## One call of `size` -/

/-- Steps of other threads leave an observer where it is. -/
theorem obs_of_ne {e : Tid × Seen T}
    (h : (viewed Tid T sizeofNode capa weak throwing).next v e v') (hp : p ≠ e.1) :
    v'.obs p = v.obs p := by
  rcases viewed_cases h with ⟨a, -, -, -, hobs⟩ | ⟨-, rfl⟩ | ⟨pc, -, -, rfl⟩
  · rw [hobs]
  · exact Function.update_of_ne hp _ _
  · exact Function.update_of_ne hp _ _

/-- Thread `p` loads `_head` in `v`, and then the others make the steps `ρ`. -/
structure Sizing (sizeofNode capa : ℕ) (weak throwing : Bool) (p : Tid) (v v' : Viewed Tid T)
    (ρ : List ((Tid × Seen T) × Viewed Tid T)) (u : Viewed Tid T) : Prop where
  loadHead : (viewed Tid T sizeofNode capa weak throwing).next v (p, .loadHead) v'
  steps : (viewed Tid T sizeofNode capa weak throwing).Steps v' ρ u
  others : ∀ x ∈ ρ, p ≠ x.1.1

/-- The load stores nothing, and leaves the call with the value of `_head`. -/
theorem loadHead_eq (h : (viewed Tid T sizeofNode capa weak throwing).next v (p, .loadHead) v') :
    v' = ⟨v.que, Function.update v.obs p (some (.loadTail v.que.mem.head))⟩ := by
  rcases viewed_cases h with ⟨a, he, -⟩ | ⟨he, -⟩ | ⟨pc, -, he, rfl⟩
  · cases he
  · cases he
  · cases pc with
    | loadHead => rfl
    | loadTail _ => cases he

/-- **A call that has read `_head` did so at some step of the run**, and since then only others have
made steps. -/
theorem loaded_of_run {π : List ((Tid × Seen T) × Viewed Tid T)}
    (h : (viewed Tid T sizeofNode capa weak throwing).Run π u) {head : ℤ}
    (hobs : u.obs p = some (.loadTail head)) :
    ∃ π₀ v v' ρ, π = π₀ ++ ((p, .loadHead), v') :: ρ ∧
      (viewed Tid T sizeofNode capa weak throwing).Run π₀ v ∧
      Sizing sizeofNode capa weak throwing p v v' ρ u ∧ head = v.que.mem.head := by
  revert hobs
  refine System.Run.induction (P := fun π u => u.obs p = some (.loadTail head) →
    ∃ π₀ v v' ρ, π = π₀ ++ ((p, .loadHead), v') :: ρ ∧
      (viewed Tid T sizeofNode capa weak throwing).Run π₀ v ∧
      Sizing sizeofNode capa weak throwing p v v' ρ u ∧ head = v.que.mem.head) ?_ ?_ h
  · rintro _ rfl hobs
    cases hobs
  · intro π u e u' hrun ih hnext hobs
    by_cases hp : p = e.1
    · subst hp
      obtain ⟨p, a⟩ := e
      rcases viewed_cases hnext with ⟨a', -, hnone, -, hsame⟩ | ⟨-, rfl⟩ | ⟨pc, hpc, he, rfl⟩
      · rw [hsame] at hobs
        cases hnone.symm.trans hobs
      · simp only [Function.update_self] at hobs
        cases hobs
      · simp only [Function.update_self] at hobs
        cases pc with
        | loadHead =>
          obtain ⟨-, rfl⟩ := Prod.mk.inj he
          cases hobs
          exact ⟨π, u, _, [], rfl, hrun,
            ⟨hnext, .refl, fun _ hx => absurd hx List.not_mem_nil⟩, rfl⟩
        | loadTail _ => cases hobs
    · rw [obs_of_ne hnext hp] at hobs
      obtain ⟨π₀, v, v', ρ, rfl, hrun₀, ⟨hload, hsteps, hothers⟩, hhead⟩ := ih hobs
      refine ⟨π₀, v, v', ρ ++ [(e, u')], by simp, hrun₀, ⟨hload, hsteps.snoc hnext, ?_⟩, hhead⟩
      intro x hx
      rcases List.mem_append.mp hx with hx | hx
      · exact hothers x hx
      · rwa [List.mem_singleton.mp hx]

/-- What `size` answers: the difference of `_tail` as it is and `_head` as it was. -/
theorem ret_eq {x : ℤ} (h : (viewed Tid T sizeofNode capa weak throwing).next u (p, .ret x) u') :
    ∃ head, u.obs p = some (.loadTail head) ∧ x = wrap (u.que.mem.tail - head) := by
  rcases viewed_cases h with ⟨a, he, -⟩ | ⟨he, -⟩ | ⟨pc, hpc, he, -⟩
  · cases he
  · cases he
  · cases pc with
    | loadHead => cases he
    | loadTail head => exact ⟨head, hpc, Seen.ret.inj (Prod.mk.inj he).2⟩

/-- The elements that came in during some steps of the queue and its observers. -/
def entries (ρ : List ((Tid × Seen T) × Viewed Tid T)) : ℕ := entered (System.events (queSteps ρ))

/-- **What `size` answers** is the number of elements there were when it read `_head`, and of those
that have come in since. -/
theorem Sizing.answer {ρ : List ((Tid × Seen T) × Viewed Tid T)}
    (h : Sizing sizeofNode capa weak throwing p v v' ρ u) :
    wrap (u.que.mem.tail - v.que.mem.head) =
      wrap (v.que.mem.tail - v.que.mem.head + entries ρ) := by
  have htail := tail_of_steps (que_of_steps h.steps)
  rw [loadHead_eq h.loadHead] at htail
  simp only [wrap, entries] at htail ⊢
  omega

/-- **When `size` answers with a possible size.** The elements that were in when it read `_head` and
those that have come in since are no more than the capacity, in the arithmetic of `size_t`; that is
the arithmetic of numbers as long as fewer than `2 ^ 64` tickets have been won. -/
theorem size_iff {π : List ((Tid × Seen T) × Viewed Tid T)} {x : ℤ}
    (hrun : (viewed Tid T sizeofNode capa weak throwing).Run π u)
    (hret : (viewed Tid T sizeofNode capa weak throwing).next u (p, .ret x) u') :
    ∃ π₀ v v' ρ, π = π₀ ++ ((p, .loadHead), v') :: ρ ∧
      (viewed Tid T sizeofNode capa weak throwing).Run π₀ v ∧
      Sizing sizeofNode capa weak throwing p v v' ρ u ∧
      (0 ≤ x ∧ x ≤ capaOf sizeofNode capa ↔
        wrap (v.que.mem.tail - v.que.mem.head + entries ρ) ≤ capaOf sizeofNode capa) ∧
      (wins (System.events (queSteps π)) < 2 ^ 64 →
        (0 ≤ x ∧ x ≤ capaOf sizeofNode capa ↔
          v.que.mem.tail - v.que.mem.head + entries ρ ≤ capaOf sizeofNode capa)) := by
  obtain ⟨head, hobs, rfl⟩ := ret_eq hret
  obtain ⟨π₀, v, v', ρ, hπ, hrun₀, hsizing, rfl⟩ := loaded_of_run hrun hobs
  have hpos : 0 ≤ wrap (u.que.mem.tail - v.que.mem.head) := Int.emod_nonneg _ (by norm_num)
  have hanswer := hsizing.answer
  refine ⟨π₀, v, v', ρ, hπ, hrun₀, hsizing, ?_, fun hwins => ?_⟩
  · rw [and_iff_right hpos, hanswer]
  · -- no counter reaches its limit
    have hsplit : wins (System.events (queSteps π)) =
        wins (System.events (queSteps π₀)) + wins (System.events (queSteps ρ)) := by
      rw [hπ, queSteps_append, System.events_append, wins_append]
      rfl
    obtain ⟨hgood, hcount⟩ := good_of_run (que_of_run hrun₀) (by omega)
    have hhead : 0 ≤ v.que.mem.head := hgood.ring.head_nonneg
    have htail : v.que.mem.head ≤ v.que.mem.tail := hgood.ring.head_le
    have hentries : entries ρ ≤ wins (System.events (queSteps ρ)) := entered_le_wins _
    rw [and_iff_right hpos, hanswer, wrap_of_lt (by omega) (by omega)]

/-! ## An observer left behind -/

/-- A queue of capacity `4`, and threads that look at it. -/
def Viewed.start : Viewed Bool ℕ := ⟨State.start Bool ℕ 192 4, fun _ => none⟩

/-- One thread reads `_head`; then the other puts an element in and takes it out, so many times. -/
def turnover (n : ℕ) : List (Choice Bool ℕ) :=
  .size false :: .look false ::
    (List.replicate n (wholeEnque true 7 ++ wholeDeque true 0)).flatten.map .que

theorem viewed_run (cs : List (Choice Bool ℕ)) (hcs : ∀ c ∈ cs, c.Allowed false false) :
    (viewed Bool ℕ 192 4 false false).Run (System.trace Viewed.step .start cs)
      (System.after Viewed.step .start cs) :=
  ⟨.start, rfl, System.Steps.trace (M := viewed Bool ℕ 192 4 false false)
    (P := fun c => c.Allowed false false) (fun _ c _ _ hc hstep => ⟨c, hc, hstep⟩) _ cs hcs⟩

/-- The thread answers. -/
theorem next_ret {head : ℤ} (h : u.obs p = some (.loadTail head)) :
    (viewed Tid T sizeofNode capa weak throwing).next u
      (p, .ret (wrap (u.que.mem.tail - head))) ⟨u.que, Function.update u.obs p none⟩ :=
  ⟨.look p, trivial, by simp only [Viewed.step, h, sizeAct]⟩

theorem size_iff_two : ∃ π₀ v v' ρ,
    System.trace Viewed.step .start (turnover 2) = π₀ ++ ((false, .loadHead), v') :: ρ ∧
      Sizing 192 4 false false false v v' ρ (System.after Viewed.step .start (turnover 2)) ∧
      (0 ≤ (2 : ℤ) ∧ (2 : ℤ) ≤ capaOf 192 4 ↔
        wrap (v.que.mem.tail - v.que.mem.head + entries ρ) ≤ capaOf 192 4) := by
  have hobs : (System.after Viewed.step .start (turnover 2)).obs false = some (.loadTail 0) := by
    decide +kernel
  have hret : (viewed Bool ℕ 192 4 false false).next _ (false, .ret _) _ := next_ret hobs
  have htwo : wrap ((System.after Viewed.step .start (turnover 2)).que.mem.tail - 0) = 2 := by
    decide +kernel
  rw [htwo] at hret
  obtain ⟨π₀, v, v', ρ, hπ, -, hsizing, hiff, -⟩ :=
    size_iff (viewed_run (turnover 2) (by decide)) hret
  exact ⟨π₀, v, v', ρ, hπ, hsizing, hiff⟩

/-- **Five elements in a queue of four.** -/
theorem size_too_large : ∃ π u u', (viewed Bool ℕ 192 4 false false).Run π u ∧
    (viewed Bool ℕ 192 4 false false).next u (false, .ret 5) u' ∧ capaOf 192 4 < 5 := by
  have hobs : (System.after Viewed.step .start (turnover 5)).obs false = some (.loadTail 0) := by
    decide +kernel
  have hret : (viewed Bool ℕ 192 4 false false).next _ (false, .ret _) _ := next_ret hobs
  have hfive : wrap ((System.after Viewed.step .start (turnover 5)).que.mem.tail - 0) = 5 := by
    decide +kernel
  rw [hfive] at hret
  exact ⟨_, _, _, viewed_run (turnover 5) (by decide), hret, by decide +kernel⟩

end CraflinRQ

end LeonUtils