import LeonUtils.Shm.Tickets

/-!
# What an observer sees

`size`, `empty` and `full` load `_tail`, then `_head`, and answer from the two numbers. The others
do not wait in between: when `_head` is read, `_tail` may have moved on from what was read of it.

An element that comes in behind the observer's back does not matter, since `_tail` has been read.
One that goes out does: if more of them go out between the loads than there were at the first one,
`size` is negative, and `empty` may find the two numbers equal that were never equal at one time.

## Main definitions

* `Observation` — the two loads of one call, and what the others do in between

## Main results

* `Observation.answer_eq` — what is answered, in terms of the two loads
* `observed_iff` — when `size` is a possible size, and when `empty` was right at some instant
* `full_right` — `full` was right at some instant
-/

namespace LeonUtils

namespace ShmAtmRQ

open Transition TicketRing

variable {Tid Hid : Type} [DecidableEq Tid] [DecidableEq Hid] {w : ℤ} {weak : Bool}
  {s s' t u : State Tid Hid} {p : Tid} {π ρ : List (Event Tid Hid × State Tid Hid)}

/-! ## Two loads -/

/-- Thread `p` loads `_tail` in `s` and `_head` in `t`; in between the others make the steps `ρ`.
Then it is about to answer `a`. -/
structure Observation (w : ℤ) (weak : Bool) (p : Tid) (o : Obs) (s s' : State Tid Hid)
    (ρ : List (Event Tid Hid × State Tid Hid)) (t u : State Tid Hid) (a : Ans) : Prop where
  entry : ∃ h, s.thr p = some (h, .obsTail o)
  loadTail : (queue Tid Hid w weak).next s (p, .quiet) s'
  steps : (queue Tid Hid w weak).Steps s' ρ t
  others : ∀ x ∈ ρ, p ≠ x.1.1
  loadHead : (queue Tid Hid w weak).next t (p, .quiet) u
  answer : ∃ h, u.thr p = some (h, .ret .user a none)

/-- The steps of other threads leave a thread where it is. -/
theorem thr_of_steps (h : (queue Tid Hid w weak).Steps s ρ t) (hp : ∀ x ∈ ρ, p ≠ x.1.1) :
    t.thr p = s.thr p := by
  induction h with
  | refl => rfl
  | snoc _ hnext ih =>
    obtain ⟨hprev, hlast⟩ := List.forall_mem_append.mp hp
    rw [thr_of_ne hnext (hlast _ (List.mem_singleton_self _)), ih hprev]

/-- What a thread in a call does is what the code says. -/
theorem advance_of_next {e : Event Tid Hid} {hd : Hid} {pc : Pc}
    (h : (queue Tid Hid w weak).next s e t) (hp : s.thr e.1 = some (hd, pc)) :
    ∃ spurious, (e, t) = s.advance e.1 hd pc spurious := by
  rcases next_cases h with ⟨q, hd', op, hq, rfl, -⟩ | ⟨q, hd', pc', sp, -, hq, heq⟩
  · rw [hp] at hq
    cases hq
  · obtain rfl : e.1 = q := by rw [(Prod.mk.inj heq).1]
    obtain ⟨rfl, rfl⟩ := Prod.mk.inj (Option.some.inj (hp.symm.trans hq))
    exact ⟨sp, heq⟩

theorem obsTail_of_next {hd : Hid} {o : Obs} (h : (queue Tid Hid w weak).next s (p, .quiet) t)
    (hp : s.thr p = some (hd, .obsTail o)) : t = s.goto p (some (hd, .obsHead o s.shm.tail)) := by
  obtain ⟨sp, heq⟩ := advance_of_next h hp
  exact (Prod.mk.inj heq).2

theorem obsHead_of_next {hd : Hid} {o : Obs} {tail : ℤ}
    (h : (queue Tid Hid w weak).next s (p, .quiet) t)
    (hp : s.thr p = some (hd, .obsHead o tail)) :
    t = s.goto p (some (hd, .ret .user (o.ans (s.hnd hd) tail s.shm.head) none)) := by
  obtain ⟨sp, heq⟩ := advance_of_next h hp
  exact (Prod.mk.inj heq).2

section Observation

variable {o : Obs} {a : Ans}

/-- The first load changes nothing that is shared. -/
theorem Observation.shm (h : Observation w weak p o s s' ρ t u a) : s'.shm = s.shm := by
  obtain ⟨hd, hp⟩ := h.entry
  rw [obsTail_of_next h.loadTail hp, State.goto_shm]

/-- **What is answered**: `_tail` is as the first load found it, `_head` as the second did. -/
theorem Observation.answer_eq (h : Observation w weak p o s s' ρ t u a) :
    ∃ hd, a = o.ans (t.hnd hd) s.shm.tail t.shm.head := by
  obtain ⟨hd, hp⟩ := h.entry
  have hs' := obsTail_of_next h.loadTail hp
  have ht : t.thr p = some (hd, .obsHead o s.shm.tail) := by
    rw [thr_of_steps h.steps h.others, hs', State.goto_thr_self]
  have hu := obsHead_of_next h.loadHead ht
  obtain ⟨hd', ha⟩ := h.answer
  rw [hu, State.goto_thr_self] at ha
  obtain ⟨-, hret⟩ := Prod.mk.inj (Option.some.inj ha)
  exact ⟨hd, (Pc.ret.inj hret).2.1.symm⟩

end Observation

/-- An observation, found by following a schedule of the other threads. -/
theorem observation_of_trace {hd : Hid} {o : Obs} (hp : s.thr p = some (hd, .obsTail o))
    (cs : List (Sched Tid Hid)) (hcs : ∀ c ∈ cs, c.Allowed weak)
    (hs' : s' = s.goto p (some (hd, .obsHead o s.shm.tail)))
    (hothers : ∀ x ∈ s'.trace cs, p ≠ x.1.1) {a : Ans}
    (ha : a = o.ans ((s'.after cs).hnd hd) s.shm.tail (s'.after cs).shm.head) :
    Observation w weak p o s s' (s'.trace cs) (s'.after cs)
      ((s'.after cs).goto p (some (hd, .ret .user a none))) a := by
  have hsteps := steps_trace w weak s' cs hcs
  have ht : (s'.after cs).thr p = some (hd, .obsHead o s.shm.tail) := by
    rw [thr_of_steps hsteps hothers, hs', State.goto_thr_self]
  refine ⟨⟨hd, hp⟩, ⟨.run p false, fun h => absurd h Bool.false_ne_true, ?_⟩, hsteps, hothers,
    ⟨.run p false, fun h => absurd h Bool.false_ne_true, ?_⟩, hd, State.goto_thr_self ..⟩
  · simp only [State.step, hp, hs']
    rfl
  · simp only [State.step, ht, ha]
    rfl

/-! ## What the others do in between -/

/-- `_tail` has moved by the number of elements that have come in. -/
theorem tail_of_steps (h : (queue Tid Hid w weak).Steps s ρ t) :
    t.shm.tail = s.shm.tail + (enqTickets (System.events ρ)).length :=
  h.counter tail_counts

/-- `_head` has moved by the number of elements that have gone out. -/
theorem head_of_steps (h : (queue Tid Hid w weak).Steps s ρ t) :
    t.shm.head = s.shm.head + (deqTickets (System.events ρ)).length :=
  h.counter head_counts

/-- A list in which no element without `Q` comes after one without `P` falls into a part with `P`
and a part with `Q`. -/
theorem pairwise_iff_cut {α : Type*} {P Q : α → Prop} (hPQ : ∀ a, P a ∨ Q a) (l : List α) :
    l.Pairwise (fun a b => P a ∨ Q b) ↔
      ∃ l₁ l₂, l = l₁ ++ l₂ ∧ (∀ a ∈ l₁, P a) ∧ ∀ b ∈ l₂, Q b := by
  constructor
  · intro h
    induction h with
    | nil => exact ⟨[], [], rfl, by simp, by simp⟩
    | @cons a l hhead _ ih =>
      by_cases hP : P a
      · obtain ⟨l₁, l₂, rfl, h₁, h₂⟩ := ih
        exact ⟨a :: l₁, l₂, rfl, List.forall_mem_cons.mpr ⟨hP, h₁⟩, h₂⟩
      · exact ⟨[], a :: l, rfl, by simp, List.forall_mem_cons.mpr
          ⟨(hPQ a).resolve_left hP, fun b hb => (hhead b hb).resolve_left hP⟩⟩
  · rintro ⟨l₁, l₂, rfl, h₁, h₂⟩
    refine List.pairwise_append.mpr ⟨?_, ?_, fun a ha _ _ => Or.inl (h₁ a ha)⟩
    · exact List.Pairwise.imp_of_mem (fun ha _ _ => Or.inl (h₁ _ ha))
        (List.pairwise_of_forall (R := fun _ _ => True) fun _ _ => trivial)
    · exact List.Pairwise.imp_of_mem (fun _ hb _ => Or.inr (h₂ _ hb))
        (List.pairwise_of_forall (R := fun _ _ => True) fun _ _ => trivial)

/-- No element goes out after one has come in. -/
def OutFirst (es : List (Event Tid Hid)) : Prop :=
  es.Pairwise fun e e' => e.2.enqTicket = none ∨ e'.2.deqTicket = none

omit [DecidableEq Tid] [DecidableEq Hid] in
theorem outFirst_iff (es : List (Event Tid Hid)) :
    OutFirst es ↔ ∃ es₁ es₂, es = es₁ ++ es₂ ∧ enqTickets es₁ = [] ∧ deqTickets es₂ = [] := by
  rw [OutFirst, pairwise_iff_cut (P := fun e : Event Tid Hid => e.2.enqTicket = none)
    (Q := fun e => e.2.deqTicket = none)]
  · simp only [enqTickets, deqTickets, List.filterMap_eq_nil_iff]
  · rintro ⟨p, a⟩
    cases a <;> simp [Act.enqTicket, Act.deqTicket]

/-! ## When an answer was right -/

/-- If `_head` ends where `_tail` began, the two were equal at some instant if and only if what went
out did so before anything came in. -/
theorem sees_empty_iff (hsteps : (queue Tid Hid w weak).Steps s ρ t)
    (heq : s.shm.tail = t.shm.head) :
    System.Sees s ρ (fun m => m.shm.tail = m.shm.head) ↔ OutFirst (System.events ρ) := by
  rw [outFirst_iff]
  constructor
  · intro hsees
    obtain ⟨ρ₁, ρ₂, m, rfl, hm, hempty⟩ := hsteps.instant hsees
    obtain ⟨m', hm', hrest⟩ := hsteps.split
    obtain rfl : m = m' := hm.last.symm.trans hm'.last
    have htail := tail_of_steps hm
    have hhead := head_of_steps hrest
    refine ⟨System.events ρ₁, System.events ρ₂, System.events_append .., ?_, ?_⟩ <;>
      rw [← List.length_eq_zero_iff] <;> omega
  · rintro ⟨es₁, es₂, hes, henq, hdeq⟩
    obtain ⟨ρ₁, ρ₂, rfl, rfl, rfl⟩ := List.map_eq_append_iff.mp hes
    obtain ⟨m, hm, hrest⟩ := hsteps.split
    have htail := tail_of_steps hm
    have hhead := head_of_steps hrest
    rw [System.events, henq] at htail
    rw [System.events, hdeq] at hhead
    refine (hm.sees_last ?_).append ρ₂
    simp only [List.length_nil] at htail hhead
    omega

/-- **What the observers saw.** `size` is between zero and the capacity if and only if no more
elements went out between the loads than there were at the first one. If `empty` says so, the queue
was empty at some instant between the loads if and only if no element went out after one had come
in. -/
theorem observed_iff (h : (queue Tid Hid w weak).Run π s) :
    (∀ x, Observation w weak p .size s s' ρ t u (.size x) →
      (0 ≤ x ∧ x ≤ alignCapa w ↔
        (deqTickets (System.events ρ)).length ≤ s.shm.tail - s.shm.head)) ∧
    (Observation w weak p .empty s s' ρ t u (.empty true) →
      (System.Sees s' ρ (fun m => m.shm.tail = m.shm.head) ↔ OutFirst (System.events ρ))) := by
  constructor
  · intro x hobs
    obtain ⟨hd, ha⟩ := hobs.answer_eq
    obtain rfl : x = s.shm.tail - t.shm.head := Ans.size.inj ha
    have hhead := head_of_steps hobs.steps
    rw [hobs.shm] at hhead
    have hcapa : s.shm.tail - s.shm.head ≤ alignCapa w := (inv_of_run h).tail_sub_head.2
    omega
  · intro hobs
    obtain ⟨hd, ha⟩ := hobs.answer_eq
    have heq : s.shm.tail = t.shm.head := of_decide_eq_true (Ans.empty.inj ha).symm
    exact sees_empty_iff hobs.steps (by rw [hobs.shm, heq])

/-! ## A queue that is full -/

omit [DecidableEq Tid] [DecidableEq Hid] in
/-- No event moves both counters. -/
theorem enqTicket_of_deqTicket {a : Act Hid} {i : ℤ} (h : a.deqTicket = some i) :
    a.enqTicket = none := by
  cases a <;> first | rfl | cases h

/-- An element cannot go out of a queue that stays full. -/
theorem sees_not_full (h : (queue Tid Hid w weak).Steps s ρ t) (hout : s.shm.head < t.shm.head)
    (n : ℤ) : System.Sees s ρ fun m => m.shm.tail - m.shm.head ≠ n := by
  induction h with
  | refl => exact absurd hout (lt_irrefl _)
  | @snoc ρ t u e hsteps hnext ih =>
    by_cases hbefore : s.shm.head < t.shm.head
    · exact (ih hbefore).append _
    rcases head_of_next hnext with ⟨hdeq, hhead⟩ | ⟨-, hhead⟩
    · -- the first one that goes out leaves a place behind
      have htail : u.shm.tail = t.shm.tail := by
        rcases tail_of_next hnext with ⟨henq, -⟩ | ⟨-, htail⟩
        · rw [enqTicket_of_deqTicket hdeq] at henq
          cases henq
        · exact htail
      by_cases hfull : t.shm.tail - t.shm.head = n
      · refine (hsteps.snoc hnext).sees_last ?_
        omega
      · exact (hsteps.sees_last hfull).append _
    · omega

/-- **`full` was right at some instant between its loads**, whatever it says. -/
theorem full_right {b : Bool} (h : (queue Tid Hid w weak).Run π s)
    (hobs : Observation w weak p .full s s' ρ t u (.full b)) :
    System.Sees s' ρ fun m => b = decide (m.shm.tail - m.shm.head = alignCapa w) := by
  have hrun := (h.snoc hobs.loadTail).steps hobs.steps
  obtain ⟨hd, ha⟩ := hobs.answer_eq
  have hcapa : (t.hnd hd).capa = alignCapa w := ((coupled_of_run hrun).hnd hd).1
  have hanswer : b = decide (s.shm.tail - t.shm.head ≥ alignCapa w) := by
    rw [← hcapa]
    exact Ans.full.inj ha
  have htail := tail_of_steps hobs.steps
  have hhead := head_of_steps hobs.steps
  rw [hobs.shm] at htail hhead
  by_cases hfull : s.shm.tail - t.shm.head ≥ alignCapa w
  · -- nothing has come in since, because there was no place
    have hbound : t.shm.tail - t.shm.head ≤ alignCapa w := (inv_of_run hrun).tail_sub_head.2
    rw [hanswer, decide_eq_true hfull]
    refine hobs.steps.sees_last ?_
    exact (decide_eq_true (by omega)).symm
  · rw [hanswer, decide_eq_false hfull]
    by_cases hstart : s.shm.tail - s.shm.head = alignCapa w
    · have hout : s'.shm.head < t.shm.head := by
        rw [hobs.shm]
        omega
      exact (sees_not_full hobs.steps hout _).imp fun m hm => (decide_eq_false hm).symm
    · refine System.Sees.start ?_
      rw [hobs.shm]
      exact (decide_eq_false hstart).symm

/-! ## An observer left behind -/

/-- A queue with `n` elements, and an observer about to load `_tail`. -/
def watched (n : ℕ) (o : Obs) : State Bool Unit :=
  (State.filled Bool 32 () (fun _ => sample) n).goto false (some ((), .obsTail o))

/-- The observer has loaded `_tail`. -/
def halfway (n : ℕ) (o : Obs) : State Bool Unit :=
  (watched n o).goto false (some ((), .obsHead o (watched n o).shm.tail))

/-- The other thread puts an element in and takes one out. -/
def inAndOut : List (Sched Bool Unit) :=
  .call true () (.enque sample) :: alone true 118 ++ .call true () (.deque sample) :: alone true 3

theorem watched_run {n : ℕ} (hn : n ≤ alignCapa 32) (o : Obs) :
    ∃ π, (queue Bool Unit 32 false).Run π (watched n o) := by
  obtain ⟨⟨π, hrun⟩, hidle, -, -⟩ := run_filled 32 false false () (fun _ => sample) hn
  have hentry : ∃ op : Op, op.entry = .obsTail o := by
    cases o with
    | size => exact ⟨.size, rfl⟩
    | empty => exact ⟨.empty, rfl⟩
    | full => exact ⟨.full, rfl⟩
  obtain ⟨op, hop⟩ := hentry
  have hcall := hrun.snoc (next_call (hidle false) () op)
  rw [hop] at hcall
  exact ⟨_, hcall⟩

theorem watched_observation (n : ℕ) (o : Obs) {a : Ans}
    (hothers : ∀ x ∈ (halfway n o).trace inAndOut, false ≠ x.1.1)
    (ha : a = o.ans (((halfway n o).after inAndOut).hnd ()) (watched n o).shm.tail
      ((halfway n o).after inAndOut).shm.head) :
    Observation 32 false false o (watched n o) (halfway n o) ((halfway n o).trace inAndOut)
      ((halfway n o).after inAndOut)
      (((halfway n o).after inAndOut).goto false (some ((), .ret .user a none))) a :=
  observation_of_trace (State.goto_thr_self ..) inAndOut (by decide) rfl hothers ha

theorem inAndOut_others {n : ℕ} {o : Obs}
    (h : ((halfway n o).trace inAndOut).all (fun x => x.1.1) = true) :
    ∀ x ∈ (halfway n o).trace inAndOut, false ≠ x.1.1 := by
  intro x hx
  rw [List.all_eq_true.mp h x hx]
  exact Bool.false_ne_true

/-- One element was in: it goes out, and the one put in stays behind. -/
theorem observed_iff_sample :
    (0 ≤ (0 : ℤ) ∧ (0 : ℤ) ≤ alignCapa 32 ↔
      (deqTickets (System.events ((halfway 1 .size).trace inAndOut))).length ≤
        (watched 1 .size).shm.tail - (watched 1 .size).shm.head) ∧
    (System.Sees (halfway 1 .empty) ((halfway 1 .empty).trace inAndOut)
        (fun m => m.shm.tail = m.shm.head) ↔
      OutFirst (System.events ((halfway 1 .empty).trace inAndOut))) := by
  obtain ⟨_, hsize⟩ := watched_run (n := 1) (by decide) .size
  obtain ⟨_, hempty⟩ := watched_run (n := 1) (by decide) .empty
  have hzero := watched_observation 1 .size (inAndOut_others (by decide +kernel))
    (congrArg Ans.size (by decide +kernel : (0 : ℤ) = _))
  have htrue := watched_observation 1 .empty (inAndOut_others (by decide +kernel))
    (congrArg Ans.empty (by decide +kernel : true = _))
  exact ⟨(observed_iff hsize).1 0 hzero, (observed_iff hempty).2 htrue⟩

theorem full_right_sample : System.Sees (halfway 1 .full) ((halfway 1 .full).trace inAndOut)
    fun m => false = decide (m.shm.tail - m.shm.head = alignCapa 32) := by
  obtain ⟨_, hfull⟩ := watched_run (n := 1) (by decide) .full
  exact full_right hfull (watched_observation 1 .full (inAndOut_others (by decide +kernel))
    (congrArg Ans.full (by decide +kernel : false = _)))

/-- **A negative size, and a queue that was never empty.** -/
theorem observed_wrong :
    (∃ π s s' ρ t u x, (queue Bool Unit 32 false).Run π s ∧
      Observation 32 false false .size s s' ρ t u (.size x) ∧ x < 0) ∧
    ∃ π s s' ρ t u, (queue Bool Unit 32 false).Run π s ∧
      Observation 32 false false .empty s s' ρ t u (.empty true) ∧
      ¬ System.Sees s' ρ fun m => m.shm.tail = m.shm.head := by
  obtain ⟨π, hsize⟩ := watched_run (n := 0) (by decide) .size
  obtain ⟨π', hempty⟩ := watched_run (n := 1) (by decide) .empty
  have hbelow := watched_observation 0 .size (inAndOut_others (by decide +kernel))
    (congrArg Ans.size (by decide +kernel : (-1 : ℤ) = _))
  have htrue := watched_observation 1 .empty (inAndOut_others (by decide +kernel))
    (congrArg Ans.empty (by decide +kernel : true = _))
  exact ⟨⟨π, _, _, _, _, _, -1, hsize, hbelow, by decide⟩,
    ⟨π', _, _, _, _, _, hempty, htrue, by decide +kernel⟩⟩

end ShmAtmRQ

end LeonUtils
