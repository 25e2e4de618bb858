import LeonUtils.Shm.Tickets

/-!
# What a stopped thread holds up

A thread that stops for good between winning a ticket and storing the tag of its node holds up
everybody else as soon as that ticket is next in line: a producer the consumers, a consumer the
producers a lap later. From any reachable state, with the other threads stopped wherever they
are, the two ends of the queue are looked at separately.

## Main results

* `deque_alone_iff`, `enque_alone_iff` — a call run alone succeeds when its node is ready
* `alone_succeeds_iff` — both ends, and exactly which stopped threads stand in the way
* `stalled_producer` — a queue with a published element that nobody can take out
-/

namespace LeonUtils

namespace ShmAtmRQ

open Transition TicketRing

variable {Tid Hid : Type} [DecidableEq Tid] [DecidableEq Hid] {w : ℤ} {weak : Bool}
  {s t : State Tid Hid} {p : Tid} {π : List (Event Tid Hid × State Tid Hid)}

/-- A `deque` run alone succeeds exactly when the node of `_head` is published. -/
theorem deque_alone_iff (h : (queue Tid Hid w weak).Run π s) (hp : s.thr p = none) (hd : Hid)
    (buf : Goods) :
    (∃ fuel g t, s.perform fuel p hd (.deque buf) = some (.deque true g, t)) ↔
      (s.shm.base (s.shm.head % alignCapa w)).hTag = s.shm.head := by
  have hj := (coupled_of_run h).nodeIdx hd s.shm.head
  constructor
  · rintro ⟨fuel, g, t, hr⟩
    by_contra hempty
    have heq := (finishes_deque_empty (g := buf) rfl hj hempty).perform_eq hp hr
    cases heq
  · intro hfull
    obtain ⟨N, hN⟩ := (finishes_deque (g := buf) rfl hj hfull).perform hp
    exact ⟨N, _, _, hN N le_rfl⟩

/-- An `enque` run alone succeeds exactly when the node of `_tail` is free. -/
theorem enque_alone_iff (h : (queue Tid Hid w weak).Run π s) (hp : s.thr p = none) (hd : Hid)
    (g : Goods) :
    (∃ fuel t, s.perform fuel p hd (.enque g) = some (.enque true, t)) ↔
      (s.shm.base (s.shm.tail % alignCapa w)).tTag = s.shm.tail := by
  have hj := (coupled_of_run h).nodeIdx hd s.shm.tail
  constructor
  · rintro ⟨fuel, t, hr⟩
    by_contra hbusy
    have heq := (finishes_enque_full (g := g) rfl hj hbusy).perform_eq hp hr
    cases heq
  · intro hfree
    obtain ⟨N, hN⟩ := (finishes_enque (g := g) rfl hj hfree).perform hp
    exact ⟨N, _, hN N le_rfl⟩

/-- The node of `_head` is published exactly when its two tags agree on `_head`. -/
theorem hTag_head_iff (h : (queue Tid Hid w weak).Run π s) :
    (s.shm.base (s.shm.head % alignCapa w)).hTag = s.shm.head ↔
      (ring π s).turn (s.shm.head % alignCapa w) = s.shm.head ∧
        (ring π s).full (s.shm.head % alignCapa w) := by
  have hi := inv_of_run h
  obtain ⟨h0, hlt⟩ := hi.cell_range s.shm.head
  have hturn : (s.shm.base (s.shm.head % alignCapa w)).tTag < s.shm.head + alignCapa w :=
    hi.turn_lt _ h0 hlt
  constructor
  · intro htag
    rcases (coupled_of_run h).tags _ h0 hlt with hsame | hlap
    · exact ⟨hsame.symm.trans htag, hsame⟩
    · omega
  · rintro ⟨hturn, hfull⟩
    exact Eq.trans hfull hturn

/-- A ticket that has been published is one of those won. -/
theorem publish_lt (h : (queue Tid Hid w weak).Run π s) {q : Tid} {i : ℤ}
    (hpub : (q, Act.publish i) ∈ System.events π) : i < s.shm.tail := by
  revert hpub
  refine System.Run.induction (P := fun π s => (q, Act.publish i) ∈ System.events π →
    i < s.shm.tail) (fun s _ hpub => by cases hpub) ?_ h
  intro π s e t hrun ih hnext hpub
  simp only [System.events_append, System.events_singleton, List.mem_append,
    List.mem_singleton] at hpub
  refine lt_of_lt_of_le ?_ (tail_le_of_next hnext)
  rcases hpub with hpub | rfl
  · exact ih hpub
  · rcases next_writes hnext with ⟨hsil, -⟩ | ⟨hd, pc, x, hp, hwr, -⟩
    · exact hsil.elim
    · cases hwr with
      | silent hsil => exact hsil.elim
      | publish g i k hk => exact ((inv_of_run hrun).role_ok (ringOf_role hp)).2.1

/-- Some `enque` that has returned `true` won a ticket that is still in the queue. -/
def HoldsReturned (es : List (Event Tid Hid)) (s : State Tid Hid) : Prop :=
  ∃ q i, (q, Act.ret (.enque true) (some i)) ∈ es ∧ s.shm.head ≤ i

theorem HoldsReturned.lt (h : (queue Tid Hid w weak).Run π s)
    (hret : HoldsReturned (System.events π) s) : s.shm.head < s.shm.tail := by
  obtain ⟨q, i, hmem, hhead⟩ := hret
  obtain ⟨k, hk, hpub⟩ := (accounted_of_run h).put q _ hmem
  obtain rfl := Option.some.inj hk
  exact lt_of_le_of_lt hhead (publish_lt h hpub)

/-- **Exactly which stopped threads stand in the way.** From a reachable state, a `deque` run
alone finds an element that was enqueued, and an `enque` run alone finds room where there is
some, if and only if no producer is stopped between winning the ticket at `_head` and storing
its `h_tag`, and no consumer between winning the ticket a lap before `_tail` and storing its
`t_tag`. -/
theorem alone_succeeds_iff (h : (queue Tid Hid w weak).Run π s) (hp : s.thr p = none) (hd : Hid)
    (buf g : Goods) :
    ((HoldsReturned (System.events π) s →
        ∃ fuel g' t, s.perform fuel p hd (.deque buf) = some (.deque true g', t)) ∧
      (s.shm.tail - s.shm.head < alignCapa w →
        ∃ fuel t, s.perform fuel p hd (.enque g) = some (.enque true, t))) ↔
    ((HoldsReturned (System.events π) s → ∀ q, roleOf (s.thr q) ≠ .filling s.shm.head) ∧
      (s.shm.tail - s.shm.head < alignCapa w →
        ∀ q, roleOf (s.thr q) ≠ .draining (s.shm.tail - alignCapa w))) := by
  have hi := inv_of_run h
  refine and_congr (forall_congr' fun hret => ?_) (forall_congr' fun hroom => ?_)
  · rw [deque_alone_iff h hp, hTag_head_iff h]
    exact hi.head_full_iff (HoldsReturned.lt h hret)
  · rw [enque_alone_iff h hp]
    exact hi.tail_free_iff (show s.shm.tail < s.shm.head + alignCapa w by omega)

theorem alone_succeeds_filled : ∃ fuel t, (State.filled (Fin 1) 32 () (fun _ => sample) 3).perform
    fuel 0 () (.enque sample) = some (.enque true, t) := by
  obtain ⟨⟨π, hrun⟩, hidle, hhead, htail⟩ := run_filled 32 true (0 : Fin 1) ()
    (fun _ => sample) (n := 3) (by decide)
  have hready := (alone_succeeds_iff hrun (hidle 0) () sample sample).mpr
    ⟨fun _ q => by simp [hidle q, roleOf], fun _ q => by simp [hidle q, roleOf]⟩
  exact hready.2 (by rw [hhead, htail]; decide)

/-- Thread `0` wins ticket `0` for an `enque` and stops there. -/
def stopped : State (Fin 3) Unit :=
  (State.start (Fin 3) Unit 32).after
    [.call 0 () (.enque sample), .run 0 false, .run 0 false, .run 0 false]

/-- **A queue with a published element that nobody can take out.** While thread `0` is stopped
right after winning ticket `0`, thread `1` completes an `enque`; a `deque` of thread `2`, run
alone for however long, does not succeed. -/
theorem stalled_producer : ∃ π s, (queue (Fin 3) Unit 32 false).Run π s ∧ s.thr 2 = none ∧
    HoldsReturned (System.events π) s ∧
    ¬ ∃ fuel g t, s.perform fuel 2 () (.deque sample) = some (.deque true g, t) := by
  have hrun₀ := (System.Run.nil rfl).steps (steps_trace 32 false
    (State.start (Fin 3) Unit 32)
    [.call 0 () (.enque sample), .run 0 false, .run 0 false, .run 0 false] (by decide))
  have hfree : (stopped.shm.base 1).tTag = 1 := by decide +kernel
  obtain ⟨ρ, hρ⟩ := (finishes_enque (s := stopped) (p := 1) (h := ()) (g := sample)
    (show stopped.shm.tail = 1 by decide +kernel) (by decide +kernel) hfree).steps
    32 false (by rfl)
  have hrun := hrun₀.steps hρ
  refine ⟨_, _, hrun, by rfl, ⟨1, 1, ?_, by decide +kernel⟩, fun hdeq => ?_⟩
  · simp only [System.events_append, System.events_singleton, List.mem_append,
      List.mem_singleton, or_true]
  · rw [deque_alone_iff hrun (by rfl)] at hdeq
    exact absurd hdeq (by decide +kernel)

end ShmAtmRQ

end LeonUtils
