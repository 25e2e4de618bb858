import LeonUtils.Craflin.Lifetime
import LeonUtils.Craflin.Sequential

/-!
# Exceptions

A call wins its ticket before it constructs the element, or moves it out. When the construction or
the move assignment throws, the exception leaves the call and the ticket stays won: no other code
will ever publish its node, or release it. Here this is compared with what an exception should leave
behind, a queue that goes on as if the call had not been made.

It never does. After a construction that threw, the destructor destroys a slot in which nothing was
constructed; after a move assignment that threw, it passes over an element that is still there. A
single exception is enough, whatever happens before and after it. Without one, every run leaves a
queue in order (`Craflin.Lifetime`, `Craflin.Sequential`).

## Main definitions

* `remaining` — the elements that should be in the queue
* `Usable` — what a run should leave behind

## Main results

* `holds_of_idle` — what the queue holds between calls of which none has thrown
* `usable_iff` — a run leaves the queue usable exactly when nothing in it throws
* `throw_unusable` — one exception, and what comes of it
-/

namespace LeonUtils

namespace CraflinRQ

open Transition TicketRing
open ShmAtmRQ (ticketsBelow mem_ticketsBelow)

variable {Tid T : Type}

/-! ## What should be left -/

/-- The ticket under which an event reports that an element has been put in. -/
def Act.accepted : Act T → Option ℤ
  | .ret (.enque true) won => won
  | _ => none

/-- The tickets of the `enque`s that returned `true`. -/
def accepted (es : List (Event Tid T)) : List ℤ := es.filterMap fun e => e.2.accepted

/-- Whether the call with a given ticket has thrown. -/
def threw (es : List (Event Tid T)) (x : Side × ℤ) : Bool :=
  es.any fun e => decide (e.2.thrown = some x)

/-- What should be in the queue: the elements put in and not handed out, in the order of their
tickets. Of each element whose `deque` has thrown, `keep` says whether it is still there. -/
def remaining (π : List (Event Tid T × State Tid T)) (keep : ℤ → Bool) : List T :=
  let es := System.events π
  (tickets es .enq).filterMap fun i =>
    if i ∈ accepted es ∧ i ∉ handed es ∧ (threw es (.deq, i) = true → keep i = true) then
      (ledger π).val i
    else none

/-- What a run should leave behind, once no call is in progress: calls made one after the other see
a bounded queue that holds the elements that should be there, as long as there are fewer than
`2 ^ 64` calls in all; and the destructor destroys live elements only, and leaves none. -/
structure Usable [DecidableEq Tid] (π : List (Event Tid T × State Tid T)) (s : State Tid T) :
    Prop where
  fifo : ∃ keep N, ∀ fuel, N ≤ fuel → ∀ cs : List (Tid × Op T),
    calls (System.events π) + cs.length < 2 ^ 64 →
      (s.performAll fuel cs).map Prod.fst =
        some (fifoCalls s.mem.capa (remaining π keep) (cs.map Prod.snd))
  destroys : ∀ x ∈ s.mem.destroyed, x.2 ≠ none
  leaves : ∀ j, 0 ≤ j → j < s.mem.capa → (s.mem.destructed.base j).data = none

theorem count_accepted (es : List (Event Tid T)) (i : ℤ) :
    (accepted es).count i = passed es .enq i 2 := by
  rw [accepted, List.count_filterMap, passed]
  refine List.countP_congr ?_
  intro e _
  cases e.2 with
  | ret a won =>
    cases a with
    | enque ok => cases ok <;> cases won <;> simp [Act.accepted, Act.stage, Ans.stage]
    | deque ok d => cases ok <;> cases won <;> simp [Act.accepted, Act.stage, Ans.stage]
  | _ => simp [Act.accepted, Act.stage]

/-! ## After an exception -/

variable {n : ℤ} {L : Ledger T} {s : State Tid T}

/-- A construction that threw leaves an empty slot among those that the destructor destroys. -/
theorem Good.destroys_empty (hg : Good n L s) {i : ℤ} (hlost : L.lost (.enq, i) = true) :
    (i % n, none) ∈ s.mem.destroyed := by
  have hrole : (ringOf L s).role (.inr (.enq, i)) = .filling i := if_pos hlost
  obtain ⟨h0, hlt, hturn, hempty⟩ := hg.ring.role_ok hrole
  obtain ⟨hj0, hjn⟩ := hg.ring.cell_range i
  have hhead : s.mem.head ≤ i := by
    by_contra hle
    refine hempty (hg.ring.full_of_lt _ hj0 hjn ?_)
    rw [hturn]
    exact not_le.mp hle
  change i < s.mem.tail at hlt
  have hwindow : s.mem.tail - s.mem.head ≤ n := hg.ring.tail_sub_head.2
  have hslot : s.mem.slot n i = none := hg.lost _ hlost
  rw [Mem.destroyed, destroyLoop_fst hg.index _ (by omega)]
  refine List.mem_map.mpr ⟨(i - s.mem.head).toNat, List.mem_range.mpr (by omega), ?_⟩
  rw [show s.mem.head + ((i - s.mem.head).toNat : ℤ) = i by omega, hslot]

/-- A move assignment that threw leaves an element that the destructor passes over. -/
theorem Good.leaves_live (hg : Good n L s) {i : ℤ} (hlost : L.lost (.deq, i) = true) :
    (s.mem.destructed.base (i % n)).data ≠ none := by
  have hrole : (ringOf L s).role (.inr (.deq, i)) = .draining i := if_pos hlost
  obtain ⟨h0, hlt, hturn⟩ := hg.ring.role_ok hrole
  obtain ⟨hj0, hjn⟩ := hg.ring.cell_range i
  have htail : s.mem.tail ≤ i + n := by
    have := hg.ring.tail_le _ hj0 hjn
    rwa [hturn] at this
  change i < s.mem.head at hlt
  have hle : s.mem.head ≤ s.mem.tail := hg.ring.head_le
  -- the tickets the destructor goes through are less than a lap above `i`
  have hmiss : ∀ k : ℕ, k < (s.mem.tail - s.mem.head).toNat → i % n ≠ (s.mem.head + k) % n :=
    fun k hk => emod_ne_emod (by omega) (by omega)
  obtain ⟨v, hv⟩ := hg.val i h0 (hlt.trans_le hle)
  have hslot : s.mem.slot n i = L.obj i := hg.lost _ hlost
  rw [Ledger.obj_of_val hv, Mem.slot] at hslot
  rw [Mem.destructed, (destroyLoop_snd hg.index _ _ _).2 hmiss, hslot]
  exact Option.some_ne_none _

/-! ## Without an exception -/

/-- Where `f` finds something for every element, `filterMap` drops none. -/
theorem map_some_filterMap {α β : Type} {f : α → Option β} {l : List α}
    (h : ∀ x ∈ l, ∃ y, f x = some y) : (l.filterMap f).map some = l.map f := by
  induction l with
  | nil => rfl
  | cons x l ih =>
    obtain ⟨y, hy⟩ := h x List.mem_cons_self
    rw [List.filterMap_cons_some hy, List.map_cons, List.map_cons, hy,
      ih fun z hz => h z (List.mem_cons_of_mem _ hz)]

theorem node_eq {x : Node T} {head tail : ℤ} {data : Option (Obj T)} (hhead : x.head = head)
    (hdata : x.data = data) (htail : x.tail = tail) : x = ⟨head, data, tail⟩ := by
  rw [← hhead, ← hdata, ← htail]

/-- The values of the tickets in the queue. -/
def window (L : Ledger T) (m : Mem T) : List T :=
  (List.range (m.tail - m.head).toNat).filterMap fun k : ℕ => L.val (m.head + k)

/-- **What the queue holds between calls**, when none has thrown: the elements of the tickets from
`_head` up to `_tail`. -/
theorem holds_of_idle (hg : Good n L s) (hidle : ∀ p, s.thr p = none)
    (hkept : ∀ x, L.lost x = false) : Holds n s.mem (window L s.mem) := by
  have hwindow : 0 ≤ s.mem.tail - s.mem.head ∧ s.mem.tail - s.mem.head ≤ n := hg.ring.tail_sub_head
  have hnonneg : 0 ≤ s.mem.head := hg.ring.head_nonneg
  have hall : (window L s.mem).map some =
      (List.range (s.mem.tail - s.mem.head).toNat).map fun k : ℕ => L.val (s.mem.head + k) :=
    map_some_filterMap fun k hk => by
      have := List.mem_range.mp hk
      exact hg.val _ (by omega) (by omega)
  have hlen : (window L s.mem).length = (s.mem.tail - s.mem.head).toNat := by
    have := congrArg List.length hall
    simpa using this
  refine ⟨hg.index, hg.capa, hg.ring.pos, hnonneg, by omega, by omega, ?_, ?_⟩
  · intro k v hv
    have hk : k < (s.mem.tail - s.mem.head).toNat := by
      rw [← hlen]
      exact (List.getElem?_eq_some_iff.mp hv).1
    have hval : L.val (s.mem.head + k) = some v := by
      have := congrArg (·[k]?) hall
      simp only [List.getElem?_map, hv, List.getElem?_range hk, Option.map_some,
        Option.some.injEq] at this
      exact this.symm
    obtain ⟨hturn, hin, -⟩ := hg.idle hidle hkept (i := s.mem.head + k) (by omega) (by omega)
    obtain ⟨hhead, hslot⟩ := hin (by omega)
    rw [Ledger.obj_of_val hval] at hslot
    exact node_eq hhead hslot hturn
  · intro i hi hin
    obtain ⟨hturn, -, hout⟩ := hg.idle hidle hkept (by omega) hin
    exact ⟨hturn, (hout hi).1⟩

section Results

variable [DecidableEq Tid] {sizeofNode capa : ℕ} {weak throwing : Bool}
  {π : List (Event Tid T × State Tid T)}

/-- What should be in the queue is what it holds, when nothing has thrown. -/
theorem remaining_of_idle (h : (queue Tid T sizeofNode capa weak throwing).Run π s)
    (hwins : wins (System.events π) < 2 ^ 64) (hidle : ∀ p, s.thr p = none)
    (hkept : ∀ x, (ledger π).lost x = false) (keep : ℤ → Bool) :
    remaining π keep = window (ledger π) s.mem := by
  obtain ⟨hg, -⟩ := good_of_run h hwins
  have h0 : 0 ≤ s.mem.head := hg.ring.head_nonneg
  have hle : s.mem.head ≤ s.mem.tail := hg.ring.head_le
  have hmem : ∀ {sd k} {xs : List ℤ} {i : ℤ}, k ≤ sd.last → xs.count i =
      passed (System.events π) sd i k → (i ∈ xs ↔ 0 ≤ i ∧ i < s.mem.counter sd) := by
    intro sd k xs i hk hcount
    rw [← List.count_pos_iff, hcount, passed_of_idle h hwins hidle hkept hk, tickets_eq h hwins,
      List.count_pos_iff, mem_ticketsBelow]
  have haccepted := fun i => hmem (by decide) (count_accepted (System.events π) i)
  have hhanded := fun i => hmem (by decide) (count_handed (System.events π) i)
  have hthrew : ∀ x, threw (System.events π) x = false := by
    intro x
    rw [threw, List.any_eq_false]
    intro e he hx
    have hlost := (ledger_lost π x).mpr ⟨e, he, of_decide_eq_true hx⟩
    rw [hkept x] at hlost
    cases hlost
  rw [remaining, tickets_eq h hwins]
  simp only [Mem.counter, haccepted, hhanded, hthrew, Bool.false_eq_true, false_imp_iff, and_true]
  rw [← ticketsBelow_append h0 hle, List.filterMap_append, List.filterMap_map]
  have hout : (ticketsBelow s.mem.head).filterMap (fun i =>
      if (0 ≤ i ∧ i < s.mem.tail) ∧ ¬(0 ≤ i ∧ i < s.mem.head) then (ledger π).val i else none) =
        [] := by
    refine List.filterMap_eq_nil_iff.mpr ?_
    intro i hi
    exact if_neg fun hnot => hnot.2 (mem_ticketsBelow.mp hi)
  rw [hout, List.nil_append]
  refine List.filterMap_congr ?_
  intro k hk
  have hk := List.mem_range.mp hk
  simp only [Function.comp_apply]
  exact if_pos ⟨⟨by omega, by omega⟩, by omega⟩

/-- **A run leaves the queue usable exactly when nothing in it throws.** -/
theorem usable_iff (h : (queue Tid T sizeofNode capa weak throwing).Run π s)
    (hcalls : calls (System.events π) < 2 ^ 64) (hidle : ∀ p, s.thr p = none) :
    Usable π s ↔ ∀ e ∈ System.events π, e.2.thrown = none := by
  have hwins : wins (System.events π) < 2 ^ 64 := (wins_le_calls h).trans_lt hcalls
  obtain ⟨hg, hcount⟩ := good_of_run h hwins
  constructor
  · intro hu e he
    refine Option.eq_none_iff_forall_ne_some.mpr ?_
    rintro ⟨sd, i⟩ hx
    have hlost := (ledger_lost π (sd, i)).mpr ⟨e, he, hx⟩
    cases sd with
    | enq => exact hu.destroys _ (hg.destroys_empty hlost) rfl
    | deq =>
      obtain ⟨h0, hlt⟩ := hg.ring.cell_range i
      exact hg.leaves_live hlost (hu.leaves _ h0 (by rwa [hg.capa]))
  · intro hnone
    have hkept := lost_of_thrown hnone
    obtain ⟨hdestroyed, hleft⟩ := destroyed_of_idle h hwins hidle hkept
    refine ⟨⟨fun _ => true, 7, ?_⟩, ?_, ?_⟩
    · intro fuel hfuel cs hlimit
      rw [remaining_of_idle h hwins hidle hkept]
      have hsuccesses : successes (fifoCalls (capaOf sizeofNode capa) (window (ledger π) s.mem)
          (cs.map Prod.snd)) ≤ cs.length := by
        refine List.countP_le_length.trans ?_
        rw [length_fifoCalls, List.length_map]
      have hle := wins_le_calls h
      obtain ⟨m, items, hall, -⟩ := (holds_of_idle hg hidle hkept).calls hidle (capaOf_bounds _ _).2
        cs (by omega) hfuel
      rw [hall, hg.capa]
      rfl
    · rw [hdestroyed]
      intro x hx
      obtain ⟨k, hk, rfl⟩ := List.mem_map.mp hx
      have hk := List.mem_range.mp hk
      have h0 : 0 ≤ s.mem.head := hg.ring.head_nonneg
      obtain ⟨v, hv⟩ := hg.val (s.mem.head + k) (by omega) (by omega)
      rw [Ledger.obj_of_val hv]
      exact Option.some_ne_none _
    · rw [hg.capa]
      exact hleft

theorem usable_iff_roundTrip :
    Usable (System.trace State.step (State.start (Fin 2) ℕ 192 4) roundTrip)
      (System.after State.step (State.start (Fin 2) ℕ 192 4) roundTrip) :=
  (usable_iff ⟨_, rfl, steps_trace 192 4 false true _ roundTrip (by decide)⟩
    (by decide +kernel) (by decide +kernel)).mpr (by decide +kernel)

end Results

/-! ## One exception -/

/-- Thread `p` calls `enque`, and the construction throws. -/
def throwingEnque (p : Tid) : List (Sched Tid ℕ) :=
  .call p (.enque 7) :: List.replicate 3 (.run p calm) ++ [.run p ⟨false, true⟩]

/-- Thread `p` puts an element in; thread `q` calls `deque`, and the move assignment throws. -/
def throwingDeque (p q : Tid) : List (Sched Tid ℕ) :=
  wholeEnque p 7 ++ .call q (.deque 0) :: List.replicate 3 (.run q calm) ++
    [.run q ⟨false, true⟩]

/-- **One exception, and what comes of it.** After a construction that threw, an `enque` returns
`true` and a `deque` after it does not find the element, and the destructor would have destroyed a
slot that holds nothing. After a move assignment that threw, the destructor leaves an element
behind. -/
theorem throw_unusable :
    (∃ π s, (queue (Fin 2) ℕ 192 4 false true).Run π s ∧ (∀ p, s.thr p = none) ∧
      (s.performAll 7 [(0, .enque 8), (1, .deque 0)]).map Prod.fst =
        some [.enque true, .deque false 0] ∧
      s.mem.destroyed = [(0, none)] ∧ ¬ Usable π s) ∧
    (∃ π s, (queue (Fin 2) ℕ 192 4 false true).Run π s ∧ (∀ p, s.thr p = none) ∧
      s.mem.destroyed = [] ∧ (s.mem.destructed.base 0).data = some ⟨0, 7, false⟩ ∧
      ¬ Usable π s) := by
  constructor
  · have hdestroyed : (System.after State.step (State.start (Fin 2) ℕ 192 4)
        (throwingEnque 0)).mem.destroyed = [(0, none)] := by decide +kernel
    refine ⟨_, _, (System.Run.nil rfl).steps (steps_trace 192 4 false true _ (throwingEnque 0)
      (by decide)), by decide +kernel, by decide +kernel, hdestroyed, ?_⟩
    intro hu
    exact hu.destroys (0, none) (by simp [hdestroyed]) rfl
  · have hleft : ((System.after State.step (State.start (Fin 2) ℕ 192 4)
        (throwingDeque 0 1)).mem.destructed.base 0).data = some ⟨0, 7, false⟩ := by decide +kernel
    refine ⟨_, _, (System.Run.nil rfl).steps (steps_trace 192 4 false true _
      (throwingDeque 0 1) (by decide)), by decide +kernel, by decide +kernel, hleft, ?_⟩
    intro hu
    have hnone := hu.leaves 0 le_rfl (by decide +kernel)
    rw [hleft] at hnone
    cases hnone

end CraflinRQ

end LeonUtils
