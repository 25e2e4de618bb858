import LeonUtils.Craflin.Machine
import LeonUtils.TicketRing
import Mathlib.Data.List.Induction
import Mathlib.Data.List.Perm.Subperm

/-!
# The queue inside one process is a ticket ring

`ringOf` reads a state of the queue as a ring of `TicketRing`, as `Shm.Refine` does for the queue
in shared memory: the tail tag of a node is the turn of its cell, and the cell is full when the two
tags agree. Contents play no part in this reading, because here a slot is emptied while its cell
still counts as full; what the slots hold is a second layer, `PcOk` and the field `rest` of `Good`.

## Who holds a ticket after an exception

A call that throws has won a ticket and never passes it on. The parties of the ring are therefore
the threads and, for each side and each ticket, a phantom that takes over the ticket of a call that
threw. To the ring this is a ticket that changes hands (`Inv.handOver`).

## Two to the sixty-fourth

The counters are `size_t`. With fewer than `2 ^ 64` calls fewer than `2 ^ 64` tickets are won, on
both sides together, so neither counter wraps. Nor does a release tag, because at most half of the
tickets are consumers'. No consumer ever looks for the ticket `2 ^ 64 - 1`, the head tag of a node
that was never used, for the same reason.

## Main definitions

* `Ledger` — what the history says about tickets
* `ringOf` — the ring of a state
* `Good` — the invariant

## Main results

* `counters_act` — the counters count the tickets
* `Good.advance` — the code of one thread keeps the invariant
* `good_of_run` — the invariant after every run of fewer than `2 ^ 64` calls
-/

namespace LeonUtils

namespace CraflinRQ

open Transition TicketRing

variable {Tid T : Type}

/-! ## The ledger -/

/-- The two kinds of calls. -/
inductive Side
  | enq
  | deq
deriving DecidableEq

/-- What the history says about each ticket: the value that the `enque` that won it was given, and
whether the call that won it, on either side, has thrown. -/
structure Ledger (T : Type) where
  val : ℤ → Option T
  lost : Side × ℤ → Bool

/-- Nothing has happened yet. -/
def Ledger.new : Ledger T := ⟨fun _ => none, fun _ => false⟩

/-- Account for one event. -/
def Ledger.note (L : Ledger T) : Act T → Ledger T
  | .enqWin i v => { L with val := Function.update L.val i (some v) }
  | .throwIn i => { L with lost := Function.update L.lost (.enq, i) true }
  | .throwOut i => { L with lost := Function.update L.lost (.deq, i) true }
  | _ => L

/-- The ticket of a call that throws in a step, if it throws. -/
def Act.thrown : Act T → Option (Side × ℤ)
  | .throwIn i => some (.enq, i)
  | .throwOut i => some (.deq, i)
  | _ => none

theorem Ledger.note_lost (L : Ledger T) (a : Act T) (x : Side × ℤ) :
    (L.note a).lost x = true ↔ a.thrown = some x ∨ L.lost x = true := by
  have hset : ∀ y, Function.update L.lost y true x = true ↔ some y = some x ∨ L.lost x = true := by
    intro y
    by_cases hxy : x = y
    · subst hxy
      simp
    · simp [Function.update_of_ne hxy, Ne.symm hxy]
  cases a with
  | throwIn i => exact hset (.enq, i)
  | throwOut i => exact hset (.deq, i)
  | _ => simp [Ledger.note, Act.thrown]

/-- The ledger of a history. -/
def ledger (π : List (Event Tid T × State Tid T)) : Ledger T :=
  (System.events π).foldl (fun L e => L.note e.2) .new

@[simp] theorem ledger_snoc (π : List (Event Tid T × State Tid T)) (e : Event Tid T)
    (t : State Tid T) : ledger (π ++ [(e, t)]) = (ledger π).note e.2 := by
  simp [ledger]

/-- The tickets lost are those of the calls that have thrown. -/
theorem ledger_lost (π : List (Event Tid T × State Tid T)) (x : Side × ℤ) :
    (ledger π).lost x = true ↔ ∃ e ∈ System.events π, e.2.thrown = some x := by
  induction π using List.reverseRecOn with
  | nil => simp [ledger, Ledger.new]
  | append_singleton π y ih =>
    obtain ⟨e, t⟩ := y
    rw [ledger_snoc, Ledger.note_lost, ih]
    simp only [System.events_append, System.events_singleton, List.mem_append, List.mem_singleton]
    constructor
    · rintro (he | ⟨e', he', hx⟩)
      · exact ⟨e, Or.inr rfl, he⟩
      · exact ⟨e', Or.inl he', hx⟩
    · rintro ⟨e', he' | rfl, hx⟩
      · exact Or.inr ⟨e', he', hx⟩
      · exact Or.inl hx

/-- When nothing has thrown, no ticket is lost. -/
theorem lost_of_thrown {π : List (Event Tid T × State Tid T)}
    (h : ∀ e ∈ System.events π, e.2.thrown = none) (x : Side × ℤ) : (ledger π).lost x = false := by
  by_contra hlost
  obtain ⟨e, he, hx⟩ := (ledger_lost π x).mp (eq_true_of_ne_false hlost)
  rw [h e he] at hx
  cases hx

/-- The object of a ticket, as its `enque` builds it. -/
def Ledger.obj (L : Ledger T) (i : ℤ) : Option (Obj T) := (L.val i).map fun v => ⟨i, v, false⟩

theorem Ledger.obj_congr {L L' : Ledger T} {i : ℤ} (h : L'.val i = L.val i) :
    L'.obj i = L.obj i := by
  rw [Ledger.obj, h, Ledger.obj]

theorem Ledger.obj_of_val {L : Ledger T} {i : ℤ} {v : T} (h : L.val i = some v) :
    L.obj i = some ⟨i, v, false⟩ := by
  rw [Ledger.obj, h, Option.map_some]

/-! ## The ring -/

/-- The ring role of a position. -/
def Pc.role : Pc T → Role
  | .enqTest _ i => .atTail i
  | .enqCas _ i => .sawFree i
  | .enqBuild _ i | .enqStore _ i => .filling i
  | .deqTest _ i => .atHead i
  | .deqCas _ i => .sawFull i
  | .deqMove _ i | .deqKill _ i | .deqStore _ i => .draining i
  | _ => .out

/-- The ring role of a thread, idle or in a call. -/
def roleOf : Option (Pc T) → Role
  | none => .out
  | some pc => pc.role

/-- The role of a call that holds ticket `i` on one side. -/
def Side.holding : Side → ℤ → Role
  | .enq, i => .filling i
  | .deq, i => .draining i

@[simp] theorem Side.holding_held (sd : Side) (i : ℤ) : (sd.holding i).held = some i := by
  cases sd <;> rfl

/-- The parties of the ring: threads, and the phantoms of calls that threw. -/
abbrev Party (Tid : Type) : Type := Tid ⊕ Side × ℤ

/-- The role of a phantom. -/
def Ledger.role (L : Ledger T) (x : Side × ℤ) : Role :=
  if L.lost x then x.1.holding x.2 else .out

/-- A state with its ledger, as a ring. -/
def ringOf (L : Ledger T) (s : State Tid T) : Ring (Party Tid) Unit where
  head := s.mem.head
  tail := s.mem.tail
  turn j := (s.mem.base j).tail
  full j := (s.mem.base j).head = (s.mem.base j).tail
  cell _ := ()
  val _ := ()
  role := Sum.elim (fun p => roleOf (s.thr p)) L.role

@[simp] theorem ringOf_role_inl (L : Ledger T) (s : State Tid T) (p : Tid) :
    (ringOf L s).role (.inl p) = roleOf (s.thr p) := rfl

@[simp] theorem ringOf_role_inr (L : Ledger T) (s : State Tid T) (x : Side × ℤ) :
    (ringOf L s).role (.inr x) = L.role x := rfl

theorem ringOf_role {L : Ledger T} {s : State Tid T} {p : Tid} {pc : Pc T}
    (hp : s.thr p = some pc) : (ringOf L s).role (.inl p) = pc.role := by
  simp [hp, roleOf]

/-- The ledger enters a ring only through its phantoms. -/
theorem ringOf_congr {L L' : Ledger T} (s : State Tid T) (h : L'.lost = L.lost) :
    ringOf L' s = ringOf L s := by
  have hrole : L'.role = L.role := by
    funext x
    simp only [Ledger.role, h]
  simp only [ringOf, hrole]

section Goto

variable [DecidableEq Tid] (L : Ledger T) (s : State Tid T) (p : Tid)

/-- Moving a thread, memory unchanged in the eyes of the ring. -/
theorem ringOf_goto (m : Mem T) (x : Option (Pc T)) (hhead : m.head = s.mem.head)
    (htail : m.tail = s.mem.tail) (hturn : ∀ j, (m.base j).tail = (s.mem.base j).tail)
    (hfull : ∀ j, (m.base j).head = (s.mem.base j).head) :
    ringOf L (s.goto p m x) = (ringOf L s).setRole (.inl p) (roleOf x) := by
  simp only [ringOf, State.goto, Ring.setRole, hhead, htail, hturn, hfull, Ring.mk.injEq,
    true_and]
  funext y
  cases y with
  | inl q =>
    by_cases hq : q = p
    · subst hq
      simp
    · have hne : (Sum.inl q : Party Tid) ≠ Sum.inl p := by simpa using hq
      simp [hq, hne]
  | inr y => simp

/-- The same when the two counters move. -/
theorem ringOf_goto_counters (x : Option (Pc T)) (head tail : ℤ) :
    ringOf L (s.goto p { s.mem with head := head, tail := tail } x) =
      { (ringOf L s).setRole (.inl p) (roleOf x) with head := head, tail := tail } := by
  have h := ringOf_goto L ⟨{ s.mem with head := head, tail := tail }, s.thr⟩ p _ x rfl rfl
    (fun _ => rfl) fun _ => rfl
  exact h

/-- The same when the two tags of a node change. -/
theorem ringOf_goto_node (x : Option (Pc T)) (j : ℤ) (nd : Node T) :
    ringOf L (s.goto p (s.mem.setNode j nd) x) = { (ringOf L s).setRole (.inl p) (roleOf x) with
      turn := Function.update (ringOf L s).turn j nd.tail
      full := Function.update (ringOf L s).full j (nd.head = nd.tail) } := by
  have h := ringOf_goto L ⟨s.mem.setNode j nd, s.thr⟩ p _ x rfl rfl (fun _ => rfl) fun _ => rfl
  refine h.trans ?_
  simp only [ringOf, Ring.setRole, Mem.setNode, Ring.mk.injEq, and_true, true_and]
  constructor <;> funext k <;> by_cases hk : k = j <;> simp [hk]

end Goto

/-! ## The invariant -/

/-- What the slot of ticket `i` holds. -/
def Mem.slot (m : Mem T) (n i : ℤ) : Option (Obj T) := (m.base (i % n)).data

/-- What is known of a thread that holds a ticket, beyond its role. -/
def PcOk (n : ℤ) (L : Ledger T) (m : Mem T) : Pc T → Prop
  | .enqBuild v i => L.val i = some v ∧ m.slot n i = none
  | .enqStore v i => L.val i = some v ∧ m.slot n i = some ⟨i, v, false⟩
  | .deqMove _ i => m.slot n i = L.obj i
  | .deqKill v i => L.val i = some v ∧ m.slot n i = some ⟨i, v, true⟩
  | .deqStore v i => L.val i = some v ∧ m.slot n i = none
  | _ => True

/-- What the slot of a ticket holds whose call has thrown: nothing was built there, or what was
there has not been destroyed. -/
def LostOk (n : ℤ) (L : Ledger T) (m : Mem T) : Side × ℤ → Prop
  | (.enq, i) => m.slot n i = none
  | (.deq, i) => m.slot n i = L.obj i

/-- Nobody is at work on cell `j`. -/
def Unheld (n : ℤ) (r : Ring (Party Tid) Unit) (j : ℤ) : Prop :=
  ∀ q i, (r.role q).held = some i → i % n ≠ j

/-- The invariant. The fields about `j` speak of the nodes, `0 ≤ j < n`. -/
structure Good (n : ℤ) (L : Ledger T) (s : State Tid T) : Prop where
  ring : Inv n (ringOf L s)
  capa : s.mem.capa = n
  index : ∀ i, s.mem.at i = i % n
  tags : ∀ j, 0 ≤ j → j < n →
    (s.mem.base j).head = (s.mem.base j).tail ∨
      (s.mem.base j).head = (s.mem.base j).tail - n ∨ (s.mem.base j).head = 2 ^ 64 - 1
  val : ∀ i, 0 ≤ i → i < s.mem.tail → ∃ v, L.val i = some v
  pc : ∀ p pc, s.thr p = some pc → PcOk n L s.mem pc
  lost : ∀ x, L.lost x = true → LostOk n L s.mem x
  rest : ∀ j, 0 ≤ j → j < n → Unheld n (ringOf L s) j →
    (s.mem.base j).data =
      if (s.mem.base j).head = (s.mem.base j).tail then L.obj (s.mem.base j).tail else none

variable {n : ℤ} {L : Ledger T} {s t : State Tid T}

/-- A ticket that is held is the turn of its cell, and has been claimed. -/
theorem held_turn {r : Ring (Party Tid) Unit} (h : Inv n r) {q : Party Tid} {k : ℤ}
    (hq : (r.role q).held = some k) : r.turn (k % n) = k ∧ 0 ≤ k ∧ k < r.tail := by
  rcases Role.held_eq_some.mp hq with hq | hq
  · obtain ⟨h0, hlt, hturn, -⟩ := h.role_ok hq
    exact ⟨hturn, h0, hlt⟩
  · obtain ⟨h0, hlt, hturn⟩ := h.role_ok hq
    exact ⟨hturn, h0, hlt.trans_le h.head_le⟩

/-- The cell of the ticket about to be claimed is unheld, and not full. -/
theorem unheld_tail {r : Ring (Party Tid) Unit} (h : Inv n r)
    (hfree : r.tail ≤ r.turn (r.tail % n)) :
    Unheld n r (r.tail % n) ∧ ¬ r.full (r.tail % n) := by
  obtain ⟨h0, hlt⟩ := h.cell_range r.tail
  have hturn := h.turn_of_free hfree
  constructor
  · intro q k hq hk
    obtain ⟨hkt, -, hklt⟩ := held_turn h hq
    rw [hk, hturn] at hkt
    omega
  · intro hfull
    have := h.full_lt _ h0 hlt hfull
    omega

/-- The cell of the ticket about to be taken is unheld. -/
theorem unheld_head {r : Ring (Party Tid) Unit} (h : Inv n r) (hfilled : r.Filled n r.head) :
    Unheld n r (r.head % n) := by
  obtain ⟨hturn, hfull⟩ := h.turn_of_filled hfilled
  intro q k hq hk
  obtain ⟨hkt, -, -⟩ := held_turn h hq
  rw [hk, hturn] at hkt
  subst hkt
  rcases Role.held_eq_some.mp hq with hq | hq
  · exact (h.role_ok hq).2.2.2 hfull
  · exact absurd (h.role_ok hq).2.1 (lt_irrefl _)

/-- What is known of a thread survives as long as the slot and the value of the ticket it holds
do. -/
theorem PcOk.frame {L' : Ledger T} {m m' : Mem T} {pc : Pc T} (h : PcOk n L m pc)
    (hkeep : ∀ i, pc.role.held = some i → L'.val i = L.val i ∧ m'.slot n i = m.slot n i) :
    PcOk n L' m' pc := by
  cases pc with
  | enqBuild v i => exact ⟨(hkeep i rfl).1.trans h.1, (hkeep i rfl).2.trans h.2⟩
  | enqStore v i => exact ⟨(hkeep i rfl).1.trans h.1, (hkeep i rfl).2.trans h.2⟩
  | deqMove d i => exact (hkeep i rfl).2.trans (Eq.trans h (Ledger.obj_congr (hkeep i rfl).1).symm)
  | deqKill v i => exact ⟨(hkeep i rfl).1.trans h.1, (hkeep i rfl).2.trans h.2⟩
  | deqStore v i => exact ⟨(hkeep i rfl).1.trans h.1, (hkeep i rfl).2.trans h.2⟩
  | _ => trivial

theorem LostOk.frame {L' : Ledger T} {m m' : Mem T} {x : Side × ℤ} (h : LostOk n L m x)
    (hval : L'.val x.2 = L.val x.2) (hslot : m'.slot n x.2 = m.slot n x.2) :
    LostOk n L' m' x := by
  obtain ⟨sd, i⟩ := x
  cases sd with
  | enq => exact hslot.trans h
  | deq => exact hslot.trans (Eq.trans h (Ledger.obj_congr hval).symm)

theorem lost_held (h : L.lost x = true) : (L.role x).held = some x.2 := by
  rw [Ledger.role, if_pos h, Side.holding_held]

/-- **Between calls, when none has thrown, the nodes spell out the window** of `n` tickets from
`_head` on: a ticket below `_tail` has its element in its node, published; the others find their
nodes released and empty. -/
theorem Good.idle (hg : Good n L s) (hidle : ∀ p, s.thr p = none) (hkept : ∀ x, L.lost x = false)
    {i : ℤ} (hi : s.mem.head ≤ i) (hin : i < s.mem.head + n) :
    (s.mem.base (i % n)).tail = i ∧
      (i < s.mem.tail → (s.mem.base (i % n)).head = i ∧ s.mem.slot n i = L.obj i) ∧
      (s.mem.tail ≤ i → (s.mem.base (i % n)).head ≠ i ∧ s.mem.slot n i = none) := by
  have hquiet : ∀ q, ((ringOf L s).role q).held = none := by
    intro q
    cases q with
    | inl p => simp [hidle p, roleOf, Role.held]
    | inr x => simp [Ledger.role, hkept x, Role.held]
  obtain ⟨h0, hlt⟩ := hg.ring.cell_range i
  obtain ⟨hturn, hfull⟩ := hg.ring.turn_of_quiet hquiet hi hin
  change (s.mem.base (i % n)).tail = i at hturn
  change (s.mem.base (i % n)).head = (s.mem.base (i % n)).tail ↔ i < s.mem.tail at hfull
  have hrest := hg.rest _ h0 hlt fun q k hk => by
    rw [hquiet q] at hk
    cases hk
  rw [hturn] at hfull hrest
  refine ⟨hturn, ?_, ?_⟩
  · intro htail
    exact ⟨hfull.mpr htail, by rw [Mem.slot, hrest, if_pos (hfull.mpr htail)]⟩
  · intro htail
    have hne : ¬ (s.mem.base (i % n)).head = i := fun heq => by
      have := hfull.mp heq
      omega
    exact ⟨hne, by rw [Mem.slot, hrest, if_neg hne]⟩

/-! ## One step -/

section Step

variable [DecidableEq Tid] {p : Tid} {pc : Pc T}

/-- The shape of every step below: a change of memory that leaves alone what the other parties
hold, then a move of thread `p`. -/
theorem Good.goto {L' : Ledger T} {m : Mem T} {x : Option (Pc T)} (hg : Good n L s)
    (hring : Inv n (ringOf L' (s.goto p m x))) (hmeta : m.capa = s.mem.capa ∧ m.mask = s.mem.mask)
    (htags : ∀ j, 0 ≤ j → j < n → (m.base j).head = (m.base j).tail ∨
      (m.base j).head = (m.base j).tail - n ∨ (m.base j).head = 2 ^ 64 - 1)
    (hval : ∀ i, 0 ≤ i → i < m.tail → ∃ v, L'.val i = some v) (hlost : L'.lost = L.lost)
    (hother : ∀ q k, q ≠ Sum.inl p → ((ringOf L s).role q).held = some k →
      L'.val k = L.val k ∧ m.slot n k = s.mem.slot n k)
    (hnew : ∀ pc, x = some pc → PcOk n L' m pc)
    (hrest : ∀ j, 0 ≤ j → j < n → Unheld n (ringOf L' (s.goto p m x)) j →
      (m.base j).data = if (m.base j).head = (m.base j).tail then L'.obj (m.base j).tail
        else none) : Good n L' (s.goto p m x) where
  ring := hring
  capa := hmeta.1.trans hg.capa
  index i := by
    rw [← hg.index i, Mem.at, Mem.at, State.goto_mem, hmeta.2]
  tags := htags
  val := hval
  pc q pc' hq := by
    by_cases hne : q = p
    · subst hne
      rw [State.goto_thr_self] at hq
      exact hnew pc' hq
    · rw [State.goto_thr_of_ne _ _ _ hne] at hq
      refine (hg.pc q pc' hq).frame fun i hi => hother (.inl q) i (by simpa using hne) ?_
      rw [ringOf_role hq, hi]
  lost y hy := by
    rw [hlost] at hy
    have hheld : ((ringOf L s).role (.inr y)).held = some y.2 := lost_held hy
    obtain ⟨hv, hs⟩ := hother (.inr y) y.2 (by simp) hheld
    exact (hg.lost y hy).frame hv hs
  rest := hrest

/-- A step that changes nothing but what a thread without a ticket knows. -/
theorem Good.look {x : Option (Pc T)} (hg : Good n L s) (hold : (roleOf (s.thr p)).held = none)
    (hnew : (roleOf x).held = none)
    (hstep : Step n (ringOf L s) (.inl p) ((ringOf L s).setRole (.inl p) (roleOf x))) :
    Good n L (s.goto p s.mem x) := by
  have hring : ringOf L (s.goto p s.mem x) = (ringOf L s).setRole (.inl p) (roleOf x) :=
    ringOf_goto L s p s.mem x rfl rfl (fun _ => rfl) fun _ => rfl
  refine hg.goto (hring ▸ hg.ring.step hstep) ⟨rfl, rfl⟩ hg.tags hg.val rfl
    (fun _ _ _ _ => ⟨rfl, rfl⟩) ?_ ?_
  · rintro pc rfl
    cases pc <;> trivial
  · intro j h0 hj hun
    refine hg.rest j h0 hj ?_
    intro q i hq
    refine hun q i ?_
    rw [hring]
    by_cases hqp : q = Sum.inl p
    · subst hqp
      rw [ringOf_role_inl, hold] at hq
      cases hq
    · rwa [Ring.setRole_role_of_ne _ hqp]

/-- A step of the holder of ticket `i` that changes what its slot holds, and nothing else. -/
theorem Good.touch {i : ℤ} {pc' : Pc T} {d : Option (Obj T)} (hg : Good n L s)
    (hp : s.thr p = some pc) (hheld : pc.role.held = some i) (hrole : pc'.role = pc.role)
    (hnew : PcOk n L (s.mem.setNode (i % n) { s.mem.base (i % n) with data := d }) pc') :
    Good n L (s.goto p (s.mem.setNode (i % n) { s.mem.base (i % n) with data := d })
      (some pc')) := by
  have hp' : ((ringOf L s).role (.inl p)).held = some i := by rw [ringOf_role hp, hheld]
  have hring : ringOf L (s.goto p (s.mem.setNode (i % n) { s.mem.base (i % n) with data := d })
      (some pc')) = ringOf L s := by
    refine (ringOf_goto L s p (s.mem.setNode _ _) (some pc') rfl rfl ?_ ?_).trans ?_
    · intro j
      by_cases hj : j = i % n <;> simp [Mem.setNode, hj]
    · intro j
      by_cases hj : j = i % n <;> simp [Mem.setNode, hj]
    · exact Ring.setRole_eq_self ((ringOf_role hp).trans hrole.symm)
  refine hg.goto (hring ▸ hg.ring) ⟨rfl, rfl⟩ ?_ hg.val rfl ?_ ?_ ?_
  · intro j h0 hj
    by_cases hj' : j = i % n
    · subst hj'
      simpa [Mem.setNode] using hg.tags _ h0 hj
    · simpa [Mem.setNode, hj'] using hg.tags j h0 hj
  · intro q k hqp hk
    have hne : k % n ≠ i % n := fun heq => hqp (hg.ring.holder_unique hk hp' heq)
    exact ⟨rfl, by simp [Mem.slot, Mem.setNode, hne]⟩
  · rintro _ ⟨⟩
    exact hnew
  · intro j h0 hj hun
    rw [hring] at hun
    have hne : j ≠ i % n := fun heq => hun _ i hp' heq.symm
    simpa [Mem.setNode, hne] using hg.rest j h0 hj hun

/-- A step of the holder of ticket `i` that changes a tag of its node and lets go of it. -/
theorem Good.pass {i : ℤ} {x : Option (Pc T)} {nd : Node T} (hg : Good n L s)
    (hp : s.thr p = some pc) (hheld : pc.role.held = some i) (hx : (roleOf x).held = none)
    (hring : Inv n (ringOf L (s.goto p (s.mem.setNode (i % n) nd) x)))
    (htags : nd.head = nd.tail ∨ nd.head = nd.tail - n)
    (hdata : nd.data = if nd.head = nd.tail then L.obj nd.tail else none) :
    Good n L (s.goto p (s.mem.setNode (i % n) nd) x) := by
  have hp' : ((ringOf L s).role (.inl p)).held = some i := by rw [ringOf_role hp, hheld]
  refine hg.goto hring ⟨rfl, rfl⟩ ?_ hg.val rfl ?_ ?_ ?_
  · intro j h0 hj
    by_cases hj' : j = i % n
    · subst hj'
      simpa [Mem.setNode] using htags.imp id Or.inl
    · simpa [Mem.setNode, hj'] using hg.tags j h0 hj
  · intro q k hqp hk
    have hne : k % n ≠ i % n := fun heq => hqp (hg.ring.holder_unique hk hp' heq)
    exact ⟨rfl, by simp [Mem.slot, Mem.setNode, hne]⟩
  · rintro pc' rfl
    cases pc' <;> trivial
  · intro j h0 hj hun
    by_cases hj' : j = i % n
    · subst hj'
      simpa [Mem.setNode] using hdata
    · simp only [Mem.setNode, Function.update_of_ne hj']
      refine hg.rest j h0 hj ?_
      intro q k hq
      by_cases hqp : q = Sum.inl p
      · subst hqp
        obtain rfl : i = k := Option.some.inj (hp'.symm.trans hq)
        exact Ne.symm hj'
      · refine hun q k ?_
        rw [ringOf_goto_node]
        change (((ringOf L s).setRole (.inl p) (roleOf x)).role q).held = some k
        rwa [Ring.setRole_role_of_ne _ hqp]

/-- A thread wins a ticket, on either side. -/
theorem Good.win {L' : Ledger T} {head tail : ℤ} {pc' : Pc T} (hg : Good n L s)
    (hp : s.thr p = some pc) (hold : pc.role.held = none)
    (hring : Inv n (ringOf L' (s.goto p { s.mem with head := head, tail := tail } (some pc'))))
    (hval : ∀ k, 0 ≤ k → k < tail → ∃ v, L'.val k = some v) (hlost : L'.lost = L.lost)
    (hkeep : ∀ k, k < s.mem.tail → L'.val k = L.val k)
    (hnew : PcOk n L' { s.mem with head := head, tail := tail } pc') :
    Good n L' (s.goto p { s.mem with head := head, tail := tail } (some pc')) := by
  refine hg.goto hring ⟨rfl, rfl⟩ hg.tags hval hlost ?_ ?_ ?_
  · intro q k _ hk
    exact ⟨hkeep k (held_turn hg.ring hk).2.2, rfl⟩
  · rintro _ ⟨⟩
    exact hnew
  · intro j h0 hj hun
    have hun' : Unheld n (ringOf L s) j := by
      intro q k hq
      by_cases hqp : q = Sum.inl p
      · subst hqp
        rw [ringOf_role hp, hold] at hq
        cases hq
      · refine hun q k ?_
        rw [ringOf_goto_counters, ringOf_congr s hlost]
        change (((ringOf L s).setRole (.inl p) (roleOf (some pc'))).role q).held = some k
        rwa [Ring.setRole_role_of_ne _ hqp]
    have hdata := hg.rest j h0 hj hun'
    change (s.mem.base j).data = _
    rw [hdata]
    split
    · rename_i hfull
      have hlt : (s.mem.base j).tail < s.mem.tail := hg.ring.full_lt j h0 hj hfull
      exact (Ledger.obj_congr (hkeep _ hlt)).symm
    · rfl

/-- A call that throws leaves its ticket to a phantom. -/
theorem Good.throws {sd : Side} {i : ℤ} (hg : Good n L s) (hp : s.thr p = some pc)
    (hrole : pc.role = sd.holding i) (hok : LostOk n L s.mem (sd, i)) :
    Good n { L with lost := Function.update L.lost (sd, i) true } (s.goto p s.mem none) := by
  have hp' : (ringOf L s).role (.inl p) = sd.holding i := (ringOf_role hp).trans hrole
  -- no phantom holds the ticket yet, because the thread does
  have hfree : L.lost (sd, i) = false := by
    by_contra hlost
    have hlost := eq_true_of_ne_false hlost
    have hq : ((ringOf L s).role (.inr (sd, i))).held = some i := lost_held hlost
    have := hg.ring.holder_unique hq (by rw [hp', Side.holding_held]) rfl
    cases this
  have hring : ringOf { L with lost := Function.update L.lost (sd, i) true } (s.goto p s.mem none) =
      ((ringOf L s).setRole (.inl p) .out).setRole (.inr (sd, i)) (sd.holding i) := by
    have hgoto := ringOf_goto L s p s.mem none rfl rfl (fun _ => rfl) fun _ => rfl
    rw [show Role.out = roleOf (none : Option (Pc T)) from rfl, ← hgoto]
    simp only [ringOf, Ring.setRole, Ring.mk.injEq, true_and]
    funext y
    cases y with
    | inl q => simp
    | inr y =>
      by_cases hy : y = (sd, i)
      · subst hy
        simp [Ledger.role]
      · have hne : (Sum.inr y : Party Tid) ≠ Sum.inr (sd, i) := by simpa using hy
        simp [Ledger.role, hy, hne]
  have hinv := hg.ring.handOver hp' (q := .inr (sd, i))
    (by simp [Ledger.role, hfree, Role.held]) (by simp)
  exact {
    ring := hring ▸ hinv
    capa := hg.capa
    index := hg.index
    tags := hg.tags
    val := hg.val
    pc := by
      intro q pc' hq
      by_cases hne : q = p
      · subst hne
        rw [State.goto_thr_self] at hq
        cases hq
      · rw [State.goto_thr_of_ne _ _ _ hne] at hq
        exact (hg.pc q pc' hq).frame fun _ _ => ⟨rfl, rfl⟩
    lost := by
      intro y hy
      by_cases hne : y = (sd, i)
      · subst hne
        exact hok.frame rfl rfl
      · change Function.update L.lost (sd, i) true y = true at hy
        rw [Function.update_of_ne hne] at hy
        exact (hg.lost y hy).frame rfl rfl
    rest := by
      intro j h0 hj hun
      refine hg.rest j h0 hj ?_
      intro q k hq
      by_cases hqp : q = Sum.inl p
      · subst hqp
        rw [hp', Side.holding_held] at hq
        obtain rfl := Option.some.inj hq
        refine hun (.inr (sd, i)) i ?_
        rw [hring, Ring.setRole_role_self, Side.holding_held]
      · refine hun q k ?_
        rw [hring]
        by_cases hqx : q = Sum.inr (sd, i)
        · subst hqx
          rw [ringOf_role_inr, Ledger.role, hfree] at hq
          cases hq
        · rw [Ring.setRole_role_of_ne _ hqx, Ring.setRole_role_of_ne _ hqp]
          exact hq }

/-- The ticket a step wins, if it wins one. -/
def Act.won : Act T → Option (Side × ℤ)
  | .enqWin i _ => some (.enq, i)
  | .deqWin i => some (.deq, i)
  | _ => none

/-- The number of tickets a step wins. -/
def Act.wins (a : Act T) : ℕ := if a.won.isSome then 1 else 0

/-- Winning a ticket as a producer. -/
theorem Good.enqWin {v : T} (hg : Good n L s) (hroom : s.mem.head + s.mem.tail + 1 < 2 ^ 64)
    (hp : s.thr p = some (.enqCas v s.mem.tail)) :
    Good n (L.note (.enqWin s.mem.tail v)) (s.goto p
      { s.mem with tail := wrap (s.mem.tail + 1) } (some (.enqBuild v s.mem.tail))) := by
  have hrole := ringOf_role (L := L) hp
  have h0 : 0 ≤ s.mem.head := hg.ring.head_nonneg
  have hle : s.mem.head ≤ s.mem.tail := hg.ring.head_le
  obtain ⟨hc0, hcn⟩ := hg.ring.cell_range s.mem.tail
  obtain ⟨hun, hfull⟩ := unheld_tail hg.ring (hg.ring.role_ok hrole).2.2
  have hslot : s.mem.slot n s.mem.tail = none := by
    rw [Mem.slot, hg.rest _ hc0 hcn hun]
    exact if_neg hfull
  rw [wrap_of_lt (by omega) (by omega)]
  refine hg.win hp rfl ?_ ?_ rfl ?_ ⟨Function.update_self .., hslot⟩
  · rw [ringOf_goto_counters, ringOf_congr s rfl]
    exact hg.ring.step (.claim s.mem.tail () hrole rfl)
  · intro k hk0 hk
    by_cases hkt : k = s.mem.tail
    · subst hkt
      exact ⟨v, Function.update_self ..⟩
    · obtain ⟨u, hu⟩ := hg.val k hk0 (by omega)
      exact ⟨u, (Function.update_of_ne hkt _ _).trans hu⟩
  · intro k hk
    exact Function.update_of_ne hk.ne _ _

/-- Winning a ticket as a consumer. -/
theorem Good.deqWin {d : T} (hg : Good n L s) (hroom : s.mem.head + s.mem.tail + 1 < 2 ^ 64)
    (hp : s.thr p = some (.deqCas d s.mem.head)) :
    Good n L (s.goto p { s.mem with head := wrap (s.mem.head + 1) }
      (some (.deqMove d s.mem.head))) := by
  have hrole := ringOf_role (L := L) hp
  have h0 : 0 ≤ s.mem.head := hg.ring.head_nonneg
  have hle : s.mem.head ≤ s.mem.tail := hg.ring.head_le
  obtain ⟨hc0, hcn⟩ := hg.ring.cell_range s.mem.head
  have hfilled : (ringOf L s).Filled n s.mem.head := (hg.ring.role_ok hrole).2.2
  obtain ⟨hturn, hfull⟩ := hg.ring.turn_of_filled hfilled
  have hslot : s.mem.slot n s.mem.head = L.obj s.mem.head := by
    rw [Mem.slot, hg.rest _ hc0 hcn (unheld_head hg.ring hfilled)]
    exact (if_pos hfull).trans (congrArg L.obj hturn)
  rw [wrap_of_lt (by omega) (by omega)]
  refine hg.win hp rfl ?_ hg.val rfl (fun _ _ => rfl) hslot
  rw [ringOf_goto_counters]
  exact hg.ring.step (.take s.mem.head hrole rfl)

/-- Publishing an element. -/
theorem Good.publish {v : T} {i : ℤ} (hg : Good n L s) (hp : s.thr p = some (.enqStore v i)) :
    Good n L (s.goto p (s.mem.setNode (i % n) { s.mem.base (i % n) with head := i })
      (some (.ret (.enque true) (some i)))) := by
  have hrole := ringOf_role (L := L) hp
  have hturn : (s.mem.base (i % n)).tail = i := (hg.ring.role_ok hrole).2.2.1
  obtain ⟨hval, hslot⟩ := hg.pc p _ hp
  refine hg.pass hp rfl rfl ?_ (Or.inl hturn.symm) ?_
  · rw [ringOf_goto_node]
    have hstep := hg.ring.step (.fill i hrole rfl)
    have hsame : Function.update (ringOf L s).turn (i % n) i = (ringOf L s).turn :=
      Function.update_eq_self_iff.mpr hturn.symm
    simp only [hturn, hsame]
    exact hstep
  · simp only [hturn, if_true, L.obj_of_val hval]
    exact hslot

/-- Releasing a slot. -/
theorem Good.release {d : T} {i : ℤ} (hg : Good n L s) (hn : n ≤ 2 ^ 30)
    (hroom : s.mem.head + s.mem.tail < 2 ^ 64) (hp : s.thr p = some (.deqStore d i)) :
    Good n L (s.goto p (s.mem.setNode (i % n)
      { s.mem.base (i % n) with tail := wrap (i + s.mem.capa) })
      (some (.ret (.deque true d) (some i)))) := by
  have hrole := ringOf_role (L := L) hp
  obtain ⟨h0, hhead, -⟩ := hg.ring.role_ok hrole
  obtain ⟨hfull, hturn⟩ := hg.ring.full_of_draining hrole
  have hpos := hg.ring.pos
  have hle : s.mem.head ≤ s.mem.tail := hg.ring.head_le
  change i < s.mem.head at hhead
  have hhd : (s.mem.base (i % n)).head = i := Eq.trans hfull hturn
  obtain ⟨hval, hslot⟩ := hg.pc p _ hp
  rw [hg.capa, wrap_of_lt (by omega) (by omega)]
  refine hg.pass hp rfl rfl ?_ (Or.inr (by simp [hhd])) ?_
  · rw [ringOf_goto_node]
    have hstep := hg.ring.step (.release i hrole)
    have hne : ¬ i = i + n := by omega
    simp only [hhd, hne]
    exact hstep
  · simp only [hhd]
    rw [if_neg (by omega)]
    exact hslot

omit [DecidableEq Tid] in
/-- The two counters together count the tickets that are won. -/
theorem counters_act {m : Mem T} (h0 : 0 ≤ m.head) (h0' : 0 ≤ m.tail) (l : Luck) (pc : Pc T)
    (hroom : m.head + m.tail + ((act m l pc).1.wins : ℤ) < 2 ^ 64) :
    (act m l pc).2.1.head + (act m l pc).2.1.tail = m.head + m.tail + (act m l pc).1.wins := by
  cases pc with
  | enqCas v i =>
    simp only [act] at hroom ⊢
    split at hroom
    · rename_i hwin
      have hroom : m.head + m.tail + 1 < 2 ^ 64 := hroom
      rw [if_pos hwin, ← hwin.1, wrap_of_lt (by omega) (by omega)]
      exact (add_assoc _ _ _).symm
    · rename_i hlost
      rw [if_neg hlost]
      exact (add_zero _).symm
  | deqCas d i =>
    simp only [act] at hroom ⊢
    split at hroom
    · rename_i hwin
      have hroom : m.head + m.tail + 1 < 2 ^ 64 := hroom
      rw [if_pos hwin, ← hwin.1, wrap_of_lt (by omega) (by omega)]
      exact add_right_comm _ _ _
    · rename_i hlost
      rw [if_neg hlost]
      exact (add_zero _).symm
  | enqTest _ _ | deqTest _ _ | enqBuild _ _ | deqMove _ _ =>
    simp only [act]
    split <;> exact (add_zero _).symm
  | _ => exact (add_zero _).symm

/-- A thread without a ticket may always forget what it knows. -/
theorem Good.leave {x : Option (Pc T)} (hg : Good n L s) (hp : s.thr p = some pc)
    (hpc : pc.role.held = none) (hx : roleOf x = .out) : Good n L (s.goto p s.mem x) := by
  refine hg.look (by rw [hp]; exact hpc) (by rw [hx]; rfl) ?_
  rw [hx]
  exact .leave (by rw [ringOf_role hp, hpc])

/-- Whoever finds the mark of a ticket at `_head` or before it knows that the ticket is filled. -/
theorem Good.seeFull {d : T} {i : ℤ} (hg : Good n L s) (hp : s.thr p = some (.deqTest d i))
    (hroom : s.mem.head + s.mem.tail < 2 ^ 64) (htag : (s.mem.base (i % n)).head = i) :
    Good n L (s.goto p s.mem (some (.deqCas d i))) := by
  have hrole : (ringOf L s).role (.inl p) = .atHead i := ringOf_role hp
  refine hg.look (by rw [hp]; rfl) rfl (.seeFull i hrole ?_)
  obtain ⟨hc0, hcn⟩ := hg.ring.cell_range i
  have hpos := hg.ring.pos
  have h0 : 0 ≤ s.mem.head := hg.ring.head_nonneg
  have hle : s.mem.head ≤ s.mem.tail := hg.ring.head_le
  have hi : i ≤ s.mem.head := (hg.ring.role_ok hrole).2
  rcases hg.tags _ hc0 hcn with hsame | hlap | hunused
  · exact Or.inr ⟨hsame.symm.trans htag, hsame⟩
  · exact Or.inl (show i < (s.mem.base (i % n)).tail by omega)
  · omega

/-- Moving the element out of its node, or throwing. -/
theorem Good.deqMove {l : Luck} {e : Event Tid T} {d : T} {i : ℤ} (hg : Good n L s)
    (hp : s.thr p = some (.deqMove d i)) (heq : (e, t) = s.advance p (.deqMove d i) l) :
    Good n (L.note e.2) t := by
  have hslot := hg.pc p _ hp
  simp only [State.advance, act, hg.index] at heq
  split at heq <;> obtain ⟨rfl, rfl⟩ := Prod.mk.inj heq
  · exact hg.throws hp rfl hslot
  · have hle : s.mem.head ≤ s.mem.tail := hg.ring.head_le
    obtain ⟨hi0, hi, -⟩ := hg.ring.role_ok (ringOf_role hp)
    obtain ⟨v, hv⟩ := hg.val i hi0 (lt_of_lt_of_le hi hle)
    have hdata : (s.mem.base (i % n)).data = some ⟨i, v, false⟩ := by
      rw [← L.obj_of_val hv]
      exact hslot
    rw [hdata]
    exact hg.touch hp rfl rfl ⟨hv, by simp [Mem.slot, Mem.setNode]⟩

/-- **The code of one thread keeps the invariant**, as long as no counter reaches the limit. -/
theorem Good.advance {l : Luck} {e : Event Tid T} (hg : Good n L s) (hn : n ≤ 2 ^ 30)
    (hroom : s.mem.head + s.mem.tail + (e.2.wins : ℤ) < 2 ^ 64) (hp : s.thr p = some pc)
    (heq : (e, t) = s.advance p pc l) :
    Good n (L.note e.2) t := by
  have hrole : (ringOf L s).role (.inl p) = pc.role := ringOf_role hp
  have hthr : roleOf (s.thr p) = pc.role := by rw [hp]; rfl
  cases pc with
  | enqLoad v =>
    obtain ⟨rfl, rfl⟩ := Prod.mk.inj heq
    exact hg.look (by rw [hthr]; rfl) rfl (.readTail (by rw [hrole]; rfl))
  | enqTest v i =>
    simp only [State.advance, act, hg.index] at heq
    split at heq <;> obtain ⟨rfl, rfl⟩ := Prod.mk.inj heq
    · exact hg.leave hp rfl rfl
    · rename_i htag
      have htag : i ≤ (s.mem.base (i % n)).tail := (not_not.mp htag).ge
      exact hg.look (by rw [hthr]; rfl) rfl (.seeFree i hrole htag)
  | enqCas v i =>
    simp only [State.advance, act] at heq
    split at heq <;> obtain ⟨rfl, rfl⟩ := Prod.mk.inj heq
    · rename_i hwin
      obtain ⟨rfl, -⟩ := hwin
      have hroom' : s.mem.head + s.mem.tail + 1 < 2 ^ 64 := hroom
      exact hg.enqWin hroom' hp
    · exact hg.look (by rw [hthr]; rfl) rfl (.readTail (by rw [hrole]; rfl))
  | enqBuild v i =>
    obtain ⟨hval, hslot⟩ := hg.pc p _ hp
    simp only [State.advance, act, hg.index] at heq
    split at heq <;> obtain ⟨rfl, rfl⟩ := Prod.mk.inj heq
    · exact hg.throws hp rfl hslot
    · exact hg.touch hp rfl rfl ⟨hval, by simp [Mem.slot, Mem.setNode]⟩
  | enqStore v i =>
    simp only [State.advance, act, hg.index] at heq
    obtain ⟨rfl, rfl⟩ := Prod.mk.inj heq
    exact hg.publish hp
  | deqLoad d =>
    obtain ⟨rfl, rfl⟩ := Prod.mk.inj heq
    exact hg.look (by rw [hthr]; rfl) rfl (.readHead (by rw [hrole]; rfl))
  | deqTest d i =>
    simp only [State.advance, act, hg.index] at heq
    split at heq <;> obtain ⟨rfl, rfl⟩ := Prod.mk.inj heq
    · exact hg.leave hp rfl rfl
    · rename_i htag
      exact hg.seeFull hp (by omega) (not_not.mp htag)
  | deqCas d i =>
    simp only [State.advance, act] at heq
    split at heq <;> obtain ⟨rfl, rfl⟩ := Prod.mk.inj heq
    · rename_i hwin
      obtain ⟨rfl, -⟩ := hwin
      have hroom' : s.mem.head + s.mem.tail + 1 < 2 ^ 64 := hroom
      exact hg.deqWin hroom' hp
    · exact hg.look (by rw [hthr]; rfl) rfl (.readHead (by rw [hrole]; rfl))
  | deqMove d i => exact hg.deqMove hp heq
  | deqKill d i =>
    obtain ⟨hval, hslot⟩ := hg.pc p _ hp
    simp only [State.advance, act, hg.index] at heq
    obtain ⟨rfl, rfl⟩ := Prod.mk.inj heq
    exact hg.touch hp rfl rfl ⟨hval, by simp [Mem.slot, Mem.setNode]⟩
  | deqStore d i =>
    simp only [State.advance, act, hg.index] at heq
    obtain ⟨rfl, rfl⟩ := Prod.mk.inj heq
    exact hg.release hn (by simpa [Act.wins, Act.won] using hroom) hp
  | ret a won =>
    obtain ⟨rfl, rfl⟩ := Prod.mk.inj heq
    exact hg.leave hp rfl rfl

end Step

/-! ## Every run -/

section Run

variable {sizeofNode capa : ℕ} {weak throwing : Bool}

/-- A queue just constructed. -/
theorem good_start :
    Good (capaOf sizeofNode capa) Ledger.new (State.start Tid T sizeofNode capa) where
  ring := by
    refine Initial.inv (capaOf_pos _ _) ⟨?_, ?_, ?_, ?_, ?_⟩
    · simp [ringOf, State.start, construct_eq]
    · simp [ringOf, State.start, construct_eq]
    · intro j h0 hj
      simp [ringOf, State.start, construct_eq, h0, hj]
    · intro j h0 hj
      have hbound := (capaOf_bounds sizeofNode capa).2
      simp only [ringOf, State.start, construct_eq, h0, hj, and_self, if_true]
      omega
    · intro q
      cases q <;> rfl
  capa := by simp [State.start, construct_eq]
  index i := by simp [State.start, construct_eq, Mem.at, land_mask]
  tags j h0 hj := by simp [State.start, construct_eq, h0, hj]
  val i h0 hi := by
    simp only [State.start, construct_eq] at hi
    omega
  pc p pc hp := by cases hp
  lost x hx := by cases hx
  rest j h0 hj _ := by
    have hbound := (capaOf_bounds sizeofNode capa).2
    simp only [State.start, construct_eq, h0, hj, and_self, if_true]
    exact (if_neg (by omega)).symm

/-- The tickets won in a history, by producers and consumers together. -/
def wins (es : List (Event Tid T)) : ℕ := (es.map fun e => e.2.wins).sum

@[simp] theorem wins_nil : wins ([] : List (Event Tid T)) = 0 := rfl

@[simp] theorem wins_snoc (es : List (Event Tid T)) (e : Event Tid T) :
    wins (es ++ [e]) = wins es + e.2.wins := by
  simp [wins]

variable [DecidableEq Tid] {π : List (Event Tid T × State Tid T)}

/-- **The invariant after every run** in which no counter reaches its limit. -/
theorem good_of_run (h : (queue Tid T sizeofNode capa weak throwing).Run π s)
    (hwins : wins (System.events π) < 2 ^ 64) :
    Good (capaOf sizeofNode capa) (ledger π) s ∧
      s.mem.head + s.mem.tail = wins (System.events π) := by
  revert hwins
  refine System.Run.induction (P := fun π s => wins (System.events π) < 2 ^ 64 →
    Good (capaOf sizeofNode capa) (ledger π) s ∧
      s.mem.head + s.mem.tail = wins (System.events π)) ?_ ?_ h
  · rintro s rfl -
    exact ⟨good_start, by simp [State.start, construct_eq]⟩
  · intro π s e t _ ih hnext hwins
    simp only [System.events_append, System.events_singleton, wins_snoc, ledger_snoc] at hwins ⊢
    obtain ⟨hg, hcount⟩ := ih (by omega)
    rcases next_cases hnext with ⟨p, op, hp, rfl, rfl⟩ | ⟨p, pc, l, -, hp, heq⟩
    · have hold : roleOf (s.thr p) = .out := by rw [hp]; rfl
      have hnew : roleOf (some op.entry) = .out := by cases op <;> rfl
      refine ⟨hg.look (by rw [hold]; rfl) (by rw [hnew]; rfl) ?_, hcount⟩
      rw [hnew]
      exact .leave (by rw [ringOf_role_inl, hold]; rfl)
    · have hroom : s.mem.head + s.mem.tail + (e.2.wins : ℤ) < 2 ^ 64 := by
        rw [hcount]
        exact_mod_cast hwins
      refine ⟨hg.advance (capaOf_bounds _ _).2 hroom hp heq, ?_⟩
      obtain ⟨rfl, rfl⟩ := Prod.mk.inj heq
      have h0 := hg.ring.head_nonneg
      have hcounters := counters_act h0 (h0.trans hg.ring.head_le) l pc hroom
      rw [State.goto_mem, hcounters, hcount]
      push_cast
      rfl

omit [DecidableEq Tid] in
theorem act_thrown (m : Mem T) {l : Luck} (hl : l.throws = false) (pc : Pc T) :
    (act m l pc).1.thrown = none := by
  cases pc with
  | enqBuild v i => simp [act, hl, Act.thrown]
  | deqMove d i => simp [act, hl, Act.thrown]
  | _ =>
    simp only [act]
    first | rfl | (split <;> rfl)

/-- Where elements do not throw, no call does. -/
theorem thrown_of_run (h : (queue Tid T sizeofNode capa weak false).Run π s) :
    ∀ e ∈ System.events π, e.2.thrown = none := by
  refine System.Run.induction (P := fun π _ => ∀ e ∈ System.events π, e.2.thrown = none) ?_ ?_ h
  · intro s _ e he
    cases he
  · intro π s e t _ ih hnext
    simp only [System.events_append, System.events_singleton, List.mem_append, List.mem_singleton]
    rintro e' (he' | rfl)
    · exact ih e' he'
    · rcases next_cases hnext with ⟨p, op, hp, rfl, rfl⟩ | ⟨p, pc, l, hl, hp, heq⟩
      · rfl
      · obtain ⟨rfl, rfl⟩ := Prod.mk.inj heq
        have hthrows : l.throws = false := by simpa using hl.2
        exact act_thrown s.mem hthrows pc

/-! ## Calls and tickets -/

/-- The thread that starts a call in this event. -/
def caller : Event Tid T → Option Tid
  | (p, .call _) => some p
  | _ => none

/-- The calls of a history. -/
def calls (es : List (Event Tid T)) : ℕ := (es.filterMap caller).length

/-- Before it has won a ticket, or given up, a call may still win one. -/
def Pc.chances : Pc T → ℕ
  | .enqLoad _ | .enqTest _ _ | .enqCas _ _ | .deqLoad _ | .deqTest _ _ | .deqCas _ _ => 1
  | _ => 0

/-- The tickets that the present call of a thread may still win. -/
def chancesOf : Option (Pc T) → ℕ
  | none => 0
  | some pc => pc.chances

/-- A step uses up a chance to win a ticket. -/
theorem act_wins (m : Mem T) (l : Luck) (pc : Pc T) :
    (act m l pc).1.wins + chancesOf (act m l pc).2.2 ≤ pc.chances := by
  cases pc <;> simp only [act] <;> (try split) <;> simp [Act.wins, Act.won, chancesOf, Pc.chances]

/-- The threads that have won tickets, once for each ticket. -/
def winners (es : List (Event Tid T)) : List Tid := es.flatMap fun e => .replicate e.2.wins e.1

omit [DecidableEq Tid] in
theorem length_winners (es : List (Event Tid T)) : (winners es).length = wins es := by
  simp [winners, wins, List.length_flatMap]

/-- No thread wins more tickets than it makes calls. -/
theorem count_winners (h : (queue Tid T sizeofNode capa weak throwing).Run π s) (p : Tid) :
    (winners (System.events π)).count p + chancesOf (s.thr p) ≤
      ((System.events π).filterMap caller).count p := by
  refine System.Run.induction (P := fun π s => (winners (System.events π)).count p +
    chancesOf (s.thr p) ≤ ((System.events π).filterMap caller).count p) ?_ ?_ h
  · rintro s rfl
    exact le_rfl
  · intro π s e t _ ih hnext
    simp only [System.events_append, System.events_singleton, winners, List.flatMap_append,
      List.flatMap_singleton, List.filterMap_append, List.count_append] at ih ⊢
    by_cases hne : p = e.1
    · subst hne
      rcases next_cases hnext with ⟨q, op, hq, rfl, rfl⟩ | ⟨q, pc, l, -, hq, heq⟩
      · have hnew : op.entry.chances = 1 := by cases op <;> rfl
        have hwins : (Act.call op).wins = 0 := rfl
        simp only [hq, chancesOf, State.goto_thr_self, hnew, hwins, caller,
          List.replicate_zero, List.count_nil, List.filterMap_cons, List.filterMap_nil,
          List.count_singleton_self] at ih ⊢
        omega
      · obtain ⟨rfl, rfl⟩ := Prod.mk.inj heq
        have hact := act_wins s.mem l pc
        simp only [hq, chancesOf, State.goto_thr_self, List.count_replicate_self] at ih hact ⊢
        omega
    · rw [thr_of_ne hnext hne]
      simp only [List.count_replicate, beq_iff_eq, Ne.symm hne, if_false]
      omega

/-- **Fewer calls, fewer tickets.** -/
theorem wins_le_calls (h : (queue Tid T sizeofNode capa weak throwing).Run π s) :
    wins (System.events π) ≤ calls (System.events π) := by
  rw [← length_winners, calls]
  refine List.Subperm.length_le (List.subperm_ext_iff.mpr ?_)
  intro p _
  have := count_winners h p
  omega

end Run

end CraflinRQ

end LeonUtils
