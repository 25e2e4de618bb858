import LeonUtils.Shm.Layout
import LeonUtils.Transition

/-!
# The queue inside one process

`CraflinRQ_t<T>::enque` and `deque`, run by any number of threads on one queue, one atomic step at
a time. As in `Shm.Machine`, a thread's position in the code is a `Pc` that carries the local
variables live there, and `act` is the code.

## Objects

Elements are constructed and destroyed in place, in raw storage. A node's `data` is therefore
`none` while no object lives there, and an `Obj` otherwise. Nothing in the model keeps the code from
constructing over a live object, or from destroying or moving from storage that holds none: the
event of such a step records what the slot held, and that this is never the wrong thing is a
theorem (`Craflin.Lifetime`).

Each object carries the ticket of the `enque` that built it. The code does not have it; it is
there so that statements can tell objects apart.

## Counters

`QueSize_t` is `size_t`, read as an integer in `[0, 2 ^ 64)`; `wrap` is what storing a result
does to it. The head tag of a node that was never used is `-1`, that is `2 ^ 64 - 1`.

## Exceptions

Construction and move assignment are the element type's own, and either may throw. The scheduler
decides whether one does, where that is allowed (`throwing`). The exception leaves the call; no
other code of `enque` or `deque` runs after it.

## Main definitions

* `Obj`, `Node`, `Mem` — the data
* `capaOf`, `construct` — the constructor
* `act` — the code of `enque` and `deque`
* `queue` — the transition system
* `destroyed`, `destructed` — the destructor

## Main results

* `capaOf_eq_two_pow` — the capacity is a power of two between `4` and `2 ^ 30`
* `construct_base` — the tags after construction
* `next_cases` — what one step can be
-/

namespace LeonUtils

namespace CraflinRQ

open Transition
open ShmAtmRQ (bitCeil bitFloor bitCeil_eq_two_pow land_two_pow_sub_one upTo_zero update_upTo)

/-! ## The constructor -/

/-- Storing a value into a `QueSize_t`. -/
def wrap (x : ℤ) : ℤ := x % 2 ^ 64

theorem wrap_of_lt {x : ℤ} (h0 : 0 ≤ x) (hlt : x < 2 ^ 64) : wrap x = x := Int.emod_eq_of_lt h0 hlt

theorem wrap_neg_one : wrap (-1) = 2 ^ 64 - 1 := by decide

/-- `MAX_MEM_USAGE`. -/
def maxMemUsage : ℕ := 0x40000000

/-- `LEAST_ELEMNTS`. -/
def leastElemnts : ℕ := 4

/-- `MOST_ELEMENTS`, for nodes of `sizeofNode` bytes. -/
def mostElements (sizeofNode : ℕ) : ℕ := bitFloor (maxMemUsage / sizeofNode)

/-- The capacity the constructor arrives at. -/
def capaOf (sizeofNode capa : ℕ) : ℤ :=
  let capa := bitCeil capa
  let capa := min capa (mostElements sizeofNode)
  (max capa leastElemnts : ℕ)

theorem mostElements_eq (sizeofNode : ℕ) :
    mostElements sizeofNode = 0 ∨ ∃ k ≤ 30, mostElements sizeofNode = 2 ^ k := by
  rw [mostElements, bitFloor]
  split
  · exact Or.inl rfl
  · rename_i hne
    refine Or.inr ⟨_, ?_, rfl⟩
    have hle : maxMemUsage / sizeofNode ≤ 2 ^ 30 := Nat.div_le_self _ _
    have hlog := Nat.log2_self_le hne
    exact (Nat.pow_le_pow_iff_right (by norm_num)).mp (hlog.trans hle)

/-- **The capacity is a power of two** within the limits of the class, whatever was asked for. -/
theorem capaOf_eq_two_pow (sizeofNode capa : ℕ) :
    ∃ k, 2 ≤ k ∧ k ≤ 30 ∧ capaOf sizeofNode capa = 2 ^ k := by
  obtain ⟨a, ha⟩ := bitCeil_eq_two_pow capa
  have hmin : min (2 ^ a) (mostElements sizeofNode) = 0 ∨
      ∃ k ≤ 30, min (2 ^ a) (mostElements sizeofNode) = 2 ^ k := by
    rcases mostElements_eq sizeofNode with hzero | ⟨b, hb, hpow⟩
    · exact Or.inl (by rw [hzero, Nat.min_zero])
    · right
      rcases le_total a b with hab | hab
      · have hle := Nat.pow_le_pow_right (n := 2) (by norm_num) hab
        exact ⟨a, hab.trans hb, by rw [hpow, min_eq_left hle]⟩
      · have hle := Nat.pow_le_pow_right (n := 2) (by norm_num) hab
        exact ⟨b, hb, by rw [hpow, min_eq_right hle]⟩
  have hfour : leastElemnts = 2 ^ 2 := rfl
  simp only [capaOf, ha]
  rcases hmin with hzero | ⟨k, hk, hpow⟩
  · exact ⟨2, le_rfl, by norm_num, by rw [hzero, hfour]; norm_num⟩
  · rw [hpow, hfour]
    rcases le_total k 2 with hle | hle
    · have := Nat.pow_le_pow_right (n := 2) (by norm_num) hle
      exact ⟨2, le_rfl, by norm_num, by rw [max_eq_right this]; norm_num⟩
    · have := Nat.pow_le_pow_right (n := 2) (by norm_num) hle
      exact ⟨k, hle, hk, by rw [max_eq_left this]; push_cast; rfl⟩

theorem capaOf_bounds (sizeofNode capa : ℕ) :
    4 ≤ capaOf sizeofNode capa ∧ capaOf sizeofNode capa ≤ 2 ^ 30 := by
  obtain ⟨k, hk2, hk30, hk⟩ := capaOf_eq_two_pow sizeofNode capa
  rw [hk]
  constructor
  · exact_mod_cast Nat.pow_le_pow_right (n := 2) (by norm_num) hk2
  · exact_mod_cast Nat.pow_le_pow_right (n := 2) (by norm_num) hk30

theorem capaOf_pos (sizeofNode capa : ℕ) : 0 < capaOf sizeofNode capa := by
  have := capaOf_bounds sizeofNode capa
  omega

/-- `index & _mask` is `index mod capacity`. -/
theorem land_mask (i : ℤ) (sizeofNode capa : ℕ) :
    Int.land i (capaOf sizeofNode capa - 1) = i % capaOf sizeofNode capa := by
  obtain ⟨k, -, -, hk⟩ := capaOf_eq_two_pow sizeofNode capa
  rw [hk]
  exact land_two_pow_sub_one i k

/-- A live object: the ticket of the `enque` that built it, its value, and whether it has been
moved from. -/
structure Obj (T : Type) where
  id : ℤ
  val : T
  moved : Bool
deriving DecidableEq

/-- `Node_t`. No object lives in `data` when it is `none`. -/
structure Node (T : Type) where
  head : ℤ
  data : Option (Obj T)
  tail : ℤ

/-- The queue object and its nodes. -/
structure Mem (T : Type) where
  base : ℤ → Node T
  capa : ℤ
  mask : ℤ
  head : ℤ
  tail : ℤ

variable {Tid T : Type}

/-- The node `_base[ idx & _mask ]`. -/
def Mem.at (m : Mem T) (idx : ℤ) : ℤ := Int.land idx m.mask

/-- Change one node. -/
def Mem.setNode (m : Mem T) (j : ℤ) (x : Node T) : Mem T :=
  { m with base := Function.update m.base j x }

/-- The loop of the constructor over the nodes. -/
def initNodes (m : Mem T) : ℕ → Mem T
  | 0 => m
  | i + 1 =>
    let m := initNodes m i
    m.setNode i { m.base i with tail := i, head := wrap (-1) }

/-- `CraflinRQ_t::CraflinRQ_t`, its memory aligned. -/
def construct (T : Type) (sizeofNode capa : ℕ) : Mem T :=
  let n := capaOf sizeofNode capa
  { initNodes ⟨fun _ => ⟨0, none, 0⟩, n, n - 1, 0, 0⟩ n.toNat with tail := 0, head := 0 }

theorem initNodes_eq (m : Mem T) (n : ℕ) : initNodes m n = { m with base := fun j =>
    if 0 ≤ j ∧ j < n then ⟨wrap (-1), (m.base j).data, j⟩ else m.base j } := by
  induction n with
  | zero =>
    rw [upTo_zero m.base fun j => ⟨wrap (-1), (m.base j).data, j⟩]
    rfl
  | succ n ih =>
    rw [initNodes, ih, ← update_upTo m.base fun j => ⟨wrap (-1), (m.base j).data, j⟩]
    simp only [Mem.setNode, lt_irrefl, and_false, if_false]

/-- The queue after construction: node `j` is free for ticket `j`, and its head tag is `-1`. -/
theorem construct_eq (sizeofNode capa : ℕ) : construct T sizeofNode capa =
    ⟨fun j => if 0 ≤ j ∧ j < capaOf sizeofNode capa then ⟨2 ^ 64 - 1, none, j⟩ else ⟨0, none, 0⟩,
      capaOf sizeofNode capa, capaOf sizeofNode capa - 1, 0, 0⟩ := by
  have hn : ((capaOf sizeofNode capa).toNat : ℤ) = capaOf sizeofNode capa :=
    Int.toNat_of_nonneg (capaOf_pos _ _).le
  simp only [construct, initNodes_eq, hn, wrap_neg_one]

/-! ## Calls and positions -/

/-- What a caller may ask. `deque` brings the object it assigns to. -/
inductive Op (T : Type)
  | enque (src : T)
  | deque (dest : T)

/-- What a call answers. `deque` also leaves `dest_` behind. -/
inductive Ans (T : Type)
  | enque (ok : Bool)
  | deque (ok : Bool) (dest : T)
deriving DecidableEq

/-- Where a thread is, with the local variables live there. -/
inductive Pc (T : Type)
  /-- `tail = _tail.load()` -/
  | enqLoad (src : T)
  /-- `node->tail.load() != tail` -/
  | enqTest (src : T) (tail : ℤ)
  /-- `_tail.compare_exchange_weak( tail, tail + 1 )` -/
  | enqCas (src : T) (tail : ℤ)
  /-- `construct_at( & node->data, src_ )` -/
  | enqBuild (src : T) (tail : ℤ)
  /-- `node->head.store( tail )` -/
  | enqStore (src : T) (tail : ℤ)
  /-- `head = _head.load()` -/
  | deqLoad (dest : T)
  /-- `node->head.load() != head` -/
  | deqTest (dest : T) (head : ℤ)
  /-- `_head.compare_exchange_weak( head, head + 1 )` -/
  | deqCas (dest : T) (head : ℤ)
  /-- `dest_ = std::move( node->data )` -/
  | deqMove (dest : T) (head : ℤ)
  /-- `destroy_at( & node->data )` -/
  | deqKill (dest : T) (head : ℤ)
  /-- `node->tail.store( head + _capa )` -/
  | deqStore (dest : T) (head : ℤ)
  /-- About to return; `won` is the ticket of the call. -/
  | ret (a : Ans T) (won : Option ℤ)
deriving DecidableEq

/-- Where a call starts. -/
def Op.entry : Op T → Pc T
  | .enque src => .enqLoad src
  | .deque dest => .deqLoad dest

/-! ## What a step does -/

/-- What a step is, apart from the thread that makes it. A step that touches a slot records the
ticket it acts for, the node, and what the slot held before. -/
inductive Act (T : Type)
  | call (op : Op T)
  /-- A load or a test. -/
  | quiet
  /-- A failed compare-exchange. -/
  | casFail
  /-- `enque` of `v` wins ticket `i`. -/
  | enqWin (i : ℤ) (v : T)
  | construct (i j : ℤ) (old : Option (Obj T))
  /-- `node->head.store( i )` -/
  | publish (i : ℤ)
  /-- `deque` wins ticket `i`. -/
  | deqWin (i : ℤ)
  | moveFrom (i j : ℤ) (old : Option (Obj T))
  | destroy (i j : ℤ) (old : Option (Obj T))
  /-- `node->tail.store( i + _capa )` -/
  | release (i : ℤ)
  /-- The construction of ticket `i`'s element throws. -/
  | throwIn (i : ℤ)
  /-- The move assignment from ticket `i`'s element throws. -/
  | throwOut (i : ℤ)
  /-- A call returns; `won` is its ticket. -/
  | ret (a : Ans T) (won : Option ℤ)

/-- What the scheduler decides about a step: whether a weak compare-exchange fails for no reason,
and whether the element type throws. -/
structure Luck where
  spurious : Bool
  throws : Bool

/-- The code: the next step of a thread at a given position, the memory it leaves, and where it
goes. No position means that the call is over. -/
def act (m : Mem T) (l : Luck) : Pc T → Act T × Mem T × Option (Pc T)
  | .enqLoad src => (.quiet, m, some (.enqTest src m.tail))
  | .enqTest src tail =>
    if (m.base (m.at tail)).tail ≠ tail then (.quiet, m, some (.ret (.enque false) none))
    else (.quiet, m, some (.enqCas src tail))
  | .enqCas src tail =>
    if m.tail = tail ∧ l.spurious = false then
      (.enqWin tail src, { m with tail := wrap (tail + 1) }, some (.enqBuild src tail))
    else (.casFail, m, some (.enqTest src m.tail))
  | .enqBuild src tail =>
    if l.throws then (.throwIn tail, m, none)
    else
      let node := m.base (m.at tail)
      (.construct tail (m.at tail) node.data,
        m.setNode (m.at tail) { node with data := some ⟨tail, src, false⟩ },
        some (.enqStore src tail))
  | .enqStore _ tail =>
    (.publish tail, m.setNode (m.at tail) { m.base (m.at tail) with head := tail },
      some (.ret (.enque true) (some tail)))
  | .deqLoad dest => (.quiet, m, some (.deqTest dest m.head))
  | .deqTest dest head =>
    if (m.base (m.at head)).head ≠ head then (.quiet, m, some (.ret (.deque false dest) none))
    else (.quiet, m, some (.deqCas dest head))
  | .deqCas dest head =>
    if m.head = head ∧ l.spurious = false then
      (.deqWin head, { m with head := wrap (head + 1) }, some (.deqMove dest head))
    else (.casFail, m, some (.deqTest dest m.head))
  | .deqMove dest head =>
    if l.throws then (.throwOut head, m, none)
    else
      let node := m.base (m.at head)
      (.moveFrom head (m.at head) node.data,
        m.setNode (m.at head) { node with data := node.data.map ({ · with moved := true }) },
        some (.deqKill ((node.data.map Obj.val).getD dest) head))
  | .deqKill dest head =>
    let node := m.base (m.at head)
    (.destroy head (m.at head) node.data, m.setNode (m.at head) { node with data := none },
      some (.deqStore dest head))
  | .deqStore dest head =>
    (.release head,
      m.setNode (m.at head) { m.base (m.at head) with tail := wrap (head + m.capa) },
      some (.ret (.deque true dest) (some head)))
  | .ret a won => (.ret a won, m, none)

/-! ## The transition system -/

/-- The queue, and the calls in progress. -/
structure State (Tid T : Type) where
  mem : Mem T
  thr : Tid → Option (Pc T)

/-- An event: the thread and what it does. -/
abbrev Event (Tid T : Type) : Type := Tid × Act T

/-- What the scheduler decides. -/
inductive Sched (Tid T : Type)
  | call (p : Tid) (op : Op T)
  | run (p : Tid) (l : Luck)

section Step

variable [DecidableEq Tid]

/-- Leave memory `m` behind and move a thread. -/
def State.goto (s : State Tid T) (p : Tid) (m : Mem T) (t : Option (Pc T)) : State Tid T :=
  ⟨m, Function.update s.thr p t⟩

@[simp] theorem State.goto_mem (s : State Tid T) (p : Tid) (m : Mem T) (t : Option (Pc T)) :
    (s.goto p m t).mem = m := rfl

@[simp] theorem State.goto_thr_self (s : State Tid T) (p : Tid) (m : Mem T) (t : Option (Pc T)) :
    (s.goto p m t).thr p = t := by
  simp [State.goto]

theorem State.goto_thr_of_ne (s : State Tid T) {p q : Tid} (m : Mem T) (t : Option (Pc T))
    (hq : q ≠ p) : (s.goto p m t).thr q = s.thr q := by
  simp [State.goto, hq]

/-- The step of thread `p`, which is at `pc`. -/
def State.advance (s : State Tid T) (p : Tid) (pc : Pc T) (l : Luck) :
    Event Tid T × State Tid T :=
  let x := act s.mem l pc
  ((p, x.1), s.goto p x.2.1 x.2.2)

/-- One step, if the scheduler's decision makes sense. -/
def State.step (s : State Tid T) : Sched Tid T → Option (Event Tid T × State Tid T)
  | .call p op =>
    match s.thr p with
    | none => some ((p, .call op), s.goto p s.mem (some op.entry))
    | some _ => none
  | .run p l =>
    match s.thr p with
    | none => none
    | some pc => some (s.advance p pc l)

end Step

/-- A step that meets neither bad luck nor an exception. -/
def calm : Luck := ⟨false, false⟩

/-- The decisions that let one thread make an `enque` that goes through. -/
def wholeEnque (p : Tid) (src : T) : List (Sched Tid T) :=
  .call p (.enque src) :: List.replicate 6 (.run p calm)

/-- The decisions that let one thread make a `deque` that goes through. -/
def wholeDeque (p : Tid) (dest : T) : List (Sched Tid T) :=
  .call p (.deque dest) :: List.replicate 7 (.run p calm)

/-- What the scheduler may decide: a weak compare-exchange may fail for no reason, and elements
may throw, only where that is allowed. -/
def Luck.Allowed (weak throwing : Bool) (l : Luck) : Prop :=
  (l.spurious = true → weak = true) ∧ (l.throws = true → throwing = true)

instance (weak throwing : Bool) (l : Luck) : Decidable (l.Allowed weak throwing) :=
  inferInstanceAs (Decidable (_ ∧ _))

/-- The same for a decision. -/
def Sched.Allowed (weak throwing : Bool) : Sched Tid T → Prop
  | .call _ _ => True
  | .run _ l => l.Allowed weak throwing

instance (weak throwing : Bool) (c : Sched Tid T) : Decidable (c.Allowed weak throwing) :=
  match c with
  | .call _ _ => .isTrue trivial
  | .run _ l => inferInstanceAs (Decidable (l.Allowed weak throwing))

/-- A queue just constructed, with no call in progress. -/
def State.start (Tid T : Type) (sizeofNode capa : ℕ) : State Tid T :=
  ⟨construct T sizeofNode capa, fun _ => none⟩

/-- The queue constructed for `capa` elements with nodes of `sizeofNode` bytes. -/
def queue (Tid T : Type) [DecidableEq Tid] (sizeofNode capa : ℕ) (weak throwing : Bool) :
    System (State Tid T) (Event Tid T) where
  init s := s = State.start Tid T sizeofNode capa
  next s e t := ∃ c : Sched Tid T, c.Allowed weak throwing ∧ s.step c = some (e, t)

/-! ## The destructor -/

/-- What the destructor destroys: for `j` from `_head` while `j < _tail`, the slot of `j`. The loop
runs `_tail - _head` times, or not at all; `n` counts what is left of it. -/
def destroyLoop (m : Mem T) (j : ℤ) : ℕ → List (ℤ × Option (Obj T)) × Mem T
  | 0 => ([], m)
  | n + 1 =>
    let node := m.base (m.at j)
    let rest := destroyLoop (m.setNode (m.at j) { node with data := none }) (j + 1) n
    ((m.at j, node.data) :: rest.1, rest.2)

/-- The nodes the destructor destroys in, with what their slots held just before. -/
def Mem.destroyed (m : Mem T) : List (ℤ × Option (Obj T)) :=
  (destroyLoop m m.head (m.tail - m.head).toNat).1

/-- The nodes as the destructor leaves them, when it gives back their memory. -/
def Mem.destructed (m : Mem T) : Mem T := (destroyLoop m m.head (m.tail - m.head).toNat).2

/-! ## What one step can do -/

variable [DecidableEq Tid] {sizeofNode capa : ℕ} {weak throwing : Bool} {s t : State Tid T}
  {e : Event Tid T}

/-- A step is the start of a call by an idle thread, or the code of a thread in a call. -/
theorem next_cases (h : (queue Tid T sizeofNode capa weak throwing).next s e t) :
    (∃ p op, s.thr p = none ∧ e = (p, .call op) ∧ t = s.goto p s.mem (some op.entry)) ∨
    (∃ p pc l, l.Allowed weak throwing ∧ s.thr p = some pc ∧ (e, t) = s.advance p pc l) := by
  obtain ⟨c, hc, hstep⟩ := h
  cases c with
  | call p op =>
    simp only [State.step] at hstep
    split at hstep
    · rename_i hp
      obtain ⟨rfl, rfl⟩ := Prod.mk.inj (Option.some.inj hstep)
      exact Or.inl ⟨p, op, hp, rfl, rfl⟩
    · cases hstep
  | run p l =>
    simp only [State.step] at hstep
    split at hstep
    · cases hstep
    · rename_i pc hp
      exact Or.inr ⟨p, pc, l, hc, hp, (Option.some.inj hstep).symm⟩

/-- Following allowed decisions is a stretch of steps. -/
theorem steps_trace (sizeofNode capa : ℕ) (weak throwing : Bool) (s : State Tid T)
    (cs : List (Sched Tid T)) (hcs : ∀ c ∈ cs, c.Allowed weak throwing) :
    (queue Tid T sizeofNode capa weak throwing).Steps s (System.trace State.step s cs)
      (System.after State.step s cs) :=
  System.Steps.trace (M := queue Tid T sizeofNode capa weak throwing)
    (P := fun c => c.Allowed weak throwing) (fun _ c _ _ hc hstep => ⟨c, hc, hstep⟩) s cs hcs

/-- Steps of other threads leave a thread where it is. -/
theorem thr_of_ne (h : (queue Tid T sizeofNode capa weak throwing).next s e t) {q : Tid}
    (hq : q ≠ e.1) : t.thr q = s.thr q := by
  rcases next_cases h with ⟨p, op, -, rfl, rfl⟩ | ⟨p, pc, l, -, -, heq⟩
  · exact State.goto_thr_of_ne _ _ _ hq
  · obtain ⟨rfl, rfl⟩ := Prod.mk.inj heq
    exact State.goto_thr_of_ne _ _ _ hq

end CraflinRQ

end LeonUtils
