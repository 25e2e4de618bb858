import LeonUtils.Shm.Layout
import LeonUtils.Transition

/-!
# The queue, one atomic step at a time

`ShmAtmRQ_t::enque`, `deque`, `clear` and the observers, run by any number of threads in any
number of processes on one segment. A thread's position in the code is a `Pc`, which carries the
local variables that are live there under their names in the source. `act` is the code: what a
thread does next, as a function of shared memory, of its handle and of its position.

Every load, store and compare-exchange is its own step, and `memcpy` moves one byte at a time, so
a payload can be caught half copied. Local computation is merged into the step before it.

## Threads and handles

The types `Tid` of threads and `Hid` of handles are arbitrary. A handle may be shared by any
number of threads, and a thread may use another handle in each call. All handles are attached to
the one segment; how that comes about is the subject of `Shm.Attach`.

## The scheduler

A `Sched` says which thread goes next, and whether a weak compare-exchange fails although the
value is the expected one. `queue w weak` is the resulting transition system for a segment made
with capacity argument `w`; with `weak = false` a compare-exchange fails only when the stored
value differs.

## The ghost in a return

`enque` and `deque` return only a `bool`. The `Ans` is what the caller sees; the ticket that
`ret` carries next to it is there for the statements about tickets.
-/

namespace LeonUtils

namespace ShmAtmRQ

open Transition

/-! ## Calls and positions -/

/-- What a caller may ask of the queue. `deque` and `clear` bring the buffer they copy into. -/
inductive Op
  | enque (g : Goods)
  | deque (g : Goods)
  | clear (buf : Goods)
  | size
  | empty
  | full
  | errCnt

/-- What a call answers. `deque` also leaves the caller's buffer behind. -/
inductive Ans
  | enque (ok : Bool)
  | deque (ok : Bool) (g : Goods)
  | clear
  | size (x : ℤ)
  | empty (b : Bool)
  | full (b : Bool)
  | errCnt (x : ℤ)

/-- `deque` is called by users and by `clear`. -/
inductive Caller
  | user
  | clear

/-- The observers that load `_tail` and then `_head`. -/
inductive Obs
  | size
  | empty
  | full

/-- Where a thread is, with the local variables live there. -/
inductive Pc
  /-- `cur_idx = m_tail.load()` -/
  | enqLoad (g : Goods) (oldIdx : ℤ) (tryCnt : ℕ)
  /-- `cur_nod->t_tag.load() == cur_idx` -/
  | enqTest (g : Goods) (oldIdx : ℤ) (tryCnt : ℕ) (curIdx : ℤ)
  /-- `m_tail.compare_exchange_weak( cur_idx, cur_idx + 1 )` -/
  | enqCas (g : Goods) (oldIdx : ℤ) (tryCnt : ℕ) (curIdx : ℤ)
  /-- `++_errs; return false;` -/
  | enqFail
  /-- `_errs.store( 0 )` -/
  | enqWon (g : Goods) (curIdx : ℤ)
  /-- `memcpy( cur_nod->goods, g_, … )` with `k` bytes done, then `h_tag.store( cur_idx )` -/
  | enqCopy (g : Goods) (curIdx : ℤ) (k : ℕ)
  /-- `cur_idx = m_head.load()` -/
  | deqLoad (c : Caller) (g : Goods) (tryCnt : ℕ)
  /-- `cur_nod->h_tag.load() != cur_idx` -/
  | deqTest (c : Caller) (g : Goods) (tryCnt : ℕ) (curIdx : ℤ)
  /-- `m_head.compare_exchange_weak( cur_idx, cur_idx + 1 )` -/
  | deqCas (c : Caller) (g : Goods) (tryCnt : ℕ) (curIdx : ℤ)
  /-- `++_errs; return false;` -/
  | deqFail (c : Caller) (g : Goods)
  /-- `_errs.store( 0 )` -/
  | deqWon (c : Caller) (g : Goods) (curIdx : ℤ)
  /-- `memcpy( g_, cur_nod->goods, … )` with `k` bytes done, then `t_tag.store( … )` -/
  | deqCopy (c : Caller) (g : Goods) (curIdx : ℤ) (k : ℕ)
  /-- `tail = _meta->_tail.load()` -/
  | obsTail (o : Obs)
  /-- `head = _meta->_head.load()` -/
  | obsHead (o : Obs) (tail : ℤ)
  /-- `_errs.load()` -/
  | errLoad
  /-- About to return. -/
  | ret (c : Caller) (a : Ans) (won : Option ℤ)

/-- Where a call starts. -/
def Op.entry : Op → Pc
  | .enque g => .enqLoad g (-1) 0
  | .deque g => .deqLoad .user g 0
  | .clear buf => .deqLoad .clear buf 0
  | .size => .obsTail .size
  | .empty => .obsTail .empty
  | .full => .obsTail .full
  | .errCnt => .errLoad

/-! ## What a step does -/

/-- What a step is, apart from the thread that makes it. -/
inductive Act (Hid : Type)
  | call (h : Hid) (op : Op)
  /-- A load, a failed test, or an access to `_errs`. -/
  | quiet
  /-- A failed compare-exchange. -/
  | casFail
  /-- `enque` of `g` wins ticket `i`. -/
  | enqWin (i : ℤ) (g : Goods)
  /-- One byte of `goods` of node `j` is written. -/
  | copyIn (j : ℤ)
  /-- `h_tag.store( i )` -/
  | publish (i : ℤ)
  /-- `deque` wins ticket `i`. -/
  | deqWin (i : ℤ)
  /-- `t_tag.store( i + _capa )` -/
  | release (i : ℤ)
  /-- A call returns, or a `deque` of `clear` does; `won` is its ticket. -/
  | ret (a : Ans) (won : Option ℤ)

/-- What a step writes. -/
inductive Effect
  | none
  | store (x : Store)
  /-- The handle's `_errs`. -/
  | errs (v : ℤ)

/-- The node `_base + ( idx & _mask )`. -/
def Handle.nodeIdx (h : Handle) (idx : ℤ) : ℤ := Int.land idx h.mask

/-- The end of a round of `enque` that did not win its ticket. -/
def enqRetry (g : Goods) (oldIdx : ℤ) (tryCnt : ℕ) (curIdx : ℤ) : Pc :=
  let tryCnt := if curIdx ≠ oldIdx then 0 else tryCnt
  if tryCnt + 1 > 3 then .enqFail else .enqLoad g curIdx (tryCnt + 1)

/-- The end of a round of `deque` whose compare-exchange failed. -/
def deqRetry (c : Caller) (g : Goods) (tryCnt : ℕ) : Pc :=
  if tryCnt + 1 > 3 then .deqFail c g else .deqLoad c g (tryCnt + 1)

/-- `size`, `empty` and `full`, from the two loads. -/
def Obs.ans (h : Handle) (tail head : ℤ) : Obs → Ans
  | .size => .size (tail - head)
  | .empty => .empty (decide (tail = head))
  | .full => .full (decide (tail - head ≥ h.capa))

/-- What follows a return: `clear` calls `deque` again until it fails. -/
def afterRet : Caller → Ans → Option Pc
  | .clear, .deque true g => some (.deqLoad .clear g 0)
  | .clear, .deque false _ => some (.ret .user .clear none)
  | _, _ => none

/-- The code: the next step of a thread at a given position, what it writes, and where it goes.
No position means that the call is over. -/
def act {H : Type} (m : Shm) (h : Handle) (spurious : Bool) :
    Pc → Act H × Effect × Option Pc
  | .enqLoad g oldIdx tryCnt => (.quiet, .none, some (.enqTest g oldIdx tryCnt m.tail))
  | .enqTest g oldIdx tryCnt curIdx =>
    if (m.base (h.nodeIdx curIdx)).tTag = curIdx then
      (.quiet, .none, some (.enqCas g oldIdx tryCnt curIdx))
    else (.quiet, .none, some (enqRetry g oldIdx tryCnt curIdx))
  | .enqCas g oldIdx tryCnt curIdx =>
    if m.tail = curIdx ∧ spurious = false then
      (.enqWin curIdx g, .store (.tail (curIdx + 1)), some (.enqWon g curIdx))
    else (.casFail, .none, some (enqRetry g oldIdx tryCnt m.tail))
  | .enqFail => (.quiet, .errs (h.errs + 1), some (.ret .user (.enque false) none))
  | .enqWon g curIdx => (.quiet, .errs 0, some (.enqCopy g curIdx 0))
  | .enqCopy g curIdx k =>
    if hk : k < loadSize then
      (.copyIn (h.nodeIdx curIdx), .store (.byte (h.nodeIdx curIdx) ⟨k, hk⟩ (g ⟨k, hk⟩)),
        some (.enqCopy g curIdx (k + 1)))
    else
      (.publish curIdx, .store (.hTag (h.nodeIdx curIdx) curIdx),
        some (.ret .user (.enque true) (some curIdx)))
  | .deqLoad c g tryCnt => (.quiet, .none, some (.deqTest c g tryCnt m.head))
  | .deqTest c g tryCnt curIdx =>
    if (m.base (h.nodeIdx curIdx)).hTag ≠ curIdx then
      (.quiet, .none, some (.ret c (.deque false g) none))
    else (.quiet, .none, some (.deqCas c g tryCnt curIdx))
  | .deqCas c g tryCnt curIdx =>
    if m.head = curIdx ∧ spurious = false then
      (.deqWin curIdx, .store (.head (curIdx + 1)), some (.deqWon c g curIdx))
    else (.casFail, .none, some (deqRetry c g tryCnt))
  | .deqFail c g => (.quiet, .errs (h.errs + 1), some (.ret c (.deque false g) none))
  | .deqWon c g curIdx => (.quiet, .errs 0, some (.deqCopy c g curIdx 0))
  | .deqCopy c g curIdx k =>
    if hk : k < loadSize then
      (.quiet, .none, some (.deqCopy c
        (Function.update g ⟨k, hk⟩ ((m.base (h.nodeIdx curIdx)).goods ⟨k, hk⟩)) curIdx (k + 1)))
    else
      (.release curIdx, .store (.tTag (h.nodeIdx curIdx) (curIdx + h.capa)),
        some (.ret c (.deque true g) (some curIdx)))
  | .obsTail o => (.quiet, .none, some (.obsHead o m.tail))
  | .obsHead o tail => (.quiet, .none, some (.ret .user (o.ans h tail m.head) none))
  | .errLoad => (.quiet, .none, some (.ret .user (.errCnt h.errs) none))
  | .ret c a won => (.ret a won, .none, afterRet c a)

/-! ## The transition system -/

/-- Shared memory, the handles, and the calls in progress, each on its handle. -/
structure State (Tid Hid : Type) where
  shm : Shm
  hnd : Hid → Handle
  thr : Tid → Option (Hid × Pc)

/-- An event: the thread and what it does. -/
abbrev Event (Tid Hid : Type) : Type := Tid × Act Hid

/-- What the scheduler decides. -/
inductive Sched (Tid Hid : Type)
  | call (p : Tid) (h : Hid) (op : Op)
  | run (p : Tid) (spurious : Bool)

variable {Tid Hid : Type}

section Write

variable [DecidableEq Hid]

/-- Carry out what a step through handle `h` writes. -/
def State.write (s : State Tid Hid) (h : Hid) : Effect → State Tid Hid
  | .none => s
  | .store x => { s with shm := s.shm.store x }
  | .errs v => { s with hnd := Function.update s.hnd h { s.hnd h with errs := v } }

@[simp] theorem State.write_none (s : State Tid Hid) (h : Hid) : s.write h .none = s := rfl

@[simp] theorem State.write_thr (s : State Tid Hid) (h : Hid) (x : Effect) :
    (s.write h x).thr = s.thr := by
  cases x <;> rfl

@[simp] theorem State.write_store_shm (s : State Tid Hid) (h : Hid) (x : Store) :
    (s.write h (.store x)).shm = s.shm.store x := rfl

/-- A step never changes a handle's copies of capacity and mask. -/
theorem State.write_hnd (s : State Tid Hid) (h : Hid) (x : Effect) (k : Hid) :
    ((s.write h x).hnd k).capa = (s.hnd k).capa ∧ ((s.write h x).hnd k).mask = (s.hnd k).mask := by
  cases x with
  | none => exact ⟨rfl, rfl⟩
  | store x => exact ⟨rfl, rfl⟩
  | errs v =>
    by_cases hk : k = h
    · subst hk
      simp [State.write]
    · simp [State.write, hk]

end Write

section Goto

variable [DecidableEq Tid]

/-- Move a thread. -/
def State.goto (s : State Tid Hid) (p : Tid) (t : Option (Hid × Pc)) : State Tid Hid :=
  { s with thr := Function.update s.thr p t }

@[simp] theorem State.goto_shm (s : State Tid Hid) (p : Tid) (t : Option (Hid × Pc)) :
    (s.goto p t).shm = s.shm := rfl

@[simp] theorem State.goto_hnd (s : State Tid Hid) (p : Tid) (t : Option (Hid × Pc)) :
    (s.goto p t).hnd = s.hnd := rfl

@[simp] theorem State.goto_thr_self (s : State Tid Hid) (p : Tid) (t : Option (Hid × Pc)) :
    (s.goto p t).thr p = t := by
  simp [State.goto]

theorem State.goto_thr_of_ne (s : State Tid Hid) {p q : Tid} (t : Option (Hid × Pc))
    (hq : q ≠ p) : (s.goto p t).thr q = s.thr q := by
  simp [State.goto, hq]

end Goto

variable [DecidableEq Tid] [DecidableEq Hid]

/-- The step of thread `p`, which is at `pc` in a call through `h`. -/
def State.advance (s : State Tid Hid) (p : Tid) (h : Hid) (pc : Pc) (spurious : Bool) :
    Event Tid Hid × State Tid Hid :=
  let x := act s.shm (s.hnd h) spurious pc
  ((p, x.1), (s.write h x.2.1).goto p (x.2.2.map (h, ·)))

/-- One step, if the scheduler's decision makes sense. -/
def State.step (s : State Tid Hid) : Sched Tid Hid → Option (Event Tid Hid × State Tid Hid)
  | .call p h op =>
    match s.thr p with
    | none => some ((p, .call h op), s.goto p (some (h, op.entry)))
    | some _ => none
  | .run p spurious =>
    match s.thr p with
    | none => none
    | some (h, pc) => some (s.advance p h pc spurious)

/-- A weak compare-exchange may fail for no reason only where that is allowed. -/
def Sched.Allowed (weak : Bool) : Sched Tid Hid → Prop
  | .call _ _ _ => True
  | .run _ spurious => spurious = true → weak = true

/-- The state `make` leaves behind, with every handle attached and no call in progress. -/
def State.start (Tid Hid : Type) (w : ℤ) : State Tid Hid :=
  ⟨(make w).1, fun _ => (make w).2, fun _ => none⟩

/-- The queue on a segment made with capacity argument `w`. -/
def queue (Tid Hid : Type) [DecidableEq Tid] [DecidableEq Hid] (w : ℤ) (weak : Bool) :
    System (State Tid Hid) (Event Tid Hid) where
  init s := s = State.start Tid Hid w
  next s e t := ∃ c : Sched Tid Hid, c.Allowed weak ∧ s.step c = some (e, t)

/-! ## What one step can do -/

/-- A step is the start of a call by an idle thread, or the code of a thread in a call. -/
theorem next_cases {w : ℤ} {weak : Bool} {s t : State Tid Hid} {e : Event Tid Hid}
    (h : (queue Tid Hid w weak).next s e t) :
    (∃ p hd op, s.thr p = none ∧ e = (p, .call hd op) ∧ t = s.goto p (some (hd, op.entry))) ∨
    (∃ p hd pc spurious, (spurious = true → weak = true) ∧ s.thr p = some (hd, pc) ∧
      (e, t) = s.advance p hd pc spurious) := by
  obtain ⟨c, hc, hstep⟩ := h
  cases c with
  | call p hd op =>
    simp only [State.step] at hstep
    split at hstep
    · rename_i hp
      obtain ⟨rfl, rfl⟩ := Prod.mk.inj (Option.some.inj hstep)
      exact Or.inl ⟨p, hd, op, hp, rfl, rfl⟩
    · cases hstep
  | run p spurious =>
    simp only [State.step] at hstep
    split at hstep
    · cases hstep
    · rename_i hd pc hp
      exact Or.inr ⟨p, hd, pc, spurious, hc, hp, (Option.some.inj hstep).symm⟩

/-- The acts that write nothing to shared memory. -/
def Act.Silent {Hid : Type} : Act Hid → Prop
  | .call _ _ | .quiet | .casFail | .ret _ _ => True
  | _ => False

/-- What the code writes at a position, said once: nothing or the error count, or one of the five
stores to shared memory. -/
inductive Writes {Hid : Type} (m : Shm) (h : Handle) : Pc → Act Hid → Effect → Prop
  | silent {pc : Pc} {a : Act Hid} (ha : a.Silent) : Writes m h pc a .none
  | errs {pc : Pc} (v : ℤ) : Writes m h pc .quiet (.errs v)
  | enqWin (g : Goods) (oldIdx : ℤ) (tryCnt : ℕ) (i : ℤ) (hi : m.tail = i) :
      Writes m h (.enqCas g oldIdx tryCnt i) (.enqWin i g) (.store (.tail (i + 1)))
  | copyIn (g : Goods) (i : ℤ) (k : ℕ) (hk : k < loadSize) :
      Writes m h (.enqCopy g i k) (.copyIn (h.nodeIdx i))
        (.store (.byte (h.nodeIdx i) ⟨k, hk⟩ (g ⟨k, hk⟩)))
  | publish (g : Goods) (i : ℤ) (k : ℕ) (hk : ¬ k < loadSize) :
      Writes m h (.enqCopy g i k) (.publish i) (.store (.hTag (h.nodeIdx i) i))
  | deqWin (c : Caller) (g : Goods) (tryCnt : ℕ) (i : ℤ) (hi : m.head = i) :
      Writes m h (.deqCas c g tryCnt i) (.deqWin i) (.store (.head (i + 1)))
  | release (c : Caller) (g : Goods) (i : ℤ) (k : ℕ) (hk : ¬ k < loadSize) :
      Writes m h (.deqCopy c g i k) (.release i) (.store (.tTag (h.nodeIdx i) (i + h.capa)))

omit [DecidableEq Tid] [DecidableEq Hid] in
theorem act_writes (m : Shm) (h : Handle) (spurious : Bool) (pc : Pc) :
    Writes m h pc (act (H := Hid) m h spurious pc).1 (act (H := Hid) m h spurious pc).2.1 := by
  cases pc with
  | enqTest g oldIdx tryCnt i =>
    simp only [act]
    split <;> exact .silent trivial
  | enqCas g oldIdx tryCnt i =>
    simp only [act]
    split
    · rename_i hwin
      exact .enqWin g oldIdx tryCnt i hwin.1
    · exact .silent trivial
  | enqCopy g i k =>
    simp only [act]
    split
    · exact .copyIn g i k _
    · exact .publish g i k ‹_›
  | deqTest c g tryCnt i =>
    simp only [act]
    split <;> exact .silent trivial
  | deqCas c g tryCnt i =>
    simp only [act]
    split
    · rename_i hwin
      exact .deqWin c g tryCnt i hwin.1
    · exact .silent trivial
  | deqCopy c g i k =>
    simp only [act]
    split
    · exact .silent trivial
    · exact .release c g i k ‹_›
  | enqFail => exact .errs _
  | enqWon g i => exact .errs _
  | deqFail c g => exact .errs _
  | deqWon c g i => exact .errs _
  | _ => exact .silent trivial

/-- What a step of the queue does to shared memory. -/
theorem next_writes {w : ℤ} {weak : Bool} {s t : State Tid Hid} {e : Event Tid Hid}
    (h : (queue Tid Hid w weak).next s e t) :
    (e.2.Silent ∧ t.shm = s.shm) ∨
    ∃ hd pc x, s.thr e.1 = some (hd, pc) ∧ Writes s.shm (s.hnd hd) pc e.2 x ∧
      t.shm = (s.write hd x).shm := by
  rcases next_cases h with ⟨p, hd, op, -, rfl, rfl⟩ | ⟨p, hd, pc, sp, -, hp, heq⟩
  · exact Or.inl ⟨trivial, rfl⟩
  · obtain ⟨rfl, rfl⟩ := Prod.mk.inj heq
    exact Or.inr ⟨hd, pc, _, hp, act_writes _ _ _ _, rfl⟩

/-- Steps of other threads leave a thread where it is. -/
theorem thr_of_ne {w : ℤ} {weak : Bool} {s t : State Tid Hid} {e : Event Tid Hid}
    (h : (queue Tid Hid w weak).next s e t) {q : Tid} (hq : q ≠ e.1) : t.thr q = s.thr q := by
  rcases next_cases h with ⟨p, hd, op, -, rfl, rfl⟩ | ⟨p, hd, pc, sp, -, -, heq⟩
  · exact State.goto_thr_of_ne _ _ hq
  · obtain ⟨rfl, rfl⟩ := Prod.mk.inj heq
    rw [State.goto_thr_of_ne _ _ hq, State.write_thr]

end ShmAtmRQ

end LeonUtils
