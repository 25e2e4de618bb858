import LeonUtils.Shm.Tickets
import LeonUtils.AtomicObject

/-!
# The queue is an atomic object

However the steps of any number of threads are interleaved, their calls and returns are those of a
bounded FIFO that carries out each `enque` and each `deque` at one instant between its call and its
return. `clear` takes out elements one at a time, and others may come in between.

## What is left open

A call of the abstract queue may fail at any time. When it does in the queue is the subject of
`Shm.Failure`. The observers may answer anything here: what they see is the subject of
`Shm.Observe`.

## Main definitions

* `fifo` — the bounded FIFO
* `shown` — calls and returns
* `Follows` — how far the abstract queue is

## Main results

* `queue_simulation` — the abstract queue follows the queue
* `queue_atomic` — its calls and returns are those of an atomic bounded FIFO
-/

namespace LeonUtils

namespace ShmAtmRQ

open Transition TicketRing AtomicObject

variable {Tid Hid : Type}

/-! ## The abstract queue -/

/-- What one operation of a bounded queue may do at one instant. -/
inductive Does (capa : ℤ) : List Goods → Op → Ans → List Goods → Prop
  | enque {items : List Goods} (g : Goods) (hroom : items.length < capa) :
      Does capa items (.enque g) (.enque true) (items ++ [g])
  | enqueFalse {items : List Goods} (g : Goods) : Does capa items (.enque g) (.enque false) items
  | deque {items : List Goods} (g buf : Goods) :
      Does capa (g :: items) (.deque buf) (.deque true g) items
  | dequeFalse {items : List Goods} (buf : Goods) :
      Does capa items (.deque buf) (.deque false buf) items
  | clear {items : List Goods} (buf : Goods) : Does capa items (.clear buf) .clear items
  | size {items : List Goods} (x : ℤ) : Does capa items .size (.size x) items
  | empty {items : List Goods} (b : Bool) : Does capa items .empty (.empty b) items
  | full {items : List Goods} (b : Bool) : Does capa items .full (.full b) items
  | errCnt {items : List Goods} (x : ℤ) : Does capa items .errCnt (.errCnt x) items

/-- One instalment of `clear`: it takes out the oldest element. -/
inductive Takes : List Goods → Op → List Goods → Prop
  | clear {items : List Goods} (g buf : Goods) : Takes (g :: items) (.clear buf) items

/-- The bounded FIFO, empty at first. -/
def fifo (capa : ℤ) : Spec (List Goods) Op Ans := ⟨[], Does capa, Takes⟩

/-- What is seen of a step of the queue: the calls, and the returns to their callers. The returns of
`deque` to `clear` are not seen. -/
def shown (s : State Tid Hid) (e : Event Tid Hid) : List (Tid × Seen Op Ans) :=
  match e.2 with
  | .call _ op => [(e.1, .call op)]
  | .ret a _ =>
    match s.thr e.1 with
    | some (_, .ret .user _ _) => [(e.1, .ret a)]
    | _ => []
  | _ => []

/-! ## How far a call is -/

/-- The operation that a `deque` is part of. -/
def Caller.Asks (c : Caller) (g : Goods) (op : Op) : Prop :=
  match c with
  | .user => op = .deque g
  | .clear => ∃ buf, op = .clear buf

/-- The operation of an observer. -/
def Obs.op : Obs → Op
  | .size => .size
  | .empty => .empty
  | .full => .full

/-- The operation that a thread at this position has still to carry out. -/
def Pc.Asks : Pc → Op → Prop
  | .enqLoad g _ _, op | .enqTest g _ _ _, op | .enqCas g _ _ _, op => op = .enque g
  | .enqFail, op => ∃ g, op = .enque g
  | .deqLoad c g _, op | .deqTest c g _ _, op | .deqCas c g _ _, op | .deqFail c g, op =>
    c.Asks g op
  | .deqWon .clear _ _, op | .deqCopy .clear _ _ _, op => ∃ buf, op = .clear buf
  | .ret .clear (.deque _ _) _, op => ∃ buf, op = .clear buf
  | .obsTail o, op | .obsHead o _, op => op = o.op
  | .errLoad, op => op = .errCnt
  | _, _ => False

/-- The answer that a thread at this position is going to give. `v` says what the tickets
promise. -/
def Pc.gives (v : ℤ → Goods) : Pc → Option Ans
  | .enqWon _ _ | .enqCopy _ _ _ => some (.enque true)
  | .deqWon .user _ i | .deqCopy .user _ i _ => some (.deque true (v i))
  | .ret .user a _ => some a
  | _ => none

/-- How far the abstract call is when a thread is at this position. -/
def PcFollows (v : ℤ → Goods) (pc : Pc) (st : Status Op Ans) : Prop :=
  (∃ a, pc.gives v = some a ∧ st = .done a) ∨ (∃ op, pc.Asks op ∧ st = .pending op)

/-- The same for a thread that may be idle. -/
def ThreadFollows (v : ℤ → Goods) : Option (Hid × Pc) → Status Op Ans → Prop
  | none, st => st = .idle
  | some (_, pc), st => PcFollows v pc st

/-- How far the abstract queue is after a run. -/
structure Follows (π : List (Event Tid Hid × State Tid Hid)) (s : State Tid Hid)
    (a : AtomicObject.State Tid (List Goods) Op Ans) : Prop where
  val : a.val = window (promised π) s.shm.head s.shm.tail
  thr : ∀ p, ThreadFollows (promised π) (s.thr p) (a.thr p)

/-! ## One step -/

section Simulation

variable [DecidableEq Tid] [DecidableEq Hid] {w : ℤ} {weak : Bool} {s t : State Tid Hid}
  {e : Event Tid Hid} {π : List (Event Tid Hid × State Tid Hid)}
  {a : AtomicObject.State Tid (List Goods) Op Ans}

/-- A thread that makes no step is followed as before. -/
theorem ThreadFollows.keep (h : (queue Tid Hid w weak).Run π s)
    (hnext : (queue Tid Hid w weak).next s e t) {q : Tid} {st : Status Op Ans}
    (hq : ThreadFollows (promised π) (s.thr q) st) :
    ThreadFollows (promised (π ++ [(e, t)])) (s.thr q) st := by
  have hpromise : ∀ i, i < s.shm.head → promised (π ++ [(e, t)]) i = promised π i := by
    intro i hi
    have hle := (counters_nonneg h).2
    rw [promised_snoc]
    exact promise_of_lt hnext (by omega)
  cases hthr : s.thr q with
  | none => rwa [hthr] at hq
  | some x =>
    obtain ⟨hd, pc⟩ := x
    rw [hthr] at hq
    cases pc with
    | deqWon c g i =>
      obtain ⟨-, hhead, -⟩ := (inv_of_run h).role_ok (ringOf_role hthr)
      cases c with
      | user => simpa only [ThreadFollows, PcFollows, Pc.gives, hpromise i hhead] using hq
      | clear => exact hq
    | deqCopy c g i k =>
      obtain ⟨-, hhead, -⟩ := (inv_of_run h).role_ok (ringOf_role hthr)
      cases c with
      | user => simpa only [ThreadFollows, PcFollows, Pc.gives, hpromise i hhead] using hq
      | clear => exact hq
    | ret c ans won => cases c <;> exact hq
    | _ => exact hq

/-- What has to be shown of a step: only its own thread moves. -/
theorem Follows.goto (h : (queue Tid Hid w weak).Run π s) (hf : Follows π s a)
    (hnext : (queue Tid Hid w weak).next s e t) {items : List Goods} {st : Status Op Ans}
    (hval : items = window (promised (π ++ [(e, t)])) t.shm.head t.shm.tail)
    (hthr : ThreadFollows (promised (π ++ [(e, t)])) (t.thr e.1) st) :
    Follows (π ++ [(e, t)]) t (a.goto e.1 items st) where
  val := hval
  thr q := by
    by_cases hq : q = e.1
    · subst hq
      rwa [AtomicObject.State.goto_thr_self]
    · rw [AtomicObject.State.goto_thr_of_ne _ _ _ hq, thr_of_ne hnext hq]
      exact (hf.thr q).keep h hnext

/-- A step that wins no ticket leaves the contents alone. -/
theorem Follows.still (hf : Follows π s a) (hnext : (queue Tid Hid w weak).next s e t)
    (henq : e.2.enqTicket = none) (hdeq : e.2.deqTicket = none) :
    a.val = window (promised (π ++ [(e, t)])) t.shm.head t.shm.tail := by
  have htail : t.shm.tail = s.shm.tail := by simpa [henq] using tail_of_next hnext
  have hhead : t.shm.head = s.shm.head := by simpa [hdeq] using head_of_next hnext
  rw [htail, hhead, hf.val, promised_snoc]
  exact (window_congr fun i hi => promise_of_lt hnext hi).symm

/-- What is to be shown of a step of the queue. -/
def Followed (w : ℤ) (π : List (Event Tid Hid × State Tid Hid)) (s : State Tid Hid)
    (e : Event Tid Hid) (t : State Tid Hid) (a : AtomicObject.State Tid (List Goods) Op Ans) :
    Prop :=
  ∃ ρ b, (object Tid (fifo (alignCapa w))).Steps a ρ b ∧
    System.visible seen a ρ = shown s e ∧ Follows (π ++ [(e, t)]) t b

/-- The abstract queue waits. -/
theorem Follows.wait (h : (queue Tid Hid w weak).Run π s) (hf : Follows π s a)
    (hnext : (queue Tid Hid w weak).next s e t) (henq : e.2.enqTicket = none)
    (hdeq : e.2.deqTicket = none) (hshown : shown s e = [])
    (hthr : ThreadFollows (promised (π ++ [(e, t)])) (t.thr e.1) (a.thr e.1)) :
    Followed w π s e t a := by
  have hgoto := hf.goto h hnext (hf.still hnext henq hdeq) hthr
  rw [AtomicObject.State.goto_self] at hgoto
  exact ⟨[], a, .refl, hshown.symm, hgoto⟩

/-- The abstract queue carries out an operation. -/
theorem Follows.commit (h : (queue Tid Hid w weak).Run π s) (hf : Follows π s a)
    (hnext : (queue Tid Hid w weak).next s e t) {op : Op} {ans : Ans} {items : List Goods}
    (hp : a.thr e.1 = .pending op) (hdoes : Does (alignCapa w) a.val op ans items)
    (hshown : shown s e = [])
    (hval : items = window (promised (π ++ [(e, t)])) t.shm.head t.shm.tail)
    (hthr : ThreadFollows (promised (π ++ [(e, t)])) (t.thr e.1) (.done ans)) :
    Followed w π s e t a := by
  obtain ⟨ρ, hρ, hvis⟩ := commit_steps (S := fifo (alignCapa w)) hp hdoes
  exact ⟨ρ, _, hρ, hvis.trans hshown.symm, hf.goto h hnext hval hthr⟩

omit [DecidableEq Tid] [DecidableEq Hid] in
/-- At the end of a round that was not won the thread is asked the same. -/
theorem asks_enqRetry (g : Goods) (oldIdx : ℤ) (tryCnt : ℕ) (curIdx : ℤ) :
    (enqRetry g oldIdx tryCnt curIdx).Asks (.enque g) := by
  unfold enqRetry
  dsimp only
  generalize (if curIdx ≠ oldIdx then 0 else tryCnt) = k
  split
  · exact ⟨g, rfl⟩
  · rfl

omit [DecidableEq Tid] [DecidableEq Hid] in
theorem asks_deqRetry {c : Caller} {g : Goods} {op : Op} (h : c.Asks g op) (tryCnt : ℕ) :
    (deqRetry c g tryCnt).Asks op := by
  rw [deqRetry]
  split <;> exact h

omit [DecidableEq Tid] [DecidableEq Hid] in
theorem asks_entry (op : Op) : op.entry.Asks op := by
  cases op with
  | clear buf => exact ⟨buf, rfl⟩
  | _ => rfl

omit [DecidableEq Tid] [DecidableEq Hid] in
/-- Before a thread is asked for something there is nothing that it gives. -/
theorem PcFollows.asked {v : ℤ → Goods} {pc : Pc} {st : Status Op Ans} (h : PcFollows v pc st)
    (hgives : pc.gives v = none) : ∃ op, pc.Asks op ∧ st = .pending op := by
  rcases h with ⟨ans, hans, -⟩ | h
  · rw [hgives] at hans
    cases hans
  · exact h

omit [DecidableEq Tid] [DecidableEq Hid] in
theorem does_obs {capa : ℤ} {items : List Goods} (o : Obs) (h : Handle) (tail head : ℤ) :
    Does capa items o.op (o.ans h tail head) items := by
  cases o with
  | size => exact .size _
  | empty => exact .empty _
  | full => exact .full _

/-- An `enque` that wins its ticket. -/
theorem Follows.give (h : (queue Tid Hid w weak).Run π s) (hf : Follows π s a) {p : Tid}
    {g : Goods} (hnext : (queue Tid Hid w weak).next s (p, .enqWin s.shm.tail g) t) {hd : Hid}
    (hst : a.thr p = .pending (.enque g)) (hthr : t.thr p = some (hd, .enqWon g s.shm.tail))
    (hhead : t.shm.head = s.shm.head) (htail : t.shm.tail = s.shm.tail + 1) :
    Followed w π s (p, .enqWin s.shm.tail g) t a := by
  have hle := (counters_nonneg h).2
  have hroom := (inv_of_run (h.snoc hnext)).tail_sub_head.2
  change t.shm.tail - t.shm.head ≤ alignCapa w at hroom
  have hnew : promised (π ++ [((p, Act.enqWin s.shm.tail g), t)]) s.shm.tail = g := by
    rw [promised_snoc]
    exact Function.update_self _ _ _
  have hold : ∀ i, i < s.shm.tail →
      promised (π ++ [((p, Act.enqWin s.shm.tail g), t)]) i = promised π i := by
    intro i hi
    rw [promised_snoc]
    exact promise_of_lt hnext hi
  refine hf.commit h hnext hst (.enque g ?_) rfl ?_ ?_
  · rw [hf.val, length_window]
    omega
  · rw [hhead, htail, window_snoc hle hold hnew, hf.val]
  · rw [hthr]
    exact Or.inl ⟨_, rfl, rfl⟩

/-- A `deque` that wins its ticket. -/
theorem Follows.take (h : (queue Tid Hid w weak).Run π s) (hf : Follows π s a) {p : Tid}
    (hnext : (queue Tid Hid w weak).next s (p, .deqWin s.shm.head) t) {c : Caller} {g : Goods}
    {op : Op} {hd : Hid} (hop : c.Asks g op) (hst : a.thr p = .pending op)
    (hthr : t.thr p = some (hd, .deqWon c g s.shm.head)) (hhead : t.shm.head = s.shm.head + 1)
    (htail : t.shm.tail = s.shm.tail) : Followed w π s (p, .deqWin s.shm.head) t a := by
  have hlt := (counters_nonneg (h.snoc hnext)).2
  rw [hhead, htail] at hlt
  have hpromised : promised (π ++ [((p, Act.deqWin s.shm.head), t)]) = promised π := by
    rw [promised_snoc]
    rfl
  have hitems : a.val =
      promised π s.shm.head :: window (promised π) (s.shm.head + 1) s.shm.tail := by
    rw [hf.val, window_cons (by omega)]
  have hval : window (promised π) (s.shm.head + 1) s.shm.tail =
      window (promised (π ++ [((p, Act.deqWin s.shm.head), t)])) t.shm.head t.shm.tail := by
    rw [hpromised, hhead, htail]
  cases c with
  | user =>
    obtain rfl : op = .deque g := hop
    have hdoes : Does (alignCapa w)
        (promised π s.shm.head :: window (promised π) (s.shm.head + 1) s.shm.tail) (.deque g)
        (.deque true (promised π s.shm.head)) (window (promised π) (s.shm.head + 1) s.shm.tail) :=
      .deque _ g
    rw [← hitems] at hdoes
    refine hf.commit h hnext hst hdoes rfl hval ?_
    rw [hthr, hpromised]
    exact Or.inl ⟨_, rfl, rfl⟩
  | clear =>
    obtain ⟨buf, rfl⟩ : ∃ buf, op = .clear buf := hop
    have htakes : Takes (promised π s.shm.head :: window (promised π) (s.shm.head + 1) s.shm.tail)
        (.clear buf) (window (promised π) (s.shm.head + 1) s.shm.tail) :=
      .clear _ buf
    rw [← hitems] at htakes
    obtain ⟨ρ, hρ, hvis⟩ := work_steps (S := fifo (alignCapa w)) hst htakes
    refine ⟨ρ, _, hρ, hvis, hf.goto h hnext hval ?_⟩
    rw [hthr]
    exact Or.inr ⟨_, ⟨buf, rfl⟩, rfl⟩

/-! ## The code of one thread -/

section Advance

omit [DecidableEq Tid] [DecidableEq Hid] in
/-- Only an `enque` that wins its ticket promises anything. -/
theorem promise_of_enqTicket (v : ℤ → Goods) {e : Event Tid Hid} (henq : e.2.enqTicket = none) :
    promise v e = v := by
  obtain ⟨p, act⟩ := e
  cases act with
  | enqWin i g => cases henq
  | _ => rfl

variable (h : (queue Tid Hid w weak).Run π s) (hf : Follows π s a)
  (hnext : (queue Tid Hid w weak).next s e t) {p : Tid} {hd : Hid} {sp : Bool}

include h hf hnext

/-- The thread goes on, nothing is seen of it, and the abstract queue waits. -/
theorem Follows.stay {act : Act Hid} {s' : State Tid Hid} {pc : Pc}
    (heq : (e, t) = ((p, act), s'.goto p (some (hd, pc)))) (henq : act.enqTicket = none)
    (hdeq : act.deqTicket = none) (hshown : shown s (p, act) = [])
    (hpc : PcFollows (promised π) pc (a.thr p)) : Followed w π s e t a := by
  obtain ⟨rfl, rfl⟩ := Prod.mk.inj heq
  refine hf.wait h hnext henq hdeq hshown ?_
  rw [State.goto_thr_self, promised_snoc, promise_of_enqTicket _ henq]
  exact hpc

/-- The thread has its answer, and the abstract queue gives it without a change of its elements. -/
theorem Follows.answer {act : Act Hid} {s' : State Tid Hid} {pc : Pc} {op : Op} {ans : Ans}
    (heq : (e, t) = ((p, act), s'.goto p (some (hd, pc)))) (henq : act.enqTicket = none)
    (hdeq : act.deqTicket = none) (hshown : shown s (p, act) = [])
    (hst : a.thr p = .pending op) (hdoes : Does (alignCapa w) a.val op ans a.val)
    (hpc : pc.gives (promised π) = some ans) : Followed w π s e t a := by
  obtain ⟨rfl, rfl⟩ := Prod.mk.inj heq
  refine hf.commit h hnext hst hdoes hshown (hf.still hnext henq hdeq) ?_
  rw [State.goto_thr_self, promised_snoc, promise_of_enqTicket _ henq]
  exact Or.inl ⟨ans, hpc, rfl⟩

/-- A `deque` that fails, of a user or of `clear`. -/
theorem Follows.giveUp {act : Act Hid} {s' : State Tid Hid} {c : Caller} {g : Goods} {op : Op}
    (heq : (e, t) = ((p, act), s'.goto p (some (hd, .ret c (.deque false g) none))))
    (henq : act.enqTicket = none) (hdeq : act.deqTicket = none) (hshown : shown s (p, act) = [])
    (hop : c.Asks g op) (hst : a.thr p = .pending op) : Followed w π s e t a := by
  cases c with
  | user =>
    obtain rfl : op = .deque g := hop
    exact hf.answer h hnext heq henq hdeq hshown hst (.dequeFalse g) rfl
  | clear => exact hf.stay h hnext heq henq hdeq hshown (Or.inr ⟨op, hop, hst⟩)

/-! ### `enque` -/

theorem Follows.enqTest {g : Goods} {oldIdx i : ℤ} {tryCnt : ℕ}
    (hst : a.thr p = .pending (.enque g))
    (heq : (e, t) = s.advance p hd (.enqTest g oldIdx tryCnt i) sp) : Followed w π s e t a := by
  simp only [State.advance, act] at heq
  split at heq
  · exact hf.stay h hnext heq rfl rfl rfl (Or.inr ⟨_, rfl, hst⟩)
  · exact hf.stay h hnext heq rfl rfl rfl (Or.inr ⟨_, asks_enqRetry _ _ _ _, hst⟩)

theorem Follows.enqCas {g : Goods} {oldIdx i : ℤ} {tryCnt : ℕ}
    (hst : a.thr p = .pending (.enque g))
    (heq : (e, t) = s.advance p hd (.enqCas g oldIdx tryCnt i) sp) : Followed w π s e t a := by
  simp only [State.advance, act] at heq
  split at heq
  · rename_i hwin
    obtain ⟨rfl, rfl⟩ := Prod.mk.inj heq
    obtain rfl := hwin.1
    exact hf.give h hnext hst (State.goto_thr_self _ _ _) rfl rfl
  · exact hf.stay h hnext heq rfl rfl rfl (Or.inr ⟨_, asks_enqRetry _ _ _ _, hst⟩)

theorem Follows.enqCopy {g : Goods} {i : ℤ} {k : ℕ}
    (hpc : PcFollows (promised π) (.enqCopy g i k) (a.thr p))
    (heq : (e, t) = s.advance p hd (.enqCopy g i k) sp) : Followed w π s e t a := by
  simp only [State.advance, act] at heq
  split at heq
  · exact hf.stay h hnext heq rfl rfl rfl hpc
  · exact hf.stay h hnext heq rfl rfl rfl hpc

/-! ### `deque` -/

theorem Follows.deqTest {c : Caller} {g : Goods} {op : Op} {i : ℤ} {tryCnt : ℕ}
    (hop : c.Asks g op) (hst : a.thr p = .pending op)
    (heq : (e, t) = s.advance p hd (.deqTest c g tryCnt i) sp) : Followed w π s e t a := by
  simp only [State.advance, act] at heq
  split at heq
  · exact hf.giveUp h hnext heq rfl rfl rfl hop hst
  · exact hf.stay h hnext heq rfl rfl rfl (Or.inr ⟨op, hop, hst⟩)

theorem Follows.deqCas {c : Caller} {g : Goods} {op : Op} {i : ℤ} {tryCnt : ℕ}
    (hop : c.Asks g op) (hst : a.thr p = .pending op)
    (heq : (e, t) = s.advance p hd (.deqCas c g tryCnt i) sp) : Followed w π s e t a := by
  simp only [State.advance, act] at heq
  split at heq
  · rename_i hwin
    obtain ⟨rfl, rfl⟩ := Prod.mk.inj heq
    obtain rfl := hwin.1
    exact hf.take h hnext hop hst (State.goto_thr_self _ _ _) rfl rfl
  · exact hf.stay h hnext heq rfl rfl rfl (Or.inr ⟨op, asks_deqRetry hop _, hst⟩)

/-- At the end of the copy the caller's buffer holds what the ticket promised. -/
theorem Follows.deqCopy {c : Caller} {g : Goods} {i : ℤ} {k : ℕ}
    (hp : s.thr p = some (hd, .deqCopy c g i k))
    (hpc : PcFollows (promised π) (.deqCopy c g i k) (a.thr p))
    (heq : (e, t) = s.advance p hd (.deqCopy c g i k) sp) : Followed w π s e t a := by
  simp only [State.advance, act] at heq
  split at heq
  · refine hf.stay h hnext heq rfl rfl rfl ?_
    cases c <;> exact hpc
  · rename_i hk
    obtain ⟨hgoods, -, -⟩ := copied_promised h hp hk
    refine hf.stay h hnext heq rfl rfl rfl ?_
    cases c with
    | user =>
      rw [hgoods]
      exact hpc
    | clear => exact hpc

/-! ### The return -/

/-- The return to a user is the return of the abstract call. -/
theorem Follows.ret_user {ans : Ans} {won : Option ℤ} (hp : s.thr p = some (hd, .ret .user ans won))
    (hst : a.thr p = .done ans) (heq : (e, t) = s.advance p hd (.ret .user ans won) sp) :
    Followed w π s e t a := by
  obtain ⟨rfl, rfl⟩ := Prod.mk.inj heq
  obtain ⟨ρ, hρ, hvis⟩ := ret_steps (S := fifo (alignCapa w)) hst
  refine ⟨ρ, _, hρ, ?_, hf.goto h hnext (hf.still hnext rfl rfl) ?_⟩
  · rw [hvis]
    simp only [shown, act, hp]
  · rw [State.goto_thr_self]
    rfl

/-- After a `deque` that has failed `clear` is over; after another one it goes on. -/
theorem Follows.ret_clear {ok : Bool} {g buf : Goods} {won : Option ℤ}
    (hp : s.thr p = some (hd, .ret .clear (.deque ok g) won))
    (hst : a.thr p = .pending (.clear buf))
    (heq : (e, t) = s.advance p hd (.ret .clear (.deque ok g) won) sp) : Followed w π s e t a := by
  have hshown : shown s (p, (Act.ret (.deque ok g) won : Act Hid)) = [] := by
    simp only [shown, hp]
  cases ok with
  | true => exact hf.stay h hnext heq rfl rfl hshown (Or.inr ⟨_, ⟨buf, rfl⟩, hst⟩)
  | false => exact hf.answer h hnext heq rfl rfl hshown hst (.clear buf) rfl

/-! ### Any position -/

/-- A step of a call, by its position. -/
theorem Follows.advance {pc : Pc} (hp : s.thr p = some (hd, pc))
    (heq : (e, t) = s.advance p hd pc sp) : Followed w π s e t a := by
  have hpc : PcFollows (promised π) pc (a.thr p) := by
    have hthr := hf.thr p
    rwa [hp] at hthr
  cases pc with
  | enqLoad g oldIdx tryCnt => exact hf.stay h hnext heq rfl rfl rfl hpc
  | enqTest g oldIdx tryCnt i =>
    obtain ⟨op, rfl, hst⟩ := hpc.asked rfl
    exact hf.enqTest h hnext hst heq
  | enqCas g oldIdx tryCnt i =>
    obtain ⟨op, rfl, hst⟩ := hpc.asked rfl
    exact hf.enqCas h hnext hst heq
  | enqFail =>
    obtain ⟨op, ⟨g, rfl⟩, hst⟩ := hpc.asked rfl
    exact hf.answer h hnext heq rfl rfl rfl hst (.enqueFalse g) rfl
  | enqWon g i => exact hf.stay h hnext heq rfl rfl rfl hpc
  | enqCopy g i k => exact hf.enqCopy h hnext hpc heq
  | deqLoad c g tryCnt => exact hf.stay h hnext heq rfl rfl rfl hpc
  | deqTest c g tryCnt i =>
    obtain ⟨op, hop, hst⟩ := hpc.asked rfl
    exact hf.deqTest h hnext hop hst heq
  | deqCas c g tryCnt i =>
    obtain ⟨op, hop, hst⟩ := hpc.asked rfl
    exact hf.deqCas h hnext hop hst heq
  | deqFail c g =>
    obtain ⟨op, hop, hst⟩ := hpc.asked rfl
    exact hf.giveUp h hnext heq rfl rfl rfl hop hst
  | deqWon c g i =>
    refine hf.stay h hnext heq rfl rfl rfl ?_
    cases c <;> exact hpc
  | deqCopy c g i k => exact hf.deqCopy h hnext hp hpc heq
  | obsTail o => exact hf.stay h hnext heq rfl rfl rfl hpc
  | obsHead o tail =>
    obtain ⟨op, rfl, hst⟩ := hpc.asked rfl
    exact hf.answer h hnext heq rfl rfl rfl hst (does_obs o (s.hnd hd) tail s.shm.head) rfl
  | errLoad =>
    obtain ⟨op, rfl, hst⟩ := hpc.asked rfl
    exact hf.answer h hnext heq rfl rfl rfl hst (.errCnt (s.hnd hd).errs) rfl
  | ret c ans won =>
    cases c with
    | user =>
      obtain ⟨b, hb, hst⟩ : ∃ b, Pc.gives (promised π) (.ret .user ans won) = some b ∧
          a.thr p = .done b := by
        rcases hpc with hgives | ⟨op, hop, -⟩
        · exact hgives
        · cases hop
      obtain rfl := Option.some.inj hb
      exact hf.ret_user h hnext hp hst heq
    | clear =>
      obtain ⟨op, hop, hst⟩ := hpc.asked rfl
      cases ans with
      | deque ok g =>
        obtain ⟨buf, rfl⟩ := hop
        exact hf.ret_clear h hnext hp hst heq
      | _ => cases hop

end Advance

/-! ## Whole runs -/

/-- **The abstract queue follows the queue**, step by step. -/
theorem queue_simulation (w : ℤ) (weak : Bool) :
    System.Simulation (queue Tid Hid w weak) (object Tid (fifo (alignCapa w))) shown seen
      (fun _ => True) Follows where
  init := by
    rintro s rfl
    refine ⟨_, rfl, ?_, fun p => rfl⟩
    simp [window, State.start, make_shm, fifo]
  shorter _ _ _ := trivial
  next := by
    intro π s e t a h hf hnext _
    rcases next_cases hnext with ⟨p, hd, op, hp, rfl, rfl⟩ | ⟨p, hd, pc, sp, -, hp, heq⟩
    · have hidle : a.thr p = .idle := by
        have hthr := hf.thr p
        rwa [hp] at hthr
      obtain ⟨ρ, hρ, hvis⟩ := call_steps (S := fifo (alignCapa w)) op hidle
      refine ⟨ρ, _, hρ, hvis, hf.goto h hnext (hf.still hnext rfl rfl) ?_⟩
      rw [State.goto_thr_self]
      exact Or.inr ⟨op, asks_entry op, rfl⟩
    · exact hf.advance h hnext hp heq

/-- The abstract queue holds as many elements as the counters say. -/
theorem Follows.length (h : (queue Tid Hid w weak).Run π s) (hf : Follows π s a) :
    (a.val.length : ℤ) = s.shm.tail - s.shm.head := by
  have hle := (counters_nonneg h).2
  rw [hf.val, length_window]
  omega

/-- **The queue is an atomic object.** Any number of threads, any interleaving of their steps, any
number of laps: their calls and returns are those of a bounded FIFO that carries out each `enque`
and each `deque` at one instant between call and return, and takes out for `clear` one element at a
time. It then holds as many elements as the counters say. -/
theorem queue_atomic {s : State Tid Hid} {π : List (Event Tid Hid × State Tid Hid)}
    (hπ : (queue Tid Hid w weak).Steps (State.start Tid Hid w) π s) :
    ∃ a₀ ρ a, (object Tid (fifo (alignCapa w))).init a₀ ∧
      (object Tid (fifo (alignCapa w))).Steps a₀ ρ a ∧
      System.visible seen a₀ ρ = System.visible shown (State.start Tid Hid w) π ∧
      (a.val.length : ℤ) = s.shm.tail - s.shm.head := by
  obtain ⟨a₀, ρ, a, h₀, hρ, hvis, hf⟩ := (queue_simulation w weak).run rfl hπ trivial
  exact ⟨a₀, ρ, a, h₀, hρ, hvis, hf.length ⟨_, rfl, hπ⟩⟩

end Simulation

/-- Two threads, one of which gets the other's payload. -/
theorem queue_atomic_roundTrip :
    ∃ (π : List (Event (Fin 2) Unit × State (Fin 2) Unit)) (s : State (Fin 2) Unit),
      s.shm.tail = 1 ∧ ∃ a₀ ρ a, (object (Fin 2) (fifo (alignCapa 32))).init a₀ ∧
        (object (Fin 2) (fifo (alignCapa 32))).Steps a₀ ρ a ∧
        System.visible seen a₀ ρ = System.visible shown (State.start (Fin 2) Unit 32) π ∧
        (a.val.length : ℤ) = s.shm.tail - s.shm.head := by
  obtain ⟨π, s, ⟨s₀, rfl, hsteps⟩, htail⟩ :=
    exists_roundTrip 32 true (0 : Fin 2) 1 () () sample fun _ => 0
  exact ⟨_, s, htail, queue_atomic hsteps⟩

end ShmAtmRQ

end LeonUtils
