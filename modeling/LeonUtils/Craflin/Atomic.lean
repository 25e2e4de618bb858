import LeonUtils.Craflin.Refine
import LeonUtils.AtomicObject

/-!
# The queue inside one process is an atomic object

`Shm.Atomic` for `CraflinRQ_t`: where elements do not throw, the calls and returns of any number of
threads are those of a bounded FIFO that carries out each call at one instant.

A ticket is worth what the ledger says, and the FIFO holds what the outstanding tickets are worth. A
`deque` is done as soon as it has won its ticket, although the element has not been moved yet.

## Main definitions

* `fifo` — the bounded FIFO
* `shown` — calls and returns
* `Follows` — how far the abstract queue is

## Main results

* `queue_simulation` — the abstract queue follows the queue
* `craflin_atomic` — its calls and returns are those of an atomic bounded FIFO
-/

namespace LeonUtils

namespace CraflinRQ

open Transition TicketRing AtomicObject

variable {Tid T : Type}

/-! ## The abstract queue -/

/-- What one operation of a bounded queue may do at one instant. -/
inductive Does (capa : ℤ) : List T → Op T → Ans T → List T → Prop
  | enque {items : List T} (v : T) (hroom : items.length < capa) :
      Does capa items (.enque v) (.enque true) (items ++ [v])
  | enqueFalse {items : List T} (v : T) : Does capa items (.enque v) (.enque false) items
  | deque {items : List T} (v dest : T) :
      Does capa (v :: items) (.deque dest) (.deque true v) items
  | dequeFalse {items : List T} (dest : T) :
      Does capa items (.deque dest) (.deque false dest) items

/-- The bounded FIFO, empty at first. -/
def fifo (T : Type) (capa : ℤ) : Spec (List T) (Op T) (Ans T) :=
  ⟨[], Does capa, fun _ _ _ => False⟩

/-- What is seen of a step of the queue. -/
def shown (_ : State Tid T) (e : Event Tid T) : List (Tid × Seen (Op T) (Ans T)) :=
  match e.2 with
  | .call op => [(e.1, .call op)]
  | .ret a _ => [(e.1, .ret a)]
  | _ => []

/-! ## How far a call is -/

/-- How far the abstract call is when a thread is at this position. -/
def PcFollows (L : Ledger T) : Pc T → Status (Op T) (Ans T) → Prop
  | .enqLoad v, st | .enqTest v _, st | .enqCas v _, st => st = .pending (.enque v)
  | .enqBuild _ _, st | .enqStore _ _, st => st = .done (.enque true)
  | .deqLoad d, st | .deqTest d _, st | .deqCas d _, st => st = .pending (.deque d)
  | .deqMove _ i, st => ∃ v, L.val i = some v ∧ st = .done (.deque true v)
  | .deqKill d _, st | .deqStore d _, st => st = .done (.deque true d)
  | .ret a _, st => st = .done a

/-- The same for a thread that may be idle. -/
def ThreadFollows (L : Ledger T) : Option (Pc T) → Status (Op T) (Ans T) → Prop
  | none, st => st = .idle
  | some pc, st => PcFollows L pc st

/-- How far the abstract queue is after a run. -/
structure Follows (π : List (Event Tid T × State Tid T)) (s : State Tid T)
    (a : AtomicObject.State Tid (List T) (Op T) (Ans T)) : Prop where
  val : a.val.map some = window (ledger π).val s.mem.head s.mem.tail
  thr : ∀ p, ThreadFollows (ledger π) (s.thr p) (a.thr p)

/-! ## One step -/

section Simulation

variable [DecidableEq Tid] {sizeofNode capa : ℕ} {weak : Bool} {s t : State Tid T}
  {e : Event Tid T} {π : List (Event Tid T × State Tid T)}
  {a : AtomicObject.State Tid (List T) (Op T) (Ans T)}

/-- A step leaves alone what the tickets below `_tail` are worth. -/
theorem note_val_of_lt (hnext : (queue Tid T sizeofNode capa weak false).next s e t) (L : Ledger T)
    {i : ℤ} (hi : i < s.mem.tail) : (L.note e.2).val i = L.val i := by
  rcases next_cases hnext with ⟨p, op, -, rfl, -⟩ | ⟨p, pc, l, -, -, heq⟩
  · rfl
  · obtain ⟨rfl, -⟩ := Prod.mk.inj heq
    cases pc with
    | enqCas v k =>
      simp only [act]
      split
      · rename_i hwin
        obtain rfl := hwin.1
        exact Function.update_of_ne hi.ne _ _
      · rfl
    | _ =>
      simp only [act]
      first | rfl | (split <;> rfl)

/-- A thread that makes no step is followed as before. -/
theorem ThreadFollows.keep (hg : Good (capaOf sizeofNode capa) (ledger π) s)
    (hnext : (queue Tid T sizeofNode capa weak false).next s e t) {q : Tid}
    {st : Status (Op T) (Ans T)} (hq : ThreadFollows (ledger π) (s.thr q) st) :
    ThreadFollows (ledger (π ++ [(e, t)])) (s.thr q) st := by
  cases hthr : s.thr q with
  | none => rwa [hthr] at hq
  | some pc =>
    rw [hthr] at hq
    cases pc with
    | deqMove d i =>
      obtain ⟨-, hhead, -⟩ := hg.ring.role_ok (ringOf_role hthr)
      have hi : i < s.mem.tail := lt_of_lt_of_le hhead hg.ring.head_le
      obtain ⟨v, hv, hst⟩ := hq
      refine ⟨v, ?_, hst⟩
      rw [ledger_snoc, note_val_of_lt hnext _ hi, hv]
    | _ => exact hq

/-- What is to be shown of a step of the queue. -/
def Followed (sizeofNode capa : ℕ) (π : List (Event Tid T × State Tid T)) (s : State Tid T)
    (e : Event Tid T) (t : State Tid T) (a : AtomicObject.State Tid (List T) (Op T) (Ans T)) :
    Prop :=
  ∃ ρ b, (object Tid (fifo T (capaOf sizeofNode capa))).Steps a ρ b ∧
    System.visible seen a ρ = shown s e ∧ Follows (π ++ [(e, t)]) t b

/-- Only the thread of a step moves. -/
theorem Follows.goto (hg : Good (capaOf sizeofNode capa) (ledger π) s) (hf : Follows π s a)
    (hnext : (queue Tid T sizeofNode capa weak false).next s e t) {items : List T}
    {st : Status (Op T) (Ans T)}
    (hval : items.map some = window (ledger (π ++ [(e, t)])).val t.mem.head t.mem.tail)
    (hthr : ThreadFollows (ledger (π ++ [(e, t)])) (t.thr e.1) st) :
    Follows (π ++ [(e, t)]) t (a.goto e.1 items st) where
  val := hval
  thr q := by
    by_cases hq : q = e.1
    · subst hq
      rwa [AtomicObject.State.goto_thr_self]
    · rw [AtomicObject.State.goto_thr_of_ne _ _ _ hq, thr_of_ne hnext hq]
      exact (hf.thr q).keep hg hnext

/-- A step that moves no counter leaves the contents alone. -/
theorem Follows.still (hf : Follows π s a)
    (hnext : (queue Tid T sizeofNode capa weak false).next s e t)
    (hhead : t.mem.head = s.mem.head) (htail : t.mem.tail = s.mem.tail) :
    a.val.map some = window (ledger (π ++ [(e, t)])).val t.mem.head t.mem.tail := by
  rw [hhead, htail, hf.val, ledger_snoc]
  exact (window_congr fun i hi => note_val_of_lt hnext _ hi).symm

/-- The abstract queue waits. -/
theorem Follows.wait (hg : Good (capaOf sizeofNode capa) (ledger π) s) (hf : Follows π s a)
    (hnext : (queue Tid T sizeofNode capa weak false).next s e t)
    (hhead : t.mem.head = s.mem.head) (htail : t.mem.tail = s.mem.tail) (hshown : shown s e = [])
    (hthr : ThreadFollows (ledger (π ++ [(e, t)])) (t.thr e.1) (a.thr e.1)) :
    Followed sizeofNode capa π s e t a := by
  have hgoto := hf.goto hg hnext (hf.still hnext hhead htail) hthr
  rw [AtomicObject.State.goto_self] at hgoto
  exact ⟨[], a, .refl, hshown.symm, hgoto⟩

/-- The abstract queue carries out an operation. -/
theorem Follows.commit (hg : Good (capaOf sizeofNode capa) (ledger π) s) (hf : Follows π s a)
    (hnext : (queue Tid T sizeofNode capa weak false).next s e t) {op : Op T} {ans : Ans T}
    {items : List T} (hp : a.thr e.1 = .pending op)
    (hdoes : Does (capaOf sizeofNode capa) a.val op ans items) (hshown : shown s e = [])
    (hval : items.map some = window (ledger (π ++ [(e, t)])).val t.mem.head t.mem.tail)
    (hthr : ThreadFollows (ledger (π ++ [(e, t)])) (t.thr e.1) (.done ans)) :
    Followed sizeofNode capa π s e t a := by
  obtain ⟨ρ, hρ, hvis⟩ := commit_steps (S := fifo T (capaOf sizeofNode capa)) hp hdoes
  exact ⟨ρ, _, hρ, hvis.trans hshown.symm, hf.goto hg hnext hval hthr⟩

/-- An `enque` that wins its ticket. -/
theorem Follows.give (hg : Good (capaOf sizeofNode capa) (ledger π) s)
    (hg' : Good (capaOf sizeofNode capa) (ledger (π ++ [(e, t)])) t) (hf : Follows π s a)
    (hnext : (queue Tid T sizeofNode capa weak false).next s e t) {v : T}
    (he : e.2 = .enqWin s.mem.tail v) (hst : a.thr e.1 = .pending (.enque v))
    (hthr : t.thr e.1 = some (.enqBuild v s.mem.tail)) (hhead : t.mem.head = s.mem.head)
    (htail : t.mem.tail = s.mem.tail + 1) : Followed sizeofNode capa π s e t a := by
  have hle : s.mem.head ≤ s.mem.tail := hg.ring.head_le
  have hroom : t.mem.tail - t.mem.head ≤ capaOf sizeofNode capa := hg'.ring.tail_sub_head.2
  have hnew : (ledger (π ++ [(e, t)])).val s.mem.tail = some v := by
    rw [ledger_snoc, he]
    exact Function.update_self _ _ _
  have hold : ∀ i, i < s.mem.tail → (ledger (π ++ [(e, t)])).val i = (ledger π).val i := by
    intro i hi
    rw [ledger_snoc]
    exact note_val_of_lt hnext _ hi
  have hlen : a.val.length = (s.mem.tail - s.mem.head).toNat := by
    rw [← length_window, ← hf.val, List.length_map]
  refine hf.commit hg hnext hst (.enque v ?_) (by rw [shown, he]) ?_ ?_
  · rw [hlen]
    omega
  · rw [hhead, htail, window_snoc hle hold hnew, List.map_append, hf.val, List.map_singleton]
  · rw [hthr]
    rfl

/-- A `deque` that wins its ticket. -/
theorem Follows.take (hg : Good (capaOf sizeofNode capa) (ledger π) s)
    (hg' : Good (capaOf sizeofNode capa) (ledger (π ++ [(e, t)])) t) (hf : Follows π s a)
    (hnext : (queue Tid T sizeofNode capa weak false).next s e t) {d : T}
    (he : e.2 = .deqWin s.mem.head) (hst : a.thr e.1 = .pending (.deque d))
    (hthr : t.thr e.1 = some (.deqMove d s.mem.head)) (hhead : t.mem.head = s.mem.head + 1)
    (htail : t.mem.tail = s.mem.tail) : Followed sizeofNode capa π s e t a := by
  have hlt : t.mem.head ≤ t.mem.tail := hg'.ring.head_le
  have h0 : 0 ≤ s.mem.head := hg.ring.head_nonneg
  have hledger : ledger (π ++ [(e, t)]) = ledger π := by
    rw [ledger_snoc, he]
    rfl
  obtain ⟨v, hv⟩ := hg.val s.mem.head h0 (by omega)
  have hwindow := hf.val
  rw [window_cons (by omega), hv] at hwindow
  obtain ⟨x, items, hval, hx, hitems⟩ := List.map_eq_cons_iff.mp hwindow
  obtain rfl := Option.some.inj hx
  have hdoes : Does (capaOf sizeofNode capa) (x :: items) (.deque d) (.deque true x) items :=
    .deque x d
  rw [← hval] at hdoes
  refine hf.commit hg hnext hst hdoes (by rw [shown, he]) ?_ ?_
  · rw [hitems, hledger, hhead, htail]
  · rw [hthr, hledger]
    exact ⟨x, hv, rfl⟩

/-! ## The code of one thread -/

section Advance

variable (hg : Good (capaOf sizeofNode capa) (ledger π) s)
  (hg' : Good (capaOf sizeofNode capa) (ledger (π ++ [(e, t)])) t)
  (hroom : s.mem.head + s.mem.tail + (e.2.wins : ℤ) < 2 ^ 64) (hf : Follows π s a)
  (hnext : (queue Tid T sizeofNode capa weak false).next s e t) {p : Tid} {l : Luck}

include hg hf hnext

/-- The thread goes on, nothing is seen of it, and the abstract queue waits. -/
theorem Follows.stay {c : Act T} {m : Mem T} {pc : Pc T}
    (heq : (e, t) = ((p, c), s.goto p m (some pc))) (hhead : m.head = s.mem.head)
    (htail : m.tail = s.mem.tail) (hshown : shown s (p, c) = [])
    (hkeep : (ledger π).note c = ledger π) (hpc : PcFollows (ledger π) pc (a.thr p)) :
    Followed sizeofNode capa π s e t a := by
  obtain ⟨rfl, rfl⟩ := Prod.mk.inj heq
  refine hf.wait hg hnext hhead htail hshown ?_
  rw [State.goto_thr_self, ledger_snoc, hkeep]
  exact hpc

/-- The test has failed, and so does the abstract call. -/
theorem Follows.fail {c : Act T} {op : Op T} {ans : Ans T} {won : Option ℤ}
    (heq : (e, t) = ((p, c), s.goto p s.mem (some (.ret ans won)))) (hshown : shown s (p, c) = [])
    (hst : a.thr p = .pending op) (hdoes : Does (capaOf sizeofNode capa) a.val op ans a.val) :
    Followed sizeofNode capa π s e t a := by
  obtain ⟨rfl, rfl⟩ := Prod.mk.inj heq
  refine hf.commit hg hnext hst hdoes hshown (hf.still hnext rfl rfl) ?_
  rw [State.goto_thr_self]
  rfl

theorem Follows.enqTest {v : T} {i : ℤ} (hst : a.thr p = .pending (.enque v))
    (heq : (e, t) = s.advance p (.enqTest v i) l) : Followed sizeofNode capa π s e t a := by
  simp only [State.advance, act] at heq
  split at heq
  · exact hf.fail hg hnext heq rfl hst (.enqueFalse v)
  · exact hf.stay hg hnext heq rfl rfl rfl rfl hst

theorem Follows.deqTest {d : T} {i : ℤ} (hst : a.thr p = .pending (.deque d))
    (heq : (e, t) = s.advance p (.deqTest d i) l) : Followed sizeofNode capa π s e t a := by
  simp only [State.advance, act] at heq
  split at heq
  · exact hf.fail hg hnext heq rfl hst (.dequeFalse d)
  · exact hf.stay hg hnext heq rfl rfl rfl rfl hst

/-- What is moved out of the node is the ticket's element. -/
theorem Follows.deqMove {d : T} {i : ℤ} (hl : l.throws = false)
    (hp : s.thr p = some (.deqMove d i)) (hpc : PcFollows (ledger π) (.deqMove d i) (a.thr p))
    (heq : (e, t) = s.advance p (.deqMove d i) l) : Followed sizeofNode capa π s e t a := by
  obtain ⟨v, hv, hst⟩ := hpc
  have hdata : (s.mem.base (s.mem.at i)).data = some ⟨i, v, false⟩ := by
    rw [hg.index, ← (ledger π).obj_of_val hv]
    exact hg.pc p _ hp
  simp only [State.advance, act, hl, hdata, Bool.false_eq_true, if_false] at heq
  exact hf.stay hg hnext heq rfl rfl rfl rfl hst

include hg' hroom

theorem Follows.enqCas {v : T} {i : ℤ} (hst : a.thr p = .pending (.enque v))
    (heq : (e, t) = s.advance p (.enqCas v i) l) : Followed sizeofNode capa π s e t a := by
  have h0 : 0 ≤ s.mem.head := hg.ring.head_nonneg
  have hle : s.mem.head ≤ s.mem.tail := hg.ring.head_le
  simp only [State.advance, act] at heq
  split at heq
  · rename_i hwin
    obtain ⟨rfl, rfl⟩ := Prod.mk.inj heq
    obtain rfl := hwin.1
    have hroom' : s.mem.head + s.mem.tail + 1 < 2 ^ 64 := hroom
    exact hf.give hg hg' hnext rfl hst (State.goto_thr_self _ _ _ _) rfl
      (wrap_of_lt (by omega) (by omega))
  · exact hf.stay hg hnext heq rfl rfl rfl rfl hst

theorem Follows.deqCas {d : T} {i : ℤ} (hst : a.thr p = .pending (.deque d))
    (heq : (e, t) = s.advance p (.deqCas d i) l) : Followed sizeofNode capa π s e t a := by
  have h0 : 0 ≤ s.mem.head := hg.ring.head_nonneg
  have hle : s.mem.head ≤ s.mem.tail := hg.ring.head_le
  simp only [State.advance, act] at heq
  split at heq
  · rename_i hwin
    obtain ⟨rfl, rfl⟩ := Prod.mk.inj heq
    obtain rfl := hwin.1
    have hroom' : s.mem.head + s.mem.tail + 1 < 2 ^ 64 := hroom
    exact hf.take hg hg' hnext rfl hst (State.goto_thr_self _ _ _ _)
      (wrap_of_lt (by omega) (by omega)) rfl
  · exact hf.stay hg hnext heq rfl rfl rfl rfl hst

/-- A step of a call, by its position. -/
theorem Follows.advance {pc : Pc T} (hl : l.throws = false) (hp : s.thr p = some pc)
    (heq : (e, t) = s.advance p pc l) : Followed sizeofNode capa π s e t a := by
  have hpc : PcFollows (ledger π) pc (a.thr p) := by
    have hthr := hf.thr p
    rwa [hp] at hthr
  cases pc with
  | enqLoad v => exact hf.stay hg hnext heq rfl rfl rfl rfl hpc
  | enqTest v i => exact hf.enqTest hg hnext hpc heq
  | enqCas v i => exact hf.enqCas hg hg' hroom hnext hpc heq
  | enqBuild v i =>
    simp only [State.advance, act, hl, Bool.false_eq_true, if_false] at heq
    exact hf.stay hg hnext heq rfl rfl rfl rfl hpc
  | enqStore v i => exact hf.stay hg hnext heq rfl rfl rfl rfl hpc
  | deqLoad d => exact hf.stay hg hnext heq rfl rfl rfl rfl hpc
  | deqTest d i => exact hf.deqTest hg hnext hpc heq
  | deqCas d i => exact hf.deqCas hg hg' hroom hnext hpc heq
  | deqMove d i => exact hf.deqMove hg hnext hl hp hpc heq
  | deqKill d i => exact hf.stay hg hnext heq rfl rfl rfl rfl hpc
  | deqStore d i => exact hf.stay hg hnext heq rfl rfl rfl rfl hpc
  | ret ans won =>
    obtain ⟨rfl, rfl⟩ := Prod.mk.inj heq
    obtain ⟨ρ, hρ, hvis⟩ := ret_steps (S := fifo T (capaOf sizeofNode capa)) hpc
    refine ⟨ρ, _, hρ, hvis, hf.goto hg hnext (hf.still hnext rfl rfl) ?_⟩
    rw [State.goto_thr_self]
    rfl

end Advance

/-! ## Whole runs -/

/-- **The abstract queue follows the queue**, as long as no counter reaches its limit. -/
theorem queue_simulation (sizeofNode capa : ℕ) (weak : Bool) :
    System.Simulation (queue Tid T sizeofNode capa weak false)
      (object Tid (fifo T (capaOf sizeofNode capa))) shown seen
      (fun π => wins (System.events π) < 2 ^ 64) Follows where
  init := by
    rintro s rfl
    refine ⟨_, rfl, ?_, fun p => rfl⟩
    simp [window, State.start, construct_eq, fifo]
  shorter := by
    intro π x hwins
    obtain ⟨e, t⟩ := x
    rw [System.events_append, System.events_singleton, wins_snoc] at hwins
    omega
  next := by
    intro π s e t a h hf hnext hwins
    obtain ⟨hg', -⟩ := good_of_run (h.snoc hnext) hwins
    rw [System.events_append, System.events_singleton, wins_snoc] at hwins
    obtain ⟨hg, hcount⟩ := good_of_run h (by omega)
    rcases next_cases hnext with ⟨p, op, hp, rfl, rfl⟩ | ⟨p, pc, l, hl, hp, heq⟩
    · have hidle : a.thr p = .idle := by
        have hthr := hf.thr p
        rwa [hp] at hthr
      obtain ⟨ρ, hρ, hvis⟩ := call_steps (S := fifo T (capaOf sizeofNode capa)) op hidle
      refine ⟨ρ, _, hρ, hvis, hf.goto hg hnext (hf.still hnext rfl rfl) ?_⟩
      rw [State.goto_thr_self]
      cases op <;> rfl
    · have hroom : s.mem.head + s.mem.tail + (e.2.wins : ℤ) < 2 ^ 64 := by
        rw [hcount]
        exact_mod_cast hwins
      have hthrows : l.throws = false := by simpa using hl.2
      exact hf.advance hg hg' hroom hnext hthrows hp heq

/-- **The queue is an atomic object.** Any number of threads, any interleaving of their steps, any
element type whose operations do not throw, fewer than `2 ^ 64` calls: the calls and returns are
those of a bounded FIFO that carries out each call at one instant between call and return. It then
holds as many elements as the counters say. -/
theorem craflin_atomic {s : State Tid T} {π : List (Event Tid T × State Tid T)}
    (hπ : (queue Tid T sizeofNode capa weak false).Steps (State.start Tid T sizeofNode capa) π s)
    (hcalls : calls (System.events π) < 2 ^ 64) :
    ∃ a₀ ρ a, (object Tid (fifo T (capaOf sizeofNode capa))).init a₀ ∧
      (object Tid (fifo T (capaOf sizeofNode capa))).Steps a₀ ρ a ∧
      System.visible seen a₀ ρ = System.visible shown (State.start Tid T sizeofNode capa) π ∧
      (a.val.length : ℤ) = s.mem.tail - s.mem.head := by
  have hrun : (queue Tid T sizeofNode capa weak false).Run π s := ⟨_, rfl, hπ⟩
  have hwins := (wins_le_calls hrun).trans_lt hcalls
  obtain ⟨a₀, ρ, a, h₀, hρ, hvis, hf⟩ := (queue_simulation sizeofNode capa weak).run rfl hπ hwins
  refine ⟨a₀, ρ, a, h₀, hρ, hvis, ?_⟩
  have hle : s.mem.head ≤ s.mem.tail := (good_of_run hrun hwins).1.ring.head_le
  have hlen : a.val.length = (s.mem.tail - s.mem.head).toNat := by
    rw [← length_window, ← hf.val, List.length_map]
  omega

end Simulation

/-- One thread puts an element in, and the other one takes it out. -/
def passOver : List (Sched Bool ℕ) := wholeEnque false 7 ++ wholeDeque true 0

theorem craflin_atomic_passOver : ∃ a₀ ρ a, (object Bool (fifo ℕ (capaOf 192 4))).init a₀ ∧
    (object Bool (fifo ℕ (capaOf 192 4))).Steps a₀ ρ a ∧
    System.visible seen a₀ ρ = System.visible shown (State.start Bool ℕ 192 4)
      (System.trace State.step (State.start Bool ℕ 192 4) passOver) ∧
    (a.val.length : ℤ) = 0 := by
  have hsteps := steps_trace 192 4 false false (State.start Bool ℕ 192 4) passOver (by decide)
  obtain ⟨a₀, ρ, a, h₀, hρ, hvis, hlen⟩ := craflin_atomic hsteps (by decide +kernel)
  exact ⟨a₀, ρ, a, h₀, hρ, hvis, hlen.trans (by decide +kernel)⟩

end CraflinRQ

end LeonUtils
