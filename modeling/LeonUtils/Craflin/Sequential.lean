import LeonUtils.Craflin.Refine
import LeonUtils.Shm.Sequential

/-!
# One call after the other

Without overlap, `CraflinRQ_t` is a bounded queue, and so is `ShmAtmRQ_t` (`Shm.Sequential`). The
two classes use different initial tags, different loops and different integers, and still give the
same answers wherever they have the same capacity.

## Limits

Both counters of `ShmAtmRQ_t` are `int64_t`, and both of `CraflinRQ_t` are `size_t`. Each successful
call moves one of them by one and a call that fails moves none, so the condition under which no
counter reaches its limit is one on the answers.

## Main definitions

* `fifoCall`, `fifoCalls` — the bounded queue
* `Holds` — memory between calls, and what the queue holds
* `State.perform`, `State.performAll` — calls one after the other

## Main results

* `Holds.call` — a call run alone gives the answer of the bounded queue
* `Holds.calls` — any number of calls
* `same_answers` — `CraflinRQ_t` and `ShmAtmRQ_t` agree
-/

namespace LeonUtils

namespace CraflinRQ

open Transition TicketRing
open ShmAtmRQ (Goods)

variable {Tid T : Type}

/-! ## The bounded queue -/

/-- What a bounded queue of capacity `capa` answers to a call, and what it holds then. -/
def fifoCall (capa : ℤ) (items : List T) : Op T → Ans T × List T
  | .enque v =>
    if items.length < capa then (.enque true, items ++ [v]) else (.enque false, items)
  | .deque dest =>
    match items with
    | [] => (.deque false dest, [])
    | v :: rest => (.deque true v, rest)

/-- The answers to calls one after the other. -/
def fifoCalls (capa : ℤ) (items : List T) : List (Op T) → List (Ans T)
  | [] => []
  | op :: ops =>
    (fifoCall capa items op).1 :: fifoCalls capa (fifoCall capa items op).2 ops

/-- A call succeeded. -/
def Ans.ok : Ans T → Bool
  | .enque ok | .deque ok _ => ok

/-- A call put an element in. -/
def Ans.stores : Ans T → Bool
  | .enque ok => ok
  | .deque _ _ => false

/-- The successful calls among some answers. -/
def successes (as : List (Ans T)) : ℕ := as.countP Ans.ok

/-- The elements put in, going by the answers. -/
def stored (as : List (Ans T)) : ℕ := as.countP Ans.stores

/-- A bounded queue answers every call. -/
theorem length_fifoCalls (capa : ℤ) (items : List T) (ops : List (Op T)) :
    (fifoCalls capa items ops).length = ops.length := by
  induction ops generalizing items with
  | nil => rfl
  | cons op ops ih => rw [fifoCalls, List.length_cons, List.length_cons, ih]

/-! ## Between calls -/

/-- Memory between calls, when the queue holds `items`. -/
structure Holds (n : ℤ) (m : Mem T) (items : List T) : Prop where
  index : ∀ i, m.at i = i % n
  capa : m.capa = n
  pos : 0 < n
  head : 0 ≤ m.head
  tail : m.tail = m.head + items.length
  le : items.length ≤ n
  item : ∀ (k : ℕ) v, items[k]? = some v →
    m.base ((m.head + k) % n) = ⟨m.head + k, some ⟨m.head + k, v, false⟩, m.head + k⟩
  free : ∀ i, m.tail ≤ i → i < m.head + n →
    (m.base (i % n)).tail = i ∧ (m.base (i % n)).head ≠ i

variable {n : ℤ} {m : Mem T} {items : List T} {s : State Tid T} {p : Tid}

theorem holds_start (sizeofNode capa : ℕ) :
    Holds (capaOf sizeofNode capa) (construct T sizeofNode capa) [] where
  index i := by simp [construct_eq, Mem.at, land_mask]
  capa := by simp [construct_eq]
  pos := capaOf_pos _ _
  head := by simp [construct_eq]
  tail := by simp [construct_eq]
  le := by simpa using (capaOf_pos _ _).le
  item k v hv := by simp at hv
  free i h0 hi := by
    have hbound := (capaOf_bounds sizeofNode capa).2
    simp only [construct_eq] at h0 hi ⊢
    have hmod : i % capaOf sizeofNode capa = i := Int.emod_eq_of_lt h0 (by omega)
    simp only [hmod, h0, show i < capaOf sizeofNode capa by omega, and_self, if_true, true_and]
    omega

/-- Memory after a successful `enque`. -/
def Mem.enqued (m : Mem T) (v : T) : Mem T :=
  { m.setNode (m.at m.tail) ⟨m.tail, some ⟨m.tail, v, false⟩, (m.base (m.at m.tail)).tail⟩ with
    tail := m.tail + 1 }

/-- Memory after a successful `deque`. -/
def Mem.dequed (m : Mem T) : Mem T :=
  { m.setNode (m.at m.head) ⟨(m.base (m.at m.head)).head, none, m.head + m.capa⟩ with
    head := m.head + 1 }

/-- A successful `enque` appends, where there is room. -/
theorem Holds.enqued (hm : Holds n m items) (v : T) (hroom : items.length < n) :
    Holds n (m.enqued v) (items ++ [v]) where
  index := hm.index
  capa := hm.capa
  pos := hm.pos
  head := hm.head
  tail := by
    have := hm.tail
    simp only [Mem.enqued, Mem.setNode, List.length_append, List.length_singleton]
    push_cast
    omega
  le := by
    simp only [List.length_append, List.length_singleton]
    push_cast
    omega
  item k x hx := by
    have htail := hm.tail
    simp only [Mem.enqued, Mem.setNode, hm.index]
    rcases getElem?_snoc hx with ⟨hk, hx⟩ | ⟨hk', rfl⟩
    · -- a ticket already there is less than a lap away
      have hne : (m.head + k) % n ≠ m.tail % n := emod_ne_emod (by omega) (by omega)
      rw [Function.update_of_ne hne]
      exact hm.item k x hx
    · have hticket : m.head + k = m.tail := by rw [hk', htail]
      rw [hticket, Function.update_self, (hm.free m.tail le_rfl (by omega)).1]
  free i hi hlt := by
    simp only [Mem.enqued, Mem.setNode, hm.index] at hi hlt ⊢
    have htail := hm.tail
    have hne : i % n ≠ m.tail % n := (emod_ne_emod (by omega) (by omega)).symm
    rw [Function.update_of_ne hne]
    exact hm.free i (by omega) hlt

/-- A successful `deque` removes the oldest element. -/
theorem Holds.dequed {v : T} {rest : List T} (hm : Holds n m (v :: rest)) :
    Holds n m.dequed rest where
  index := hm.index
  capa := hm.capa
  pos := hm.pos
  head := by
    have := hm.head
    simp only [Mem.dequed]
    omega
  tail := by
    have := hm.tail
    simp only [Mem.dequed, Mem.setNode, List.length_cons] at this ⊢
    push_cast at this
    omega
  le := by
    have := hm.le
    simp only [List.length_cons] at this
    push_cast at this
    omega
  item k x hx := by
    have hle := hm.le
    have hk : k < rest.length := (List.getElem?_eq_some_iff.mp hx).1
    simp only [List.length_cons] at hle
    push_cast at hle
    have hticket : m.head + 1 + (k : ℤ) = m.head + ((k + 1 : ℕ) : ℤ) := by
      push_cast
      omega
    have hne : (m.head + ((k + 1 : ℕ) : ℤ)) % n ≠ m.head % n :=
      (emod_ne_emod (by push_cast; omega) (by push_cast; omega)).symm
    simp only [Mem.dequed, Mem.setNode, hm.index]
    rw [hticket, Function.update_of_ne hne]
    exact hm.item (k + 1) x (by simpa using hx)
  free i hi hlt := by
    have htail := hm.tail
    have hpos := hm.pos
    simp only [Mem.dequed, Mem.setNode, List.length_cons, hm.index, hm.capa] at hi hlt htail ⊢
    push_cast at htail
    by_cases hlast : i = m.head + n
    · subst hlast
      have hitem := hm.item 0 v rfl
      simp only [Nat.cast_zero, add_zero] at hitem
      rw [Int.add_emod_right, Function.update_self, hitem]
      exact ⟨rfl, by simp only; omega⟩
    · have hne : i % n ≠ m.head % n := (emod_ne_emod (by omega) (by omega)).symm
      rw [Function.update_of_ne hne]
      exact hm.free i (by omega) (by omega)

/-! ## A call alone -/

/-- The answer that a thread gets in a step. -/
def answer : Event Tid T → Option (Ans T)
  | (_, .ret a _) => some a
  | _ => none

variable [DecidableEq Tid]

/-- One call of thread `p`, run alone for at most `fuel` steps. -/
def State.perform (s : State Tid T) (fuel : ℕ) (p : Tid) (op : Op T) :
    Option (Ans T × State Tid T) :=
  match s.step (.call p op) with
  | none => none
  | some (_, t) => System.runOn State.step answer (.run p calm) t fuel

/-- Calls one after the other, each run alone for at most `fuel` steps. -/
def State.performAll (s : State Tid T) (fuel : ℕ) :
    List (Tid × Op T) → Option (List (Ans T) × State Tid T)
  | [] => some ([], s)
  | (p, op) :: cs =>
    match s.perform fuel p op with
    | none => none
    | some (a, t) =>
      match t.performAll fuel cs with
      | none => none
      | some (as, u) => some (a :: as, u)

theorem goto_goto (m m' : Mem T) (x y : Option (Pc T)) :
    (s.goto p m x).goto p m' y = s.goto p m' y := by
  simp [State.goto]

/-- The next step of a thread running alone. -/
theorem alone_next {m' : Mem T} {pc pc' : Pc T} {a : Act T}
    (hact : act m calm pc = (a, m', some pc')) (ha : answer (p, a) = none) (k : ℕ) :
    System.runOn State.step answer (.run p calm) (s.goto p m (some pc)) (k + 1) =
      System.runOn State.step answer (.run p calm) (s.goto p m' (some pc')) k := by
  refine System.runOn_next (e := (p, a)) ?_ ha k
  simp [State.step, State.advance, hact, goto_goto]

/-- The last step of a call. -/
theorem alone_ret (a : Ans T) (won : Option ℤ) (k : ℕ) :
    System.runOn State.step answer (.run p calm) (s.goto p m (some (.ret a won))) (k + 1) =
      some (a, s.goto p m none) := by
  have hstep : (s.goto p m (some (.ret a won))).step (.run p calm) =
      some ((p, .ret a won), s.goto p m none) := by
    simp [State.step, State.advance, act, goto_goto]
  exact System.runOn_answer hstep (show answer (p, Act.ret a won) = some a from rfl) k

/-- An `enque` that finds its node released. -/
theorem perform_enque (hidle : ∀ q, s.thr q = none) (v : T) (h0 : 0 ≤ s.mem.tail)
    (hlt : s.mem.tail + 1 < 2 ^ 64)
    (hfree : (s.mem.base (s.mem.at s.mem.tail)).tail = s.mem.tail) (k : ℕ) :
    s.perform (k + 6) p (.enque v) = some (.enque true, ⟨s.mem.enqued v, s.thr⟩) := by
  have hnone : ∀ m : Mem T, s.goto p m none = ⟨m, s.thr⟩ := by
    intro m
    simp [State.goto, ← hidle p]
  simp only [State.perform, State.step, hidle p, Op.entry]
  rw [alone_next (show act s.mem calm (.enqLoad v) = _ from rfl) rfl,
    alone_next (show act s.mem calm (.enqTest v s.mem.tail) = _ from if_neg (not_not.mpr hfree))
      rfl,
    alone_next (show act s.mem calm (.enqCas v s.mem.tail) = _ from if_pos ⟨rfl, rfl⟩) rfl,
    alone_next (show act _ calm (.enqBuild v s.mem.tail) = _ from rfl) rfl,
    alone_next (show act _ calm (.enqStore v s.mem.tail) = _ from rfl) rfl, alone_ret, hnone]
  rw [wrap_of_lt (by omega) hlt]
  simp [Mem.enqued, Mem.setNode, Mem.at, Function.update_idem]

/-- An `enque` that does not. -/
theorem perform_enque_full (hidle : ∀ q, s.thr q = none) (v : T)
    (hbusy : (s.mem.base (s.mem.at s.mem.tail)).tail ≠ s.mem.tail) (k : ℕ) :
    s.perform (k + 6) p (.enque v) = some (.enque false, s) := by
  have hnone : s.goto p s.mem none = s := by simp [State.goto, ← hidle p]
  simp only [State.perform, State.step, hidle p, Op.entry]
  rw [alone_next (show act s.mem calm (.enqLoad v) = _ from rfl) rfl,
    alone_next (show act s.mem calm (.enqTest v s.mem.tail) = _ from if_pos hbusy) rfl, alone_ret,
    hnone]

/-- A `deque` that finds its node published. -/
theorem perform_deque (hidle : ∀ q, s.thr q = none) (dest : T) {v : T} {i : ℤ}
    (h0 : 0 ≤ s.mem.head) (hlt : s.mem.head + 1 < 2 ^ 64)
    (hcapa : 0 ≤ s.mem.capa ∧ s.mem.head + s.mem.capa < 2 ^ 64)
    (hpub : (s.mem.base (s.mem.at s.mem.head)).head = s.mem.head)
    (hdata : (s.mem.base (s.mem.at s.mem.head)).data = some ⟨i, v, false⟩) (k : ℕ) :
    s.perform (k + 7) p (.deque dest) = some (.deque true v, ⟨s.mem.dequed, s.thr⟩) := by
  have hnone : ∀ m : Mem T, s.goto p m none = ⟨m, s.thr⟩ := by
    intro m
    simp [State.goto, ← hidle p]
  simp only [State.perform, State.step, hidle p, Op.entry]
  rw [alone_next (show act s.mem calm (.deqLoad dest) = _ from rfl) rfl,
    alone_next (show act s.mem calm (.deqTest dest s.mem.head) = _ from if_neg (not_not.mpr hpub))
      rfl,
    alone_next (show act s.mem calm (.deqCas dest s.mem.head) = _ from if_pos ⟨rfl, rfl⟩) rfl,
    alone_next (show act _ calm (.deqMove dest s.mem.head) = _ from rfl) rfl,
    alone_next (show act _ calm (.deqKill _ s.mem.head) = _ from rfl) rfl,
    alone_next (show act _ calm (.deqStore _ s.mem.head) = _ from rfl) rfl, alone_ret, hnone]
  rw [wrap_of_lt (by omega) hlt]
  have hwrap : wrap (s.mem.head + s.mem.capa) = s.mem.head + s.mem.capa :=
    wrap_of_lt (by omega) hcapa.2
  simp only [Mem.at, Mem.setNode] at hdata hwrap ⊢
  simp [Mem.dequed, Mem.setNode, Mem.at, hdata, hwrap, Function.update_idem]

/-- A `deque` that does not. -/
theorem perform_deque_empty (hidle : ∀ q, s.thr q = none) (dest : T)
    (hempty : (s.mem.base (s.mem.at s.mem.head)).head ≠ s.mem.head) (k : ℕ) :
    s.perform (k + 7) p (.deque dest) = some (.deque false dest, s) := by
  have hnone : s.goto p s.mem none = s := by simp [State.goto, ← hidle p]
  simp only [State.perform, State.step, hidle p, Op.entry]
  rw [alone_next (show act s.mem calm (.deqLoad dest) = _ from rfl) rfl,
    alone_next (show act s.mem calm (.deqTest dest s.mem.head) = _ from if_pos hempty) rfl,
    alone_ret, hnone]

/-- **A call run alone gives the answer of the bounded queue**, as long as no counter is at its
limit. -/
theorem Holds.call (hm : Holds n s.mem items) (hidle : ∀ q, s.thr q = none) (hn : n ≤ 2 ^ 30)
    (p : Tid) (op : Op T)
    (hroom : s.mem.head + s.mem.tail + (if (fifoCall n items op).1.ok then 1 else 0) < 2 ^ 64)
    (k : ℕ) : ∃ m, s.perform (k + 7) p op = some ((fifoCall n items op).1, ⟨m, s.thr⟩) ∧
      Holds n m (fifoCall n items op).2 ∧
      m.head + m.tail = s.mem.head + s.mem.tail + if (fifoCall n items op).1.ok then 1 else 0 := by
  have h0 := hm.head
  have htail := hm.tail
  have hpos := hm.pos
  cases op with
  | enque v =>
    by_cases hlen : (items.length : ℤ) < n
    · simp only [fifoCall, if_pos hlen, Ans.ok, if_true] at hroom ⊢
      have hfree := (hm.free s.mem.tail le_rfl (by omega)).1
      rw [← hm.index] at hfree
      refine ⟨_, perform_enque hidle v (by omega) (by omega) hfree (k + 1), hm.enqued v hlen, ?_⟩
      simp only [Mem.enqued, Mem.setNode]
      omega
    · simp only [fifoCall, if_neg hlen, Ans.ok]
      have hle := hm.le
      have hfull : s.mem.tail = s.mem.head + n := by omega
      have hbusy : (s.mem.base (s.mem.at s.mem.tail)).tail ≠ s.mem.tail := by
        obtain ⟨v₀, hv₀⟩ : ∃ v₀, items[0]? = some v₀ :=
          ⟨_, List.getElem?_eq_getElem (by omega : 0 < items.length)⟩
        have hitem := hm.item 0 v₀ hv₀
        simp only [Nat.cast_zero, add_zero] at hitem
        rw [hm.index, hfull, Int.add_emod_right, hitem]
        simp only
        omega
      exact ⟨_, perform_enque_full hidle v hbusy (k + 1), hm, by simp⟩
  | deque dest =>
    cases items with
    | nil =>
      simp only [List.length_nil, Nat.cast_zero, add_zero] at htail
      have hempty := (hm.free s.mem.head htail.le (by omega)).2
      rw [← hm.index] at hempty
      exact ⟨_, perform_deque_empty hidle dest hempty k, hm, by simp [fifoCall, Ans.ok]⟩
    | cons v rest =>
      simp only [fifoCall, Ans.ok, if_true] at hroom ⊢
      simp only [List.length_cons] at htail
      push_cast at htail
      have hitem := hm.item 0 v rfl
      simp only [Nat.cast_zero, add_zero] at hitem
      rw [← hm.index] at hitem
      refine ⟨_, perform_deque hidle dest h0 (by omega) ⟨by rw [hm.capa]; omega, ?_⟩
        (by rw [hitem]) (by rw [hitem]) k, hm.dequed, ?_⟩
      · rw [hm.capa]
        omega
      · simp only [Mem.dequed, Mem.setNode]
        omega

/-! ## Any number of calls -/

/-- **Calls one after the other see a bounded queue**, as long as no counter reaches its limit. -/
theorem Holds.calls (hm : Holds n s.mem items) (hidle : ∀ q, s.thr q = none) (hn : n ≤ 2 ^ 30)
    (cs : List (Tid × Op T))
    (hroom : s.mem.head + s.mem.tail + successes (fifoCalls n items (cs.map Prod.snd)) < 2 ^ 64)
    {fuel : ℕ} (hfuel : 7 ≤ fuel) : ∃ m items',
      s.performAll fuel cs = some (fifoCalls n items (cs.map Prod.snd), ⟨m, s.thr⟩) ∧
        Holds n m items' := by
  induction cs generalizing s items with
  | nil => exact ⟨s.mem, items, rfl, hm⟩
  | cons c cs ih =>
    obtain ⟨p, op⟩ := c
    obtain ⟨k, rfl⟩ := Nat.exists_eq_add_of_le' hfuel
    have hcons : successes (fifoCalls n items (((p, op) :: cs).map Prod.snd)) =
        successes (fifoCalls n (fifoCall n items op).2 (cs.map Prod.snd)) +
          if (fifoCall n items op).1.ok then 1 else 0 := List.countP_cons
    rw [hcons] at hroom
    push_cast at hroom
    obtain ⟨m, hperform, hm', hcount⟩ := hm.call hidle hn p op (by omega) k
    obtain ⟨m', items', hrest, hm''⟩ := ih (s := ⟨m, s.thr⟩) hm' hidle (by
      rw [show (State.mk m s.thr).mem = m from rfl, hcount]
      omega)
    refine ⟨m', items', ?_, hm''⟩
    simp only [State.performAll, hperform, hrest]
    rfl

/-- Every success is an element put in, or one of those taken out again. -/
theorem successes_le (capa : ℤ) (items : List T) (ops : List (Op T)) :
    successes (fifoCalls capa items ops) ≤
      items.length + 2 * stored (fifoCalls capa items ops) := by
  induction ops generalizing items with
  | nil => exact Nat.zero_le _
  | cons op ops ih =>
    have hrest := ih (fifoCall capa items op).2
    simp only [successes, stored, fifoCalls, List.countP_cons] at hrest ⊢
    cases op with
    | enque v =>
      by_cases hlen : (items.length : ℤ) < capa
      · simp only [fifoCall, if_pos hlen, Ans.ok, Ans.stores, List.length_append,
          List.length_singleton] at hrest ⊢
        simp only [if_true]
        omega
      · simp only [fifoCall, if_neg hlen, Ans.ok, Ans.stores] at hrest ⊢
        simpa using hrest
    | deque dest =>
      cases items with
      | nil => simpa [fifoCall, Ans.ok, Ans.stores] using hrest
      | cons v rest =>
        simp only [fifoCall, Ans.ok, Ans.stores, List.length_cons] at hrest ⊢
        simp only [if_true]
        omega

/-! ## The two classes -/

/-- The same call of `ShmAtmRQ_t`. -/
def Op.toShm : Op Goods → ShmAtmRQ.Op
  | .enque g => .enque g
  | .deque g => .deque g

/-- The same answer of `ShmAtmRQ_t`. -/
def Ans.toShm : Ans Goods → ShmAtmRQ.Ans
  | .enque ok => .enque ok
  | .deque ok g => .deque ok g

omit [DecidableEq Tid] in
/-- The bounded queue is that of `Shm.Sequential`, without its record of failures. -/
theorem fifoCalls_toShm {Hid : Type} [DecidableEq Hid] (capa : ℤ) (items : List Goods)
    (log : List (Hid × Bool)) (cs : List (Tid × Hid × Op Goods)) :
    ShmAtmRQ.Fifo.calls capa ⟨items, log⟩ (cs.map fun c => (c.1, c.2.1, c.2.2.toShm)) =
      (fifoCalls capa items (cs.map fun c => c.2.2)).map Ans.toShm := by
  induction cs generalizing items log with
  | nil => rfl
  | cons c cs ih =>
    obtain ⟨p, h, op⟩ := c
    simp only [List.map_cons, ShmAtmRQ.Fifo.calls, fifoCalls]
    cases op with
    | enque g =>
      by_cases hlen : (items.length : ℤ) < capa
      · simp only [Op.toShm, ShmAtmRQ.Fifo.call, fifoCall, if_pos hlen]
        exact congrArg _ (ih _ _)
      · simp only [Op.toShm, ShmAtmRQ.Fifo.call, fifoCall, if_neg hlen]
        exact congrArg _ (ih _ _)
    | deque g =>
      cases items with
      | nil => exact congrArg _ (ih _ _)
      | cons x rest => exact congrArg _ (ih _ _)

/-- **The two classes give the same answers.** With the same capacity, however each has come by it,
calls made one after the other by any threads, and through any handles of the one in shared memory,
all return, and the answers are those of one bounded queue; that is, as long as fewer than `2 ^ 63`
elements are put in, so that no counter leaves the range of its type. -/
theorem same_answers {Hid : Type} [DecidableEq Hid] (w : ℤ) (sizeofNode capa : ℕ)
    (hcapa : capaOf sizeofNode capa = ShmAtmRQ.alignCapa w) (cs : List (Tid × Hid × Op Goods))
    (hlimit : stored (fifoCalls (ShmAtmRQ.alignCapa w) [] (cs.map fun c => c.2.2)) < 2 ^ 63) :
    ∃ N, ∀ fuel, N ≤ fuel →
      ((State.start Tid Goods sizeofNode capa).performAll fuel
        (cs.map fun c => (c.1, c.2.2))).map Prod.fst =
          some (fifoCalls (ShmAtmRQ.alignCapa w) [] (cs.map fun c => c.2.2)) ∧
      ((ShmAtmRQ.State.start Tid Hid w).performAll fuel
        (cs.map fun c => (c.1, c.2.1, c.2.2.toShm))).map Prod.fst =
          some ((fifoCalls (ShmAtmRQ.alignCapa w) [] (cs.map fun c => c.2.2)).map Ans.toShm) := by
  have hstart : ShmAtmRQ.Represents w (ShmAtmRQ.State.start Tid Hid w) ShmAtmRQ.Fifo.new :=
    ShmAtmRQ.represents_start w
  obtain ⟨N, hN⟩ := hstart.calls (cs.map fun c => (c.1, c.2.1, c.2.2.toShm))
  refine ⟨max N 7, ?_⟩
  intro fuel hfuel
  have hmap : (cs.map fun c => (c.1, c.2.2)).map Prod.snd = cs.map fun c => c.2.2 := by
    simp [Function.comp_def]
  constructor
  · have hcount := successes_le (ShmAtmRQ.alignCapa w) [] (cs.map fun c => c.2.2)
    obtain ⟨m, items, hall, -⟩ := (holds_start sizeofNode capa).calls
      (s := State.start Tid Goods sizeofNode capa) (fun _ => rfl) (capaOf_bounds _ _).2
      (cs.map fun c => (c.1, c.2.2)) (by
        rw [hmap, hcapa]
        simp only [State.start, construct_eq, List.length_nil] at hcount ⊢
        omega) (le_of_max_le_right hfuel)
    rw [hall, hmap, hcapa]
    rfl
  · obtain ⟨t, ht⟩ := hN fuel (le_of_max_le_left hfuel)
    rw [ht, ShmAtmRQ.Fifo.new, fifoCalls_toShm]
    rfl

theorem same_answers_two : let g : Goods := fun _ => 7
    ∃ N, ∀ fuel, N ≤ fuel →
    ((State.start (Fin 2) Goods 192 20).performAll fuel
      [(0, .deque g), (1, .enque g), (0, .deque g)]).map Prod.fst =
        some [.deque false g, .enque true, .deque true g] ∧
    ((ShmAtmRQ.State.start (Fin 2) Unit 32).performAll fuel
      [(0, (), .deque g), (1, (), .enque g), (0, (), .deque g)]).map Prod.fst =
        some [.deque false g, .enque true, .deque true g] := by
  intro g
  have hcapa : ShmAtmRQ.alignCapa 32 = 32 := by decide +kernel
  have hanswers : fifoCalls (ShmAtmRQ.alignCapa 32) [] [Op.deque g, .enque g, .deque g] =
      [.deque false g, .enque true, .deque true g] := by
    rw [hcapa]
    rfl
  have hlimit : stored (fifoCalls (ShmAtmRQ.alignCapa 32) [] [Op.deque g, .enque g, .deque g]) <
      2 ^ 63 := by
    rw [hanswers]
    exact Nat.lt_of_lt_of_le (show 1 < 2 by decide) (by decide)
  let cs : List (Fin 2 × Unit × Op Goods) :=
    [(0, (), .deque g), (1, (), .enque g), (0, (), .deque g)]
  obtain ⟨N, hN⟩ := same_answers 32 192 20 (by decide +kernel) cs hlimit
  refine ⟨N, ?_⟩
  intro fuel hfuel
  obtain ⟨h₁, h₂⟩ := hN fuel hfuel
  simp only [cs, List.map_cons, List.map_nil, hanswers] at h₁ h₂
  exact ⟨h₁, h₂⟩

end CraflinRQ

end LeonUtils
