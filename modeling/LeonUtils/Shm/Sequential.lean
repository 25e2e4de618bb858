import LeonUtils.Shm.Solo
import LeonUtils.TicketRing

/-!
# Calls one after the other

With no two calls in progress at once, the queue is a bounded FIFO. `Fifo` is the abstract queue:
a list of payloads, and a record of how the calls of each handle went. `Represents` relates it to
a state between calls, and each call, run alone, is one operation of the abstract queue.

## Main definitions

* `Fifo`, `Fifo.call` — the abstract queue
* `Represents` — a state between calls and its abstract queue
* `State.performAll` — calls one after the other

## Main results

* `Represents.call` — a call run alone gives the answer of the abstract queue
* `sequential_fifo` — any number of calls, from a fresh segment
-/

namespace LeonUtils

namespace ShmAtmRQ

open Transition TicketRing

variable {Tid Hid : Type}

/-! ## The abstract queue -/

/-- A bounded queue. `log` says how calls went, the latest first: a failed `enque` is recorded as
`false`, a successful `enque` or `deque` as `true`. -/
structure Fifo (Hid : Type) where
  items : List Goods
  log : List (Hid × Bool)

/-- The empty queue. -/
def Fifo.new : Fifo Hid := ⟨[], []⟩

variable [DecidableEq Hid]

/-- The failures of a handle since its last success. -/
def failedSince (log : List (Hid × Bool)) (h : Hid) : ℕ :=
  ((log.filter fun r => decide (r.1 = h)).takeWhile fun r => !r.2).length

/-- What a bounded queue of capacity `capa` answers to a call. -/
def Fifo.call (capa : ℤ) (q : Fifo Hid) (h : Hid) : Op → Ans × Fifo Hid
  | .enque g =>
    if q.items.length < capa then (.enque true, ⟨q.items ++ [g], (h, true) :: q.log⟩)
    else (.enque false, ⟨q.items, (h, false) :: q.log⟩)
  | .deque buf =>
    match q.items with
    | [] => (.deque false buf, q)
    | g :: rest => (.deque true g, ⟨rest, (h, true) :: q.log⟩)
  | .clear _ => (.clear, ⟨[], List.replicate q.items.length (h, true) ++ q.log⟩)
  | .size => (.size q.items.length, q)
  | .empty => (.empty q.items.isEmpty, q)
  | .full => (.full (decide (q.items.length ≥ capa)), q)
  | .errCnt => (.errCnt (failedSince q.log h), q)

/-- The answers to calls one after the other. -/
def Fifo.calls (capa : ℤ) (q : Fifo Hid) : List (Tid × Hid × Op) → List Ans
  | [] => []
  | (_, h, op) :: cs => (q.call capa h op).1 :: Fifo.calls capa (q.call capa h op).2 cs

theorem failedSince_success (log : List (Hid × Bool)) (h : Hid) :
    failedSince ((h, true) :: log) h = 0 := by
  simp [failedSince]

theorem failedSince_failure (log : List (Hid × Bool)) (h : Hid) :
    failedSince ((h, false) :: log) h = failedSince log h + 1 := by
  simp [failedSince]

theorem failedSince_of_ne (log : List (Hid × Bool)) {h k : Hid} (b : Bool) (hk : k ≠ h) :
    failedSince ((h, b) :: log) k = failedSince log k := by
  simp [failedSince, Ne.symm hk]

/-! ## Between calls -/

/-- A state between calls in which the queue holds the payloads of `q`. -/
structure Represents (w : ℤ) (s : State Tid Hid) (q : Fifo Hid) : Prop where
  idle : ∀ p, s.thr p = none
  hnd : ∀ h, s.hnd h = ⟨alignCapa w, alignCapa w - 1, failedSince q.log h⟩
  tail : s.shm.tail = s.shm.head + q.items.length
  le : q.items.length ≤ alignCapa w
  item : ∀ (k : ℕ) g, q.items[k]? = some g →
    s.shm.base ((s.shm.head + k) % alignCapa w) = ⟨s.shm.head + k, g, s.shm.head + k⟩
  free : ∀ i, s.shm.tail ≤ i → i < s.shm.head + alignCapa w →
    (s.shm.base (i % alignCapa w)).tTag = i ∧
      (s.shm.base (i % alignCapa w)).hTag = i - alignCapa w

variable {w : ℤ} {s t : State Tid Hid} {q : Fifo Hid}

theorem represents_start (w : ℤ) :
    Represents w (State.start Tid Hid w) (Fifo.new : Fifo Hid) where
  idle _ := rfl
  hnd h := by simp [State.start, make_handle, Fifo.new, failedSince]
  tail := by simp [State.start, make_shm, Fifo.new]
  le := by simpa [Fifo.new] using (alignCapa_pos w).le
  item k g hg := by simp [Fifo.new] at hg
  free i h0 hi := by
    simp only [State.start, make_shm] at h0 hi ⊢
    have hmod : i % alignCapa w = i := Int.emod_eq_of_lt h0 (by omega)
    simp [hmod, h0, show i < alignCapa w by omega]

theorem Represents.nodeIdx (hr : Represents w s q) (h : Hid) (i : ℤ) :
    (s.hnd h).nodeIdx i = i % alignCapa w := by
  rw [hr.hnd h, Handle.nodeIdx, land_mask]

/-- Storing a failure count leaves the other handles alone. -/
theorem Represents.setErrs {log : List (Hid × Bool)} (hr : Represents w s q) (h : Hid)
    {errs : ℤ} (herrs : errs = failedSince log h)
    (hlog : ∀ k, k ≠ h → failedSince log k = failedSince q.log k) (k : Hid) :
    (s.setErrs h errs).hnd k = ⟨alignCapa w, alignCapa w - 1, failedSince log k⟩ := by
  by_cases hk : k = h
  · subst hk
    simp [State.setErrs, hr.hnd k, herrs]
  · simp [State.setErrs, hk, hr.hnd k, hlog k hk]

/-- A failed `enque` is recorded. -/
theorem Represents.failed (hr : Represents w s q) (h : Hid) :
    Represents w (s.failed h) ⟨q.items, (h, false) :: q.log⟩ where
  idle := hr.idle
  hnd := hr.setErrs h (by rw [hr.hnd h, failedSince_failure]; push_cast; rfl)
    fun k hk => failedSince_of_ne _ _ hk
  tail := hr.tail
  le := hr.le
  item := hr.item
  free := hr.free

/-- A successful `enque` appends, where there is room. -/
theorem Represents.enqued (hr : Represents w s q) (h : Hid) (g : Goods)
    (hroom : q.items.length < alignCapa w) :
    Represents w (s.enqued h g) ⟨q.items ++ [g], (h, true) :: q.log⟩ where
  idle := hr.idle
  hnd := hr.setErrs h (by rw [failedSince_success]; rfl) fun k hk => failedSince_of_ne _ _ hk
  tail := by
    have := hr.tail
    simp only [enqued_tail, enqued_head, List.length_append, List.length_singleton]
    push_cast
    omega
  le := by
    simp only [List.length_append, List.length_singleton]
    push_cast
    omega
  item k x hx := by
    have htail := hr.tail
    rw [enqued_base s h g (hr.nodeIdx h _), enqued_head]
    rcases getElem?_snoc hx with ⟨hk, hx⟩ | ⟨hk', rfl⟩
    · -- a ticket already there is less than a lap away
      have hne : (s.shm.head + k) % alignCapa w ≠ s.shm.tail % alignCapa w :=
        emod_ne_emod (by omega) (by omega)
      rw [Function.update_of_ne hne]
      exact hr.item k x hx
    · have hticket : s.shm.head + k = s.shm.tail := by rw [hk', htail]
      rw [hticket, Function.update_self, (hr.free s.shm.tail le_rfl (by omega)).1]
  free i hi hlt := by
    simp only [enqued_tail, enqued_head] at hi hlt
    have htail := hr.tail
    have hne : i % alignCapa w ≠ s.shm.tail % alignCapa w :=
      (emod_ne_emod (by omega) (by omega)).symm
    rw [enqued_base s h g (hr.nodeIdx h _), Function.update_of_ne hne]
    exact hr.free i (by omega) hlt

/-- A successful `deque` removes the oldest payload. -/
theorem Represents.dequed {g : Goods} {rest : List Goods} {log : List (Hid × Bool)}
    (hr : Represents w s ⟨g :: rest, log⟩) (h : Hid) :
    Represents w (s.dequed h) ⟨rest, (h, true) :: log⟩ where
  idle := hr.idle
  hnd := hr.setErrs h (by rw [failedSince_success]; rfl) fun k hk => failedSince_of_ne _ _ hk
  tail := by
    have := hr.tail
    simp only [List.length_cons, dequed_tail, dequed_head] at this ⊢
    push_cast at this
    omega
  le := by
    have := hr.le
    simp only [List.length_cons] at this ⊢
    push_cast at this
    omega
  item k x hx := by
    have hle := hr.le
    have hk : k < rest.length := (List.getElem?_eq_some_iff.mp hx).1
    simp only [List.length_cons] at hle
    push_cast at hle
    have hne : (s.shm.head + 1 + k) % alignCapa w ≠ s.shm.head % alignCapa w :=
      (emod_ne_emod (by omega) (by omega)).symm
    rw [dequed_base s h (hr.nodeIdx h _), dequed_head, Function.update_of_ne hne]
    have hitem := hr.item (k + 1) x (by simpa using hx)
    have hticket : s.shm.head + ((k + 1 : ℕ) : ℤ) = s.shm.head + 1 + k := by
      push_cast
      omega
    rwa [hticket] at hitem
  free i hi hlt := by
    have htail := hr.tail
    simp only [List.length_cons, dequed_tail, dequed_head] at hi hlt htail
    push_cast at htail
    rw [dequed_base s h (hr.nodeIdx h _)]
    have hmod : (s.shm.head + alignCapa w) % alignCapa w = s.shm.head % alignCapa w :=
      Int.add_emod_right ..
    by_cases hlast : i = s.shm.head + alignCapa w
    · subst hlast
      have hitem := hr.item 0 g rfl
      simp only [Nat.cast_zero, add_zero] at hitem
      rw [hmod, Function.update_self, hitem, hr.hnd h]
      simp
    · have hne : i % alignCapa w ≠ s.shm.head % alignCapa w :=
        (emod_ne_emod (by omega) (by omega)).symm
      rw [Function.update_of_ne hne]
      exact hr.free i hi (by omega)

/-! ## Each call, alone -/

variable [DecidableEq Tid]

omit [DecidableEq Tid] in
/-- The node of `_head` of an empty queue is not published. -/
theorem Represents.hTag_empty {log : List (Hid × Bool)} (hr : Represents w s ⟨[], log⟩) :
    (s.shm.base (s.shm.head % alignCapa w)).hTag ≠ s.shm.head := by
  have hpos := alignCapa_pos w
  have htail := hr.tail
  rw [(hr.free s.shm.head (by simp [htail]) (by omega)).2]
  omega

/-- `clear` alone: it takes out everything. -/
theorem Represents.clear {items : List Goods} {log : List (Hid × Bool)} {p : Tid} {h : Hid}
    (buf : Goods) (hr : Represents w s ⟨items, log⟩) : ∃ t,
    Finishes p (s.goto p (some (h, .deqLoad .clear buf 0))) .clear none t ∧
      Represents w t ⟨[], List.replicate items.length (h, true) ++ log⟩ := by
  induction items generalizing s log buf with
  | nil =>
    refine ⟨s, ?_, hr⟩
    have hfin : Finishes p (s.goto p (some (h, .deqLoad .clear buf 0))) .clear none
        (s.goto p none) :=
      .deqLoad rfl (.deqEmpty (hr.nodeIdx h _) hr.hTag_empty (.quiet rfl (.ret rfl)))
    rwa [goto_idle (hr.idle p)] at hfin
  | cons g rest ih =>
    have hitem := hr.item 0 g rfl
    simp only [Nat.cast_zero, add_zero] at hitem
    obtain ⟨t, hfin, ht⟩ := ih g (hr.dequed h)
    refine ⟨t, .dequed rfl (hr.nodeIdx h _) (by rw [hitem]) (.quiet rfl ?_), ?_⟩
    · rwa [hitem]
    · rw [List.length_cons, List.replicate_succ', List.append_assoc]
      exact ht

/-- **A call run alone is one operation of the abstract queue.** -/
theorem Represents.call (hr : Represents w s q) (p : Tid) (h : Hid) (op : Op) : ∃ won t,
    Finishes p (s.goto p (some (h, op.entry))) (q.call (alignCapa w) h op).1 won t ∧
      Represents w t (q.call (alignCapa w) h op).2 := by
  have hidle := goto_idle (hr.idle p)
  have htail := hr.tail
  cases op with
  | enque g =>
    have hj := hr.nodeIdx h s.shm.tail
    by_cases hroom : (q.items.length : ℤ) < alignCapa w
    · simp only [Fifo.call, if_pos hroom]
      have hfree := (hr.free s.shm.tail le_rfl (by omega)).1
      have hfin := finishes_enque (p := p) (g := g) rfl hj hfree
      rw [goto_idle (s := s.enqued h g) (hr.idle p)] at hfin
      exact ⟨_, _, hfin, hr.enqued h g hroom⟩
    · simp only [Fifo.call, if_neg hroom]
      have hle := hr.le
      have hfull : s.shm.tail = s.shm.head + alignCapa w := by omega
      have hbusy : (s.shm.base (s.shm.tail % alignCapa w)).tTag ≠ s.shm.tail := by
        have hpos := alignCapa_pos w
        obtain ⟨g₀, hg₀⟩ : ∃ g₀, q.items[0]? = some g₀ :=
          ⟨_, List.getElem?_eq_getElem (by omega : 0 < q.items.length)⟩
        have hitem := hr.item 0 g₀ hg₀
        simp only [Nat.cast_zero, add_zero] at hitem
        rw [hfull, Int.add_emod_right, hitem]
        exact fun h => by simp at h; omega
      have hfin := finishes_enque_full (p := p) (g := g) rfl hj hbusy
      rw [goto_idle (s := s.failed h) (hr.idle p)] at hfin
      exact ⟨_, _, hfin, hr.failed h⟩
  | deque buf =>
    obtain ⟨items, log⟩ := q
    cases items with
    | nil =>
      have hempty := hr.hTag_empty
      have hfin := finishes_deque_empty (p := p) (g := buf) rfl (hr.nodeIdx h s.shm.head) hempty
      rw [hidle] at hfin
      exact ⟨_, _, hfin, hr⟩
    | cons g rest =>
      have hitem := hr.item 0 g rfl
      simp only [Nat.cast_zero, add_zero] at hitem
      have hfin := finishes_deque (p := p) (g := buf) rfl (hr.nodeIdx h s.shm.head) (by rw [hitem])
      rw [hitem, goto_idle (s := s.dequed h) (hr.idle p)] at hfin
      exact ⟨_, _, hfin, hr.dequed h⟩
  | clear buf =>
    obtain ⟨t, hfin, ht⟩ := hr.clear (p := p) (h := h) buf
    exact ⟨none, t, hfin, ht⟩
  | size =>
    refine ⟨none, s, ?_, hr⟩
    have hfin := finishes_obs (s := s) (p := p) (h := h) .size
    rwa [hidle, show Obs.ans (s.hnd h) s.shm.tail s.shm.head .size = .size q.items.length by
      simp [Obs.ans, htail]] at hfin
  | empty =>
    refine ⟨none, s, ?_, hr⟩
    have hfin := finishes_obs (s := s) (p := p) (h := h) .empty
    have hempty : decide (s.shm.tail = s.shm.head) = q.items.isEmpty := by
      rw [Bool.eq_iff_iff, decide_eq_true_iff, List.isEmpty_iff, ← List.length_eq_zero_iff]
      omega
    rwa [hidle, Obs.ans, hempty] at hfin
  | full =>
    refine ⟨none, s, ?_, hr⟩
    have hfin := finishes_obs (s := s) (p := p) (h := h) .full
    rwa [hidle, show Obs.ans (s.hnd h) s.shm.tail s.shm.head .full =
      .full (decide (q.items.length ≥ alignCapa w)) by simp [Obs.ans, htail, hr.hnd h]] at hfin
  | errCnt =>
    refine ⟨none, s, ?_, hr⟩
    have hfin := finishes_errCnt (s := s) (p := p) (h := h)
    rwa [hidle, hr.hnd h] at hfin

/-! ## Any number of calls -/

/-- Calls one after the other, each run alone for at most `fuel` steps. -/
def State.performAll (s : State Tid Hid) (fuel : ℕ) :
    List (Tid × Hid × Op) → Option (List Ans × State Tid Hid)
  | [] => some ([], s)
  | (p, h, op) :: cs =>
    match s.perform fuel p h op with
    | none => none
    | some (a, t) =>
      match t.performAll fuel cs with
      | none => none
      | some (as, u) => some (a :: as, u)

/-- From a state between calls, with fuel enough, all calls return, and as the abstract queue
says. -/
theorem Represents.calls (hr : Represents w s q) (cs : List (Tid × Hid × Op)) : ∃ N, ∀ fuel,
    N ≤ fuel → ∃ t, s.performAll fuel cs = some (q.calls (alignCapa w) cs, t) := by
  induction cs generalizing s q with
  | nil => exact ⟨0, fun _ _ => ⟨s, rfl⟩⟩
  | cons c cs ih =>
    obtain ⟨p, h, op⟩ := c
    obtain ⟨won, t, hfin, ht⟩ := hr.call p h op
    obtain ⟨N, hN⟩ := hfin.perform (hr.idle p)
    obtain ⟨M, hM⟩ := ih ht
    refine ⟨max N M, ?_⟩
    intro fuel hfuel
    obtain ⟨u, hu⟩ := hM fuel (le_of_max_le_right hfuel)
    refine ⟨u, ?_⟩
    simp only [State.performAll, hN fuel (le_of_max_le_left hfuel), hu]
    rfl

/-- **Calls one after the other see a bounded FIFO.** On a fresh segment of any capacity, calls
made one after the other by any threads through any handles all return, and their answers are
those of one bounded queue. -/
theorem sequential_fifo (w : ℤ) (cs : List (Tid × Hid × Op)) : ∃ N, ∀ fuel, N ≤ fuel →
    ((State.start Tid Hid w).performAll fuel cs).map Prod.fst =
      some ((Fifo.new : Fifo Hid).calls (alignCapa w) cs) := by
  have hstart : Represents w (State.start Tid Hid w) Fifo.new := represents_start w
  obtain ⟨N, hN⟩ := hstart.calls cs
  refine ⟨N, ?_⟩
  intro fuel hfuel
  obtain ⟨t, ht⟩ := hN fuel hfuel
  rw [ht]
  rfl

end ShmAtmRQ

end LeonUtils
