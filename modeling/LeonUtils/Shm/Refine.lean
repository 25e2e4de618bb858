import LeonUtils.Shm.Machine
import LeonUtils.TicketRing

/-!
# The queue is a ticket ring

`ring` reads a state of the queue as a state of the abstract ring of `TicketRing`: `t_tag` is the
turn of a cell, and the cell is full when its two tags agree. Every step of every thread is then a
step of the ring or invisible to it, so the invariant of the ring holds of the queue, for any
number of threads and any number of laps.

The one concrete fact the reading needs is that `h_tag` is either `t_tag` or one lap behind it.
This is what turns "`h_tag` equals the index I loaded" into the monotone statement that the
ticket has been filled at some time.

## Main definitions

* `ring` — the abstract ring of a state, with its history
* `Coupled` — what is known of a state besides the invariant of its ring

## Main results

* `queue_refines` — the refinement
* `inv_of_run`, `coupled_of_run` — the invariant and the coupling after every run
-/

namespace LeonUtils

namespace ShmAtmRQ

open Transition TicketRing

/-- The ring role of a position. -/
def Pc.role : Pc → Role
  | .enqTest _ _ _ i => .atTail i
  | .enqCas _ _ _ i => .sawFree i
  | .enqWon _ i | .enqCopy _ i _ => .filling i
  | .deqTest _ _ _ i => .atHead i
  | .deqCas _ _ _ i => .sawFull i
  | .deqWon _ _ i | .deqCopy _ _ i _ => .draining i
  | _ => .out

/-- The ring role of a thread, idle or in a call. -/
def roleOf {Hid : Type} : Option (Hid × Pc) → Role
  | none => .out
  | some (_, pc) => pc.role

variable {Tid Hid : Type}

/-- Account for one event in what the tickets promise. -/
def promise (v : ℤ → Goods) (e : Event Tid Hid) : ℤ → Goods :=
  match e.2 with
  | .enqWin i g => Function.update v i g
  | _ => v

/-- The payload of the `enque` that won a ticket, read off the history. -/
def promised (π : List (Event Tid Hid × State Tid Hid)) : ℤ → Goods :=
  (System.events π).foldl promise fun _ _ => 0

@[simp] theorem promised_snoc (π : List (Event Tid Hid × State Tid Hid)) (e : Event Tid Hid)
    (t : State Tid Hid) : promised (π ++ [(e, t)]) = promise (promised π) e := by
  simp [promised]

/-- A state with what its tickets promise, as a ring. -/
def ringOf (v : ℤ → Goods) (s : State Tid Hid) : Ring Tid Goods where
  head := s.shm.head
  tail := s.shm.tail
  turn j := (s.shm.base j).tTag
  full j := (s.shm.base j).hTag = (s.shm.base j).tTag
  cell j := (s.shm.base j).goods
  val := v
  role p := roleOf (s.thr p)

/-- The abstract ring of a state. -/
def ring (π : List (Event Tid Hid × State Tid Hid)) (s : State Tid Hid) : Ring Tid Goods :=
  ringOf (promised π) s

/-- How far a copy has got: `k` bytes of `dst` are those of `src`. -/
def Copied (k : ℕ) (dst src : Goods) : Prop :=
  k ≤ loadSize ∧ ∀ b : Fin loadSize, (b : ℕ) < k → dst b = src b

/-- What is known of a thread that holds a ticket, beyond its role. -/
def PcOk (n : ℤ) (v : ℤ → Goods) (m : Shm) : Pc → Prop
  | .enqWon g i => v i = g
  | .enqCopy g i k => v i = g ∧ Copied k (m.base (i % n)).goods g
  | .deqCopy _ g i k => Copied k g (m.base (i % n)).goods
  | _ => True

/-- What is known of a state of the queue besides the invariant of its ring. -/
structure Coupled (w : ℤ) (v : ℤ → Goods) (s : State Tid Hid) : Prop where
  capa : s.shm.capa = alignCapa w
  mask : s.shm.mask = alignCapa w - 1
  hnd : ∀ h, (s.hnd h).capa = alignCapa w ∧ (s.hnd h).mask = alignCapa w - 1
  tags : ∀ j, 0 ≤ j → j < alignCapa w →
    (s.shm.base j).hTag = (s.shm.base j).tTag ∨
      (s.shm.base j).hTag = (s.shm.base j).tTag - alignCapa w
  pc : ∀ p h pc, s.thr p = some (h, pc) → PcOk (alignCapa w) v s.shm pc

/-! ## The ring of a state after each kind of write -/

section Writes

variable (v : ℤ → Goods) (s : State Tid Hid)

theorem ringOf_goto [DecidableEq Tid] (p : Tid) (t : Option (Hid × Pc)) :
    ringOf v (s.goto p t) = (ringOf v s).setRole p (roleOf t) := by
  unfold ringOf State.goto Ring.setRole
  congr 1
  funext q
  by_cases hq : q = p
  · subst hq
    simp
  · simp [hq]

variable [DecidableEq Hid] (h : Hid)

theorem ringOf_write_role (h : Hid) (x : Effect) :
    (ringOf v (s.write h x)).role = (ringOf v s).role := by
  simp [ringOf]

theorem ringOf_tail (x : ℤ) :
    ringOf v (s.write h (.store (.tail x))) = { ringOf v s with tail := x } := rfl

theorem ringOf_head (x : ℤ) :
    ringOf v (s.write h (.store (.head x))) = { ringOf v s with head := x } := rfl

/-- Writing a byte of a payload changes one cell. -/
theorem ringOf_byte (j : ℤ) (b : Fin loadSize) (x : UInt8) :
    ringOf v (s.write h (.store (.byte j b x))) = { ringOf v s with
      cell := Function.update (ringOf v s).cell j (Function.update (s.shm.base j).goods b x) } := by
  unfold ringOf State.write Shm.store Shm.setNode
  congr 1 <;> funext i <;> rcases eq_or_ne i j with rfl | hi <;> simp [*]

/-- Storing its turn into a cell's `h_tag` makes it full. -/
theorem ringOf_hTag {j x : ℤ} (hx : (s.shm.base j).tTag = x) :
    ringOf v (s.write h (.store (.hTag j x))) =
      { ringOf v s with full := Function.update (ringOf v s).full j True } := by
  unfold ringOf State.write Shm.store Shm.setNode
  congr 1 <;> funext i <;> rcases eq_or_ne i j with rfl | hi <;> simp [*]

/-- Storing a later turn into the `t_tag` of a full cell empties it. -/
theorem ringOf_tTag {j x : ℤ} (hx : (s.shm.base j).hTag ≠ x) :
    ringOf v (s.write h (.store (.tTag j x))) = { ringOf v s with
      turn := Function.update (ringOf v s).turn j x
      full := Function.update (ringOf v s).full j False } := by
  unfold ringOf State.write Shm.store Shm.setNode
  congr 1 <;> funext i <;> rcases eq_or_ne i j with rfl | hi <;> simp [*]

end Writes

/-! ## Every step is a step of the ring -/

section Simulation

variable {w : ℤ} {v : ℤ → Goods} {s t : State Tid Hid}

theorem ringOf_role {p : Tid} {hd : Hid} {pc : Pc} (hp : s.thr p = some (hd, pc)) :
    (ringOf v s).role p = pc.role := by
  simp [ringOf, roleOf, hp]

/-- Through any handle, an index leads to its own cell. -/
theorem Coupled.nodeIdx (hc : Coupled w v s) (hd : Hid) (i : ℤ) :
    (s.hnd hd).nodeIdx i = i % alignCapa w := by
  rw [Handle.nodeIdx, (hc.hnd hd).2, land_mask]

@[simp] theorem role_enqRetry (g : Goods) (oldIdx : ℤ) (tryCnt : ℕ) (curIdx : ℤ) :
    (enqRetry g oldIdx tryCnt curIdx).role = .out := by
  unfold enqRetry
  dsimp only
  generalize (if curIdx ≠ oldIdx then 0 else tryCnt) = k
  split <;> rfl

@[simp] theorem role_deqRetry (c : Caller) (g : Goods) (tryCnt : ℕ) :
    (deqRetry c g tryCnt).role = .out := by
  rw [deqRetry]
  split <;> rfl

@[simp] theorem roleOf_afterRet (hd : Hid) (c : Caller) (a : Ans) :
    roleOf ((afterRet c a).map (hd, ·)) = .out := by
  simp only [afterRet]
  split <;> rfl

@[simp] theorem roleOf_entry (hd : Hid) (op : Op) : roleOf (some (hd, op.entry)) = .out := by
  cases op <;> rfl

variable [DecidableEq Tid]

/-- What is known of a thread survives as long as the cell and the promise of the ticket it holds
do. -/
theorem PcOk.frame {n : ℤ} {v v' : ℤ → Goods} {m m' : Shm} {pc : Pc} (h : PcOk n v m pc)
    (hkeep : ∀ i, pc.role.held = some i →
      v' i = v i ∧ (m'.base (i % n)).goods = (m.base (i % n)).goods) : PcOk n v' m' pc := by
  cases pc with
  | enqWon g i => exact (hkeep i rfl).1.trans h
  | enqCopy g i k => exact ⟨(hkeep i rfl).1.trans h.1, by rw [(hkeep i rfl).2]; exact h.2⟩
  | deqCopy c g i k =>
    change Copied k g (m'.base (i % n)).goods
    rw [(hkeep i rfl).2]
    exact h
  | _ => trivial

/-- A position that holds no ticket needs nothing. -/
theorem PcOk.of_role_out {n : ℤ} {v : ℤ → Goods} {m : Shm} {pc : Pc} (h : pc.role.held = none) :
    PcOk n v m pc := by
  cases pc <;> trivial

/-- Extending a copy by its next byte. -/
theorem Copied.snoc {k : ℕ} {dst src : Goods} (h : Copied k dst src) (hk : k < loadSize) :
    Copied (k + 1) (Function.update dst ⟨k, hk⟩ (src ⟨k, hk⟩)) src := by
  refine ⟨hk, ?_⟩
  intro b hb
  rcases eq_or_ne b ⟨k, hk⟩ with rfl | hne
  · simp
  · have hval : (b : ℕ) ≠ k := fun hbk => hne (Fin.ext hbk)
    rw [Function.update_of_ne hne]
    exact h.2 b (by omega)

theorem Copied.zero (dst src : Goods) : Copied 0 dst src :=
  ⟨Nat.zero_le _, fun _ h => absurd h (Nat.not_lt_zero _)⟩

theorem Copied.eq {dst src : Goods} {k : ℕ} (h : Copied k dst src) (hk : ¬ k < loadSize) :
    dst = src :=
  funext fun b => h.2 b (by have := b.isLt; omega)

/-- The shape of every proof about the coupling: a write that keeps capacity, mask and the tags in
order, then a move of thread `p` to a position in good standing. -/
theorem Coupled.goto {v' : ℤ → Goods} {s' : State Tid Hid} {p : Tid} {x : Option (Hid × Pc)}
    (hc : Coupled w v s) (hthr : s'.thr = s.thr)
    (hmeta : s'.shm.capa = s.shm.capa ∧ s'.shm.mask = s.shm.mask)
    (hhnd : ∀ k, (s'.hnd k).capa = (s.hnd k).capa ∧ (s'.hnd k).mask = (s.hnd k).mask)
    (htags : ∀ j, 0 ≤ j → j < alignCapa w →
      (s'.shm.base j).hTag = (s'.shm.base j).tTag ∨
        (s'.shm.base j).hTag = (s'.shm.base j).tTag - alignCapa w)
    (hother : ∀ q hd pc, q ≠ p → s.thr q = some (hd, pc) → PcOk (alignCapa w) v' s'.shm pc)
    (hnew : ∀ hd pc, x = some (hd, pc) → PcOk (alignCapa w) v' s'.shm pc) :
    Coupled w v' (s'.goto p x) where
  capa := hmeta.1.trans hc.capa
  mask := hmeta.2.trans hc.mask
  hnd k := ⟨(hhnd k).1.trans (hc.hnd k).1, (hhnd k).2.trans (hc.hnd k).2⟩
  tags := htags
  pc q hd pc hq := by
    by_cases hne : q = p
    · subst hne
      rw [State.goto_thr_self] at hq
      exact hnew hd pc hq
    · rw [State.goto_thr_of_ne _ _ hne, hthr] at hq
      exact hother q hd pc hne hq

/-- A step that writes no node. -/
theorem Coupled.quiet {s' : State Tid Hid} {p : Tid} {x : Option (Hid × Pc)}
    (hc : Coupled w v s) (hthr : s'.thr = s.thr)
    (hmeta : s'.shm.capa = s.shm.capa ∧ s'.shm.mask = s.shm.mask)
    (hhnd : ∀ k, (s'.hnd k).capa = (s.hnd k).capa ∧ (s'.hnd k).mask = (s.hnd k).mask)
    (hbase : s'.shm.base = s.shm.base)
    (hnew : ∀ hd pc, x = some (hd, pc) → PcOk (alignCapa w) v s'.shm pc) :
    Coupled w v (s'.goto p x) :=
  hc.goto hthr hmeta hhnd (by rw [hbase]; exact hc.tags)
    (fun q hd pc _ hq => (hc.pc q hd pc hq).frame fun i _ => ⟨rfl, by rw [hbase]⟩) hnew

/-- A step that writes one node, and its payload only if nobody else holds the node. -/
theorem Coupled.node {p : Tid} {y : Option (Hid × Pc)} {j : ℤ} {x : Node} (hc : Coupled w v s)
    (htag : x.hTag = x.tTag ∨ x.hTag = x.tTag - alignCapa w)
    (hother : ∀ q i, q ≠ p → ((ringOf v s).role q).held = some i → i % alignCapa w = j →
      x.goods = (s.shm.base j).goods)
    (hnew : ∀ hd pc, y = some (hd, pc) → PcOk (alignCapa w) v (s.shm.setNode j x) pc) :
    Coupled w v (State.goto { s with shm := s.shm.setNode j x } p y) := by
  refine hc.goto rfl ⟨rfl, rfl⟩ (fun _ => ⟨rfl, rfl⟩) ?_ ?_ hnew
  · intro k h0 hlt
    by_cases hne : k = j
    · subst hne
      simpa [Shm.setNode] using htag
    · simpa [Shm.setNode, hne] using hc.tags k h0 hlt
  · intro q hd pc hqp hq
    refine (hc.pc q hd pc hq).frame ?_
    intro i hheld
    refine ⟨rfl, ?_⟩
    by_cases hne : i % alignCapa w = j
    · have hgoods := hother q i hqp (by rw [ringOf_role hq]; exact hheld) hne
      simpa [Shm.setNode, hne] using hgoods
    · simp [Shm.setNode, hne]

/-! ### The ring -/

/-- What a step of thread `p` may do to the ring: nothing, or a step of the same party. -/
def RingStep (w : ℤ) (v : ℤ → Goods) (s : State Tid Hid) (p : Tid) (e : Event Tid Hid)
    (t : State Tid Hid) : Prop :=
  ringOf (promise v e) t = ringOf v s ∨ Step (alignCapa w) (ringOf v s) p (ringOf (promise v e) t)

section Ring

variable {p : Tid} {hd : Hid} {sp : Bool} {e : Event Tid Hid}

/-- A thread that goes on in its role, having written nothing of the ring. -/
theorem ring_stay {pc pc' : Pc} {a : Act Hid} {s' : State Tid Hid} (hp : s.thr p = some (hd, pc))
    (heq : (e, t) = ((p, a), s'.goto p (some (hd, pc')))) (hkeep : promise v (p, a) = v)
    (hring : ringOf v s' = ringOf v s) (hrole : pc'.role = pc.role) : RingStep w v s p e t := by
  obtain ⟨rfl, rfl⟩ := Prod.mk.inj heq
  left
  rw [hkeep, ringOf_goto, hring]
  exact Ring.setRole_eq_self ((ringOf_role hp).trans hrole.symm)

/-- A thread that holds no ticket and steps back, having written nothing of the ring. -/
theorem ring_leave {pc : Pc} {x : Option (Hid × Pc)} {a : Act Hid} {s' : State Tid Hid}
    (hp : s.thr p = some (hd, pc)) (heq : (e, t) = ((p, a), s'.goto p x))
    (hkeep : promise v (p, a) = v) (hring : ringOf v s' = ringOf v s)
    (hheld : pc.role.held = none) (hout : roleOf x = .out) : RingStep w v s p e t := by
  obtain ⟨rfl, rfl⟩ := Prod.mk.inj heq
  right
  rw [hkeep, ringOf_goto, hring, hout]
  exact .leave (by rw [ringOf_role hp, hheld])

variable [DecidableEq Hid]

theorem ring_enqTest {g : Goods} {oldIdx i : ℤ} {tryCnt : ℕ} (hc : Coupled w v s)
    (hp : s.thr p = some (hd, .enqTest g oldIdx tryCnt i))
    (heq : (e, t) = s.advance p hd (.enqTest g oldIdx tryCnt i) sp) : RingStep w v s p e t := by
  simp only [State.advance, act, hc.nodeIdx hd] at heq
  split at heq
  · rename_i htag
    obtain ⟨rfl, rfl⟩ := Prod.mk.inj heq
    right
    rw [ringOf_goto]
    exact .seeFree i (ringOf_role hp) htag.ge
  · exact ring_leave hp heq rfl rfl rfl (role_enqRetry _ _ _ _)

theorem ring_enqCas {g : Goods} {oldIdx i : ℤ} {tryCnt : ℕ}
    (hp : s.thr p = some (hd, .enqCas g oldIdx tryCnt i))
    (heq : (e, t) = s.advance p hd (.enqCas g oldIdx tryCnt i) sp) : RingStep w v s p e t := by
  simp only [State.advance, act] at heq
  split at heq
  · rename_i hwin
    obtain ⟨rfl, rfl⟩ := Prod.mk.inj heq
    right
    rw [ringOf_goto, ringOf_tail]
    exact .claim i g (ringOf_role hp) hwin.1
  · exact ring_leave hp heq rfl rfl rfl (role_enqRetry _ _ _ _)

theorem ring_enqCopy {g : Goods} {i : ℤ} {k : ℕ} (hc : Coupled w v s)
    (hi : Inv (alignCapa w) (ringOf v s)) (hp : s.thr p = some (hd, .enqCopy g i k))
    (heq : (e, t) = s.advance p hd (.enqCopy g i k) sp) : RingStep w v s p e t := by
  have hrole : (ringOf v s).role p = .filling i := ringOf_role hp
  obtain ⟨hval, hk, hbytes⟩ := hc.pc p hd _ hp
  simp only [State.advance, act, hc.nodeIdx hd] at heq
  right
  split at heq <;> obtain ⟨rfl, rfl⟩ := Prod.mk.inj heq <;> rw [ringOf_goto]
  · rename_i hk
    have hwrite : (ringOf v (s.write hd (.store
        (.byte (i % alignCapa w) ⟨k, hk⟩ (g ⟨k, hk⟩))))).role p = .filling i := by
      rw [ringOf_write_role]
      exact hrole
    have hkeep := Ring.setRole_eq_self hwrite
    rw [ringOf_byte] at hkeep ⊢
    exact (congrArg (Step _ _ p) hkeep).mpr (.write i _ hrole)
  · rename_i hdone
    rw [ringOf_hTag _ _ _ (hi.role_ok hrole).2.2.1]
    refine .fill i hrole ?_
    funext b
    exact (hbytes b (by have := b.isLt; omega)).trans (congrFun hval.symm b)

theorem ring_deqTest {c : Caller} {g : Goods} {i : ℤ} {tryCnt : ℕ} (hc : Coupled w v s)
    (hi : Inv (alignCapa w) (ringOf v s)) (hp : s.thr p = some (hd, .deqTest c g tryCnt i))
    (heq : (e, t) = s.advance p hd (.deqTest c g tryCnt i) sp) : RingStep w v s p e t := by
  simp only [State.advance, act, hc.nodeIdx hd] at heq
  split at heq
  · exact ring_leave hp heq rfl rfl rfl rfl
  · rename_i htag
    have htag := not_not.mp htag
    obtain ⟨rfl, rfl⟩ := Prod.mk.inj heq
    right
    rw [ringOf_goto]
    refine .seeFull i (ringOf_role hp) ?_
    obtain ⟨h0, hlt⟩ := hi.cell_range i
    rcases hc.tags _ h0 hlt with hsame | hlap
    · exact Or.inr ⟨hsame.symm.trans htag, hsame⟩
    · have hpos := hi.pos
      exact Or.inl (show i < (s.shm.base (i % alignCapa w)).tTag by omega)

theorem ring_deqCas {c : Caller} {g : Goods} {i : ℤ} {tryCnt : ℕ}
    (hp : s.thr p = some (hd, .deqCas c g tryCnt i))
    (heq : (e, t) = s.advance p hd (.deqCas c g tryCnt i) sp) : RingStep w v s p e t := by
  simp only [State.advance, act] at heq
  split at heq
  · rename_i hwin
    obtain ⟨rfl, rfl⟩ := Prod.mk.inj heq
    right
    rw [ringOf_goto, ringOf_head]
    exact .take i (ringOf_role hp) hwin.1
  · exact ring_leave hp heq rfl rfl rfl (role_deqRetry _ _ _)

theorem ring_deqCopy {c : Caller} {g : Goods} {i : ℤ} {k : ℕ} (hc : Coupled w v s)
    (hi : Inv (alignCapa w) (ringOf v s)) (hp : s.thr p = some (hd, .deqCopy c g i k))
    (heq : (e, t) = s.advance p hd (.deqCopy c g i k) sp) : RingStep w v s p e t := by
  have hrole : (ringOf v s).role p = .draining i := ringOf_role hp
  simp only [State.advance, act, hc.nodeIdx hd] at heq
  split at heq
  · exact ring_stay hp heq rfl rfl rfl
  · obtain ⟨rfl, rfl⟩ := Prod.mk.inj heq
    right
    have hpos := hi.pos
    obtain ⟨hfull, hturn⟩ := hi.full_of_draining hrole
    have htag : (s.shm.base (i % alignCapa w)).hTag = i := Eq.trans hfull hturn
    rw [ringOf_goto, (hc.hnd hd).1, ringOf_tTag _ _ _ (by omega)]
    exact .release i hrole

/-- The code of one thread, read in the ring. -/
theorem ring_advance {pc : Pc} (hc : Coupled w v s) (hi : Inv (alignCapa w) (ringOf v s))
    (hp : s.thr p = some (hd, pc)) (heq : (e, t) = s.advance p hd pc sp) :
    RingStep w v s p e t := by
  have hrole : (ringOf v s).role p = pc.role := ringOf_role hp
  cases pc with
  | enqLoad g oldIdx tryCnt =>
    obtain ⟨rfl, rfl⟩ := Prod.mk.inj heq
    right
    rw [ringOf_goto]
    exact .readTail (by rw [hrole]; rfl)
  | enqTest g oldIdx tryCnt i => exact ring_enqTest hc hp heq
  | enqCas g oldIdx tryCnt i => exact ring_enqCas hp heq
  | enqWon g i => exact ring_stay hp heq rfl rfl rfl
  | enqCopy g i k => exact ring_enqCopy hc hi hp heq
  | deqLoad c g tryCnt =>
    obtain ⟨rfl, rfl⟩ := Prod.mk.inj heq
    right
    rw [ringOf_goto]
    exact .readHead (by rw [hrole]; rfl)
  | deqTest c g tryCnt i => exact ring_deqTest hc hi hp heq
  | deqCas c g tryCnt i => exact ring_deqCas hp heq
  | deqWon c g i => exact ring_stay hp heq rfl rfl rfl
  | deqCopy c g i k => exact ring_deqCopy hc hi hp heq
  | enqFail | deqFail _ _ | obsTail _ | obsHead _ _ | errLoad =>
    -- the call is over, or has read a counter for its answer
    exact ring_leave hp heq rfl rfl rfl rfl
  | ret c ans won => exact ring_leave hp heq rfl rfl rfl (roleOf_afterRet hd c ans)

end Ring

/-! ### The coupling -/

variable [DecidableEq Hid]

/-- Every step but the win of a producer and the three stores to a node is an instance of this. -/
theorem Coupled.stay {p : Tid} {hd : Hid} {x : Effect} {pc' : Option Pc} (hc : Coupled w v s)
    (hx : ∀ st, x = .store st → (s.shm.store st).base = s.shm.base ∧
      (s.shm.store st).capa = s.shm.capa ∧ (s.shm.store st).mask = s.shm.mask)
    (hnew : ∀ q, pc' = some q → PcOk (alignCapa w) v s.shm q) :
    Coupled w v ((s.write hd x).goto p (pc'.map (hd, ·))) := by
  have hshm : (s.write hd x).shm.base = s.shm.base ∧ (s.write hd x).shm.capa = s.shm.capa ∧
      (s.write hd x).shm.mask = s.shm.mask := by
    cases x with
    | none => exact ⟨rfl, rfl, rfl⟩
    | store st => exact hx st rfl
    | errs y => exact ⟨rfl, rfl, rfl⟩
  refine hc.quiet (s.write_thr hd x) hshm.2 (s.write_hnd hd x) hshm.1 ?_
  intro hd' q hq
  obtain ⟨q', hq', hpair⟩ := Option.map_eq_some_iff.mp hq
  obtain ⟨rfl, rfl⟩ := Prod.mk.inj hpair
  exact (hnew q' hq').frame fun i _ => ⟨rfl, by rw [hshm.1]⟩

section Advance

variable {p : Tid} {hd : Hid} {sp : Bool} {e : Event Tid Hid}

/-- Winning a ticket promises its payload; tickets already held are older. -/
theorem Coupled.enqCas {g : Goods} {oldIdx i : ℤ} {tryCnt : ℕ} (hc : Coupled w v s)
    (hi : Inv (alignCapa w) (ringOf v s))
    (heq : (e, t) = s.advance p hd (.enqCas g oldIdx tryCnt i) sp) :
    Coupled w (promise v e) t := by
  simp only [State.advance, act] at heq
  split at heq <;> obtain ⟨rfl, rfl⟩ := Prod.mk.inj heq
  · rename_i hwin
    refine hc.goto rfl ⟨rfl, rfl⟩ (fun _ => ⟨rfl, rfl⟩) hc.tags ?_ ?_
    · intro q hd' pc' _ hq
      refine (hc.pc q hd' pc' hq).frame fun k hk => ⟨?_, rfl⟩
      have hk' : k ≠ i := by
        have hq' := ringOf_role (v := v) hq
        have hle := hi.head_le
        have htail : (ringOf v s).tail = i := hwin.1
        rcases Role.held_eq_some.mp hk with hk | hk <;> rw [hk] at hq' <;>
          have := (hi.role_ok hq').2.1 <;> omega
      exact Function.update_of_ne hk' _ _
    · rintro _ _ ⟨⟩
      exact Function.update_self ..
  · exact hc.stay (x := .none) (by simp)
      (by rintro _ ⟨⟩; exact .of_role_out (by simp [Role.held]))

/-- Copying in: the cell has one holder, so nobody else is copying to or from it. -/
theorem Coupled.enqCopy {g : Goods} {i : ℤ} {k : ℕ} (hc : Coupled w v s)
    (hi : Inv (alignCapa w) (ringOf v s)) (hp : s.thr p = some (hd, .enqCopy g i k))
    (heq : (e, t) = s.advance p hd (.enqCopy g i k) sp) : Coupled w (promise v e) t := by
  have hrole : (ringOf v s).role p = .filling i := ringOf_role hp
  obtain ⟨hval, hcopy⟩ : v i = g ∧ Copied k (s.shm.base (i % alignCapa w)).goods g :=
    hc.pc p hd _ hp
  simp only [State.advance, act, hc.nodeIdx hd] at heq
  split at heq <;> obtain ⟨rfl, rfl⟩ := Prod.mk.inj heq
  · rename_i hk
    obtain ⟨h0, hlt⟩ := hi.cell_range i
    refine hc.node (hc.tags _ h0 hlt) ?_ ?_
    · intro q k' hqp hk' heq
      exact absurd (hi.holder_unique hk' (by rw [hrole]; rfl) heq) hqp
    · rintro _ _ ⟨⟩
      refine ⟨hval, ?_⟩
      simpa [Shm.setNode] using hcopy.snoc hk
  · have hturn : (s.shm.base (i % alignCapa w)).tTag = i := (hi.role_ok hrole).2.2.1
    exact hc.node (Or.inl hturn.symm) (fun _ _ _ _ _ => rfl) (by rintro _ _ ⟨⟩; trivial)

theorem Coupled.deqCopy {c : Caller} {g : Goods} {i : ℤ} {k : ℕ} (hc : Coupled w v s)
    (hi : Inv (alignCapa w) (ringOf v s)) (hp : s.thr p = some (hd, .deqCopy c g i k))
    (heq : (e, t) = s.advance p hd (.deqCopy c g i k) sp) : Coupled w (promise v e) t := by
  have hcopy : Copied k g (s.shm.base (i % alignCapa w)).goods := hc.pc p hd _ hp
  simp only [State.advance, act, hc.nodeIdx hd] at heq
  split at heq <;> obtain ⟨rfl, rfl⟩ := Prod.mk.inj heq
  · rename_i hk
    exact hc.stay (x := .none) (by simp) (by rintro _ ⟨⟩; exact hcopy.snoc hk)
  · obtain ⟨hfull, hturn⟩ := hi.full_of_draining (i := i) (ringOf_role hp)
    have htag : (s.shm.base (i % alignCapa w)).hTag = i := Eq.trans hfull hturn
    refine hc.node (Or.inr ?_) (fun _ _ _ _ _ => rfl) (by rintro _ _ ⟨⟩; trivial)
    simp [htag, (hc.hnd hd).1]

/-- **The code of one thread keeps the coupling.** -/
theorem Coupled.advance {pc : Pc} (hc : Coupled w v s) (hi : Inv (alignCapa w) (ringOf v s))
    (hp : s.thr p = some (hd, pc)) (heq : (e, t) = s.advance p hd pc sp) :
    Coupled w (promise v e) t := by
  cases pc with
  | enqTest g oldIdx tryCnt i =>
    simp only [State.advance, act] at heq
    split at heq <;> obtain ⟨rfl, rfl⟩ := Prod.mk.inj heq
    · exact hc.stay (x := .none) (by simp) (by rintro _ ⟨⟩; trivial)
    · exact hc.stay (x := .none) (by simp)
        (by rintro _ ⟨⟩; exact .of_role_out (by simp [Role.held]))
  | enqCas g oldIdx tryCnt i => exact hc.enqCas hi heq
  | enqWon g i =>
    obtain ⟨rfl, rfl⟩ := Prod.mk.inj heq
    exact hc.stay (x := .errs _) (by simp) (by rintro _ ⟨⟩; exact ⟨hc.pc p hd _ hp, .zero _ _⟩)
  | enqCopy g i k => exact hc.enqCopy hi hp heq
  | deqTest c g tryCnt i =>
    simp only [State.advance, act] at heq
    split at heq <;> obtain ⟨rfl, rfl⟩ := Prod.mk.inj heq <;>
      exact hc.stay (x := .none) (by simp) (by rintro _ ⟨⟩; trivial)
  | deqCas c g tryCnt i =>
    simp only [State.advance, act] at heq
    split at heq <;> obtain ⟨rfl, rfl⟩ := Prod.mk.inj heq
    · exact hc.stay (x := .store (.head _)) (by rintro _ ⟨⟩; exact ⟨rfl, rfl, rfl⟩)
        (by rintro _ ⟨⟩; trivial)
    · exact hc.stay (x := .none) (by simp)
        (by rintro _ ⟨⟩; exact .of_role_out (by simp [Role.held]))
  | enqFail | deqFail _ _ =>
    obtain ⟨rfl, rfl⟩ := Prod.mk.inj heq
    exact hc.stay (x := .errs _) (by simp) (by rintro _ ⟨⟩; trivial)
  | deqWon c g i =>
    obtain ⟨rfl, rfl⟩ := Prod.mk.inj heq
    exact hc.stay (x := .errs _) (by simp) (by rintro _ ⟨⟩; exact .zero _ _)
  | deqCopy c g i k => exact hc.deqCopy hi hp heq
  | enqLoad _ _ _ | deqLoad _ _ _ | obsTail _ | obsHead _ _ | errLoad =>
    obtain ⟨rfl, rfl⟩ := Prod.mk.inj heq
    exact hc.stay (x := .none) (by simp) (by rintro _ ⟨⟩; trivial)
  | ret c a won =>
    obtain ⟨rfl, rfl⟩ := Prod.mk.inj heq
    refine hc.stay (x := .none) (by simp) ?_
    intro q hq
    have hout := roleOf_afterRet hd c a
    rw [show afterRet c a = some q from hq] at hout
    exact .of_role_out (by rw [show q.role = .out from hout]; rfl)

end Advance

end Simulation

/-! ## The refinement -/

section Refinement

variable {w : ℤ} {weak : Bool} {s : State Tid Hid}

/-- A segment fresh from `make` is an empty ring. -/
theorem ring_start [DecidableEq Tid] :
    (TicketRing.system (alignCapa w) Tid Goods).init (ring [] (State.start Tid Hid w)) where
  head := by simp [ring, ringOf, State.start, make_shm]
  tail := by simp [ring, ringOf, State.start, make_shm]
  turn j h0 hj := by simp [ring, ringOf, State.start, make_shm, h0, hj]
  full j h0 hj := by
    have := alignCapa_pos w
    simp only [ring, ringOf, State.start, make_shm, h0, hj, and_self, if_true]
    omega
  role _ := rfl

theorem coupled_start (v : ℤ → Goods) : Coupled w v (State.start Tid Hid w) where
  capa := by simp [State.start, make_shm]
  mask := by simp [State.start, make_shm]
  hnd h := by simp [State.start, make_handle]
  tags j h0 hj := by simp [State.start, make_shm, h0, hj]
  pc p h pc hp := by cases hp

variable [DecidableEq Tid] [DecidableEq Hid]

/-- **The queue refines the ticket ring.** -/
theorem queue_refines : System.Refinement (queue Tid Hid w weak)
    (TicketRing.system (alignCapa w) Tid Goods) ring (fun π => Coupled w (promised π)) where
  init s hs := by
    obtain rfl : s = State.start Tid Hid w := hs
    exact ⟨ring_start, coupled_start _⟩
  step π s e t hρ hc hnext := by
    obtain ⟨ρ, hρ⟩ := hρ
    have hi := TicketRing.inv_of_run (alignCapa_pos w) hρ
    simp only [ring, promised_snoc]
    rcases next_cases hnext with ⟨p, hd, op, hp, rfl, rfl⟩ | ⟨p, hd, pc, sp, -, hp, heq⟩
    · constructor
      · right
        rw [ringOf_goto, roleOf_entry]
        exact ⟨p, .leave (by simp [ringOf, roleOf, hp, Role.held])⟩
      · refine hc.quiet rfl ⟨rfl, rfl⟩ (fun _ => ⟨rfl, rfl⟩) rfl ?_
        intro hd' pc hpc
        obtain ⟨rfl, rfl⟩ := Prod.mk.inj (Option.some.inj hpc)
        exact .of_role_out (by rw [show op.entry.role = .out from roleOf_entry hd op]; rfl)
    · exact ⟨(ring_advance hc hi hp heq).imp id fun h => ⟨p, h⟩, hc.advance hi hp heq⟩

variable {π : List (Event Tid Hid × State Tid Hid)}

/-- The invariant of the ring holds after every run of the queue. -/
theorem inv_of_run (h : (queue Tid Hid w weak).Run π s) : Inv (alignCapa w) (ring π s) := by
  obtain ⟨ρ, hρ⟩ := (queue_refines.run h).1
  exact TicketRing.inv_of_run (alignCapa_pos w) hρ

/-- The coupling holds after every run of the queue. -/
theorem coupled_of_run (h : (queue Tid Hid w weak).Run π s) : Coupled w (promised π) s :=
  (queue_refines.run h).2

end Refinement

end ShmAtmRQ

end LeonUtils
