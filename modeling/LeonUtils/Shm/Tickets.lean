import LeonUtils.Shm.Refine
import LeonUtils.Shm.Solo
import Mathlib.Data.List.Nodup

/-!
# Tickets, payloads and ownership

What the refinement to the ticket ring says about the queue in its own words: tickets are won in
order and once, a payload comes out under the ticket it went in under, a node is held by one
thread at a time, and between calls the memory spells out the contents.

## Main definitions

* `enqTickets`, `deqTickets` — the tickets won in a history, in order
* `Gave` — a ticket was won by an `enque` called with this payload
* `Won` — a ticket was won by a `deque` that is still in progress
* `Canonical` — the picture of the contents that memory shows between calls

## Main results

* `enqTickets_eq`, `deqTickets_eq` — the tickets won so far are those below the counters
* `accounted_of_run` — what a history says about the calls in progress and those that returned
* `tickets_exact` — tickets and payloads, together
* `ownership` — the counters, the holders, and the published nodes
* `canonical_of_idle` — the memory between calls
-/

namespace LeonUtils

namespace ShmAtmRQ

open Transition TicketRing

variable {Tid Hid : Type}

/-! ## Tickets won -/

/-- The ticket an `enque` wins in a step, if it wins one. -/
def Act.enqTicket : Act Hid → Option ℤ
  | .enqWin i _ => some i
  | _ => none

/-- The ticket a `deque` wins in a step, if it wins one. -/
def Act.deqTicket : Act Hid → Option ℤ
  | .deqWin i => some i
  | _ => none

/-- The tickets won by `enque` calls, in the order in which they were won. -/
def enqTickets (es : List (Event Tid Hid)) : List ℤ := es.filterMap fun e => e.2.enqTicket

/-- The tickets won by `deque` calls, in the order in which they were won. -/
def deqTickets (es : List (Event Tid Hid)) : List ℤ := es.filterMap fun e => e.2.deqTicket

/-- The tickets `0, …, k - 1`. -/
def ticketsBelow (k : ℤ) : List ℤ := (List.range k.toNat).map fun i : ℕ => (i : ℤ)

theorem ticketsBelow_succ {k : ℤ} (hk : 0 ≤ k) : ticketsBelow (k + 1) = ticketsBelow k ++ [k] := by
  have hn : (k + 1).toNat = k.toNat + 1 := by omega
  rw [ticketsBelow, hn, List.range_succ, List.map_append]
  simp [ticketsBelow, hk]

theorem mem_ticketsBelow {k i : ℤ} : i ∈ ticketsBelow k ↔ 0 ≤ i ∧ i < k := by
  simp only [ticketsBelow, List.mem_map, List.mem_range]
  constructor
  · rintro ⟨j, hj, rfl⟩
    omega
  · rintro ⟨h0, hlt⟩
    exact ⟨i.toNat, by omega, by omega⟩

theorem nodup_ticketsBelow (k : ℤ) : (ticketsBelow k).Nodup :=
  List.Nodup.map Nat.cast_injective List.nodup_range

section Steps

variable [DecidableEq Tid] [DecidableEq Hid] {w : ℤ} {weak : Bool} {s t : State Tid Hid}
  {e : Event Tid Hid}

omit [DecidableEq Hid] in
/-- An act that writes nothing takes no ticket. -/
theorem tickets_of_silent {a : Act Hid} (h : a.Silent) :
    a.enqTicket = none ∧ a.deqTicket = none := by
  cases a <;> first | exact ⟨rfl, rfl⟩ | cases h

/-- `_tail` moves exactly when an `enque` wins, and then by one. -/
theorem tail_of_next (h : (queue Tid Hid w weak).next s e t) :
    (e.2.enqTicket = some s.shm.tail ∧ t.shm.tail = s.shm.tail + 1) ∨
      (e.2.enqTicket = none ∧ t.shm.tail = s.shm.tail) := by
  obtain ⟨p, a⟩ := e
  rcases next_writes h with ⟨hsil, hshm⟩ | ⟨hd, pc, x, -, hwr, hshm⟩
  · exact Or.inr ⟨(tickets_of_silent hsil).1, by rw [hshm]⟩
  · cases hwr with
    | silent hsil => exact Or.inr ⟨(tickets_of_silent hsil).1, by rw [hshm]; rfl⟩
    | enqWin g oldIdx tryCnt i hi =>
      subst hi
      exact Or.inl ⟨rfl, by rw [hshm]; rfl⟩
    | _ => exact Or.inr ⟨rfl, by rw [hshm]; rfl⟩

/-- `_head` moves exactly when a `deque` wins, and then by one. -/
theorem head_of_next (h : (queue Tid Hid w weak).next s e t) :
    (e.2.deqTicket = some s.shm.head ∧ t.shm.head = s.shm.head + 1) ∨
      (e.2.deqTicket = none ∧ t.shm.head = s.shm.head) := by
  obtain ⟨p, a⟩ := e
  rcases next_writes h with ⟨hsil, hshm⟩ | ⟨hd, pc, x, -, hwr, hshm⟩
  · exact Or.inr ⟨(tickets_of_silent hsil).2, by rw [hshm]⟩
  · cases hwr with
    | silent hsil => exact Or.inr ⟨(tickets_of_silent hsil).2, by rw [hshm]; rfl⟩
    | deqWin c g tryCnt i hi =>
      subst hi
      exact Or.inl ⟨rfl, by rw [hshm]; rfl⟩
    | _ => exact Or.inr ⟨rfl, by rw [hshm]; rfl⟩

theorem tail_counts : (queue Tid Hid w weak).Counts (fun s => s.shm.tail) fun e => e.2.enqTicket :=
  fun _ _ _ => tail_of_next

theorem head_counts : (queue Tid Hid w weak).Counts (fun s => s.shm.head) fun e => e.2.deqTicket :=
  fun _ _ _ => head_of_next

theorem tail_le_of_next (h : (queue Tid Hid w weak).next s e t) : s.shm.tail ≤ t.shm.tail := by
  rcases tail_of_next h with ⟨-, h⟩ | ⟨-, h⟩ <;> omega

theorem head_le_of_next (h : (queue Tid Hid w weak).next s e t) : s.shm.head ≤ t.shm.head := by
  rcases head_of_next h with ⟨-, h⟩ | ⟨-, h⟩ <;> omega

variable {π : List (Event Tid Hid × State Tid Hid)}

theorem counters_nonneg (h : (queue Tid Hid w weak).Run π s) :
    0 ≤ s.shm.head ∧ s.shm.head ≤ s.shm.tail :=
  ⟨(inv_of_run h).head_nonneg, (inv_of_run h).head_le⟩

/-- The tickets producers have won are those below `_tail`, in order. -/
theorem enqTickets_eq (h : (queue Tid Hid w weak).Run π s) :
    enqTickets (System.events π) = ticketsBelow s.shm.tail := by
  obtain ⟨s₀, rfl, hsteps⟩ := h
  have hnumbers := (hsteps.numbers tail_counts).2
  simpa [State.start, make_shm, enqTickets, ticketsBelow] using hnumbers

/-- The tickets consumers have won are those below `_head`, in order. -/
theorem deqTickets_eq (h : (queue Tid Hid w weak).Run π s) :
    deqTickets (System.events π) = ticketsBelow s.shm.head := by
  obtain ⟨s₀, rfl, hsteps⟩ := h
  have hnumbers := (hsteps.numbers head_counts).2
  simpa [State.start, make_shm, deqTickets, ticketsBelow] using hnumbers

end Steps

/-! ## What a history says about the calls in progress -/

section Account

variable [DecidableEq Tid]

/-- Account for one event in what thread `p` was last asked to do. -/
def noteCall (p : Tid) (c : Option Op) (e : Event Tid Hid) : Option Op :=
  match e.2 with
  | .call _ op => if e.1 = p then some op else c
  | _ => c

/-- The last call of thread `p` in a history. -/
def lastOp (es : List (Event Tid Hid)) (p : Tid) : Option Op := es.foldl (noteCall p) none

theorem lastOp_snoc (es : List (Event Tid Hid)) (e : Event Tid Hid) (p : Tid) :
    lastOp (es ++ [e]) p = noteCall p (lastOp es p) e := by
  simp [lastOp]

/-- Ticket `i` was won by an `enque` whose caller passed `g`. -/
def Gave (es : List (Event Tid Hid)) (i : ℤ) (g : Goods) : Prop :=
  ∃ q es₁ es₂, es = es₁ ++ (q, .enqWin i g) :: es₂ ∧ lastOp es₁ q = some (.enque g)

theorem Gave.snoc {es : List (Event Tid Hid)} {i : ℤ} {g : Goods} (h : Gave es i g)
    (e : Event Tid Hid) : Gave (es ++ [e]) i g := by
  obtain ⟨q, es₁, es₂, rfl, hq⟩ := h
  exact ⟨q, es₁, es₂ ++ [e], by simp, hq⟩

/-- Thread `p` has won ticket `i` for a `deque` that has not returned since. -/
def Won (es : List (Event Tid Hid)) (p : Tid) (i : ℤ) : Prop :=
  ∃ es₁ es₂, es = es₁ ++ (p, .deqWin i) :: es₂ ∧ ∀ a won, (p, Act.ret a won) ∉ es₂

omit [DecidableEq Tid] in
theorem Won.snoc {es : List (Event Tid Hid)} {p : Tid} {i : ℤ} (h : Won es p i)
    {e : Event Tid Hid} (he : ∀ a won, e ≠ (p, .ret a won)) : Won (es ++ [e]) p i := by
  obtain ⟨es₁, es₂, rfl, hret⟩ := h
  refine ⟨es₁, es₂ ++ [e], by simp, ?_⟩
  intro a won hmem
  rcases List.mem_append.mp hmem with hmem | hmem
  · exact hret a won hmem
  · exact he a won (List.mem_singleton.mp hmem).symm

/-- What the history says about thread `p` at a position: which payload it was given, or which
ticket it has won, or what it is about to hand out. -/
def Account (es : List (Event Tid Hid)) (p : Tid) : Pc → Prop
  | .enqLoad g _ _ | .enqTest g _ _ _ | .enqCas g _ _ _ | .enqWon g _ | .enqCopy g _ _ =>
    lastOp es p = some (.enque g)
  | .deqWon _ _ i | .deqCopy _ _ i _ => Won es p i
  | .ret _ (.deque true g) won => ∃ i, won = some i ∧ Won es p i ∧ Gave es i g
  | .ret _ (.enque true) won => ∃ i, won = some i ∧ (p, .publish i) ∈ es
  | _ => True

/-- An event of another thread, or one that is neither a call nor a return, keeps the account. -/
theorem Account.snoc {es : List (Event Tid Hid)} {p : Tid} {pc : Pc} (h : Account es p pc)
    {e : Event Tid Hid} (he : noteCall p (lastOp es p) e = lastOp es p)
    (hret : ∀ a won, e ≠ (p, .ret a won)) : Account (es ++ [e]) p pc := by
  cases pc with
  | enqLoad g _ _ => exact ((lastOp_snoc es e p).trans he).trans h
  | enqTest g _ _ _ => exact ((lastOp_snoc es e p).trans he).trans h
  | enqCas g _ _ _ => exact ((lastOp_snoc es e p).trans he).trans h
  | enqWon g _ => exact ((lastOp_snoc es e p).trans he).trans h
  | enqCopy g _ _ => exact ((lastOp_snoc es e p).trans he).trans h
  | deqWon _ _ i => exact Won.snoc h hret
  | deqCopy _ _ i _ => exact Won.snoc h hret
  | ret c a won =>
    cases a with
    | deque ok g =>
      cases ok with
      | false => trivial
      | true =>
        obtain ⟨i, hw, hwin, hg⟩ := h
        exact ⟨i, hw, hwin.snoc hret, hg.snoc e⟩
    | enque ok =>
      cases ok with
      | false => trivial
      | true =>
        obtain ⟨i, hw, hpub⟩ := h
        exact ⟨i, hw, List.mem_append_left _ hpub⟩
    | _ => trivial
  | _ => trivial

theorem noteCall_of_ne {p : Tid} {c : Option Op} {e : Event Tid Hid} (h : p ≠ e.1) :
    noteCall p c e = c := by
  rw [noteCall]
  split
  · exact if_neg h.symm
  · rfl

omit [DecidableEq Tid] in
/-- The code starts no call. -/
theorem act_ne_call (m : Shm) (h : Handle) (spurious : Bool) (pc : Pc) (hd : Hid) (op : Op) :
    (act m h spurious pc).1 ≠ .call hd op := by
  cases pc <;> simp only [act, ne_eq, reduceCtorEq, not_false_eq_true] <;> split <;> simp

theorem noteCall_act (m : Shm) (h : Handle) (spurious : Bool) (pc : Pc) (p : Tid)
    (c : Option Op) : noteCall p c (p, (act (H := Hid) m h spurious pc).1) = c := by
  rw [noteCall]
  split
  · rename_i hcall
    exact absurd hcall (act_ne_call _ _ _ _ _ _)
  · rfl

omit [DecidableEq Tid] in
/-- The code returns only where it is about to. -/
theorem act_ret {m : Shm} {hd : Handle} {spurious : Bool} {pc : Pc} {a : Ans} {won : Option ℤ}
    (h : (act (H := Hid) m hd spurious pc).1 = .ret a won) : ∃ c, pc = .ret c a won := by
  cases pc with
  | ret c a' won' =>
    cases h
    exact ⟨c, rfl⟩
  | _ =>
    simp only [act, reduceCtorEq] at h
    try split at h <;> cases h

theorem account_enqRetry {es : List (Event Tid Hid)} {p : Tid} {g : Goods} {oldIdx : ℤ}
    {tryCnt : ℕ} {curIdx : ℤ} (h : lastOp es p = some (.enque g)) :
    Account es p (enqRetry g oldIdx tryCnt curIdx) := by
  unfold enqRetry
  dsimp only
  generalize (if curIdx ≠ oldIdx then 0 else tryCnt) = k
  split
  · trivial
  · exact h

theorem account_deqRetry {es : List (Event Tid Hid)} {p : Tid} {c : Caller} {g : Goods}
    {tryCnt : ℕ} : Account es p (deqRetry c g tryCnt) := by
  rw [deqRetry]
  split <;> trivial

theorem account_afterRet {es : List (Event Tid Hid)} {p : Tid} {c : Caller} {a : Ans} {pc : Pc}
    (h : afterRet c a = some pc) : Account es p pc := by
  simp only [afterRet] at h
  split at h <;> cases h <;> trivial

/-- What a history says, about the calls in progress and about those that have returned. -/
structure Accounted (π : List (Event Tid Hid × State Tid Hid)) (s : State Tid Hid) : Prop where
  thr : ∀ p h pc, s.thr p = some (h, pc) → Account (System.events π) p pc
  gave : ∀ i, 0 ≤ i → i < s.shm.tail → Gave (System.events π) i (promised π i)
  got : ∀ es₁ es₂ p g won, System.events π = es₁ ++ (p, .ret (.deque true g) won) :: es₂ →
    ∃ i, won = some i ∧ Won es₁ p i ∧ Gave es₁ i g
  put : ∀ p won, (p, Act.ret (.enque true) won) ∈ System.events π →
    ∃ i, won = some i ∧ (p, Act.publish i) ∈ System.events π

variable [DecidableEq Hid] {w : ℤ} {weak : Bool} {s t : State Tid Hid}
  {π : List (Event Tid Hid × State Tid Hid)}

/-- At the end of its copy a consumer has, byte for byte, what its ticket promised. -/
theorem copied_promised (h : (queue Tid Hid w weak).Run π s) {p : Tid} {hd : Hid} {c : Caller}
    {g : Goods} {i : ℤ} {k : ℕ} (hp : s.thr p = some (hd, .deqCopy c g i k))
    (hk : ¬ k < loadSize) : g = promised π i ∧ 0 ≤ i ∧ i < s.shm.tail := by
  have hi := inv_of_run h
  obtain ⟨h0, hlt⟩ := hi.cell_range i
  obtain ⟨hi0, hhead, hturn⟩ := hi.role_ok (ringOf_role hp)
  have hfull := hi.full_of_lt _ h0 hlt (by rw [hturn]; exact hhead)
  have hcell := hi.full_cell _ h0 hlt hfull
  rw [hturn] at hcell
  exact ⟨(Copied.eq ((coupled_of_run h).pc p hd _ hp) hk).trans hcell, hi0,
    lt_of_lt_of_le hhead hi.head_le⟩

/-- The code of one thread keeps its account. -/
theorem Account.advance (h : (queue Tid Hid w weak).Run π s) (ha : Accounted π s) {p : Tid}
    {hd : Hid} {pc : Pc} {sp : Bool} {e : Event Tid Hid} (hp : s.thr p = some (hd, pc))
    (heq : (e, t) = s.advance p hd pc sp) {hd' : Hid} {pc' : Pc}
    (hp' : t.thr p = some (hd', pc')) : Account (System.events π ++ [e]) p pc' := by
  have hpc := ha.thr p hd pc hp
  obtain ⟨he, ht⟩ := Prod.mk.inj heq
  subst ht he
  rw [State.goto_thr_self] at hp'
  obtain ⟨q, hq, hpair⟩ := Option.map_eq_some_iff.mp hp'
  obtain ⟨-, rfl⟩ := Prod.mk.inj hpair
  -- what the old history says is still said; only three steps rest on their own event
  have hold : ∀ {pc' : Pc}, (∀ c a won, pc ≠ .ret c a won) → Account (System.events π) p pc' →
      Account (System.events π ++ [(p, (act (H := Hid) s.shm (s.hnd hd) sp pc).1)]) p pc' :=
    fun hpc h => h.snoc (noteCall_act _ _ _ _ _ _) fun a won heq => by
      obtain ⟨c, hret⟩ := act_ret (Prod.mk.inj heq).2
      exact hpc c a won hret
  cases pc with
  | enqLoad g oldIdx tryCnt =>
    cases hq
    exact hold (by simp) hpc
  | enqTest g oldIdx tryCnt i =>
    refine hold (by simp) ?_
    simp only [act] at hq
    split at hq <;> cases hq
    · exact hpc
    · exact account_enqRetry hpc
  | enqCas g oldIdx tryCnt i =>
    refine hold (by simp) ?_
    simp only [act] at hq
    split at hq <;> cases hq
    · exact hpc
    · exact account_enqRetry hpc
  | enqFail =>
    cases hq
    trivial
  | enqWon g i =>
    cases hq
    exact hold (by simp) hpc
  | enqCopy g i k =>
    simp only [act] at hq
    split at hq <;> rename_i hk <;> cases hq
    · exact hold (by simp) hpc
    · exact ⟨i, rfl, by simp [act, hk]⟩
  | deqLoad c g tryCnt =>
    cases hq
    trivial
  | deqTest c g tryCnt i =>
    simp only [act] at hq
    split at hq <;> cases hq <;> trivial
  | deqCas c g tryCnt i =>
    simp only [act] at hq
    split at hq <;> rename_i hwin <;> cases hq
    · simp only [act, if_pos hwin]
      exact ⟨System.events π, [], rfl, by simp⟩
    · exact account_deqRetry
  | deqFail c g =>
    cases hq
    trivial
  | deqWon c g i =>
    cases hq
    exact hold (by simp) hpc
  | deqCopy c g i k =>
    refine hold (by simp) ?_
    simp only [act] at hq
    split at hq <;> rename_i hk <;> cases hq
    · exact hpc
    · obtain ⟨rfl, hi0, hlt⟩ := copied_promised h hp hk
      exact ⟨i, rfl, hpc, ha.gave i hi0 hlt⟩
  | obsTail o =>
    cases hq
    trivial
  | obsHead o tail =>
    cases hq
    cases o <;> trivial
  | errLoad =>
    cases hq
    trivial
  | ret c a won => exact account_afterRet hq

omit [DecidableEq Hid] in
/-- A segment fresh from `make` has nothing to account for. -/
theorem accounted_start : Accounted [] (State.start Tid Hid w) where
  thr p h pc hp := by cases hp
  gave i h0 hi := by
    simp only [State.start, make_shm] at hi
    omega
  got es₁ es₂ p g won h := by simp at h
  put p won h := by cases h

/-- A step leaves alone what the tickets below `_tail` promise. -/
theorem promise_of_lt {v : ℤ → Goods} {e : Event Tid Hid}
    (h : (queue Tid Hid w weak).next s e t) {i : ℤ} (hi : i < s.shm.tail) :
    promise v e i = v i := by
  have htail := tail_of_next h
  obtain ⟨p, a⟩ := e
  cases a with
  | enqWin k g =>
    have hk : k = s.shm.tail := by simpa [Act.enqTicket] using htail.imp And.left And.left
    exact Function.update_of_ne (by omega) _ _
  | _ => rfl

/-- A win of `enque` is made by a thread that is about to make it, and takes the ticket at
`_tail`. -/
theorem enqWin_of_next {p : Tid} {i : ℤ} {g : Goods}
    (h : (queue Tid Hid w weak).next s (p, .enqWin i g) t) :
    s.shm.tail = i ∧ ∃ hd oldIdx tryCnt, s.thr p = some (hd, .enqCas g oldIdx tryCnt i) := by
  rcases next_writes h with ⟨hsil, -⟩ | ⟨hd, pc, x, hp, hwr, -⟩
  · exact hsil.elim
  · cases hwr with
    | silent hsil => exact hsil.elim
    | enqWin g oldIdx tryCnt i hi => exact ⟨hi, hd, oldIdx, tryCnt, hp⟩

theorem ret_of_next {p : Tid} {a : Ans} {won : Option ℤ}
    (h : (queue Tid Hid w weak).next s (p, .ret a won) t) :
    ∃ hd c, s.thr p = some (hd, .ret c a won) := by
  rcases next_cases h with ⟨q, hd, op, -, heq, -⟩ | ⟨q, hd, pc, sp, -, hq, heq⟩
  · cases heq
  · obtain ⟨rfl, hret⟩ := Prod.mk.inj (Prod.mk.inj heq).1
    obtain ⟨c, rfl⟩ := act_ret hret.symm
    exact ⟨hd, c, hq⟩

/-- What a step leads its thread to is accounted for. -/
theorem account_of_next {e : Event Tid Hid} (h : (queue Tid Hid w weak).Run π s)
    (ha : Accounted π s) (hnext : (queue Tid Hid w weak).next s e t) {hd : Hid} {pc : Pc}
    (hpc : t.thr e.1 = some (hd, pc)) : Account (System.events π ++ [e]) e.1 pc := by
  rcases next_cases hnext with ⟨p, hd, op, hp, rfl, rfl⟩ | ⟨p, hd, pc, sp, -, hp, heq⟩
  · rw [State.goto_thr_self] at hpc
    cases hpc
    cases op <;> first | trivial | simp [Op.entry, Account, lastOp_snoc, noteCall]
  · obtain rfl : e.1 = p := by rw [(Prod.mk.inj heq).1]
    exact Account.advance h ha hp heq hpc

/-- **One step keeps the account.** -/
theorem Accounted.step {e : Event Tid Hid} (h : (queue Tid Hid w weak).Run π s)
    (ha : Accounted π s) (hnext : (queue Tid Hid w weak).next s e t) :
    Accounted (π ++ [(e, t)]) t := by
  have hev : System.events (π ++ [(e, t)]) = System.events π ++ [e] := by simp
  constructor <;> rw [hev]
  · intro q hd pc hq
    by_cases hne : q = e.1
    · subst hne
      exact account_of_next h ha hnext hq
    · rw [thr_of_ne hnext hne] at hq
      exact (ha.thr q hd pc hq).snoc (noteCall_of_ne hne) fun a won he => hne (by rw [he])
  · intro i h0 hi
    rw [promised_snoc]
    rcases lt_or_ge i s.shm.tail with hlt | hge
    · rw [promise_of_lt hnext hlt]
      exact (ha.gave i h0 hlt).snoc e
    · obtain ⟨p, a⟩ := e
      have htail := tail_of_next hnext
      cases a with
      | enqWin k g =>
        obtain ⟨rfl, hd, oldIdx, tryCnt, hp⟩ := enqWin_of_next hnext
        simp only [Act.enqTicket, reduceCtorEq, false_and, or_false] at htail
        obtain rfl : i = s.shm.tail := by omega
        rw [show promise (promised π) (p, .enqWin s.shm.tail g) s.shm.tail = g by simp [promise]]
        exact ⟨p, System.events π, [], rfl, ha.thr p hd _ hp⟩
      | _ =>
        simp only [Act.enqTicket, reduceCtorEq, false_and, true_and, false_or] at htail
        omega
  · intro es₁ es₂ q g won hq
    rcases List.eq_nil_or_concat es₂ with rfl | ⟨es₂', e', rfl⟩
    · obtain ⟨rfl, he⟩ := List.append_inj' hq rfl
      obtain rfl := List.singleton_inj.mp he
      obtain ⟨hd, c, hp⟩ := ret_of_next hnext
      exact ha.thr q hd _ hp
    · rw [List.concat_eq_append, ← List.cons_append, ← List.append_assoc] at hq
      exact ha.got es₁ es₂' q g won (List.append_inj' hq rfl).1
  · intro q won hq
    rcases List.mem_append.mp hq with hq | hq
    · obtain ⟨i, hw, hpub⟩ := ha.put q won hq
      exact ⟨i, hw, List.mem_append_left _ hpub⟩
    · obtain rfl := List.mem_singleton.mp hq
      obtain ⟨hd, c, hp⟩ := ret_of_next hnext
      obtain ⟨i, hw, hpub⟩ := ha.thr q hd _ hp
      exact ⟨i, hw, List.mem_append_left _ hpub⟩

theorem accounted_of_run (h : (queue Tid Hid w weak).Run π s) : Accounted π s := by
  refine System.Run.induction (P := Accounted) ?_ ?_ h
  · rintro s rfl
    exact accounted_start
  · intro π s e t hrun ha hnext
    exact ha.step hrun hnext

end Account

/-! ## The results -/

section Results

variable [DecidableEq Tid] [DecidableEq Hid] {w : ℤ} {weak : Bool} {s t : State Tid Hid}
  {π : List (Event Tid Hid × State Tid Hid)}

/-- **Each ticket is won once on either side, and a payload comes out, whole, under the ticket it
went in under.** A return of `deque` that succeeded was preceded by the win of its ticket in the
same call, and hands out what the winner of that ticket was called with. -/
theorem tickets_exact (h : (queue Tid Hid w weak).Run π s) :
    (enqTickets (System.events π)).Nodup ∧
    (∀ i, i ∈ enqTickets (System.events π) ↔ 0 ≤ i ∧ i < s.shm.tail) ∧
    (deqTickets (System.events π)).Nodup ∧
    (∀ i, i ∈ deqTickets (System.events π) ↔ 0 ≤ i ∧ i < s.shm.head) ∧
    ∀ es₁ es₂ p g won, System.events π = es₁ ++ (p, .ret (.deque true g) won) :: es₂ →
      ∃ i, won = some i ∧ Won es₁ p i ∧ Gave es₁ i g := by
  rw [enqTickets_eq h, deqTickets_eq h]
  exact ⟨nodup_ticketsBelow _, fun _ => mem_ticketsBelow, nodup_ticketsBelow _,
    fun _ => mem_ticketsBelow, (accounted_of_run h).got⟩

omit [DecidableEq Tid] [DecidableEq Hid] in
theorem start_node (w : ℤ) (h : Hid) : ((State.start Tid Hid w).hnd h).nodeIdx 0 = 0 := by
  classical
  have hc : Coupled w (fun _ _ => 0) (State.start Tid Hid w) := coupled_start _
  simpa using hc.nodeIdx h 0

/-- There is a run in which one payload goes in and comes out again. -/
theorem exists_roundTrip (w : ℤ) (weak : Bool) (p q : Tid) (h k : Hid) (g buf : Goods) :
    ∃ (π : List (Event Tid Hid × State Tid Hid)) (s : State Tid Hid),
      (queue Tid Hid w weak).Run (π ++ [((q, .ret (.deque true g) (some 0)), s)]) s ∧
      s.shm.tail = 1 := by
  obtain ⟨s₀, hs₀⟩ : ∃ s₀, s₀ = State.start Tid Hid w := ⟨_, rfl⟩
  have hpos := alignCapa_pos w
  have hhead : s₀.shm.head = 0 := by simp [hs₀, State.start, make_shm]
  have htail : s₀.shm.tail = 0 := by simp [hs₀, State.start, make_shm]
  have hfree : (s₀.shm.base 0).tTag = 0 := by simp [hs₀, State.start, make_shm, hpos]
  have hj : ∀ k, (s₀.hnd k).nodeIdx 0 = 0 := fun k => by rw [hs₀, start_node]
  have hidle : ∀ r, s₀.thr r = none := fun r => by rw [hs₀]; rfl
  obtain ⟨π₁, h₁⟩ := (finishes_enque (p := p) (g := g) htail (hj h) hfree).steps
    w weak (hidle p)
  have hnode : (s₀.enqued h g).shm.base 0 = ⟨0, g, 0⟩ := by
    simp [enqued_base s₀ h g ((congrArg _ htail).trans (hj h)), htail, hfree]
  rw [goto_idle (s := s₀.enqued h g) (hidle p)] at h₁
  obtain ⟨π₂, h₂⟩ := (finishes_deque (s := s₀.enqued h g) (p := q) (g := buf) hhead
    ((enqued_nodeIdx s₀ h k g 0).trans (hj k)) (by rw [hnode])).steps
    w weak (hidle q)
  rw [hnode, goto_idle (s := (s₀.enqued h g).dequed k) (hidle q)] at h₂
  have hrun := ((System.Run.nil hs₀).steps h₁).steps h₂
  rw [← List.append_assoc] at hrun
  exact ⟨_, _, hrun, by rw [dequed_tail, enqued_tail, htail]; rfl⟩

/-- A payload to try things out with. -/
def sample : Goods := fun b => .ofNat b

theorem tickets_exact_roundTrip :
    ∃ (π : List (Event (Fin 2) Unit × State (Fin 2) Unit)) (s : State (Fin 2) Unit),
      (queue (Fin 2) Unit 32 true).Run (π ++ [((1, .ret (.deque true sample) (some 0)), s)]) s ∧
      (deqTickets (System.events (π ++ [((1, .ret (.deque true sample) (some 0)), s)]))).Nodup ∧
      Won (System.events π) 1 0 ∧ Gave (System.events π) 0 sample := by
  obtain ⟨π, s, hrun, -⟩ := exists_roundTrip 32 true (0 : Fin 2) 1 () () sample fun _ => 0
  obtain ⟨-, -, hnodup, -, hgot⟩ := tickets_exact hrun
  obtain ⟨i, hi, hwon, hgave⟩ := hgot (System.events π) [] 1 sample (some 0) (by simp)
  obtain rfl := Option.some.inj hi
  exact ⟨π, s, hrun, hnodup, hwon, hgave⟩

/-! ### Ownership of nodes -/

/-- The ticket a thread has won and not yet passed on by storing a tag. -/
def Pc.ticket : Pc → Option ℤ
  | .enqWon _ i | .enqCopy _ i _ | .deqWon _ _ i | .deqCopy _ _ i _ => some i
  | _ => none

omit [DecidableEq Tid] [DecidableEq Hid] in
/-- The node a thread is between winning and storing the tag of. -/
def State.node (s : State Tid Hid) (p : Tid) : Option ℤ :=
  match s.thr p with
  | none => none
  | some (h, pc) => pc.ticket.map (s.hnd h).nodeIdx

theorem held_role (pc : Pc) : pc.role.held = pc.ticket := by cases pc <;> rfl

/-- A thread works on the node of the ticket it holds. -/
theorem exists_held (h : (queue Tid Hid w weak).Run π s) {p : Tid} {j : ℤ}
    (hp : s.node p = some j) :
    ∃ i, ((ring π s).role p).held = some i ∧ i % alignCapa w = j := by
  rw [State.node] at hp
  split at hp
  · cases hp
  · rename_i hd pc hpc
    obtain ⟨i, hi, hj⟩ := Option.map_eq_some_iff.mp hp
    refine ⟨i, ?_, ?_⟩
    · rw [ring, ringOf_role hpc, held_role, hi]
    · rw [← hj, (coupled_of_run h).nodeIdx]

/-- **No step writes the payload of a published node** but the release of its ticket. -/
theorem published_next {e : Event Tid Hid} (h : (queue Tid Hid w weak).Run π s)
    (hnext : (queue Tid Hid w weak).next s e t) {i j : ℤ}
    (hpub : (s.shm.base j).hTag = i ∧ (s.shm.base j).tTag = i)
    (hrel : ∀ q, e ≠ (q, .release i)) :
    ((t.shm.base j).hTag = i ∧ (t.shm.base j).tTag = i) ∧
      (t.shm.base j).goods = (s.shm.base j).goods ∧ ∀ q, e ≠ (q, .copyIn j) := by
  have hi := inv_of_run h
  have hc := coupled_of_run h
  have hfull : (ring π s).full j := hpub.1.trans hpub.2.symm
  -- a producer that writes holds a ticket whose node is not full
  have hne : ∀ {p hd pc k}, s.thr p = some (hd, pc) → pc.role = .filling k →
      j ≠ (s.hnd hd).nodeIdx k := fun hp hrole heq => by
    rw [hc.nodeIdx] at heq
    have hok := hi.role_ok ((ringOf_role hp).trans hrole)
    exact hok.2.2.2 (heq ▸ hfull)
  obtain ⟨p, a⟩ := e
  rcases next_writes hnext with ⟨hsil, hshm⟩ | ⟨hd, pc, x, hp, hwr, hshm⟩
  · rw [hshm]
    refine ⟨hpub, rfl, ?_⟩
    intro q hq
    obtain ⟨rfl, rfl⟩ := Prod.mk.inj hq
    exact hsil
  · rw [hshm]
    cases hwr with
    | silent hsil =>
      refine ⟨hpub, rfl, ?_⟩
      intro q hq
      obtain ⟨rfl, rfl⟩ := Prod.mk.inj hq
      exact hsil
    | copyIn g k b hb =>
      have hjk := hne hp rfl
      simp only [State.write_store_shm, Shm.store, Shm.setNode, Function.update_of_ne hjk]
      refine ⟨hpub, trivial, ?_⟩
      intro q hq
      simp only [Prod.mk.injEq, Act.copyIn.injEq] at hq
      exact hjk hq.2.symm
    | publish g k b hb =>
      have hjk := hne hp rfl
      simp only [State.write_store_shm, Shm.store, Shm.setNode, Function.update_of_ne hjk]
      exact ⟨hpub, trivial, fun q => by simp⟩
    | release c g k b hb =>
      have hjk : j ≠ (s.hnd hd).nodeIdx k := by
        intro heq
        rw [hc.nodeIdx] at heq
        have hturn : (s.shm.base (k % alignCapa w)).tTag = k :=
          (hi.role_ok (ringOf_role hp)).2.2
        rw [← heq, hpub.2] at hturn
        exact hrel p (by rw [hturn])
      simp only [State.write_store_shm, Shm.store, Shm.setNode, Function.update_of_ne hjk]
      exact ⟨hpub, trivial, fun q => by simp⟩
    | _ => exact ⟨hpub, rfl, fun q => by simp⟩

/-- What a producer has published stays as it is until its ticket is released. -/
theorem published_steps {ρ : List (Event Tid Hid × State Tid Hid)}
    (h : (queue Tid Hid w weak).Run π s) (hsteps : (queue Tid Hid w weak).Steps s ρ t) {i j : ℤ}
    (hpub : (s.shm.base j).hTag = i ∧ (s.shm.base j).tTag = i)
    (hrel : ∀ q, (q, Act.release i) ∉ System.events ρ) :
    ((t.shm.base j).hTag = i ∧ (t.shm.base j).tTag = i) ∧
      (t.shm.base j).goods = (s.shm.base j).goods ∧ ∀ q, (q, Act.copyIn j) ∉ System.events ρ := by
  induction hsteps with
  | refl => exact ⟨hpub, rfl, fun q => List.not_mem_nil⟩
  | @snoc ρ m u e hsteps hnext ih =>
    simp only [System.events_append, System.events_singleton, List.mem_append,
      List.mem_singleton, not_or] at hrel ⊢
    obtain ⟨hpub', hgoods, hcopy⟩ := ih fun q => (hrel q).1
    obtain ⟨hpub'', hgoods', hcopy'⟩ :=
      published_next (h.steps hsteps) hnext hpub' fun q => Ne.symm (hrel q).2
    exact ⟨hpub'', hgoods'.trans hgoods, fun q => ⟨hcopy q, Ne.symm (hcopy' q)⟩⟩

/-- Right after its publication a node carries its ticket in both tags. -/
theorem publish_tags {p : Tid} {i : ℤ} (h : (queue Tid Hid w weak).Run π s)
    (hnext : (queue Tid Hid w weak).next s (p, .publish i) t) :
    (t.shm.base (i % alignCapa w)).hTag = i ∧ (t.shm.base (i % alignCapa w)).tTag = i := by
  rcases next_writes hnext with ⟨hsil, -⟩ | ⟨hd, pc, x, hp, hwr, hshm⟩
  · exact hsil.elim
  · rw [hshm]
    cases hwr with
    | silent hsil => exact hsil.elim
    | publish g i k hk =>
      have hturn : (s.shm.base (i % alignCapa w)).tTag = i :=
        ((inv_of_run h).role_ok (ringOf_role hp)).2.2.1
      simp [Shm.store, Shm.setNode, (coupled_of_run h).nodeIdx, hturn]

/-- **Ownership of nodes.** No more than `capacity` tickets are outstanding, a node is worked on
by one thread at a time, and from its publication to its release no payload is written. -/
theorem ownership (h : (queue Tid Hid w weak).Run π s) :
    (0 ≤ s.shm.tail - s.shm.head ∧ s.shm.tail - s.shm.head ≤ alignCapa w) ∧
    (∀ p q j, s.node p = some j → s.node q = some j → p = q) ∧
    ∀ p i s' ρ t, (queue Tid Hid w weak).next s (p, .publish i) s' →
      (queue Tid Hid w weak).Steps s' ρ t → (∀ q, (q, Act.release i) ∉ System.events ρ) →
      (∀ q, (q, Act.copyIn (i % alignCapa w)) ∉ System.events ρ) ∧
        (t.shm.base (i % alignCapa w)).goods = (s'.shm.base (i % alignCapa w)).goods := by
  have hi := inv_of_run h
  refine ⟨hi.tail_sub_head, fun p q j hp hq => ?_, fun p i s' ρ t hpub hsteps hrel => ?_⟩
  · obtain ⟨i, hi', hij⟩ := exists_held h hp
    obtain ⟨k, hk, hkj⟩ := exists_held h hq
    exact hi.holder_unique hi' hk (hij.trans hkj.symm)
  · obtain ⟨-, hgoods, hcopy⟩ :=
      published_steps (h.snoc hpub) hsteps (publish_tags h hpub) hrel
    exact ⟨hcopy, hgoods⟩

theorem ownership_roundTrip :
    ∃ (π : List (Event (Fin 2) Unit × State (Fin 2) Unit)) (s : State (Fin 2) Unit),
      (queue (Fin 2) Unit 32 true).Run π s ∧ s.shm.tail = 1 ∧
      (0 ≤ s.shm.tail - s.shm.head ∧ s.shm.tail - s.shm.head ≤ alignCapa 32) ∧
      ∀ p q j, s.node p = some j → s.node q = some j → p = q := by
  obtain ⟨π, s, hrun, htail⟩ := exists_roundTrip 32 true (0 : Fin 2) 1 () () sample fun _ => 0
  exact ⟨_, s, hrun, htail, (ownership hrun).1, (ownership hrun).2.1⟩

/-! ### Between calls -/

/-- The picture of the contents that memory shows when no call is in progress: the node of each
ticket that is in the queue carries the ticket in both tags, with its payload; the node of each
ticket still to come carries it in `t_tag` and the ticket of the lap before in `h_tag`. -/
def Canonical (capa : ℤ) (es : List (Event Tid Hid)) (m : Shm) : Prop :=
  ∀ j, 0 ≤ j → j < capa → ∃ i, (m.head ≤ i ∧ i < m.head + capa ∧ i % capa = j) ∧
    (∀ k, m.head ≤ k → k < m.head + capa → k % capa = j → k = i) ∧
    if i < m.tail then
      (m.base j).hTag = i ∧ (m.base j).tTag = i ∧ Gave es i (m.base j).goods
    else (m.base j).tTag = i ∧ (m.base j).hTag = i - capa

/-- The one ticket of a window that belongs to a given cell. -/
theorem exists_window {n : ℤ} (hn : 0 < n) (a : ℤ) {j : ℤ} (h0 : 0 ≤ j) (hj : j < n) :
    ∃ i, a ≤ i ∧ i < a + n ∧ i % n = j := by
  refine ⟨a + (j - a) % n, ?_, ?_, ?_⟩
  · have := Int.emod_nonneg (j - a) hn.ne'
    omega
  · have := Int.emod_lt_of_pos (j - a) hn
    omega
  · rw [Int.add_emod_emod, add_sub_cancel, Int.emod_eq_of_lt h0 hj]

/-- **Between calls the memory spells out the contents**, and a process that attaches then gets
the right copies of capacity and mask. -/
theorem canonical_of_idle (h : (queue Tid Hid w weak).Run π s) (hidle : ∀ p, s.thr p = none) :
    Canonical (alignCapa w) (System.events π) s.shm ∧
    (s.shm.head ≤ s.shm.tail ∧ s.shm.tail ≤ s.shm.head + alignCapa w) ∧
    plug (wantBytes (alignCapa w)) s.shm = .ok ⟨alignCapa w, alignCapa w - 1, 0⟩ := by
  have hi := inv_of_run h
  have hc := coupled_of_run h
  have hpos := alignCapa_pos w
  have hquiet : ∀ p, ((ring π s).role p).held = none := by
    intro p
    simp [ring, ringOf, roleOf, hidle p, Role.held]
  refine ⟨fun j h0 hj => ?_, ?_, ?_⟩
  · obtain ⟨i, hhead, hlt, rfl⟩ := exists_window hpos s.shm.head h0 hj
    obtain ⟨hturn, hfull⟩ := hi.turn_of_quiet hquiet hhead hlt
    refine ⟨i, ⟨hhead, hlt, rfl⟩, fun k hk hk' hmod =>
      eq_of_emod_eq hmod (by omega) (by omega), ?_⟩
    split
    · rename_i htail
      have hf := hfull.mpr htail
      have hcell := hi.full_cell _ h0 hj hf
      refine ⟨Eq.trans hf hturn, hturn, ?_⟩
      have hgave := (accounted_of_run h).gave i (hi.head_nonneg.trans hhead) htail
      rw [hturn] at hcell
      rwa [show (s.shm.base (i % alignCapa w)).goods = promised π i from hcell]
    · rename_i htail
      have htags := hc.tags _ h0 hj
      have hturn' : (s.shm.base (i % alignCapa w)).tTag = i := hturn
      refine ⟨hturn', ?_⟩
      rcases htags with htags | htags
      · exact absurd (hfull.mp htags) htail
      · rw [htags, hturn']
  · have := hi.tail_sub_head
    simp only [ring, ringOf] at this
    omega
  · simp [plug, hc.capa, hc.mask]

/-- A fresh segment can be filled up to its capacity. -/
theorem run_filled (w : ℤ) (weak : Bool) (p : Tid) (h : Hid) (g : ℕ → Goods) {n : ℕ}
    (hn : n ≤ alignCapa w) :
    (∃ π, (queue Tid Hid w weak).Run π (State.filled Tid w h g n)) ∧
      (∀ q, (State.filled Tid w h g n).thr q = none) ∧
      (State.filled Tid w h g n).shm.head = 0 ∧ (State.filled Tid w h g n).shm.tail = n := by
  induction n with
  | zero => exact ⟨⟨[], .nil rfl⟩, fun _ => rfl, by simp [State.filled, State.start, make_shm],
      by simp [State.filled, State.start, make_shm]⟩
  | succ n ih =>
    obtain ⟨⟨π, hrun⟩, hidle, hhead, htail⟩ := ih (by omega)
    have hi := inv_of_run hrun
    have hturn := (hi.turn_of_quiet (fun q => by simp [ring, ringOf, roleOf, hidle q, Role.held])
      (i := n) (show (State.filled Tid w h g n).shm.head ≤ n by omega)
      (show (n : ℤ) < (State.filled Tid w h g n).shm.head + alignCapa w by omega)).1
    obtain ⟨ρ, hρ⟩ := (finishes_enque (p := p) (h := h) (g := g n) htail
      ((coupled_of_run hrun).nodeIdx h n) hturn).steps w weak (hidle p)
    rw [goto_idle (s := (State.filled Tid w h g n).enqued h (g n)) (hidle p)] at hρ
    refine ⟨⟨_, hrun.steps hρ⟩, hidle, hhead, ?_⟩
    rw [State.filled, enqued_tail, htail]
    push_cast
    rfl

theorem canonical_filled :
    ∃ π, (queue (Fin 2) Unit 32 true).Run π (State.filled (Fin 2) 32 () (fun _ => sample) 3) ∧
      Canonical (alignCapa 32) (System.events π)
        (State.filled (Fin 2) 32 () (fun _ => sample) 3).shm := by
  obtain ⟨⟨π, hrun⟩, hidle, -, -⟩ := run_filled 32 true (0 : Fin 2) () (fun _ => sample)
    (n := 3) (by decide)
  exact ⟨π, hrun, (canonical_of_idle hrun hidle).1⟩

end Results

end ShmAtmRQ

end LeonUtils
