import LeonUtils.Craflin.Refine
import LeonUtils.Shm.Tickets

/-!
# The stages of a ticket

A ticket goes through the same stages on each side, one after the other. A producer's is built,
published, and the call returns; a consumer's is moved from, destroyed, released, and the call
returns. Each stage is one event, so a history can be asked how often a ticket has passed a stage.
The answer is once or never, and which of the two can be read off the present state.

## Main definitions

* `Pc.stage`, `Act.stage` — the stage a position waits for, and the stage an event is
* `Staged` — the invariant that ties the history of each ticket to the state
* `Owned` — who won a ticket, according to the history

## Main results

* `act_progress` — what the code does to a ticket, said once
* `staged_of_run` — the invariant after every run of fewer than `2 ^ 64` tickets
* `owned_of_run` — a ticket is worked on by the thread that won it
-/

namespace LeonUtils

namespace CraflinRQ

open Transition TicketRing
open ShmAtmRQ (ticketsBelow ticketsBelow_succ mem_ticketsBelow nodup_ticketsBelow)

variable {Tid T : Type}

/-- The stage of a return: the last one of a call that succeeds. -/
def Ans.stage : Ans T → Option ℤ → Option (Side × ℤ × ℕ)
  | .enque true, some i => some (.enq, i, 2)
  | .deque true _, some i => some (.deq, i, 3)
  | _, _ => none

/-- The stage a position waits for: side, ticket, and the number of stages passed. -/
def Pc.stage : Pc T → Option (Side × ℤ × ℕ)
  | .enqBuild _ i => some (.enq, i, 0)
  | .enqStore _ i => some (.enq, i, 1)
  | .deqMove _ i => some (.deq, i, 0)
  | .deqKill _ i => some (.deq, i, 1)
  | .deqStore _ i => some (.deq, i, 2)
  | .ret a won => a.stage won
  | _ => none

/-- The stage an event is. -/
def Act.stage : Act T → Option (Side × ℤ × ℕ)
  | .construct i _ _ => some (.enq, i, 0)
  | .publish i => some (.enq, i, 1)
  | .moveFrom i _ _ => some (.deq, i, 0)
  | .destroy i _ _ => some (.deq, i, 1)
  | .release i => some (.deq, i, 2)
  | .ret a won => a.stage won
  | _ => none

/-- The stage a thread waits for, idle or in a call. -/
def stageOf (x : Option (Pc T)) : Option (Side × ℤ × ℕ) := x.bind Pc.stage

@[simp] theorem stageOf_none : stageOf (none : Option (Pc T)) = none := rfl

@[simp] theorem stageOf_some (pc : Pc T) : stageOf (some pc) = pc.stage := rfl

/-- The last stage, that of the return. -/
def Side.last : Side → ℕ
  | .enq => 2
  | .deq => 3

theorem Ans.stage_last {a : Ans T} {won : Option ℤ} {sd : Side} {i : ℤ} {k : ℕ}
    (h : a.stage won = some (sd, i, k)) : k = sd.last := by
  simp only [Ans.stage] at h
  split at h <;> cases h <;> rfl

theorem Act.stage_le {a : Act T} {sd : Side} {i : ℤ} {k : ℕ} (h : a.stage = some (sd, i, k)) :
    k ≤ sd.last := by
  cases a with
  | ret a won => exact (Ans.stage_last h).le
  | _ =>
    cases h
    try decide

/-- The counter of a side. -/
def Mem.counter (m : Mem T) : Side → ℤ
  | .enq => m.tail
  | .deq => m.head

/-- Thread `p` has won a ticket. -/
def Owned (es : List (Event Tid T)) (p : Tid) (x : Side × ℤ) : Prop :=
  ∃ a, (p, a) ∈ es ∧ a.won = some x

theorem Owned.append {es : List (Event Tid T)} {p : Tid} {x : Side × ℤ} (h : Owned es p x)
    (fs : List (Event Tid T)) : Owned (es ++ fs) p x := by
  obtain ⟨a, ha, hx⟩ := h
  exact ⟨a, List.mem_append_left _ ha, hx⟩

/-- What the code does to tickets: nothing; it wins one; it passes a stage; or it throws. -/
inductive Progress (m : Mem T) (pc : Pc T) : Act T → Mem T → Option (Pc T) → Prop
  | idle {a : Act T} {m' : Mem T} {x : Option (Pc T)} (hpc : pc.stage = none)
      (ha : a.stage = none) (hx : stageOf x = none) (hm : ∀ sd, m'.counter sd = m.counter sd)
      (hw : a.won = none) (hL : ∀ L : Ledger T, L.note a = L) : Progress m pc a m' x
  | win {a : Act T} {m' : Mem T} {x : Option (Pc T)} (sd : Side) (hpc : pc.stage = none)
      (ha : a.stage = none) (hx : stageOf x = some (sd, m.counter sd, 0))
      (hm : m'.counter sd = wrap (m.counter sd + 1))
      (hm' : ∀ sd', sd' ≠ sd → m'.counter sd' = m.counter sd')
      (hw : a.won = some (sd, m.counter sd))
      (hL : ∀ L : Ledger T, (L.note a).lost = L.lost) : Progress m pc a m' x
  | pass {a : Act T} {m' : Mem T} {x : Option (Pc T)} (sd : Side) (i : ℤ) (k : ℕ)
      (hpc : pc.stage = some (sd, i, k)) (ha : a.stage = some (sd, i, k))
      (hx : stageOf x = some (sd, i, k + 1) ∨ stageOf x = none ∧ k = sd.last)
      (hm : ∀ sd, m'.counter sd = m.counter sd) (hw : a.won = none)
      (hL : ∀ L : Ledger T, L.note a = L) : Progress m pc a m' x
  | throws (sd : Side) (i : ℤ) {a : Act T} (hpc : pc.stage = some (sd, i, 0))
      (ha : a.stage = none) (hw : a.won = none)
      (hL : ∀ L : Ledger T, L.note a =
        { L with lost := Function.update L.lost (sd, i) true }) : Progress m pc a m none

theorem act_progress (m : Mem T) (l : Luck) (pc : Pc T) :
    Progress m pc (act m l pc).1 (act m l pc).2.1 (act m l pc).2.2 := by
  cases pc with
  | enqTest v i =>
    simp only [act]
    split <;> exact .idle rfl rfl rfl (fun _ => rfl) rfl fun _ => rfl
  | enqCas v i =>
    simp only [act]
    split
    · rename_i hwin
      obtain ⟨rfl, -⟩ := hwin
      refine .win .enq rfl rfl rfl rfl ?_ rfl fun _ => rfl
      intro sd hsd
      cases sd with
      | enq => exact absurd rfl hsd
      | deq => rfl
    · exact .idle rfl rfl rfl (fun _ => rfl) rfl fun _ => rfl
  | enqBuild v i =>
    simp only [act]
    split
    · exact .throws .enq i rfl rfl rfl fun _ => rfl
    · exact .pass .enq i 0 rfl rfl (Or.inl rfl) (fun sd => by cases sd <;> rfl) rfl fun _ => rfl
  | enqStore v i =>
    exact .pass .enq i 1 rfl rfl (Or.inl rfl) (fun sd => by cases sd <;> rfl) rfl fun _ => rfl
  | deqTest d i =>
    simp only [act]
    split <;> exact .idle rfl rfl rfl (fun _ => rfl) rfl fun _ => rfl
  | deqCas d i =>
    simp only [act]
    split
    · rename_i hwin
      obtain ⟨rfl, -⟩ := hwin
      refine .win .deq rfl rfl rfl rfl ?_ rfl fun _ => rfl
      intro sd hsd
      cases sd with
      | enq => rfl
      | deq => exact absurd rfl hsd
    · exact .idle rfl rfl rfl (fun _ => rfl) rfl fun _ => rfl
  | deqMove d i =>
    simp only [act]
    split
    · exact .throws .deq i rfl rfl rfl fun _ => rfl
    · exact .pass .deq i 0 rfl rfl (Or.inl rfl) (fun sd => by cases sd <;> rfl) rfl fun _ => rfl
  | deqKill d i =>
    exact .pass .deq i 1 rfl rfl (Or.inl rfl) (fun sd => by cases sd <;> rfl) rfl fun _ => rfl
  | deqStore d i =>
    exact .pass .deq i 2 rfl rfl (Or.inl rfl) (fun sd => by cases sd <;> rfl) rfl fun _ => rfl
  | ret a won =>
    cases hst : a.stage won with
    | none => exact .idle hst hst rfl (fun _ => rfl) rfl fun _ => rfl
    | some y =>
      obtain ⟨sd, i, k⟩ := y
      exact .pass sd i k hst hst (Or.inr ⟨rfl, Ans.stage_last hst⟩) (fun _ => rfl) rfl fun _ => rfl
  | _ => exact .idle rfl rfl rfl (fun _ => rfl) rfl fun _ => rfl

/-! ## How often a ticket has passed a stage -/

/-- How often ticket `i` has passed stage `k` in a history. -/
def passed (es : List (Event Tid T)) (sd : Side) (i : ℤ) (k : ℕ) : ℕ :=
  es.countP fun e => decide (e.2.stage = some (sd, i, k))

@[simp] theorem passed_snoc (es : List (Event Tid T)) (e : Event Tid T) (sd : Side) (i : ℤ)
    (k : ℕ) : passed (es ++ [e]) sd i k =
      passed es sd i k + if e.2.stage = some (sd, i, k) then 1 else 0 := by
  simp [passed, List.countP_append]

/-- Ticket `i` is past stage `k`: it has been won, its call has not thrown, and no thread waits
for that stage or an earlier one. -/
structure Past (L : Ledger T) (s : State Tid T) (sd : Side) (i : ℤ) (k : ℕ) : Prop where
  nonneg : 0 ≤ i
  lt : i < s.mem.counter sd
  kept : L.lost (sd, i) = false
  thr : ∀ p j, stageOf (s.thr p) = some (sd, i, j) → k < j

/-- What the stages say about a state and its history. -/
structure Staged (L : Ledger T) (es : List (Event Tid T)) (s : State Tid T) : Prop where
  counter : ∀ sd, 0 ≤ s.mem.counter sd
  bound : ∀ p sd i k, stageOf (s.thr p) = some (sd, i, k) →
    0 ≤ i ∧ i < s.mem.counter sd ∧ L.lost (sd, i) = false
  lost : ∀ sd i, L.lost (sd, i) = true → 0 ≤ i ∧ i < s.mem.counter sd
  unique : ∀ p q sd i j k, stageOf (s.thr p) = some (sd, i, j) →
    stageOf (s.thr q) = some (sd, i, k) → p = q
  once : ∀ sd i k, k ≤ sd.last → Past L s sd i k → passed es sd i k = 1
  never : ∀ sd i k, k ≤ sd.last → ¬ Past L s sd i k → passed es sd i k = 0

variable {L : Ledger T} {es : List (Event Tid T)} {s t : State Tid T}

/-- A step that passes no stage, and after which the same tickets are past the same stages. -/
theorem Staged.settled {L' : Ledger T} {e : Event Tid T} (h : Staged L es s)
    (he : e.2.stage = none) (hpast : ∀ sd i k, Past L' t sd i k ↔ Past L s sd i k) :
    (∀ sd i k, k ≤ sd.last → Past L' t sd i k → passed (es ++ [e]) sd i k = 1) ∧
      ∀ sd i k, k ≤ sd.last → ¬ Past L' t sd i k → passed (es ++ [e]) sd i k = 0 := by
  have hpassed : ∀ sd i k, passed (es ++ [e]) sd i k = passed es sd i k := by
    intro sd i k
    simp [he]
  constructor
  · intro sd i k hk hp
    exact (hpassed sd i k).trans (h.once sd i k hk ((hpast sd i k).mp hp))
  · intro sd i k hk hp
    exact (hpassed sd i k).trans (h.never sd i k hk fun h' => hp ((hpast sd i k).mpr h'))

/-- A change that no ticket notices. -/
theorem Staged.keep {L' : Ledger T} {e : Event Tid T} (h : Staged L es s)
    (he : e.2.stage = none) (hL : L'.lost = L.lost)
    (hcount : ∀ sd, t.mem.counter sd = s.mem.counter sd)
    (hthr : ∀ p, stageOf (t.thr p) = stageOf (s.thr p)) : Staged L' (es ++ [e]) t := by
  have hpast : ∀ sd i k, Past L' t sd i k ↔ Past L s sd i k := by
    intro sd i k
    constructor
    · rintro ⟨h0, hlt, hkept, hp⟩
      exact ⟨h0, hcount sd ▸ hlt, hL ▸ hkept, fun p j hj => hp p j ((hthr p).trans hj)⟩
    · rintro ⟨h0, hlt, hkept, hp⟩
      exact ⟨h0, (hcount sd).symm ▸ hlt, hL.symm ▸ hkept,
        fun p j hj => hp p j ((hthr p).symm.trans hj)⟩
  obtain ⟨honce, hnever⟩ := h.settled he hpast
  exact {
    counter := fun sd => (hcount sd).symm ▸ h.counter sd
    bound := by
      intro p sd i k hp
      rw [hthr p] at hp
      rw [hcount, hL]
      exact h.bound p sd i k hp
    lost := by
      intro sd i hi
      rw [hL] at hi
      rw [hcount]
      exact h.lost sd i hi
    unique := by
      intro p q sd i j k hp hq
      rw [hthr] at hp hq
      exact h.unique p q sd i j k hp hq
    once := honce
    never := hnever }

section Step

variable [DecidableEq Tid] {p : Tid} {pc : Pc T}

theorem stageOf_goto_self (m : Mem T) (x : Option (Pc T)) :
    stageOf ((s.goto p m x).thr p) = stageOf x := by
  rw [State.goto_thr_self]

theorem stageOf_goto_of_ne (m : Mem T) (x : Option (Pc T)) {q : Tid} (hq : q ≠ p) :
    stageOf ((s.goto p m x).thr q) = stageOf (s.thr q) := by
  rw [State.goto_thr_of_ne _ _ _ hq]

/-- Tickets stay apart when a thread works on none, or on one that nobody else works on. -/
theorem Staged.unique_goto {m : Mem T} {x : Option (Pc T)} (h : Staged L es s)
    (halone : ∀ sd i j, stageOf x = some (sd, i, j) →
      ∀ q j', q ≠ p → stageOf (s.thr q) ≠ some (sd, i, j')) :
    ∀ q q' sd i j j', stageOf ((s.goto p m x).thr q) = some (sd, i, j) →
      stageOf ((s.goto p m x).thr q') = some (sd, i, j') → q = q' := by
  intro q q' sd i j j' hq hq'
  by_cases hqp : q = p <;> by_cases hqp' : q' = p
  · rw [hqp, hqp']
  · subst hqp
    rw [stageOf_goto_self] at hq
    rw [stageOf_goto_of_ne _ _ hqp'] at hq'
    exact absurd hq' (halone sd i j hq q' j' hqp')
  · subst hqp'
    rw [stageOf_goto_self] at hq'
    rw [stageOf_goto_of_ne _ _ hqp] at hq
    exact absurd hq (halone sd i j' hq' q j hqp)
  · rw [stageOf_goto_of_ne _ _ hqp] at hq
    rw [stageOf_goto_of_ne _ _ hqp'] at hq'
    exact h.unique q q' sd i j j' hq hq'

section Win

variable {L' : Ledger T} {e : Event Tid T} {m : Mem T} {x : Option (Pc T)} {sd : Side}

omit [DecidableEq Tid] in
/-- The counters after a win. -/
theorem counter_le_of_win (hm : m.counter sd = s.mem.counter sd + 1)
    (hm' : ∀ sd', sd' ≠ sd → m.counter sd' = s.mem.counter sd') (sd' : Side) :
    s.mem.counter sd' ≤ m.counter sd' := by
  by_cases hsd : sd' = sd
  · subst hsd
    omega
  · exact (hm' sd' hsd).ge

/-- The ticket just won is at its first stage, and the others are where they were. -/
theorem past_win (hp : stageOf (s.thr p) = none)
    (hx : stageOf x = some (sd, s.mem.counter sd, 0)) (hL : L'.lost = L.lost)
    (hm : m.counter sd = s.mem.counter sd + 1)
    (hm' : ∀ sd', sd' ≠ sd → m.counter sd' = s.mem.counter sd') (sd' : Side) (i : ℤ) (k : ℕ) :
    Past L' (s.goto p m x) sd' i k ↔ Past L s sd' i k := by
  constructor
  · rintro ⟨h0, hlt, hkept, hthr⟩
    have hne : ¬ (sd' = sd ∧ i = s.mem.counter sd) := by
      rintro ⟨rfl, rfl⟩
      exact absurd (hthr p 0 (by rw [stageOf_goto_self, hx])) (Nat.not_lt_zero _)
    refine ⟨h0, ?_, hL ▸ hkept, ?_⟩
    · change i < m.counter sd' at hlt
      by_cases hsd : sd' = sd
      · subst hsd
        have : i ≠ s.mem.counter sd' := fun heq => hne ⟨rfl, heq⟩
        omega
      · rwa [hm' sd' hsd] at hlt
    · intro q j hq
      refine hthr q j ?_
      rw [stageOf_goto_of_ne]
      · exact hq
      · rintro rfl
        rw [hp] at hq
        cases hq
  · rintro ⟨h0, hlt, hkept, hthr⟩
    refine ⟨h0, hlt.trans_le (counter_le_of_win hm hm' sd'), hL.symm ▸ hkept, ?_⟩
    intro q j hq
    by_cases hqp : q = p
    · subst hqp
      rw [stageOf_goto_self, hx] at hq
      cases hq
      exact absurd hlt (lt_irrefl _)
    · rw [stageOf_goto_of_ne _ _ hqp] at hq
      exact hthr q j hq

/-- A thread wins the next ticket of its side. -/
theorem Staged.win (h : Staged L es s) (hp : stageOf (s.thr p) = none) (he : e.2.stage = none)
    (hx : stageOf x = some (sd, s.mem.counter sd, 0)) (hL : L'.lost = L.lost)
    (hm : m.counter sd = s.mem.counter sd + 1)
    (hm' : ∀ sd', sd' ≠ sd → m.counter sd' = s.mem.counter sd') :
    Staged L' (es ++ [e]) (s.goto p m x) := by
  have hgrow := counter_le_of_win hm hm'
  obtain ⟨honce, hnever⟩ := h.settled he (past_win hp hx hL hm hm')
  exact {
    counter := fun sd' => (h.counter sd').trans (hgrow sd')
    bound := by
      intro q sd' i k hq
      by_cases hqp : q = p
      · subst hqp
        rw [stageOf_goto_self, hx] at hq
        cases hq
        refine ⟨h.counter sd, ?_, ?_⟩
        · change s.mem.counter sd < m.counter sd
          omega
        · rw [hL]
          by_contra hlost
          exact absurd (h.lost sd _ (eq_true_of_ne_false hlost)).2 (lt_irrefl _)
      · rw [stageOf_goto_of_ne _ _ hqp] at hq
        obtain ⟨h0, hlt, hkept⟩ := h.bound q sd' i k hq
        exact ⟨h0, hlt.trans_le (hgrow sd'), hL.symm ▸ hkept⟩
    lost := by
      intro sd' i hi
      rw [hL] at hi
      exact ⟨(h.lost sd' i hi).1, (h.lost sd' i hi).2.trans_le (hgrow sd')⟩
    unique := by
      refine h.unique_goto fun sd' i j hst q j' _ hq => ?_
      rw [hx] at hst
      cases hst
      exact absurd (h.bound q _ _ _ hq).2.1 (lt_irrefl _)
    once := honce
    never := hnever }

end Win

section Pass

variable {e : Event Tid T} {m : Mem T} {x : Option (Pc T)} {sd : Side} {i : ℤ} {k : ℕ}

/-- Where a thread is that has passed a stage: if it still works on a ticket, on the same one. -/
theorem stage_pass (hx : stageOf x = some (sd, i, k + 1) ∨ stageOf x = none ∧ k = sd.last)
    {sd' : Side} {i' : ℤ} {j : ℕ} (hst : stageOf ((s.goto p m x).thr p) = some (sd', i', j)) :
    sd' = sd ∧ i' = i ∧ j = k + 1 := by
  rw [stageOf_goto_self] at hst
  rcases hx with hx | ⟨hx, -⟩
  · rw [hx] at hst
    cases hst
    exact ⟨rfl, rfl, rfl⟩
  · rw [hx] at hst
    cases hst

/-- The ticket is past the stage now: nobody else works on it. -/
theorem past_pass (h : Staged L es s) (hp : stageOf (s.thr p) = some (sd, i, k))
    (hx : stageOf x = some (sd, i, k + 1) ∨ stageOf x = none ∧ k = sd.last)
    (hm : ∀ sd, m.counter sd = s.mem.counter sd) : Past L (s.goto p m x) sd i k := by
  obtain ⟨hi0, hilt, hikept⟩ := h.bound p sd i k hp
  refine ⟨hi0, (hm sd).symm ▸ hilt, hikept, ?_⟩
  intro q j hq
  by_cases hqp : q = p
  · subst hqp
    rw [(stage_pass hx hq).2.2]
    exact Nat.lt_succ_self k
  · rw [stageOf_goto_of_ne _ _ hqp] at hq
    exact absurd (h.unique q p sd i j k hq hp) hqp

/-- Nothing else has changed. -/
theorem past_pass_iff (hp : stageOf (s.thr p) = some (sd, i, k))
    (hx : stageOf x = some (sd, i, k + 1) ∨ stageOf x = none ∧ k = sd.last)
    (hm : ∀ sd, m.counter sd = s.mem.counter sd) {sd' : Side} {i' : ℤ} {k' : ℕ}
    (hk' : k' ≤ sd'.last) (hne : ¬ (sd' = sd ∧ i' = i ∧ k' = k)) :
    Past L (s.goto p m x) sd' i' k' ↔ Past L s sd' i' k' := by
  constructor
  · rintro ⟨h0, hlt, hkept, hthr⟩
    refine ⟨h0, hm sd' ▸ hlt, hkept, ?_⟩
    intro q j hq
    by_cases hqp : q = p
    · subst hqp
      obtain ⟨rfl, hrest⟩ := Prod.mk.inj (Option.some.inj (hp.symm.trans hq))
      obtain ⟨rfl, rfl⟩ := Prod.mk.inj hrest
      have hk : k' ≠ k := fun heq => hne ⟨rfl, rfl, heq⟩
      rcases hx with hx | ⟨-, hlast⟩
      · have hk1 := hthr q (k + 1) (by rw [stageOf_goto_self, hx])
        omega
      · omega
    · exact hthr q j (by rw [stageOf_goto_of_ne _ _ hqp, hq])
  · rintro ⟨h0, hlt, hkept, hthr⟩
    refine ⟨h0, (hm sd').symm ▸ hlt, hkept, ?_⟩
    intro q j hq
    by_cases hqp : q = p
    · subst hqp
      obtain ⟨rfl, rfl, rfl⟩ := stage_pass hx hq
      exact (hthr q k hp).trans (Nat.lt_succ_self k)
    · rw [stageOf_goto_of_ne _ _ hqp] at hq
      exact hthr q j hq

/-- A thread passes a stage. -/
theorem Staged.pass (h : Staged L es s) (hp : stageOf (s.thr p) = some (sd, i, k))
    (he : e.2.stage = some (sd, i, k))
    (hx : stageOf x = some (sd, i, k + 1) ∨ stageOf x = none ∧ k = sd.last)
    (hm : ∀ sd, m.counter sd = s.mem.counter sd) : Staged L (es ++ [e]) (s.goto p m x) := by
  obtain ⟨hi0, hilt, hikept⟩ := h.bound p sd i k hp
  have hbefore : ¬ Past L s sd i k := fun hpast => absurd (hpast.thr p k hp) (lt_irrefl _)
  have hnow : passed (es ++ [e]) sd i k = 1 := by
    simp [he, h.never sd i k (Act.stage_le he) hbefore]
  have hpassed : ∀ sd' i' k', ¬ (sd' = sd ∧ i' = i ∧ k' = k) →
      passed (es ++ [e]) sd' i' k' = passed es sd' i' k' := by
    intro sd' i' k' hne
    have : ¬ (sd = sd' ∧ i = i' ∧ k = k') := fun ⟨h1, h2, h3⟩ => hne ⟨h1.symm, h2.symm, h3.symm⟩
    simp [he, this]
  exact {
    counter := fun sd' => (hm sd').symm ▸ h.counter sd'
    bound := by
      intro q sd' i' j hq
      by_cases hqp : q = p
      · subst hqp
        obtain ⟨rfl, rfl, -⟩ := stage_pass hx hq
        exact ⟨hi0, (hm sd').symm ▸ hilt, hikept⟩
      · rw [stageOf_goto_of_ne _ _ hqp] at hq
        obtain ⟨h0, hlt, hkept⟩ := h.bound q sd' i' j hq
        exact ⟨h0, (hm sd').symm ▸ hlt, hkept⟩
    lost := fun sd' i' hi' => ⟨(h.lost sd' i' hi').1, (hm sd').symm ▸ (h.lost sd' i' hi').2⟩
    unique := by
      refine h.unique_goto fun sd' i' j hst q j' hq hst' => ?_
      obtain ⟨rfl, rfl, -⟩ := stage_pass hx ((stageOf_goto_self (s := s) (p := p) m x).trans hst)
      exact hq (h.unique q p _ _ _ _ hst' hp)
    once := by
      intro sd' i' k' hk' hp'
      by_cases hsame : sd' = sd ∧ i' = i ∧ k' = k
      · obtain ⟨rfl, rfl, rfl⟩ := hsame
        exact hnow
      · exact (hpassed sd' i' k' hsame).trans
          (h.once sd' i' k' hk' ((past_pass_iff hp hx hm hk' hsame).mp hp'))
    never := by
      intro sd' i' k' hk' hp'
      by_cases hsame : sd' = sd ∧ i' = i ∧ k' = k
      · obtain ⟨rfl, rfl, rfl⟩ := hsame
        exact absurd (past_pass h hp hx hm) hp'
      · exact (hpassed sd' i' k' hsame).trans
          (h.never sd' i' k' hk' fun h' => hp' ((past_pass_iff hp hx hm hk' hsame).mpr h')) }

end Pass

section Throws

variable {e : Event Tid T} {sd : Side} {i : ℤ}

/-- A ticket whose call throws has passed no stage before, and passes none after. -/
theorem past_throws (hp : stageOf (s.thr p) = some (sd, i, 0)) (sd' : Side) (i' : ℤ) (k : ℕ) :
    Past { L with lost := Function.update L.lost (sd, i) true } (s.goto p s.mem none) sd' i' k ↔
      Past L s sd' i' k := by
  constructor
  · rintro ⟨h0, hlt, hkept, hthr⟩
    change Function.update L.lost (sd, i) true (sd', i') = false at hkept
    have hne : (sd', i') ≠ (sd, i) := by
      intro heq
      rw [heq, Function.update_self] at hkept
      cases hkept
    rw [Function.update_of_ne hne] at hkept
    refine ⟨h0, hlt, hkept, ?_⟩
    intro q j hq
    have hqp : q ≠ p := by
      rintro rfl
      obtain ⟨rfl, hrest⟩ := Prod.mk.inj (Option.some.inj (hp.symm.trans hq))
      exact hne (by rw [(Prod.mk.inj hrest).1])
    exact hthr q j (by rw [stageOf_goto_of_ne _ _ hqp, hq])
  · rintro ⟨h0, hlt, hkept, hthr⟩
    have hne : (sd', i') ≠ (sd, i) := by
      intro heq
      obtain ⟨rfl, rfl⟩ := Prod.mk.inj heq
      exact absurd (hthr p 0 hp) (Nat.not_lt_zero k)
    refine ⟨h0, hlt, (Function.update_of_ne hne _ _).trans hkept, ?_⟩
    intro q j hq
    by_cases hqp : q = p
    · subst hqp
      rw [stageOf_goto_self] at hq
      cases hq
    · rw [stageOf_goto_of_ne _ _ hqp] at hq
      exact hthr q j hq

/-- A call throws at its first stage. -/
theorem Staged.throws (h : Staged L es s) (hp : stageOf (s.thr p) = some (sd, i, 0))
    (he : e.2.stage = none) :
    Staged { L with lost := Function.update L.lost (sd, i) true } (es ++ [e])
      (s.goto p s.mem none) := by
  obtain ⟨hi0, hilt, hikept⟩ := h.bound p sd i 0 hp
  obtain ⟨honce, hnever⟩ := h.settled he (past_throws hp)
  exact {
    counter := h.counter
    bound := by
      intro q sd' i' j hq
      by_cases hqp : q = p
      · subst hqp
        rw [stageOf_goto_self] at hq
        cases hq
      · rw [stageOf_goto_of_ne _ _ hqp] at hq
        have hne : (sd', i') ≠ (sd, i) := by
          intro heq
          obtain ⟨rfl, rfl⟩ := Prod.mk.inj heq
          exact hqp (h.unique q p _ _ _ _ hq hp)
        obtain ⟨h0, hlt, hkept⟩ := h.bound q sd' i' j hq
        exact ⟨h0, hlt, (Function.update_of_ne hne _ _).trans hkept⟩
    lost := by
      intro sd' i' hi'
      by_cases heq : (sd', i') = (sd, i)
      · obtain ⟨rfl, rfl⟩ := Prod.mk.inj heq
        exact ⟨hi0, hilt⟩
      · exact h.lost sd' i' ((Function.update_of_ne heq _ _).symm.trans hi')
    unique := h.unique_goto fun _ _ _ hst => nomatch hst
    once := honce
    never := hnever }

end Throws

/-- **The code of one thread keeps the stages.** -/
theorem Staged.advance {l : Luck} {e : Event Tid T} (h : Staged L es s)
    (hroom : ∀ sd, s.mem.counter sd + (e.2.wins : ℤ) < 2 ^ 64) (hp : s.thr p = some pc)
    (heq : (e, t) = s.advance p pc l) : Staged (L.note e.2) (es ++ [e]) t := by
  obtain ⟨rfl, rfl⟩ := Prod.mk.inj heq
  have hst : stageOf (s.thr p) = pc.stage := by rw [hp, stageOf_some]
  have hprog := act_progress s.mem l pc
  -- only what the code does to the ticket matters from here on
  generalize act s.mem l pc = x at hprog hroom
  obtain ⟨a, m, y⟩ := x
  cases hprog with
  | idle hpc ha hx hm hw hL =>
    refine h.keep ha (by rw [hL]) hm ?_
    intro q
    by_cases hq : q = p
    · subst hq
      rw [stageOf_goto_self, hst, hpc, hx]
    · rw [stageOf_goto_of_ne _ _ hq]
  | win sd hpc ha hx hm hm' hw hL =>
    have h0 := h.counter sd
    have hlt := hroom sd
    simp only [Act.wins, hw, Option.isSome_some, if_true] at hlt
    rw [wrap_of_lt (by omega) (by exact_mod_cast hlt)] at hm
    exact h.win (by rw [hst, hpc]) ha hx (hL L) hm hm'
  | pass sd i k hpc ha hx hm hw hL =>
    rw [hL]
    exact h.pass (by rw [hst, hpc]) ha hx hm
  | throws sd i hpc ha hw hL =>
    rw [hL]
    exact h.throws (by rw [hst, hpc]) ha

end Step

/-! ## Every run -/

section Run

variable [DecidableEq Tid] {sizeofNode capa : ℕ} {weak throwing : Bool}
  {π : List (Event Tid T × State Tid T)}

omit [DecidableEq Tid] in
theorem staged_start : Staged Ledger.new [] (State.start Tid T sizeofNode capa) where
  counter sd := by cases sd <;> simp [State.start, construct_eq, Mem.counter]
  bound p sd i k hp := by cases hp
  lost sd i hi := by cases hi
  unique p q sd i j k hp := by cases hp
  once sd i k hk hp := by
    have h0 := hp.nonneg
    have hlt := hp.lt
    cases sd <;> simp only [State.start, construct_eq, Mem.counter] at hlt <;> omega
  never sd i k _ _ := rfl

/-- Neither counter is at its limit when there are tickets left to win. -/
theorem counter_lt (h : (queue Tid T sizeofNode capa weak throwing).Run π s) {k : ℕ}
    (hwins : wins (System.events π) + k < 2 ^ 64) (sd : Side) :
    s.mem.counter sd + (k : ℤ) < 2 ^ 64 := by
  obtain ⟨hg, hcount⟩ := good_of_run h (by omega)
  have h0 : 0 ≤ s.mem.head := hg.ring.head_nonneg
  have hle : s.mem.head ≤ s.mem.tail := hg.ring.head_le
  cases sd <;> simp only [Mem.counter] <;> omega

/-- **The stages after every run** in which no counter reaches its limit. -/
theorem staged_of_run (h : (queue Tid T sizeofNode capa weak throwing).Run π s)
    (hwins : wins (System.events π) < 2 ^ 64) : Staged (ledger π) (System.events π) s := by
  revert hwins
  refine System.Run.induction (P := fun π s => wins (System.events π) < 2 ^ 64 →
    Staged (ledger π) (System.events π) s) ?_ ?_ h
  · rintro s rfl -
    exact staged_start
  · intro π s e t hrun ih hnext hwins
    simp only [System.events_append, System.events_singleton, wins_snoc, ledger_snoc] at hwins ⊢
    have hst := ih (by omega)
    rcases next_cases hnext with ⟨p, op, hp, rfl, rfl⟩ | ⟨p, pc, l, -, hp, heq⟩
    · have hentry : stageOf (some op.entry) = none := by cases op <;> rfl
      refine hst.keep rfl rfl (fun _ => rfl) ?_
      intro q
      by_cases hq : q = p
      · subst hq
        rw [stageOf_goto_self, hentry, hp]
        rfl
      · rw [stageOf_goto_of_ne _ _ hq]
    · exact hst.advance (counter_lt hrun hwins) hp heq

/-- The tickets won on one side, in the order in which they were won. -/
def tickets (es : List (Event Tid T)) (sd : Side) : List ℤ :=
  es.filterMap fun e => match e.2.won with
    | some (sd', i) => if sd' = sd then some i else none
    | none => none

/-- **The tickets won on a side are those below its counter**, in order. -/
theorem tickets_eq (h : (queue Tid T sizeofNode capa weak throwing).Run π s)
    (hwins : wins (System.events π) < 2 ^ 64) (sd : Side) :
    tickets (System.events π) sd = ticketsBelow (s.mem.counter sd) := by
  revert hwins
  refine System.Run.induction (P := fun π s => wins (System.events π) < 2 ^ 64 →
    tickets (System.events π) sd = ticketsBelow (s.mem.counter sd)) ?_ ?_ h
  · rintro s rfl -
    cases sd <;> simp [State.start, construct_eq, Mem.counter, tickets, ticketsBelow]
  · intro π s e t hrun ih hnext hwins
    simp only [System.events_append, System.events_singleton, wins_snoc] at hwins ⊢
    have hsplit : ∀ es : List (Event Tid T), tickets (es ++ [e]) sd =
        tickets es sd ++ tickets [e] sd := fun es => List.filterMap_append
    rw [hsplit, ih (by omega)]
    have hstart := (staged_of_run hrun (by omega)).counter sd
    rcases next_cases hnext with ⟨p, op, hp, rfl, rfl⟩ | ⟨p, pc, l, -, hp, heq⟩
    · exact List.append_nil _
    · obtain ⟨rfl, rfl⟩ := Prod.mk.inj heq
      have hroom := counter_lt hrun hwins sd
      have hprog := act_progress s.mem l pc
      generalize act s.mem l pc = x at hprog hroom
      obtain ⟨a, m, y⟩ := x
      change _ = ticketsBelow (m.counter sd)
      cases hprog with
      | win sd' hpc ha hx hm hm' hw hL =>
        by_cases hsd : sd' = sd
        · subst hsd
          simp only [Act.wins, hw, Option.isSome_some, if_true] at hroom
          rw [hm, wrap_of_lt (by omega) (by exact_mod_cast hroom), ticketsBelow_succ hstart]
          simp [tickets, hw]
        · rw [hm' sd (Ne.symm hsd)]
          simp [tickets, hw, hsd]
      | idle hpc ha hx hm hw hL => simp [tickets, hw, hm]
      | pass sd' i k hpc ha hx hm hw hL => simp [tickets, hw, hm]
      | throws sd' i hpc ha hw hL => simp [tickets, hw]

end Run

/-! ## Who works on a ticket -/

section Owners

variable [DecidableEq Tid] {sizeofNode capa : ℕ} {weak throwing : Bool}
  {π : List (Event Tid T × State Tid T)}

/-- **A ticket is worked on by the thread that won it**, at every stage. -/
theorem owned_of_run (h : (queue Tid T sizeofNode capa weak throwing).Run π s) :
    (∀ p sd i k, stageOf (s.thr p) = some (sd, i, k) → Owned (System.events π) p (sd, i)) ∧
      ∀ e ∈ System.events π, ∀ sd i k, e.2.stage = some (sd, i, k) →
        Owned (System.events π) e.1 (sd, i) := by
  refine System.Run.induction (P := fun π s =>
    (∀ p sd i k, stageOf (s.thr p) = some (sd, i, k) → Owned (System.events π) p (sd, i)) ∧
      ∀ e ∈ System.events π, ∀ sd i k, e.2.stage = some (sd, i, k) →
        Owned (System.events π) e.1 (sd, i)) ?_ ?_ h
  · rintro s rfl
    constructor
    · intro p sd i k hp
      cases hp
    · intro e he
      cases he
  · intro π s e t _ ⟨ihthr, ihes⟩ hnext
    simp only [System.events_append, System.events_singleton, List.mem_append, List.mem_singleton]
    have hkeep : ∀ p x, Owned (System.events π) p x → Owned (System.events π ++ [e]) p x :=
      fun p x hx => hx.append [e]
    rcases next_cases hnext with ⟨p, op, hp, rfl, rfl⟩ | ⟨p, pc, l, -, hp, heq⟩
    · constructor
      · intro q sd i k hq
        by_cases hqp : q = p
        · subst hqp
          rw [stageOf_goto_self] at hq
          cases op <;> cases hq
        · rw [stageOf_goto_of_ne _ _ hqp] at hq
          exact hkeep q _ (ihthr q sd i k hq)
      · rintro e (he | rfl) sd i k hst
        · exact hkeep e.1 _ (ihes e he sd i k hst)
        · cases hst
    · obtain ⟨rfl, rfl⟩ := Prod.mk.inj heq
      have hst : stageOf (s.thr p) = pc.stage := by rw [hp, stageOf_some]
      have hprog := act_progress s.mem l pc
      generalize act s.mem l pc = x at hprog
      obtain ⟨a, m, y⟩ := x
      -- the thread itself: what it works on now, and what its event was
      have hself : (∀ sd i k, stageOf y = some (sd, i, k) →
          Owned (System.events π ++ [(p, a)]) p (sd, i)) ∧ ∀ sd i k, a.stage = some (sd, i, k) →
            Owned (System.events π ++ [(p, a)]) p (sd, i) := by
        cases hprog with
        | idle hpc ha hx hm hw hL => simp [hx, ha]
        | win sd hpc ha hx hm hm' hw hL =>
          constructor
          · intro sd' i k hy
            rw [hx] at hy
            cases hy
            exact ⟨a, by simp, hw⟩
          · simp [ha]
        | pass sd i k hpc ha hx hm hw hL =>
          have hown := (ihthr p sd i k (by rw [hst, hpc])).append [(p, a)]
          constructor
          · intro sd' i' k' hy
            rcases hx with hx | ⟨hx, -⟩
            · rw [hx] at hy
              cases hy
              exact hown
            · rw [hx] at hy
              cases hy
          · intro sd' i' k' ha'
            rw [ha] at ha'
            cases ha'
            exact hown
        | throws sd i hpc ha hw hL => simp [ha]
      constructor
      · intro q sd i k hq
        by_cases hqp : q = p
        · subst hqp
          rw [stageOf_goto_self] at hq
          exact hself.1 sd i k hq
        · rw [stageOf_goto_of_ne _ _ hqp] at hq
          exact (ihthr q sd i k hq).append _
      · rintro e (he | rfl) sd i k hst'
        · exact (ihes e he sd i k hst').append _
        · exact hself.2 sd i k hst'

end Owners

end CraflinRQ

end LeonUtils
