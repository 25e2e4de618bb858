import LeonUtils.Shm.Tickets

/-!
# Why a call fails

What must have been the case while an `enque` or a `deque` was running for it to return `false`.

`enque` counts its tries, and starts counting anew whenever the index it tries for has moved. So
when it gives up, it has found the node taken in two consecutive rounds for one and the same
index, and between the two `_tail` cannot have moved: at the first of them the node of the
current `_tail` was taken.

`deque` has no such argument. It gives up when the tag it reads is not the index it loaded a
moment ago, which by then may have left `_head` behind; and it gives up after losing four
compare-exchanges to other consumers, however full the queue is.

## Main definitions

* `Execution` — one execution of `enque` or `deque`, from its first step up to its return
* `EnqSeen`, `DeqSeen` — what an execution under way has seen so far

## Main results

* `execution_rule` — the invariant rule for a single execution
* `enque_false`, `deque_false` — why a call fails
* `deque_false_nonempty` — a `deque` may fail although a published element was there all along
-/

namespace LeonUtils

namespace ShmAtmRQ

open Transition TicketRing

variable {Tid Hid : Type} [DecidableEq Tid] [DecidableEq Hid] {w : ℤ} {weak : Bool}
  {s t : State Tid Hid} {p : Tid} {π ρ : List (Event Tid Hid × State Tid Hid)}

/-! ## One execution -/

/-- The steps `ρ` from `s` to `t` take thread `p` from `pc` to the point where it is about to
return `a`, within one execution. -/
structure Execution (p : Tid) (pc : Pc) (a : Ans) (s : State Tid Hid)
    (ρ : List (Event Tid Hid × State Tid Hid)) (t : State Tid Hid) : Prop where
  start : ∃ h, s.thr p = some (h, pc)
  inside : ∀ a won, (p, Act.ret a won) ∉ System.events ρ
  last : ∃ h c won, t.thr p = some (h, .ret c a won)

omit [DecidableEq Tid] [DecidableEq Hid] in
/-- Short of a return, the code goes on. -/
theorem act_goes_on (m : Shm) (h : Handle) (spurious : Bool) {pc : Pc}
    (hpc : ∀ c a won, pc ≠ .ret c a won) :
    ∃ pc', (act (H := Hid) m h spurious pc).2.2 = some pc' := by
  cases pc with
  | ret c a won => exact absurd rfl (hpc c a won)
  | _ => simp only [act]; first | exact ⟨_, rfl⟩ | (split <;> exact ⟨_, rfl⟩)

/-- **The invariant rule for a single execution.** `P` is a property of what has happened since
its start, of the present state and of the position of thread `p`. It has to survive the steps
of other threads and the code of `p` itself. -/
theorem execution_rule {P : List (Event Tid Hid × State Tid Hid) → State Tid Hid → Pc → Prop}
    (pc₀ : Pc) (hstart : P [] s pc₀)
    (hother : ∀ ρ m e u pc, (queue Tid Hid w weak).Steps s ρ m → P ρ m pc →
      (queue Tid Hid w weak).next m e u → p ≠ e.1 → P (ρ ++ [(e, u)]) u pc)
    (hself : ∀ ρ m hd pc pc' sp e u, (queue Tid Hid w weak).Steps s ρ m → P ρ m pc →
      m.thr p = some (hd, pc) → (sp = true → weak = true) →
      (queue Tid Hid w weak).next m e u → (e, u) = m.advance p hd pc sp →
      (∀ c a won, pc ≠ .ret c a won) →
      (act (H := Hid) m.shm (m.hnd hd) sp pc).2.2 = some pc' → P (ρ ++ [(e, u)]) u pc')
    (hs : ∃ h, s.thr p = some (h, pc₀)) (hsteps : (queue Tid Hid w weak).Steps s ρ t)
    (hin : ∀ a won, (p, Act.ret a won) ∉ System.events ρ) :
    ∃ h pc, t.thr p = some (h, pc) ∧ P ρ t pc := by
  induction hsteps with
  | refl =>
    obtain ⟨h, hp⟩ := hs
    exact ⟨h, pc₀, hp, hstart⟩
  | @snoc ρ m u e hsteps hnext ih =>
    simp only [System.events_append, System.events_singleton, List.mem_append,
      List.mem_singleton, not_or] at hin
    obtain ⟨h, pc, hp, hP⟩ := ih fun a won => (hin a won).1
    by_cases hne : p = e.1
    · subst hne
      rcases next_cases hnext with ⟨q, hd, op, hq, rfl, rfl⟩ | ⟨q, hd, pc₁, sp, hsp, hq, heq⟩
      · rw [hp] at hq
        cases hq
      · obtain rfl : e.1 = q := by rw [(Prod.mk.inj heq).1]
        obtain ⟨rfl, rfl⟩ := Prod.mk.inj (Option.some.inj (hp.symm.trans hq))
        have hact : e.2 = (act m.shm (m.hnd h) sp pc).1 := by rw [(Prod.mk.inj heq).1]
        have hret : ∀ c a won, pc ≠ .ret c a won := by
          rintro c a won rfl
          exact (hin a won).2 (Prod.ext rfl hact.symm)
        obtain ⟨pc', hpc'⟩ := act_goes_on m.shm (m.hnd h) sp hret
        refine ⟨h, pc', ?_, hself ρ m h pc pc' sp e u hsteps hP hp hsp hnext heq hret hpc'⟩
        rw [(Prod.mk.inj heq).2, State.goto_thr_self, hpc']
        rfl
    · exact ⟨h, pc, (thr_of_ne hnext hne).trans hp, hother ρ m e u pc hsteps hP hnext hne⟩

/-- Whether an event is a return of thread `p`. -/
def returns (p : Tid) (e : Event Tid Hid) : Bool :=
  decide (e.1 = p) && match e.2 with
    | .ret _ _ => true
    | _ => false

/-- An execution, found by following a schedule. -/
theorem execution_of_trace {pc : Pc} {a : Ans} (cs : List (Sched Tid Hid))
    (hs : ∃ h, s.thr p = some (h, pc)) (hin : (s.trace cs).all (fun x => !returns p x.1) = true)
    (hlast : ∃ h c won, (s.after cs).thr p = some (h, .ret c a won)) :
    Execution p pc a s (s.trace cs) (s.after cs) where
  start := hs
  inside a won hmem := by
    obtain ⟨x, hx, he⟩ := List.mem_map.mp hmem
    have hret := List.all_eq_true.mp hin x hx
    simp [returns, he] at hret
  last := hlast

/-! ## `enque` -/

/-- The node of the current `_tail` has not been released for it. -/
def Unreleased (capa : ℤ) (s : State Tid Hid) : Prop :=
  (s.shm.base (s.shm.tail % capa)).tTag ≠ s.shm.tail

/-- What an `enque` has seen when it has counted `tryCnt` tries for the index `oldIdx`. After two
of them it has found the node of `oldIdx` taken; whether `_tail` was at `oldIdx` then, it learns
at its next load. -/
def EnqSeen (capa : ℤ) (s : State Tid Hid) (ρ : List (Event Tid Hid × State Tid Hid))
    (m : State Tid Hid) : Pc → Prop
  | .enqLoad _ oldIdx tryCnt => oldIdx ≤ m.shm.tail ∧ (2 ≤ tryCnt → System.Sees s ρ fun u =>
      oldIdx ≤ u.shm.tail ∧ u.shm.tail ≤ m.shm.tail ∧ (u.shm.tail = oldIdx → Unreleased capa u))
  | .enqTest _ oldIdx tryCnt curIdx | .enqCas _ oldIdx tryCnt curIdx =>
    oldIdx ≤ curIdx ∧ curIdx ≤ m.shm.tail ∧
      (2 ≤ tryCnt → curIdx = oldIdx → System.Sees s ρ (Unreleased capa))
  | .enqFail | .ret _ (.enque false) _ => System.Sees s ρ (Unreleased capa)
  | _ => True

omit [DecidableEq Tid] [DecidableEq Hid] in
theorem EnqSeen.mono {capa : ℤ} {m u : State Tid Hid} {e : Event Tid Hid} {pc : Pc}
    (h : EnqSeen capa s ρ m pc) (htail : m.shm.tail ≤ u.shm.tail) :
    EnqSeen capa s (ρ ++ [(e, u)]) u pc := by
  cases pc with
  | enqLoad g oldIdx tryCnt =>
    exact ⟨h.1.trans htail, fun hk => ((h.2 hk).imp fun _ hu =>
      ⟨hu.1, hu.2.1.trans htail, hu.2.2⟩).append _⟩
  | enqTest g oldIdx tryCnt curIdx =>
    exact ⟨h.1, h.2.1.trans htail, fun hk hcur => (h.2.2 hk hcur).append _⟩
  | enqCas g oldIdx tryCnt curIdx =>
    exact ⟨h.1, h.2.1.trans htail, fun hk hcur => (h.2.2 hk hcur).append _⟩
  | enqFail => exact System.Sees.append h _
  | ret c a won =>
    cases a with
    | enque ok =>
      cases ok with
      | false => exact System.Sees.append h _
      | true => trivial
    | _ => trivial
  | _ => trivial

theorem enqRetry_moved (g : Goods) {oldIdx curIdx : ℤ} (tryCnt : ℕ) (h : curIdx ≠ oldIdx) :
    enqRetry g oldIdx tryCnt curIdx = .enqLoad g curIdx 1 := by
  simp [enqRetry, h]

omit [DecidableEq Tid] [DecidableEq Hid] in
/-- The end of a round that found the node of `curIdx` taken. -/
theorem EnqSeen.retry {capa : ℤ} {m : State Tid Hid} {g : Goods} {oldIdx curIdx : ℤ} {tryCnt : ℕ}
    (h : EnqSeen capa s ρ m (.enqTest g oldIdx tryCnt curIdx)) (hlast : System.Sees s ρ (· = m))
    (hbusy : (m.shm.base (curIdx % capa)).tTag ≠ curIdx) :
    EnqSeen capa s ρ m (enqRetry g oldIdx tryCnt curIdx) := by
  obtain ⟨-, hcur, hseen⟩ := h
  by_cases hmoved : curIdx = oldIdx
  · subst hmoved
    rw [enqRetry_same]
    split
    · exact hseen (by omega) rfl
    · refine ⟨hcur, fun _ => hlast.imp ?_⟩
      rintro u rfl
      exact ⟨hcur, le_rfl, fun htail => by rw [Unreleased, htail]; exact hbusy⟩
  · rw [enqRetry_moved _ _ hmoved]
    exact ⟨hcur, fun hk => absurd hk (by norm_num)⟩

/-- The code of an `enque` keeps track of what it has seen. A compare-exchange that fails, here
only because `_tail` has moved, starts the count anew. -/
theorem EnqSeen.advance {m : State Tid Hid} (hrun : (queue Tid Hid w false).Run π m)
    (hlast : System.Sees s ρ (· = m)) {hd : Hid} {pc pc' : Pc} (h : EnqSeen (alignCapa w) s ρ m pc)
    (hact : (act (H := Hid) m.shm (m.hnd hd) false pc).2.2 = some pc') :
    EnqSeen (alignCapa w) s ρ m pc' := by
  have hidx := (coupled_of_run hrun).nodeIdx hd
  cases pc with
  | enqLoad g oldIdx tryCnt =>
    cases hact
    refine ⟨h.1, le_rfl, fun hk hcur => (h.2 hk).imp fun x hx => hx.2.2 ?_⟩
    omega
  | enqTest g oldIdx tryCnt curIdx =>
    simp only [act, hidx] at hact
    split at hact <;> cases hact
    · exact h
    · exact h.retry hlast ‹_›
  | enqCas g oldIdx tryCnt curIdx =>
    simp only [act] at hact
    split at hact <;> rename_i hwin <;> cases hact
    · trivial
    · have hmoved : m.shm.tail ≠ oldIdx := by
        intro heq
        have := h.1
        have := h.2.1
        exact hwin ⟨by omega, trivial⟩
      rw [enqRetry_moved _ _ hmoved]
      exact ⟨le_rfl, fun hk => absurd hk (by norm_num)⟩
  | enqFail =>
    cases hact
    exact h
  | enqCopy g i k =>
    simp only [act] at hact
    split at hact <;> cases hact <;> trivial
  | deqTest c g tryCnt i =>
    simp only [act] at hact
    split at hact <;> cases hact <;> trivial
  | deqCas c g tryCnt i =>
    simp only [act, deqRetry] at hact
    split at hact <;> first | (cases hact; trivial) | (split at hact <;> cases hact <;> trivial)
  | deqCopy c g i k =>
    simp only [act] at hact
    split at hact <;> cases hact <;> trivial
  | obsHead o tail =>
    cases hact
    cases o <;> trivial
  | ret c a won =>
    simp only [act, afterRet] at hact
    split at hact <;> cases hact <;> trivial
  | _ =>
    cases hact
    trivial

/-- An `enque` that fails has seen the node of the current `_tail` taken. -/
theorem sees_unreleased {g : Goods} (h : (queue Tid Hid w false).Run π s)
    (hsteps : (queue Tid Hid w false).Steps s ρ t)
    (hexec : Execution p (.enqLoad g (-1) 0) (.enque false) s ρ t) :
    System.Sees s ρ (Unreleased (alignCapa w)) := by
  obtain ⟨hd, pc, hp, hseen⟩ := execution_rule (P := EnqSeen (alignCapa w) s)
    (.enqLoad g (-1) 0)
    ⟨by have := counters_nonneg h; omega, fun hk => absurd hk (by norm_num)⟩
    (fun ρ m e u pc _ hP hnext _ => hP.mono (tail_le_of_next hnext))
    (fun ρ m hd pc pc' sp e u hsteps hP _ hsp hnext _ _ hact => by
      obtain rfl : sp = false := by simpa using hsp
      have hP' := hP.advance (h.steps hsteps) (hsteps.sees_last rfl) hact
      exact hP'.mono (tail_le_of_next hnext))
    hexec.start hsteps hexec.inside
  obtain ⟨h', c, won, hret⟩ := hexec.last
  obtain ⟨rfl, rfl⟩ := Prod.mk.inj (Option.some.inj (hp.symm.trans hret))
  exact hseen

/-- No step lowers a `t_tag`. -/
theorem tTag_le_of_next {e : Event Tid Hid} (h : (queue Tid Hid w weak).Run π s)
    (hnext : (queue Tid Hid w weak).next s e t) (j : ℤ) :
    (s.shm.base j).tTag ≤ (t.shm.base j).tTag := by
  obtain ⟨q, a⟩ := e
  rcases next_writes hnext with ⟨-, hshm⟩ | ⟨hd, pc, x, hp, hwr, hshm⟩
  · rw [hshm]
  · rw [hshm]
    cases hwr with
    | copyIn g i k hk =>
      rcases eq_or_ne j ((s.hnd hd).nodeIdx i) with rfl | hj <;>
        simp [Shm.store, Shm.setNode, *]
    | publish g i k hk =>
      rcases eq_or_ne j ((s.hnd hd).nodeIdx i) with rfl | hj <;>
        simp [Shm.store, Shm.setNode, *]
    | release c g i k hk =>
      have hturn : (s.shm.base (i % alignCapa w)).tTag = i :=
        ((inv_of_run h).role_ok (ringOf_role hp)).2.2
      have hpos := alignCapa_pos w
      have hc := coupled_of_run h
      rw [hc.nodeIdx, (hc.hnd hd).1]
      by_cases hj : j = i % alignCapa w
      · subst hj
        simp [Shm.store, Shm.setNode, hturn, hpos.le]
      · simp [Shm.store, Shm.setNode, hj]
    | _ => rfl

/-- A ticket that has been released has left its node to a later one. -/
theorem tTag_of_release (h : (queue Tid Hid w weak).Run π s) {q : Tid} {i : ℤ}
    (hrel : (q, Act.release i) ∈ System.events π) :
    i + alignCapa w ≤ (s.shm.base (i % alignCapa w)).tTag := by
  revert hrel
  refine System.Run.induction (P := fun π s => (q, Act.release i) ∈ System.events π →
    i + alignCapa w ≤ (s.shm.base (i % alignCapa w)).tTag) (fun s _ hrel => by cases hrel) ?_ h
  intro π s e t hrun ih hnext hrel
  simp only [System.events_append, System.events_singleton, List.mem_append,
    List.mem_singleton] at hrel
  rcases hrel with hrel | rfl
  · exact (ih hrel).trans (tTag_le_of_next hrun hnext _)
  · rcases next_writes hnext with ⟨hsil, -⟩ | ⟨hd, pc, x, hp, hwr, hshm⟩
    · exact hsil.elim
    · rw [hshm]
      have hc := coupled_of_run hrun
      cases hwr with
      | silent hsil => exact hsil.elim
      | release c g i k hk => simp [Shm.store, Shm.setNode, hc.nodeIdx, (hc.hnd hd).1]

/-- Where the node of `_tail` is not free, its last ticket is yet to be released. -/
theorem not_released (h : (queue Tid Hid w weak).Run π s) (hun : Unreleased (alignCapa w) s)
    (q : Tid) : (q, Act.release (s.shm.tail - alignCapa w)) ∉ System.events π := by
  intro hrel
  have hturn := tTag_of_release h hrel
  rw [Int.sub_emod_right, sub_add_cancel] at hturn
  exact hun ((inv_of_run h).turn_of_free hturn)

/-- **Why an `enque` fails.** When compare-exchange fails only for a reason, an `enque` returns
`false` only if at some instant while it ran the node of the ticket at `_tail` was not free: the
consumer of the ticket one lap earlier had not stored its release tag. -/
theorem enque_false {g : Goods} (h : (queue Tid Hid w false).Run π s)
    (hsteps : (queue Tid Hid w false).Steps s ρ t)
    (hexec : Execution p (.enqLoad g (-1) 0) (.enque false) s ρ t) :
    ∃ ρ₁ ρ₂ m, ρ = ρ₁ ++ ρ₂ ∧ (queue Tid Hid w false).Steps s ρ₁ m ∧
      (m.shm.base (m.shm.tail % alignCapa w)).tTag ≠ m.shm.tail ∧
      ∀ q, (q, Act.release (m.shm.tail - alignCapa w)) ∉ System.events (π ++ ρ₁) := by
  obtain ⟨ρ₁, ρ₂, m, hρ, hm, hun⟩ := hsteps.instant (sees_unreleased h hsteps hexec)
  exact ⟨ρ₁, ρ₂, m, hρ, hm, hun, not_released (h.steps hm) hun⟩

/-- A full queue, and thread `0` at the start of an `enque`. -/
def brimful : State (Fin 1) Unit :=
  (State.filled (Fin 1) 32 () (fun _ => sample) 32).goto 0 (some ((), .enqLoad sample (-1) 0))

theorem enque_false_brimful : ∃ ρ m, (queue (Fin 1) Unit 32 false).Steps brimful ρ m ∧
    (m.shm.base (m.shm.tail % alignCapa 32)).tTag ≠ m.shm.tail ∧
    ∀ q, (q, Act.release (m.shm.tail - alignCapa 32)) ∉ System.events ρ := by
  obtain ⟨⟨π, hrun⟩, hidle, -, -⟩ := run_filled 32 false (0 : Fin 1) ()
    (fun _ => sample) (n := 32) (by decide)
  have hexec : Execution 0 (.enqLoad sample (-1) 0) (.enque false) brimful
      (brimful.trace (alone 0 9)) (brimful.after (alone 0 9)) :=
    execution_of_trace _ ⟨(), State.goto_thr_self _ _ _⟩ (by decide +kernel)
      ⟨(), .user, none, by rfl⟩
  obtain ⟨ρ₁, -, m, -, hm, hun, hrel⟩ := enque_false
    (hrun.snoc (next_call (hidle 0) () (.enque sample)))
    (steps_trace 32 false _ _ (by decide)) hexec
  refine ⟨ρ₁, m, hm, hun, fun q hq => hrel q ?_⟩
  rw [System.events_append]
  exact List.mem_append_right _ hq

/-! ## `deque` -/

/-- The node of the current `_head` holds no published element. -/
def Unpublished (capa : ℤ) (s : State Tid Hid) : Prop :=
  (s.shm.base (s.shm.head % capa)).hTag ≠ s.shm.head

/-- Thread `p` finds a tag other than its index, which `_head` has left behind since it was
loaded. -/
def TestsStale (capa : ℤ) (p : Tid) (s : State Tid Hid) : Prop :=
  ∃ h c g tryCnt i, s.thr p = some (h, .deqTest c g tryCnt i) ∧ i < s.shm.head ∧
    (s.shm.base (i % capa)).hTag ≠ i

/-- The compare-exchanges a thread has failed. -/
def lost (p : Tid) (es : List (Event Tid Hid)) : ℕ :=
  es.countP fun e => decide (e.1 = p) && match e.2 with
    | .casFail => true
    | _ => false

omit [DecidableEq Hid] in
theorem lost_snoc (es : List (Event Tid Hid)) (e : Event Tid Hid) :
    lost p (es ++ [e]) = lost p es + lost p [e] := List.countP_append

omit [DecidableEq Hid] in
theorem lost_of_ne {e : Event Tid Hid} (h : p ≠ e.1) : lost p [e] = 0 := by
  simp [lost, Ne.symm h]

/-- What a `deque` under way knows: how many compare-exchanges it has failed, and, about to give
up, why. -/
def DeqSeen (capa : ℤ) (p : Tid) (s : State Tid Hid) (ρ : List (Event Tid Hid × State Tid Hid))
    (m : State Tid Hid) : Pc → Prop
  | .deqLoad _ _ tryCnt | .deqCas _ _ tryCnt _ => lost p (System.events ρ) = tryCnt ∧ tryCnt ≤ 3
  | .deqTest _ _ tryCnt i => lost p (System.events ρ) = tryCnt ∧ tryCnt ≤ 3 ∧ i ≤ m.shm.head
  | .deqFail _ _ => lost p (System.events ρ) = 4
  | .ret _ (.deque false _) _ => System.Sees s ρ (Unpublished capa) ∨
      lost p (System.events ρ) = 4 ∨ System.Sees s ρ (TestsStale capa p)
  | _ => True

omit [DecidableEq Hid] in
/-- A step of another thread, or one that fails no compare-exchange. -/
theorem DeqSeen.mono {capa : ℤ} {m u : State Tid Hid} {e : Event Tid Hid} {pc : Pc}
    (h : DeqSeen capa p s ρ m pc) (hhead : m.shm.head ≤ u.shm.head) (he : lost p [e] = 0) :
    DeqSeen capa p s (ρ ++ [(e, u)]) u pc := by
  have hlost : lost p (System.events (ρ ++ [(e, u)])) = lost p (System.events ρ) := by
    rw [System.events_append, System.events_singleton, lost_snoc, he, add_zero]
  cases pc with
  | deqLoad c g tryCnt => exact ⟨hlost.trans h.1, h.2⟩
  | deqTest c g tryCnt i => exact ⟨hlost.trans h.1, h.2.1, h.2.2.trans hhead⟩
  | deqCas c g tryCnt i => exact ⟨hlost.trans h.1, h.2⟩
  | deqFail c g => exact hlost.trans h
  | ret c a won =>
    cases a with
    | deque ok g =>
      cases ok with
      | false => exact h.imp (·.append _) (·.imp hlost.trans (·.append _))
      | true => trivial
    | _ => trivial
  | _ => trivial

omit [DecidableEq Hid] in
theorem deqSeen_enqRetry {capa : ℤ} {m : State Tid Hid} (g : Goods) (oldIdx curIdx : ℤ)
    (tryCnt : ℕ) : DeqSeen capa p s ρ m (enqRetry g oldIdx tryCnt curIdx) := by
  unfold enqRetry
  dsimp only
  generalize (if curIdx ≠ oldIdx then 0 else tryCnt) = k
  split <;> trivial

/-- The code of a `deque` keeps count of what it lost, and has a reason for giving up. -/
theorem DeqSeen.advance {m u : State Tid Hid} {e : Event Tid Hid} {sp : Bool}
    (hrun : (queue Tid Hid w weak).Run π m) (hlast : System.Sees s ρ (· = m))
    (hhead : m.shm.head ≤ u.shm.head) {hd : Hid} {pc pc' : Pc}
    (hp : m.thr p = some (hd, pc)) (h : DeqSeen (alignCapa w) p s ρ m pc)
    (he : e = (p, (act m.shm (m.hnd hd) sp pc).1)) (hret : ∀ c a won, pc ≠ .ret c a won)
    (hact : (act (H := Hid) m.shm (m.hnd hd) sp pc).2.2 = some pc') :
    DeqSeen (alignCapa w) p s (ρ ++ [(e, u)]) u pc' := by
  have hidx := (coupled_of_run hrun).nodeIdx hd
  subst he
  cases pc with
  | deqLoad c g tryCnt =>
    cases hact
    have hnew : DeqSeen (alignCapa w) p s ρ m (.deqTest c g tryCnt m.shm.head) :=
      ⟨h.1, h.2, le_rfl⟩
    exact hnew.mono hhead (by simp [act, lost])
  | deqTest c g tryCnt i =>
    simp only [act, hidx] at hact ⊢
    split at hact <;> rename_i htag <;> cases hact
    · have hnew : DeqSeen (alignCapa w) p s ρ m (.ret c (.deque false g) none) := by
        rcases eq_or_lt_of_le h.2.2 with rfl | hlt
        · refine Or.inl (hlast.imp ?_)
          rintro u rfl
          exact htag
        · refine Or.inr (Or.inr (hlast.imp ?_))
          rintro u rfl
          exact ⟨hd, c, g, tryCnt, i, hp, hlt, htag⟩
      exact hnew.mono hhead (by simp [lost, htag])
    · have hnew : DeqSeen (alignCapa w) p s ρ m (.deqCas c g tryCnt i) := ⟨h.1, h.2.1⟩
      exact hnew.mono hhead (by simp [lost, htag])
  | deqCas c g tryCnt i =>
    simp only [act] at hact ⊢
    split at hact <;> rename_i hwin <;> cases hact
    · trivial
    · have hlost : lost p (System.events (ρ ++ [((p, Act.casFail), u)])) = tryCnt + 1 := by
        rw [System.events_append, System.events_singleton, lost_snoc, h.1]
        simp [lost]
      simp only [if_neg hwin, deqRetry]
      split
      · exact hlost.trans (by have := h.2; omega)
      · exact ⟨hlost, by omega⟩
  | deqFail c g =>
    cases hact
    have hnew : DeqSeen (alignCapa w) p s ρ m (.ret c (.deque false g) none) :=
      Or.inr (Or.inl h)
    exact hnew.mono hhead (by simp [act, lost])
  | ret c a won => exact absurd rfl (hret c a won)
  | enqTest g oldIdx tryCnt curIdx =>
    simp only [act] at hact
    split at hact <;> cases hact
    · trivial
    · exact deqSeen_enqRetry ..
  | enqCas g oldIdx tryCnt curIdx =>
    simp only [act] at hact
    split at hact <;> cases hact
    · trivial
    · exact deqSeen_enqRetry ..
  | enqCopy g i k =>
    simp only [act] at hact
    split at hact <;> cases hact <;> trivial
  | deqCopy c g i k =>
    simp only [act] at hact
    split at hact <;> cases hact <;> trivial
  | obsHead o tail =>
    cases hact
    cases o <;> trivial
  | _ =>
    cases hact
    trivial

/-- **Why a `deque` fails.** A `deque` returns `false` only if at some instant while it ran the
node of `_head` held no published element, or four of its compare-exchanges failed, or it tested
a node for an index that `_head` had already left behind. -/
theorem deque_false {c : Caller} {g g' : Goods} (h : (queue Tid Hid w weak).Run π s)
    (hsteps : (queue Tid Hid w weak).Steps s ρ t)
    (hexec : Execution p (.deqLoad c g 0) (.deque false g') s ρ t) :
    System.Sees s ρ (Unpublished (alignCapa w)) ∨ lost p (System.events ρ) = 4 ∨
      System.Sees s ρ (TestsStale (alignCapa w) p) := by
  obtain ⟨hd, pc, hp, hseen⟩ := execution_rule (P := DeqSeen (alignCapa w) p s)
    (.deqLoad c g 0) ⟨rfl, by norm_num⟩
    (fun ρ m e u pc _ hP hnext hne => hP.mono (head_le_of_next hnext) (lost_of_ne hne))
    (fun ρ m hd pc pc' sp e u hsteps hP hp _ hnext heq hret hact =>
      hP.advance (h.steps hsteps) (hsteps.sees_last rfl) (head_le_of_next hnext) hp
        (Prod.mk.inj heq).1 hret hact)
    hexec.start hsteps hexec.inside
  obtain ⟨h', c', won, hlast⟩ := hexec.last
  obtain ⟨rfl, rfl⟩ := Prod.mk.inj (Option.some.inj (hp.symm.trans hlast))
  exact hseen

/-- Five published elements, and thread `0` at the start of a `deque`. -/
def fiveIn : State (Fin 5) Unit :=
  (State.filled (Fin 5) 32 () (fun _ => sample) 5).goto 0 (some ((), .deqLoad .user sample 0))

/-- Four times thread `0` loads `_head` and tests its node, and each time another consumer wins
the ticket before it does. Then it gives up. -/
def outrun : List (Sched (Fin 5) Unit) :=
  (([1, 2, 3, 4] : List (Fin 5)).flatMap fun q =>
    [.run 0 false, .run 0 false, .call q () (.deque sample), .run q false, .run q false,
      .run q false, .run 0 false]) ++ [.run 0 false]

theorem fiveIn_run (weak : Bool) : ∃ π, (queue (Fin 5) Unit 32 weak).Run π fiveIn := by
  obtain ⟨⟨π, hrun⟩, hidle, -, -⟩ := run_filled 32 weak (0 : Fin 5) ()
    (fun _ => sample) (n := 5) (by decide)
  exact ⟨_, hrun.snoc (next_call (hidle 0) () (.deque sample))⟩

theorem outrun_execution : Execution 0 (.deqLoad .user sample 0) (.deque false sample) fiveIn
    (fiveIn.trace outrun) (fiveIn.after outrun) :=
  execution_of_trace _ ⟨(), State.goto_thr_self _ _ _⟩ (by decide +kernel) ⟨(), .user, none, by rfl⟩

theorem deque_false_outrun : System.Sees fiveIn (fiveIn.trace outrun) (Unpublished (alignCapa 32)) ∨
    lost 0 (System.events (fiveIn.trace outrun)) = 4 ∨
      System.Sees fiveIn (fiveIn.trace outrun) (TestsStale (alignCapa 32) 0) := by
  obtain ⟨π, hrun⟩ := fiveIn_run false
  exact deque_false hrun (steps_trace 32 false _ outrun (by decide)) outrun_execution

/-- **A `deque` may fail although a published element was there all along.** -/
theorem deque_false_nonempty : ∃ π ρ s t, (queue (Fin 5) Unit 32 false).Run π s ∧
    (queue (Fin 5) Unit 32 false).Steps s ρ t ∧
    Execution 0 (.deqLoad .user sample 0) (.deque false sample) s ρ t ∧
    ¬ System.Sees s ρ (Unpublished (alignCapa 32)) := by
  obtain ⟨π, hrun⟩ := fiveIn_run false
  refine ⟨π, _, fiveIn, _, hrun, steps_trace 32 false _ outrun (by decide), outrun_execution, ?_⟩
  have hall : (fiveIn.trace outrun).all (fun x => decide
      ((x.2.shm.base (x.2.shm.head % alignCapa 32)).hTag = x.2.shm.head)) = true := by
    decide +kernel
  rintro (hun | ⟨x, hx, hun⟩)
  · exact hun (by decide +kernel)
  · exact hun (of_decide_eq_true (List.all_eq_true.mp hall x hx))

end ShmAtmRQ

end LeonUtils
