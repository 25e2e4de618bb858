import LeonUtils.Craflin.Stages

/-!
# The lifetime of elements

Elements that do not throw are constructed, handed over and destroyed exactly once each: nothing is
ever constructed over a live object, moved from or destroyed that is not there, and what the calls
leave behind the destructor destroys.

`Act.Proper` says of one event that it finds in its slot what it should. The counting is done by
`Stages`; the objects are identified here by what the slots held, so that "the deque of ticket `i`
destroys the element of ticket `i`" is a result and not a definition.

## Main definitions

* `Act.Proper` — an event finds in its slot what it should
* `built`, `handed`, `killed` — the elements constructed, handed out and destroyed in a history
* `ids` — the elements among the objects the destructor destroys

## Main results

* `proper_of_run` — every event is proper, throwing or not
* `destroyed_eq`, `destructed_data` — the destructor, slot by slot
* `lifetime` — exactly once
-/

namespace LeonUtils

namespace CraflinRQ

open Transition TicketRing
open ShmAtmRQ (ticketsBelow mem_ticketsBelow nodup_ticketsBelow)

variable {Tid T : Type}

/-! ## What the events find -/

/-- An event finds in its slot what it should: nothing where it constructs, the element of its own
ticket where it moves from one, and the same element, moved from, where it destroys one. -/
def Act.Proper : Act T → Prop
  | .construct _ _ old => old = none
  | .moveFrom i _ old => ∃ v, old = some ⟨i, v, false⟩
  | .destroy i _ old => ∃ v, old = some ⟨i, v, true⟩
  | _ => True

variable {L : Ledger T} {n : ℤ} {s t : State Tid T}

/-- The code of a thread finds in its slot what it should. -/
theorem act_proper {p : Tid} {pc : Pc T} (hg : Good n L s) (l : Luck) (hp : s.thr p = some pc) :
    (act s.mem l pc).1.Proper := by
  have hpc := hg.pc p pc hp
  have hslot : ∀ i, (s.mem.base (s.mem.at i)).data = s.mem.slot n i := by
    intro i
    rw [hg.index, Mem.slot]
  cases pc with
  | enqTest v i =>
    simp only [act]
    split <;> trivial
  | enqCas v i =>
    simp only [act]
    split <;> trivial
  | enqBuild v i =>
    simp only [act]
    split
    · trivial
    · exact (hslot i).trans hpc.2
  | deqTest d i =>
    simp only [act]
    split <;> trivial
  | deqCas d i =>
    simp only [act]
    split <;> trivial
  | deqMove d i =>
    simp only [act]
    split
    · trivial
    · obtain ⟨hi0, hi, -⟩ := hg.ring.role_ok (ringOf_role hp)
      obtain ⟨v, hv⟩ := hg.val i hi0 (lt_of_lt_of_le hi hg.ring.head_le)
      exact ⟨v, (hslot i).trans (Eq.trans hpc (L.obj_of_val hv))⟩
  | deqKill d i => exact ⟨d, (hslot i).trans hpc.2⟩
  | _ => trivial

/-- The code returns only where it is about to. -/
theorem act_ret {m : Mem T} {l : Luck} {pc : Pc T} {a : Ans T} {won : Option ℤ}
    (h : (act m l pc).1 = .ret a won) : pc = .ret a won := by
  cases pc with
  | ret a' won' =>
    cases h
    rfl
  | _ =>
    simp only [act, reduceCtorEq] at h
    try split at h <;> cases h

/-- A `deque` is about to return an element right after it has released its slot. -/
theorem act_handed {m : Mem T} {l : Luck} {pc : Pc T} {d : T} {won : Option ℤ}
    (h : (act m l pc).2.2 = some (.ret (.deque true d) won)) :
    ∃ i, pc = .deqStore d i ∧ won = some i := by
  cases pc with
  | deqStore d' i =>
    cases h
    exact ⟨i, rfl, rfl⟩
  | _ =>
    simp only [act, reduceCtorEq] at h
    try split at h <;> cases h
    try cases h

section Run

variable [DecidableEq Tid] {sizeofNode capa : ℕ} {weak throwing : Bool}
  {π : List (Event Tid T × State Tid T)}

/-- **Every event finds in its slot what it should**, whether or not elements throw. -/
theorem proper_of_run (h : (queue Tid T sizeofNode capa weak throwing).Run π s)
    (hwins : wins (System.events π) < 2 ^ 64) : ∀ e ∈ System.events π, e.2.Proper := by
  revert hwins
  refine System.Run.induction (P := fun π s => wins (System.events π) < 2 ^ 64 →
    ∀ e ∈ System.events π, e.2.Proper) ?_ ?_ h
  · rintro s rfl - e he
    cases he
  · intro π s e t hrun ih hnext hwins
    simp only [System.events_append, System.events_singleton, wins_snoc, List.mem_append,
      List.mem_singleton] at hwins ⊢
    rintro e' (he' | rfl)
    · exact ih (by omega) e' he'
    · rcases next_cases hnext with ⟨p, op, hp, rfl, rfl⟩ | ⟨p, pc, l, -, hp, heq⟩
      · trivial
      · obtain ⟨rfl, rfl⟩ := Prod.mk.inj heq
        exact act_proper (good_of_run hrun (by omega)).1 l hp

/-- What a ticket is worth is what its `enque` was given. -/
theorem val_mem (h : (queue Tid T sizeofNode capa weak throwing).Run π s) {i : ℤ} {v : T}
    (hv : (ledger π).val i = some v) : ∃ q, (q, Act.enqWin i v) ∈ System.events π := by
  revert hv
  refine System.Run.induction (P := fun π s => (ledger π).val i = some v →
    ∃ q, (q, Act.enqWin i v) ∈ System.events π) ?_ ?_ h
  · intro s _ hv
    cases hv
  · intro π s e t _ ih _ hv
    rw [ledger_snoc] at hv
    simp only [System.events_append, System.events_singleton, List.mem_append, List.mem_singleton]
    have hold : (ledger π).val i = some v → ∃ q, (q, Act.enqWin i v) ∈ System.events π ∨
        (q, Act.enqWin i v) = e := by
      intro hv
      obtain ⟨q, hq⟩ := ih hv
      exact ⟨q, Or.inl hq⟩
    obtain ⟨q, a⟩ := e
    cases a with
    | enqWin k u =>
      change Function.update (ledger π).val k (some u) i = some v at hv
      by_cases hk : i = k
      · subst hk
        rw [Function.update_self] at hv
        cases hv
        exact ⟨q, Or.inr rfl⟩
      · rw [Function.update_of_ne hk] at hv
        exact hold hv
    | _ => exact hold hv

/-- What a `deque` is about to return, or has returned, is what the `enque` of its ticket was
given. -/
theorem handed_of_run (h : (queue Tid T sizeofNode capa weak throwing).Run π s)
    (hwins : wins (System.events π) < 2 ^ 64) :
    (∀ p d won, s.thr p = some (.ret (.deque true d) won) →
      ∃ i q, won = some i ∧ (q, Act.enqWin i d) ∈ System.events π) ∧
    ∀ p d won, (p, Act.ret (.deque true d) won) ∈ System.events π →
      ∃ i q, won = some i ∧ (q, Act.enqWin i d) ∈ System.events π := by
  revert hwins
  refine System.Run.induction (P := fun π s => wins (System.events π) < 2 ^ 64 →
    (∀ p d won, s.thr p = some (.ret (.deque true d) won) →
      ∃ i q, won = some i ∧ (q, Act.enqWin i d) ∈ System.events π) ∧
    ∀ p d won, (p, Act.ret (.deque true d) won) ∈ System.events π →
      ∃ i q, won = some i ∧ (q, Act.enqWin i d) ∈ System.events π) ?_ ?_ h
  · rintro s rfl -
    constructor
    · intro p d won hp
      cases hp
    · intro p d won he
      cases he
  · intro π s e t hrun ih hnext hwins
    simp only [System.events_append, System.events_singleton, wins_snoc] at hwins ⊢
    obtain ⟨ihthr, ihes⟩ := ih (by omega)
    have hkeep : ∀ {d : T} {won : Option ℤ},
        (∃ i q, won = some i ∧ (q, Act.enqWin i d) ∈ System.events π) →
        ∃ i q, won = some i ∧ (q, Act.enqWin i d) ∈ System.events π ++ [e] := by
      rintro d won ⟨i, q, hwon, hq⟩
      exact ⟨i, q, hwon, List.mem_append_left _ hq⟩
    rcases next_cases hnext with ⟨p, op, hp, rfl, rfl⟩ | ⟨p, pc, l, -, hp, heq⟩
    · constructor
      · intro q d won hq
        by_cases hqp : q = p
        · subst hqp
          rw [State.goto_thr_self] at hq
          cases op <;> cases hq
        · rw [State.goto_thr_of_ne _ _ _ hqp] at hq
          exact hkeep (ihthr q d won hq)
      · intro q d won hq
        rcases List.mem_append.mp hq with hq | hq
        · exact hkeep (ihes q d won hq)
        · cases List.mem_singleton.mp hq
    · obtain ⟨rfl, rfl⟩ := Prod.mk.inj heq
      obtain ⟨hg, -⟩ := good_of_run hrun (by omega)
      constructor
      · intro q d won hq
        by_cases hqp : q = p
        · subst hqp
          rw [State.goto_thr_self] at hq
          obtain ⟨i, rfl, rfl⟩ := act_handed hq
          obtain ⟨q', hq'⟩ := val_mem hrun (hg.pc q _ hp).1
          exact ⟨i, q', rfl, List.mem_append_left _ hq'⟩
        · rw [State.goto_thr_of_ne _ _ _ hqp] at hq
          exact hkeep (ihthr q d won hq)
      · intro q d won hq
        rcases List.mem_append.mp hq with hq | hq
        · exact hkeep (ihes q d won hq)
        · obtain ⟨rfl, hact⟩ := Prod.mk.inj (List.mem_singleton.mp hq)
          obtain rfl := act_ret hact.symm
          exact hkeep (ihthr q d won hp)

end Run

/-! ## The destructor -/

/-- What the destructor's loop destroys, in terms of the nodes as it finds them. -/
theorem destroyLoop_fst {m : Mem T} (hindex : ∀ i, m.at i = i % n) (j : ℤ) {c : ℕ}
    (hc : (c : ℤ) ≤ n) : (destroyLoop m j c).1 =
      (List.range c).map fun k : ℕ => ((j + k) % n, m.slot n (j + k)) := by
  induction c generalizing m j with
  | zero => rfl
  | succ c ih =>
    have hcell : ∀ k ∈ List.range c, ((j + (k + 1 : ℕ)) % n) ≠ j % n := by
      intro k hk
      have hk := List.mem_range.mp hk
      exact (emod_ne_emod (by push_cast; omega) (by push_cast; omega)).symm
    rw [List.range_succ_eq_map, List.map_cons, List.map_map]
    simp only [destroyLoop, hindex, Nat.cast_zero, add_zero]
    rw [ih (by exact hindex) (j + 1) (by push_cast at hc; omega)]
    congr 1
    refine List.map_congr_left ?_
    intro k hk
    have hne := hcell k hk
    have hticket : j + 1 + (k : ℤ) = j + ((k + 1 : ℕ) : ℤ) := by
      push_cast
      omega
    simp only [Function.comp_def, Nat.succ_eq_add_one, hticket, Mem.slot, Mem.setNode,
      Function.update_of_ne hne]

/-- What the destructor's loop leaves behind: nothing where it has been, and everything as it was
elsewhere. -/
theorem destroyLoop_snd {m : Mem T} (hindex : ∀ i, m.at i = i % n) (j : ℤ) (c : ℕ) (x : ℤ) :
    ((∃ k : ℕ, k < c ∧ x = (j + k) % n) → ((destroyLoop m j c).2.base x).data = none) ∧
      ((∀ k : ℕ, k < c → x ≠ (j + k) % n) →
        ((destroyLoop m j c).2.base x).data = (m.base x).data) := by
  induction c generalizing m j with
  | zero =>
    constructor
    · rintro ⟨k, hk, -⟩
      exact absurd hk (Nat.not_lt_zero k)
    · intro _
      rfl
  | succ c ih =>
    simp only [destroyLoop, hindex]
    obtain ⟨hhit, hmiss⟩ := ih (m := m.setNode (j % n) { m.base (j % n) with data := none })
      (by exact hindex) (j + 1)
    have hshift : ∀ k : ℕ, (j + 1 + (k : ℤ)) = j + ((k + 1 : ℕ) : ℤ) := by
      intro k
      push_cast
      omega
    constructor
    · rintro ⟨k, hk, rfl⟩
      by_cases hlater : ∃ k' : ℕ, k' < c ∧ (j + (k : ℤ)) % n = (j + 1 + k') % n
      · exact hhit hlater
      · have hnot : ∀ k' : ℕ, k' < c → (j + (k : ℤ)) % n ≠ (j + 1 + k') % n :=
          fun k' hk' heq => hlater ⟨k', hk', heq⟩
        rw [hmiss hnot]
        cases k with
        | zero => simp [Mem.setNode]
        | succ k => exact absurd (by rw [hshift]) (hnot k (by omega))
    · intro hne
      have h0 : x ≠ j % n := by simpa using hne 0 (Nat.zero_lt_succ c)
      rw [hmiss fun k hk => by rw [hshift]; exact hne (k + 1) (by omega)]
      simp [Mem.setNode, h0]

/-! ## Exactly once -/

/-- The element an event constructs. -/
def Act.built : Act T → Option ℤ
  | .construct i _ _ => some i
  | _ => none

/-- The ticket under which an event hands out an element. -/
def Act.handed : Act T → Option ℤ
  | .ret (.deque true _) won => won
  | _ => none

/-- The element an event destroys. -/
def Act.killed : Act T → Option ℤ
  | .destroy _ _ old => old.map Obj.id
  | _ => none

/-- The elements constructed in a history. -/
def built (es : List (Event Tid T)) : List ℤ := es.filterMap fun e => e.2.built

/-- The tickets under which elements have been handed out. -/
def handed (es : List (Event Tid T)) : List ℤ := es.filterMap fun e => e.2.handed

/-- The elements destroyed in a history. -/
def killed (es : List (Event Tid T)) : List ℤ := es.filterMap fun e => e.2.killed

/-- The elements among the objects that the destructor destroys. -/
def ids (xs : List (ℤ × Option (Obj T))) : List ℤ := xs.filterMap fun x => x.2.map Obj.id

theorem count_built (es : List (Event Tid T)) (i : ℤ) :
    (built es).count i = passed es .enq i 0 := by
  rw [built, List.count_filterMap, passed]
  refine List.countP_congr ?_
  intro e _
  cases e.2 with
  | ret a won =>
    have hne : a.stage won ≠ some (.enq, i, 0) := fun h => by cases Ans.stage_last h
    simp [Act.built, Act.stage, hne]
  | _ => simp [Act.built, Act.stage]

theorem count_handed (es : List (Event Tid T)) (i : ℤ) :
    (handed es).count i = passed es .deq i 3 := by
  rw [handed, List.count_filterMap, passed]
  refine List.countP_congr ?_
  intro e _
  cases e.2 with
  | ret a won =>
    cases a with
    | enque ok => cases ok <;> cases won <;> simp [Act.handed, Act.stage, Ans.stage]
    | deque ok d => cases ok <;> cases won <;> simp [Act.handed, Act.stage, Ans.stage]
  | _ => simp [Act.handed, Act.stage]

theorem count_killed {es : List (Event Tid T)} (hes : ∀ e ∈ es, e.2.Proper) (i : ℤ) :
    (killed es).count i = passed es .deq i 1 := by
  rw [killed, List.count_filterMap, passed]
  refine List.countP_congr ?_
  intro e he
  have hproper := hes e he
  revert hproper
  cases e.2 with
  | ret a won =>
    intro _
    have hne : a.stage won ≠ some (.deq, i, 1) := fun h => by cases Ans.stage_last h
    simp [Act.killed, Act.stage, hne]
  | destroy k j old =>
    rintro ⟨v, rfl⟩
    simp [Act.killed, Act.stage]
  | _ => simp [Act.killed, Act.stage]

/-- The tickets from `h` to `t`, on top of those below `h`, are those below `t`. -/
theorem ticketsBelow_append {h t : ℤ} (h0 : 0 ≤ h) (hle : h ≤ t) :
    ticketsBelow h ++ (List.range (t - h).toNat).map (fun k : ℕ => h + k) = ticketsBelow t := by
  obtain ⟨a, rfl⟩ := Int.eq_ofNat_of_zero_le h0
  obtain ⟨b, hb⟩ := Int.eq_ofNat_of_zero_le (show 0 ≤ t - a by omega)
  obtain rfl : t = ((a + b : ℕ) : ℤ) := by
    push_cast
    omega
  simp only [ticketsBelow, Int.toNat_natCast, hb, List.range_add, List.map_append, List.map_map]
  simp [Function.comp_def]

section Results

variable [DecidableEq Tid] {sizeofNode capa : ℕ} {weak throwing : Bool}
  {π : List (Event Tid T × State Tid T)}

/-- **What the destructor destroys**, between calls of which none has thrown: the elements of the
tickets in the queue, each in its node, and after it no object is left. -/
theorem destroyed_of_idle (h : (queue Tid T sizeofNode capa weak throwing).Run π s)
    (hwins : wins (System.events π) < 2 ^ 64) (hidle : ∀ p, s.thr p = none)
    (hkept : ∀ x, (ledger π).lost x = false) :
    (s.mem.destroyed = (List.range (s.mem.tail - s.mem.head).toNat).map fun k : ℕ =>
      ((s.mem.head + k) % capaOf sizeofNode capa, (ledger π).obj (s.mem.head + k))) ∧
    ∀ j, 0 ≤ j → j < capaOf sizeofNode capa → (s.mem.destructed.base j).data = none := by
  obtain ⟨hg, -⟩ := good_of_run h hwins
  have hpos := hg.ring.pos
  have hwindow : 0 ≤ s.mem.tail - s.mem.head ∧ s.mem.tail - s.mem.head ≤ capaOf sizeofNode capa :=
    hg.ring.tail_sub_head
  constructor
  · rw [Mem.destroyed, destroyLoop_fst hg.index _ (by omega)]
    refine List.map_congr_left ?_
    intro k hk
    have hk := List.mem_range.mp hk
    rw [((hg.idle hidle hkept (i := s.mem.head + k) (by omega) (by omega)).2.1 (by omega)).2]
  · intro j h0 hj
    obtain ⟨i, hi, hin, rfl⟩ := ShmAtmRQ.exists_window hpos s.mem.head h0 hj
    obtain ⟨hhit, hmiss⟩ := destroyLoop_snd hg.index s.mem.head
      (s.mem.tail - s.mem.head).toNat (i % capaOf sizeofNode capa)
    by_cases htail : i < s.mem.tail
    · refine hhit ⟨(i - s.mem.head).toNat, by omega, ?_⟩
      rw [show s.mem.head + ((i - s.mem.head).toNat : ℤ) = i by omega]
    · by_cases hk : ∃ k : ℕ, k < (s.mem.tail - s.mem.head).toNat ∧
          i % capaOf sizeofNode capa = (s.mem.head + k) % capaOf sizeofNode capa
      · exact hhit hk
      · exact (hmiss fun k hk' heq => hk ⟨k, hk', heq⟩).trans
          ((hg.idle hidle hkept hi hin).2.2 (not_lt.mp htail)).2

/-- Between calls of which none has thrown, every ticket that has been won has passed all its
stages. -/
theorem passed_of_idle (h : (queue Tid T sizeofNode capa weak throwing).Run π s)
    (hwins : wins (System.events π) < 2 ^ 64) (hidle : ∀ p, s.thr p = none)
    (hkept : ∀ x, (ledger π).lost x = false) {sd : Side} {k : ℕ} (hk : k ≤ sd.last) (i : ℤ) :
    passed (System.events π) sd i k = (tickets (System.events π) sd).count i := by
  have hst := staged_of_run h hwins
  rw [tickets_eq h hwins, (nodup_ticketsBelow _).count]
  split
  · rename_i hi
    obtain ⟨h0, hlt⟩ := mem_ticketsBelow.mp hi
    refine hst.once sd i k hk ⟨h0, hlt, hkept _, ?_⟩
    intro p j hp
    rw [hidle p] at hp
    cases hp
  · rename_i hi
    exact hst.never sd i k hk fun hpast => hi (mem_ticketsBelow.mpr ⟨hpast.nonneg, hpast.lt⟩)

/-- **Every element lives once.** Whatever the threads do, every event finds in its slot what it
should, each ticket is won once on either side, and a `deque` that hands out an element hands out
the one of the ticket it has won. Once no call is in progress, each ticket won by an `enque` has had
one element constructed, each ticket won by a `deque` has had its element handed out, once, and
these and the ones the destructor destroys are all that were constructed. -/
theorem lifetime (h : (queue Tid T sizeofNode capa weak false).Run π s)
    (hcalls : calls (System.events π) < 2 ^ 64) :
    (∀ e ∈ System.events π, e.2.Proper) ∧
    (∀ sd, (tickets (System.events π) sd).Nodup) ∧
    (∀ p i j old, (p, Act.moveFrom i j old) ∈ System.events π →
      (p, Act.deqWin i) ∈ System.events π) ∧
    (∀ p d won, (p, Act.ret (.deque true d) won) ∈ System.events π → ∃ i q, won = some i ∧
      (p, Act.deqWin i) ∈ System.events π ∧ (q, Act.enqWin i d) ∈ System.events π) ∧
    ((∀ p, s.thr p = none) →
      (built (System.events π)).Perm (tickets (System.events π) .enq) ∧
      (handed (System.events π)).Perm (tickets (System.events π) .deq) ∧
      (killed (System.events π) ++ ids s.mem.destroyed).Perm (built (System.events π)) ∧
      (∀ x ∈ s.mem.destroyed, ∃ i v, x = (i % capaOf sizeofNode capa, some ⟨i, v, false⟩)) ∧
      ∀ j, 0 ≤ j → j < capaOf sizeofNode capa → (s.mem.destructed.base j).data = none) := by
  have hwins : wins (System.events π) < 2 ^ 64 := (wins_le_calls h).trans_lt hcalls
  obtain ⟨hg, -⟩ := good_of_run h hwins
  have hproper := proper_of_run h hwins
  have howned := (owned_of_run h).2
  have hwon : ∀ {p : Tid} {i : ℤ}, Owned (System.events π) p (.deq, i) →
      (p, Act.deqWin i) ∈ System.events π := by
    rintro p i ⟨a, ha, hx⟩
    cases a <;> cases hx
    exact ha
  refine ⟨hproper, ?_, ?_, ?_, ?_⟩
  · intro sd
    rw [tickets_eq h hwins]
    exact nodup_ticketsBelow _
  · intro p i j old he
    exact hwon (howned _ he .deq i 0 rfl)
  · intro p d won he
    obtain ⟨i, q, rfl, hq⟩ := (handed_of_run h hwins).2 p d won he
    exact ⟨i, q, rfl, hwon (howned _ he .deq i 3 rfl), hq⟩
  · intro hidle
    have hkept := lost_of_thrown (thrown_of_run h)
    have hpassed : ∀ (sd : Side) (k : ℕ), k ≤ sd.last → ∀ i,
        passed (System.events π) sd i k = (tickets (System.events π) sd).count i :=
      fun _ _ hk => passed_of_idle h hwins hidle hkept hk
    obtain ⟨hdestroyed, hleft⟩ := destroyed_of_idle h hwins hidle hkept
    have hobj : ∀ k : ℕ, k < (s.mem.tail - s.mem.head).toNat →
        ∃ v, (ledger π).obj (s.mem.head + k) = some ⟨s.mem.head + k, v, false⟩ := by
      intro k hk
      have h0 : 0 ≤ s.mem.head := hg.ring.head_nonneg
      obtain ⟨v, hv⟩ := hg.val (s.mem.head + k) (by omega) (by omega)
      exact ⟨v, Ledger.obj_of_val hv⟩
    have hbuilt : (built (System.events π)).Perm (tickets (System.events π) .enq) := by
      refine List.perm_iff_count.mpr fun i => ?_
      rw [count_built, hpassed _ _ (by decide)]
    have hkilled : (killed (System.events π)).Perm (tickets (System.events π) .deq) := by
      refine List.perm_iff_count.mpr fun i => ?_
      rw [count_killed hproper, hpassed _ _ (by decide)]
    have hids : ids s.mem.destroyed =
        (List.range (s.mem.tail - s.mem.head).toNat).map fun k : ℕ => s.mem.head + (k : ℤ) := by
      rw [ids, hdestroyed, List.filterMap_map, ← List.filterMap_eq_map]
      refine List.filterMap_congr ?_
      intro k hk
      obtain ⟨v, hv⟩ := hobj k (List.mem_range.mp hk)
      simp [hv]
    refine ⟨hbuilt, ?_, ?_, ?_, hleft⟩
    · refine List.perm_iff_count.mpr fun i => ?_
      rw [count_handed, hpassed _ _ (by decide)]
    · refine ((hkilled.append_right _).trans ?_).trans hbuilt.symm
      rw [hids, tickets_eq h hwins, tickets_eq h hwins]
      exact .of_eq (ticketsBelow_append hg.ring.head_nonneg hg.ring.head_le)
    · rw [hdestroyed]
      intro x hx
      obtain ⟨k, hk, rfl⟩ := List.mem_map.mp hx
      obtain ⟨v, hv⟩ := hobj k (List.mem_range.mp hk)
      exact ⟨s.mem.head + k, v, by rw [hv]⟩

/-- Thread `0` puts `7` in, thread `1` puts `8` in, and thread `0` takes one out. -/
def roundTrip : List (Sched (Fin 2) ℕ) := wholeEnque 0 7 ++ wholeEnque 1 8 ++ wholeDeque 0 0

theorem lifetime_roundTrip :
    let s := State.start (Fin 2) ℕ 192 4
    let es := System.events (System.trace State.step s roundTrip)
    let t := System.after State.step s roundTrip
    (handed es).Perm [0] ∧ (killed es ++ ids t.mem.destroyed).Perm [0, 1] := by
  have hrun := (System.Run.nil rfl).steps (steps_trace 192 4 false false
    (State.start (Fin 2) ℕ 192 4) roundTrip (by decide))
  obtain ⟨-, -, -, -, hidle⟩ := lifetime hrun (by decide +kernel)
  obtain ⟨hbuilt, hhanded, hkilled, -, -⟩ := hidle (by decide +kernel)
  constructor
  · exact hhanded.trans (.of_eq (by decide +kernel))
  · exact (hkilled.trans hbuilt).trans (.of_eq (by decide +kernel))

end Results

end CraflinRQ

end LeonUtils
