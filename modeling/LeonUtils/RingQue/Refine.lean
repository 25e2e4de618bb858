import LeonUtils.RingQue.Machine
import LeonUtils.TicketRing

/-!
# The ring queue is a list

Modulo the capacity a counter is what it would be had it never wrapped, because the capacity divides
`2 ^ width`. The array is therefore used in the right order whatever the counters do: `Holds` speaks
of the counters as they would be.

The observers compare the counters themselves. `size` takes their difference in `SizeType` and is
always right. `empty` compares them as numbers and is right only while `_tail` has not wrapped past
`_head`; and so is `full` for types narrower than `int`, where the difference is not taken modulo
anything.

## Main definitions

* `listCall`, `listCalls` — what the queue should be
* `Holds` — what the queue holds, for counters that may have wrapped

## Main results

* `Holds.enqued`, `Holds.dequed`, `Holds.rtail`, `Holds.clear` — what the operations do to it
* `same_as_list` — while the counters stay within `SizeType`, the queue is a list
* `Holds.observe_wrapped` — what the observers give wherever the counters are
* `observers_iff` — over any run, the observers are right exactly when the counters have wrapped
  equally often
-/

namespace LeonUtils

namespace RingQue

open TicketRing (emod_ne_emod getElem?_snoc)
open ShmAtmRQ (land_two_pow_sub_one)

variable {T : Type} {t : SizeType}

/-! ## The list -/

/-- What a list of at most `capa` elements answers to a call, and what it is then. A call that makes
no sense, an `enque` when it is full or a `deque`, `rtail` or `head` when it is empty, has no
answer. -/
def listCall (capa : ℤ) (items : List T) : Op T → Option (Ans T × List T)
  | .enque v | .tailEnque v => if items.length < capa then some (.done, items ++ [v]) else none
  | .deque _ | .dequeInto _ =>
    match items with
    | [] => none
    | v :: rest => some (.elem v, rest)
  | .rtail => if items = [] then none else some (.done, items.dropLast)
  | .clear => some (.done, [])
  | .size => some (.num items.length, items)
  | .empty => some (.flag items.isEmpty, items)
  | .full => some (.flag (items.length = capa), items)
  | .head =>
    match items with
    | [] => none
    | v :: _ => some (.elem v, items)

/-- Calls one after the other. -/
def listCalls (capa : ℤ) (items : List T) : List (Op T) → Option (List (Ans T) × List T)
  | [] => some ([], items)
  | op :: ops =>
    match listCall capa items op with
    | none => none
    | some (a, items') => (listCalls capa items' ops).map fun x => (a :: x.1, x.2)

/-- Answers to several calls begin with the answer to the first. -/
theorem listCalls_cons {capa : ℤ} {items items' : List T} {op : Op T} {ops : List (Op T)}
    {as : List (Ans T)} (h : listCalls capa items (op :: ops) = some (as, items')) :
    ∃ a items₁ as', listCall capa items op = some (a, items₁) ∧
      listCalls capa items₁ ops = some (as', items') ∧ as = a :: as' := by
  simp only [listCalls] at h
  split at h
  · cases h
  · rename_i a items₁ hcall
    obtain ⟨⟨as', items₂⟩, hrest, hpair⟩ := Option.map_eq_some_iff.mp h
    obtain ⟨rfl, rfl⟩ := Prod.mk.inj hpair
    exact ⟨a, items₁, as', hcall, hrest, rfl⟩

/-! ## What the queue holds -/

/-- The queue holds `items`, and `b` is what `_head` would be had it never wrapped. -/
structure Holds (k : ℕ) (q : RingQue T t) (b : ℤ) (items : List T) : Prop where
  width : k ≤ t.width
  mask : q.mask = 2 ^ k - 1
  length : q.base.length = 2 ^ k
  head : q.head = t.store b
  tail : q.tail = t.store (b + items.length)
  le : (items.length : ℤ) ≤ 2 ^ k
  item : ∀ (j : ℕ) v, items[j]? = some v → q.base[((b + j) % 2 ^ k).toNat]? = some v

variable {k : ℕ} {q : RingQue T t} {b : ℤ} {items : List T}

/-- The index of a counter, wrapped or not. -/
theorem Holds.slot_store (h : Holds k q b items) (i : ℤ) :
    q.slot (t.store i) = (i % 2 ^ k).toNat := by
  have hdvd : (2 : ℤ) ^ k ∣ 2 ^ t.width := pow_dvd_pow 2 h.width
  rw [slot, h.mask, land_two_pow_sub_one, ← Int.emod_emod_of_dvd (t.store i) hdvd,
    SizeType.store_emod, Int.emod_emod_of_dvd i hdvd]

theorem slot_lt (k : ℕ) (i : ℤ) : (i % 2 ^ k).toNat < 2 ^ k := by
  have hpos : (0 : ℤ) < 2 ^ k := by positivity
  have hlt := Int.emod_lt_of_pos i hpos
  have h0 := Int.emod_nonneg i hpos.ne'
  zify
  rwa [Int.toNat_of_nonneg h0]

/-- Counters less than a lap apart have different indices. -/
theorem slot_ne {k : ℕ} {i j : ℤ} (hij : i < j) (hlap : j < i + 2 ^ k) :
    (i % 2 ^ k).toNat ≠ (j % 2 ^ k).toNat := by
  have hpos : (0 : ℤ) < 2 ^ k := by positivity
  intro heq
  refine emod_ne_emod hij hlap ?_
  rw [← Int.toNat_of_nonneg (Int.emod_nonneg i hpos.ne'), heq,
    Int.toNat_of_nonneg (Int.emod_nonneg j hpos.ne')]

theorem holds_start {k : ℕ} (hk : k ≤ t.width) (init : T) :
    Holds k (⟨List.replicate (2 ^ k) init, 2 ^ k - 1, 0, 0⟩ : RingQue T t) 0 [] where
  width := hk
  mask := rfl
  length := List.length_replicate
  head := by simp [SizeType.store]
  tail := by simp [SizeType.store]
  le := by
    rw [List.length_nil]
    positivity
  item j v hv := by simp at hv

/-- An element written to the tail and counted is the last one. -/
theorem Holds.enqued (h : Holds k q b items) (v : T) (hroom : (items.length : ℤ) < 2 ^ k) :
    ∃ q', q.writeTail v = some q' ∧ Holds k q'.bump b (items ++ [v]) := by
  have hslot : q.slot q.tail = ((b + items.length) % 2 ^ k).toNat := by rw [h.tail, h.slot_store]
  have hlt : q.slot q.tail < q.base.length := by
    rw [hslot, h.length]
    exact slot_lt k _
  refine ⟨_, if_pos hlt, h.width, h.mask, ?_, h.head, ?_, ?_, ?_⟩
  · simp only [bump, List.length_set, h.length]
  · simp only [bump, h.tail, SizeType.store_store_add, List.length_append, List.length_singleton]
    push_cast
    rw [add_assoc]
  · rw [List.length_append, List.length_singleton]
    push_cast
    omega
  · intro j x hx
    simp only [bump, hslot]
    rcases getElem?_snoc hx with ⟨hj, hx⟩ | ⟨hj', rfl⟩
    · rw [List.getElem?_set_ne (slot_ne (by omega) (by omega)).symm]
      exact h.item j x hx
    · rw [hj', List.getElem?_set_self]
      rwa [hslot] at hlt

theorem Holds.front {v : T} {rest : List T} (h : Holds k q b (v :: rest)) : q.front = some v := by
  have hitem := h.item 0 v rfl
  rw [Nat.cast_zero, add_zero] at hitem
  rw [RingQue.front, h.head, h.slot_store, hitem]

/-- What is taken out is the first element. -/
theorem Holds.dequed {v : T} {rest : List T} (h : Holds k q b (v :: rest)) (left : T) :
    ∃ q', q.deque left = some (v, q') ∧ Holds k q' (b + 1) rest := by
  have hle := h.le
  rw [List.length_cons] at hle
  push_cast at hle
  refine ⟨{ q with base := q.base.set (q.slot q.head) left, head := t.store (q.head + 1) },
    by rw [deque, h.front, Option.map_some], h.width, h.mask, ?_, ?_, ?_, by omega, ?_⟩
  · simp only [List.length_set, h.length]
  · simp only [h.head, SizeType.store_store_add]
  · simp only [h.tail, List.length_cons]
    push_cast
    congr 1
    omega
  · intro j x hx
    have hj := (List.getElem?_eq_some_iff.mp hx).1
    have hcast : b + 1 + (j : ℤ) = b + ((j + 1 : ℕ) : ℤ) := by
      push_cast
      omega
    simp only [h.head, h.slot_store]
    rw [List.getElem?_set_ne (slot_ne (by omega) (by omega)), hcast]
    exact h.item (j + 1) x (by simpa using hx)

/-- `rtail` drops the last element. -/
theorem Holds.rtail (h : Holds k q b items) (hne : items ≠ []) :
    Holds k q.rtail b items.dropLast where
  width := h.width
  mask := h.mask
  length := h.length
  head := h.head
  tail := by
    have hpos : 0 < items.length := List.length_pos_of_ne_nil hne
    simp only [RingQue.rtail, h.tail, sub_eq_add_neg, SizeType.store_store_add,
      List.length_dropLast]
    congr 1
    omega
  le := by
    have := h.le
    rw [List.length_dropLast]
    omega
  item j v hv := by
    have hj := (List.getElem?_eq_some_iff.mp hv).1
    rw [List.getElem?_dropLast] at hv
    split at hv
    · exact h.item j v hv
    · cases hv

theorem Holds.clear (h : Holds k q b items) : Holds k q.clear 0 [] where
  width := h.width
  mask := h.mask
  length := h.length
  head := by simp [RingQue.clear, SizeType.store]
  tail := by simp [RingQue.clear, SizeType.store]
  le := by
    rw [List.length_nil]
    positivity
  item j v hv := by simp at hv

/-! ## Calls -/

/-- What `_tail` would be after a call, had it never wrapped. -/
def Op.tailAfter (a : ℤ) : Op T → ℤ
  | .enque _ | .tailEnque _ => a + 1
  | .rtail => a - 1
  | .clear => 0
  | _ => a

/-- What `_head` would be after a call, had it never wrapped. -/
def Op.headAfter (b : ℤ) : Op T → ℤ
  | .deque _ | .dequeInto _ => b + 1
  | .clear => 0
  | _ => b

/-- Whether a call asks for the size, or whether the queue is empty or full. -/
def Op.observes : Op T → Bool
  | .size | .empty | .full => true
  | _ => false

/-- **A call that the list answers, the queue answers alike**, if it is not about the counters
themselves. -/
theorem Holds.call (h : Holds k q b items) {op : Op T} (hop : op.observes = false) {a : Ans T}
    {items' : List T} (hlist : listCall (2 ^ k) items op = some (a, items')) :
    ∃ q', q.call op = some (a, q') ∧ Holds k q' (op.headAfter b) items' ∧
      op.headAfter b + items'.length = op.tailAfter (b + items.length) := by
  cases op with
  | enque v =>
    simp only [listCall] at hlist
    split at hlist <;> cases hlist
    obtain ⟨q', hq', h'⟩ := h.enqued v ‹_›
    refine ⟨q'.bump, by simp [RingQue.call, RingQue.enque, hq'], h', ?_⟩
    simp [Op.headAfter, Op.tailAfter, add_assoc]
  | tailEnque v =>
    simp only [listCall] at hlist
    split at hlist <;> cases hlist
    obtain ⟨q', hq', h'⟩ := h.enqued v ‹_›
    refine ⟨q'.bump, by simp [RingQue.call, hq'], h', ?_⟩
    simp [Op.headAfter, Op.tailAfter, add_assoc]
  | deque left | dequeInto left =>
    cases items with
    | nil => cases hlist
    | cons v rest =>
      cases hlist
      obtain ⟨q', hq', h'⟩ := h.dequed left
      refine ⟨q', by simp [RingQue.call, hq'], h', ?_⟩
      simp only [Op.headAfter, Op.tailAfter, List.length_cons]
      push_cast
      omega
  | rtail =>
    simp only [listCall] at hlist
    split at hlist <;> cases hlist
    rename_i hne
    have hpos : 0 < items.length := List.length_pos_of_ne_nil hne
    refine ⟨_, rfl, h.rtail hne, ?_⟩
    simp only [Op.headAfter, Op.tailAfter, List.length_dropLast]
    omega
  | clear =>
    cases hlist
    exact ⟨_, rfl, h.clear, rfl⟩
  | head =>
    cases items with
    | nil => cases hlist
    | cons v rest =>
      cases hlist
      exact ⟨q, by simp [RingQue.call, h.front], h, rfl⟩
  | size | empty | full => cases hop

/-! ## Counters within the type -/

/-- The counters are what they would be had they never wrapped. -/
structure Within (t : SizeType) (b : ℤ) (items : List T) : Prop where
  head : 0 ≤ b
  tail : b + items.length ≤ t.max

/-- **The observers describe the list**, while the counters are within the type. -/
theorem Holds.observe (h : Holds k q b items) (hw : Within t b items) :
    q.size = items.length ∧ q.empty = items.isEmpty ∧
      q.full = decide ((items.length : ℤ) = 2 ^ k) := by
  have hb := hw.head
  have hmax := hw.tail
  have hhead : q.head = b := by rw [h.head, SizeType.store_of_le hb (by omega)]
  have htail : q.tail = b + items.length := by rw [h.tail, SizeType.store_of_le (by omega) hmax]
  have hsub : t.sub q.tail q.head = items.length := by
    rw [hhead, htail, SizeType.sub_of_le (by omega) (by omega)]
    omega
  refine ⟨?_, ?_, ?_⟩
  · rw [size, hsub, SizeType.store_of_le (by omega) (by omega)]
  · rw [empty, hhead, htail, Bool.eq_iff_iff, decide_eq_true_iff, List.isEmpty_iff_length_eq_zero]
    omega
  · have := h.le
    rw [full, hsub, h.mask]
    exact decide_eq_decide.mpr (by omega)

/-- Wherever `_tail` goes, from `a`, it stays within the type. -/
def Below (limit : ℤ) (a : ℤ) : List (Op T) → Prop
  | [] => True
  | op :: ops => op.tailAfter a ≤ limit ∧ Below limit (op.tailAfter a) ops

theorem headAfter_nonneg (op : Op T) (hb : 0 ≤ b) : 0 ≤ op.headAfter b := by
  cases op <;> simp only [Op.headAfter] <;> omega

/-- One call, while the counters are within the type. -/
theorem Holds.step (h : Holds k q b items) (hw : Within t b items) {op : Op T} {a : Ans T}
    {items' : List T} (hlist : listCall (2 ^ k) items op = some (a, items'))
    (hmax : op.tailAfter (b + items.length) ≤ t.max) :
    ∃ q', q.call op = some (a, q') ∧ Holds k q' (op.headAfter b) items' ∧
      Within t (op.headAfter b) items' ∧
      op.headAfter b + items'.length = op.tailAfter (b + items.length) := by
  obtain ⟨hsize, hempty, hfull⟩ := h.observe hw
  cases hop : op.observes with
  | false =>
    obtain ⟨q', hcall, h', hcount⟩ := h.call hop hlist
    exact ⟨q', hcall, h', ⟨headAfter_nonneg op hw.head, by rwa [hcount]⟩, hcount⟩
  | true =>
    cases op with
    | size =>
      cases hlist
      exact ⟨q, by rw [RingQue.call, hsize], h, hw, rfl⟩
    | empty =>
      cases hlist
      exact ⟨q, by rw [RingQue.call, hempty], h, hw, rfl⟩
    | full =>
      cases hlist
      exact ⟨q, by rw [RingQue.call, hfull], h, hw, rfl⟩
    | _ => cases hop

/-- Any number of calls, while the counters are within the type. -/
theorem Holds.steps (h : Holds k q b items) (hw : Within t b items) {ops : List (Op T)}
    {as : List (Ans T)} {items' : List T} (hlist : listCalls (2 ^ k) items ops = some (as, items'))
    (hbelow : Below t.max (b + items.length) ops) :
    ∃ q' b', q.calls ops = some (as, q') ∧ Holds k q' b' items' := by
  induction ops generalizing q b items as with
  | nil =>
    cases hlist
    exact ⟨q, b, rfl, h⟩
  | cons op ops ih =>
    obtain ⟨a, items₁, as', hcall, hrest, rfl⟩ := listCalls_cons hlist
    obtain ⟨q₁, hq₁, h₁, hw₁, hcount⟩ := h.step hw hcall hbelow.1
    obtain ⟨q', b', hq', h'⟩ := ih h₁ hw₁ hrest (by
      rw [hcount]
      exact hbelow.2)
    exact ⟨q', b', by simp [calls, hq₁, hq'], h'⟩

theorem capa_eq {k : ℕ} (hk : (2 : ℤ) ^ k ≤ t.max) (init : List T) (head tail : ℤ) :
    (⟨init, 2 ^ k - 1, head, tail⟩ : RingQue T t).capa = 2 ^ k := by
  rw [capa, sub_add_cancel, SizeType.store_of_le (by positivity) hk]

/-- **Within the type, the queue is a list.** Whatever calls are made that make sense to a list of
at most `capa()` elements, the queue gives the answers of the list, as long as `_tail` stays within
the maximum of `SizeType`. -/
theorem same_as_list {e : ElemSize} {init : T} {capa : ℕ} {q : RingQue T t}
    (hq : construct T t e init capa = some q) {ops : List (Op T)} {as : List (Ans T)}
    {items : List T} (hlist : listCalls q.capa [] ops = some (as, items))
    (hbelow : Below t.max 0 ops) :
    ∃ q', q.calls ops = some (as, q') ∧ items.length ≤ q.capa := by
  obtain ⟨k, hk, hmax, rfl⟩ := construct_eq hq
  rw [capa_eq hmax] at hlist ⊢
  have hpos : (0 : ℤ) < 2 ^ k := by positivity
  obtain ⟨q', b', hcalls, h'⟩ := (holds_start hk.le init).steps
    ⟨le_rfl, by simp only [List.length_nil]; push_cast; omega⟩ hlist (by simpa using hbelow)
  exact ⟨q', hcalls, h'.le⟩

theorem same_as_list_int : ∃ q' : RingQue ℕ ⟨32, true⟩,
    (⟨List.replicate 8 0, 7, 0, 0⟩ : RingQue ℕ ⟨32, true⟩).calls
      [.enque 1, .tailEnque 2, .head, .rtail, .size, .dequeInto 0, .empty, .full, .clear] =
        some ([.done, .done, .elem 1, .done, .num 1, .elem 1, .flag true, .flag false, .done], q') ∧
      ([] : List ℕ).length ≤ (⟨List.replicate 8 0, 7, 0, 0⟩ : RingQue ℕ ⟨32, true⟩).capa := by
  have hq : construct ℕ ⟨32, true⟩ ⟨4, by decide, by decide⟩ 0 5 =
      some ⟨List.replicate 8 0, 7, 0, 0⟩ := by
    decide +kernel
  exact same_as_list hq (by decide +kernel) (by simp only [Below, Op.tailAfter]; decide)

/-! ## Counters that wrap -/

/-- Whether a call puts an element in or takes one out. -/
def Op.moves : Op T → Bool
  | .enque _ | .tailEnque _ | .deque _ | .dequeInto _ => true
  | _ => false

/-- The element a call puts in. -/
def Op.put : Op T → Option T
  | .enque v | .tailEnque v => some v
  | _ => none

/-- Whether a call takes an element out. -/
def Op.takes : Op T → Bool
  | .deque _ | .dequeInto _ => true
  | _ => false

/-- The element an answer hands out. -/
def Ans.taken : Ans T → Option T
  | .elem v => some v
  | _ => none

/-- The elements put in. -/
def puts (ops : List (Op T)) : List T := ops.filterMap Op.put

/-- The number of elements taken out. -/
def takes (ops : List (Op T)) : ℕ := ops.countP Op.takes

/-- The elements handed out. -/
def handedOut (as : List (Ans T)) : List T := as.filterMap Ans.taken

/-- What should be the case after a run `ops` with answers `as`: the observers describe the number
of elements put in and not taken out, and the elements come out in the order in which they went
in. -/
structure Right (q : RingQue T t) (ops : List (Op T)) (as : List (Ans T)) : Prop where
  size : q.size = (puts ops).length - takes ops
  empty : q.empty = true ↔ ((puts ops).length : ℤ) - takes ops = 0
  full : q.full = true ↔ ((puts ops).length : ℤ) - takes ops = q.capa
  order : handedOut as <+: puts ops ∧ (handedOut as).length = takes ops

/-- One call that puts in or takes out. -/
theorem listCall_moves {capa : ℤ} {op : Op T} (hop : op.moves = true) {a : Ans T}
    {items' : List T} (h : listCall capa items op = some (a, items')) :
    a.taken.toList ++ items' = items ++ op.put.toList ∧
      a.taken.toList.length = if op.takes then 1 else 0 := by
  cases op with
  | enque v | tailEnque v =>
    simp only [listCall] at h
    split at h <;> cases h
    exact ⟨rfl, rfl⟩
  | deque left | dequeInto left =>
    cases items with
    | nil => cases h
    | cons v rest =>
      cases h
      exact ⟨by simp [Ans.taken, Op.put], rfl⟩
  | _ => cases hop

theorem filterMap_cons_toList {α β : Type} (f : α → Option β) (x : α) (l : List α) :
    (x :: l).filterMap f = (f x).toList ++ l.filterMap f := by
  cases h : f x <;> simp [h]

/-- Any number of them: what has been taken out, followed by what is there, is what was there,
followed by what has been put in. -/
theorem listCalls_moves {capa : ℤ} {ops : List (Op T)} (hops : ∀ op ∈ ops, op.moves = true)
    {as : List (Ans T)} {items' : List T} (h : listCalls capa items ops = some (as, items')) :
    handedOut as ++ items' = items ++ puts ops ∧ (handedOut as).length = takes ops := by
  induction ops generalizing items as with
  | nil =>
    cases h
    exact ⟨(List.append_nil _).symm, rfl⟩
  | cons op ops ih =>
    obtain ⟨a, items₁, as', hcall, hrest, rfl⟩ := listCalls_cons h
    obtain ⟨hfirst, hone⟩ := listCall_moves (hops op List.mem_cons_self) hcall
    obtain ⟨horder, hcount⟩ := ih (fun o ho => hops o (List.mem_cons_of_mem _ ho)) hrest
    rw [handedOut, puts, filterMap_cons_toList, filterMap_cons_toList, ← handedOut, ← puts]
    constructor
    · rw [List.append_assoc, horder, ← List.append_assoc, hfirst, List.append_assoc]
    · rw [List.length_append, hone, hcount, takes, takes, List.countP_cons, Nat.add_comm]

/-- Any number of calls that put in or take out, wherever the counters are. -/
theorem Holds.moves (h : Holds k q b items) {ops : List (Op T)}
    (hops : ∀ op ∈ ops, op.moves = true) {as : List (Ans T)} {items' : List T}
    (hlist : listCalls (2 ^ k) items ops = some (as, items')) :
    ∃ q', q.calls ops = some (as, q') ∧ Holds k q' (b + takes ops) items' := by
  induction ops generalizing q b items as with
  | nil =>
    cases hlist
    exact ⟨q, rfl, by simpa [takes] using h⟩
  | cons op ops ih =>
    obtain ⟨a, items₁, as', hcall, hrest, rfl⟩ := listCalls_cons hlist
    have hop := hops op List.mem_cons_self
    obtain ⟨q₁, hq₁, h₁, -⟩ := h.call (by revert hop; cases op <;> simp [Op.moves, Op.observes])
      hcall
    obtain ⟨q', hq', h'⟩ := ih h₁ (fun o ho => hops o (List.mem_cons_of_mem _ ho)) hrest
    refine ⟨q', by simp [calls, hq₁, hq'], ?_⟩
    have hhead : op.headAfter b + takes ops = b + takes (op :: ops) := by
      rw [takes, takes, List.countP_cons]
      revert hop
      cases op <;> simp [Op.moves, Op.headAfter, Op.takes] <;> omega
    rwa [hhead] at h'

/-- Two counters less than a whole cycle apart have wrapped equally often, or one of them once
more. -/
theorem wrap_add {c x l : ℤ} (h0 : 0 ≤ l) (hl : l < c) :
    (x / c = (x + l) / c ∧ (x + l) % c = x % c + l) ∨
      (x / c ≠ (x + l) / c ∧ (x + l) % c = x % c + l - c) := by
  have hc : 0 < c := by omega
  have hlt := Int.emod_lt_of_pos x hc
  have hnonneg := Int.emod_nonneg x hc.ne'
  have hx := Int.emod_add_mul_ediv x c
  by_cases hwrap : x % c + l < c
  · left
    obtain ⟨hdiv, hmod⟩ := (Int.ediv_emod_unique hc).mpr
      (show x % c + l + c * (x / c) = x + l ∧ _ from ⟨by omega, by omega, hwrap⟩)
    exact ⟨hdiv.symm, hmod⟩
  · right
    obtain ⟨hdiv, hmod⟩ := (Int.ediv_emod_unique hc).mpr
      (show x % c + l - c + c * (x / c + 1) = x + l ∧ _ from
        ⟨by rw [mul_add, mul_one]; omega, by omega, by omega⟩)
    exact ⟨by omega, hmod⟩

/-- **The observers of an unsigned type**, wherever the counters are: `size` is right, `empty` is
also true when `_tail` has wrapped once more than `_head`, and then `full` is false for types
narrower than `int`. -/
theorem Holds.observe_wrapped {w : ℕ} {q : RingQue T ⟨w, false⟩} (h : Holds k q b items)
    (hk : k < w) :
    q.size = items.length ∧
    (q.empty = true ↔ items.length = 0 ∨ b / 2 ^ w ≠ (b + items.length) / 2 ^ w) ∧
    (q.full = true ↔
      items.length = (2 : ℤ) ^ k ∧ (32 ≤ w ∨ b / 2 ^ w = (b + items.length) / 2 ^ w)) := by
  have hle := h.le
  have hpow : (2 : ℤ) ^ k < 2 ^ w := pow_lt_pow_right₀ (by norm_num) hk
  have hhead : q.head = b % 2 ^ w := h.head
  have htail : q.tail = (b + items.length) % 2 ^ w := h.tail
  have hlt := Int.emod_lt_of_pos b (show (0 : ℤ) < 2 ^ w by positivity)
  have hnonneg := Int.emod_nonneg (b + items.length) (show (2 : ℤ) ^ w ≠ 0 by positivity)
  have hlen : (items.length : ℤ) % 2 ^ w = items.length := Int.emod_eq_of_lt (by omega) (by omega)
  have hwrapped : ((items.length : ℤ) - 2 ^ w) % 2 ^ w = items.length := by
    rw [Int.sub_emod_right, hlen]
  simp only [size, empty, full, SizeType.store, SizeType.sub, h.mask, hhead, htail,
    decide_eq_true_iff, Bool.false_eq_true, if_false]
  rcases wrap_add (x := b) (by omega) (by omega : (items.length : ℤ) < 2 ^ w) with
    ⟨hdiv, hmod⟩ | ⟨hdiv, hmod⟩
  · rw [hmod, show b % 2 ^ w + (items.length : ℤ) - b % 2 ^ w = items.length by omega, hlen,
      ite_self, hlen]
    refine ⟨rfl, ?_, ?_⟩
    · simp only [hdiv, ne_eq, not_true_eq_false, or_false]
      omega
    · simp only [hdiv, or_true, and_true]
      omega
  · rw [hmod, show b % 2 ^ w + (items.length : ℤ) - 2 ^ w - b % 2 ^ w = items.length - 2 ^ w by
      omega, hwrapped]
    refine ⟨?_, ?_, ?_⟩
    · split
      · exact hwrapped
      · exact hlen
    · simp only [ne_eq, hdiv, not_false_eq_true, or_true, iff_true]
      omega
    · simp only [hdiv, or_false]
      split
      · omega
      · omega

/-- **The observers are right exactly when the counters have wrapped equally often.** Over any run
of calls that put in when there is room and take out when there is something, every call returns,
and what should be the case is the case if and only if the number of elements put in and the number
taken out go equally often into `2 ^ width`. -/
theorem observers_iff {w : ℕ} {e : ElemSize} {init : T} {capa : ℕ} {q : RingQue T ⟨w, false⟩}
    (hq : construct T ⟨w, false⟩ e init capa = some q) {ops : List (Op T)}
    (hops : ∀ op ∈ ops, op.moves = true) (hlegal : (listCalls q.capa [] ops).isSome = true) :
    ∃ as q', q.calls ops = some (as, q') ∧
      (Right q' ops as ↔ takes ops / 2 ^ w = (puts ops).length / 2 ^ w) := by
  obtain ⟨k, hk, hmax, rfl⟩ := construct_eq hq
  rw [capa_eq hmax] at hlegal
  obtain ⟨⟨as, items⟩, hlist⟩ := Option.isSome_iff_exists.mp hlegal
  obtain ⟨q', hcalls, h'⟩ := (holds_start hk.le init).moves hops hlist
  obtain ⟨horder, hcount⟩ := listCalls_moves hops hlist
  rw [List.nil_append] at horder
  rw [zero_add] at h'
  have hlen : (items.length : ℤ) = (puts ops).length - takes ops := by
    have := congrArg List.length horder
    rw [List.length_append] at this
    omega
  have hcapa : q'.capa = 2 ^ k := by
    rw [RingQue.capa, h'.mask, sub_add_cancel, SizeType.store_of_le (by positivity) hmax]
  obtain ⟨hsize, hempty, hfull⟩ := h'.observe_wrapped hk
  have hput : (takes ops : ℤ) + items.length = (puts ops).length := by omega
  have hcond : (takes ops / 2 ^ w = (puts ops).length / 2 ^ w) ↔
      (takes ops : ℤ) / 2 ^ w = (takes ops + items.length) / 2 ^ w := by
    rw [hput]
    norm_cast
  refine ⟨as, q', hcalls, ?_⟩
  rw [hcond]
  constructor
  · intro hright
    by_contra hne
    have hzero := hright.empty.mp (hempty.mpr (Or.inr hne))
    rw [← hlen] at hzero
    exact hne (by rw [hzero, add_zero])
  · intro hsame
    refine ⟨by rw [hsize, hlen], ?_, ?_, ⟨items, horder⟩, hcount⟩
    · rw [hempty, ← hlen]
      simp [hsame]
    · rw [hfull, ← hlen, hcapa]
      simp [hsame]

/-- A queue of capacity `4` with 8-bit counters. -/
def byteQue : RingQue ℕ ⟨8, false⟩ := ⟨List.replicate 4 0, 3, 0, 0⟩

/-- Elements put in and taken out, one at a time, and then four put in. -/
def pastMaximum : List (Op ℕ) :=
  (List.replicate 254 [.enque 5, .dequeInto 0]).flatten ++ List.replicate 4 (.enque 5)

theorem observers_iff_byte : ∃ as q', byteQue.calls [.enque 5, .enque 6, .deque 0] = some (as, q') ∧
    Right q' [.enque 5, .enque 6, .deque 0] as := by
  have hq : construct ℕ ⟨8, false⟩ ⟨4, by decide, by decide⟩ 0 3 = some byteQue := by
    decide +kernel
  have hops : ∀ op ∈ [Op.enque 5, .enque 6, .deque 0], op.moves = true := by decide
  obtain ⟨as, q', hcalls, hiff⟩ := observers_iff hq hops (by decide)
  exact ⟨as, q', hcalls, hiff.mpr (by decide)⟩

/-- **Past the maximum the observers go wrong**: here the queue is full, `full` is false and
`empty` is true. -/
theorem observers_wrong : construct ℕ ⟨8, false⟩ ⟨4, by decide, by decide⟩ 0 3 = some byteQue ∧
    (∀ op ∈ pastMaximum, op.moves = true) ∧
    (listCalls byteQue.capa [] pastMaximum).isSome = true ∧
    ∃ as q', byteQue.calls pastMaximum = some (as, q') ∧ q'.size = q'.capa ∧ q'.full = false ∧
      q'.empty = true ∧ ¬ Right q' pastMaximum as := by
  have hend : (byteQue.calls pastMaximum).map (fun x => (x.2.size, x.2.capa, x.2.full, x.2.empty)) =
      some (4, 4, false, true) := by decide +kernel
  obtain ⟨⟨as, q'⟩, hcalls, hpair⟩ := Option.map_eq_some_iff.mp hend
  simp only [Prod.mk.injEq] at hpair
  obtain ⟨hsize, hcapa, hfull, hempty⟩ := hpair
  refine ⟨by decide +kernel, by decide +kernel, by decide +kernel, as, q', hcalls,
    by rw [hsize, hcapa], hfull, hempty, ?_⟩
  intro hright
  have hzero := hright.empty.mp hempty
  rw [← hright.size, hsize] at hzero
  cases hzero

end RingQue

end LeonUtils
