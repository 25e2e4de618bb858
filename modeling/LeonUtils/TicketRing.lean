import LeonUtils.Transition
import Mathlib.Algebra.Order.Group.Int
import Mathlib.Data.Int.ModEq
import Mathlib.Logic.Function.Basic
import Mathlib.Tactic.Linarith

/-!
# A bounded ring whose cells are handed over by ticket

The abstract protocol behind bounded multi-producer multi-consumer rings. Tickets are numbered
`0, 1, 2, …` and ticket `i` is served by cell `i % n`. A producer *claims* the ticket `tail`,
fills its cell and then marks it full; a consumer *takes* the ticket `head`, empties the cell and
then *releases* it to the ticket one lap later.

Each cell carries its `turn`, the ticket it currently serves, and a mark saying whether that
ticket has been filled. Parties read these at one time and act on them later, so what they have
seen may be out of date by any number of laps. The protocol is safe because what they look for is
monotone: a cell whose turn has reached `i` keeps a turn of at least `i`, and a ticket that has
been filled stays filled. `Ring.Filled` and the clauses of `RoleOk` are stated in that monotone
form, which is why no step can invalidate another party's knowledge.

## Main definitions

* `Ring`, `Role` — the state of the ring and what each party is doing
* `Step` — what one step may do; `system` — the transition system
* `Inv` — the invariant
* `window` — what the outstanding tickets are worth

## Main results

* `inv_of_run` — the invariant holds after every run
* `Inv.tail_sub_head` — between `0` and `n` tickets are outstanding
* `Inv.holder_unique` — at most one party holds a ticket of any given cell
* `Inv.turn_of_quiet` — with no ticket held, each cell serves the one ticket of the window
* `Inv.head_full_iff`, `Inv.tail_free_iff` — who stands in the way at the two ends
* `Inv.handOver` — a ticket may change hands
-/

namespace TicketRing

open Transition

/-! ## Tickets and cells -/

/-- Two tickets of one cell less than a lap apart are the same ticket. -/
theorem eq_of_emod_eq {n a b : ℤ} (h : a % n = b % n) (hab : a < b + n) (hba : b < a + n) :
    a = b := by
  have hdvd : n ∣ a - b := (Int.ModEq.dvd (show b ≡ a [ZMOD n] from h.symm))
  have habs : |a - b| < n := abs_lt.mpr ⟨by linarith, by linarith⟩
  have := Int.eq_zero_of_abs_lt_dvd hdvd habs
  linarith

/-- A ticket ahead of another one of its cell is at least a lap ahead. -/
theorem add_le_of_emod_eq {n a b : ℤ} (h : a % n = b % n) (hn : 0 < n) (hab : a < b) :
    a + n ≤ b := by
  by_contra hlt
  have := eq_of_emod_eq h (by omega) (by omega)
  omega

/-- Tickets less than a lap apart have different cells. -/
theorem emod_ne_emod {n a b : ℤ} (hab : a < b) (hlap : b < a + n) : a % n ≠ b % n := fun heq =>
  hab.ne (eq_of_emod_eq heq (by omega) hlap)

/-- What is found in a queue with one element more was in it before, or is the new one. -/
theorem getElem?_snoc {α : Type*} {l : List α} {v x : α} {k : ℕ} (h : (l ++ [v])[k]? = some x) :
    (k < l.length ∧ l[k]? = some x) ∨ (k = l.length ∧ v = x) := by
  rcases Nat.lt_or_ge k l.length with hk | hk
  · rw [List.getElem?_append_left hk] at h
    exact Or.inl ⟨hk, h⟩
  · rw [List.getElem?_append_right hk] at h
    obtain ⟨hlt, hx⟩ := List.getElem?_eq_some_iff.mp h
    simp only [List.length_singleton] at hlt
    exact Or.inr ⟨by omega, by simpa using hx⟩

/-! ## Windows of tickets -/

section Window

variable {α : Type*}

/-- What the tickets from `head` up to `tail` are worth, in order. -/
def window (v : ℤ → α) (head tail : ℤ) : List α :=
  (List.range (tail - head).toNat).map fun k : ℕ => v (head + k)

theorem length_window (v : ℤ → α) (head tail : ℤ) :
    (window v head tail).length = (tail - head).toNat := by
  simp [window]

/-- Only the tickets in the window count. -/
theorem window_congr {v v' : ℤ → α} {head tail : ℤ} (h : ∀ i, i < tail → v' i = v i) :
    window v' head tail = window v head tail := by
  apply List.map_congr_left
  intro k hk
  rw [List.mem_range] at hk
  exact h _ (by omega)

/-- The window grows by its newest ticket. -/
theorem window_snoc {v v' : ℤ → α} {head tail : ℤ} {x : α} (hle : head ≤ tail)
    (hold : ∀ i, i < tail → v' i = v i) (hnew : v' tail = x) :
    window v' head (tail + 1) = window v head tail ++ [x] := by
  have hlen : (tail + 1 - head).toNat = (tail - head).toNat + 1 := by omega
  have hlast : head + ((tail - head).toNat : ℤ) = tail := by omega
  rw [← window_congr hold, window, hlen, List.range_succ, List.map_append, List.map_singleton,
    hlast, hnew]
  rfl

/-- The oldest ticket of the window, and the others. -/
theorem window_cons {v : ℤ → α} {head tail : ℤ} (hlt : head < tail) :
    window v head tail = v head :: window v (head + 1) tail := by
  have hlen : (tail - head).toNat = (tail - (head + 1)).toNat + 1 := by omega
  rw [window, hlen, List.range_succ_eq_map, List.map_cons, List.map_map, window]
  congr 1
  · simp
  · apply List.map_congr_left
    intro k _
    have hnext : head + ((k + 1 : ℕ) : ℤ) = head + 1 + k := by
      push_cast
      omega
    rw [Function.comp_apply, Nat.succ_eq_add_one, hnext]

end Window

/-- What a party is doing. The indices it acts on are copies, and may be out of date. -/
inductive Role
  /-- Not engaged with the ring. -/
  | out
  /-- Has read `tail` and found `i`. -/
  | atTail (i : ℤ)
  /-- Has seen the cell of `i` free for ticket `i`. -/
  | sawFree (i : ℤ)
  /-- Has claimed ticket `i`, not filled yet. -/
  | filling (i : ℤ)
  /-- Has read `head` and found `i`. -/
  | atHead (i : ℤ)
  /-- Has seen ticket `i` filled. -/
  | sawFull (i : ℤ)
  /-- Has taken ticket `i`, not released yet. -/
  | draining (i : ℤ)

/-- The ticket a party holds, between winning it and passing the cell on. -/
def Role.held : Role → Option ℤ
  | .filling i | .draining i => some i
  | _ => none

@[simp] theorem Role.held_eq_some {ρ : Role} {i : ℤ} :
    ρ.held = some i ↔ ρ = .filling i ∨ ρ = .draining i := by
  cases ρ <;> simp [Role.held]

/-- The state of a ring with parties `τ` and cell contents `β`. -/
structure Ring (τ β : Type*) where
  /-- The next ticket to take. -/
  head : ℤ
  /-- The next ticket to claim. -/
  tail : ℤ
  /-- The ticket a cell serves. -/
  turn : ℤ → ℤ
  /-- The ticket a cell serves has been filled. -/
  full : ℤ → Prop
  /-- What a cell contains. -/
  cell : ℤ → β
  /-- What the producer of a ticket set out to store. -/
  val : ℤ → β
  /-- What each party is doing. -/
  role : τ → Role

variable {τ β : Type*} {n : ℤ}

/-- Ticket `i` has been filled, now or in an earlier lap. -/
def Ring.Filled (n : ℤ) (r : Ring τ β) (i : ℤ) : Prop :=
  i < r.turn (i % n) ∨ r.turn (i % n) = i ∧ r.full (i % n)

section Step

variable [DecidableEq τ]

/-- The ring with party `p` in another role. -/
def Ring.setRole (r : Ring τ β) (p : τ) (ρ : Role) : Ring τ β :=
  { r with role := Function.update r.role p ρ }

/-- What party `p` may do in one step. -/
inductive Step (n : ℤ) (r : Ring τ β) (p : τ) : Ring τ β → Prop
  | leave (h : (r.role p).held = none) : Step n r p (r.setRole p .out)
  | readTail (h : (r.role p).held = none) : Step n r p (r.setRole p (.atTail r.tail))
  | seeFree (i : ℤ) (h : r.role p = .atTail i) (hi : i ≤ r.turn (i % n)) :
      Step n r p (r.setRole p (.sawFree i))
  | claim (i : ℤ) (v : β) (h : r.role p = .sawFree i) (hi : r.tail = i) :
      Step n r p
        { r.setRole p (.filling i) with tail := i + 1, val := Function.update r.val i v }
  | write (i : ℤ) (v : β) (h : r.role p = .filling i) :
      Step n r p { r with cell := Function.update r.cell (i % n) v }
  | fill (i : ℤ) (h : r.role p = .filling i) (hi : r.cell (i % n) = r.val i) :
      Step n r p { r.setRole p .out with full := Function.update r.full (i % n) True }
  | readHead (h : (r.role p).held = none) : Step n r p (r.setRole p (.atHead r.head))
  | seeFull (i : ℤ) (h : r.role p = .atHead i) (hi : r.Filled n i) :
      Step n r p (r.setRole p (.sawFull i))
  | take (i : ℤ) (h : r.role p = .sawFull i) (hi : r.head = i) :
      Step n r p { r.setRole p (.draining i) with head := i + 1 }
  | release (i : ℤ) (h : r.role p = .draining i) :
      Step n r p
        { r.setRole p .out with
          turn := Function.update r.turn (i % n) (i + n)
          full := Function.update r.full (i % n) False }

end Step

/-- An empty ring: cell `j` serves ticket `j`, and nobody is engaged. -/
structure Initial (n : ℤ) (r : Ring τ β) : Prop where
  head : r.head = 0
  tail : r.tail = 0
  turn : ∀ j, 0 ≤ j → j < n → r.turn j = j
  full : ∀ j, 0 ≤ j → j < n → ¬ r.full j
  role : ∀ p, r.role p = .out

/-- The ring as a transition system; the event of a step is the party that makes it. -/
def system (n : ℤ) (τ β : Type*) [DecidableEq τ] : System (Ring τ β) τ where
  init := Initial n
  next r p r' := Step n r p r'

/-! ## The invariant -/

/-- What holds of a party's role. Everything said about a party that merely has *seen* something
is monotone in the ring, so that other parties' steps keep it. -/
def RoleOk (n : ℤ) (r : Ring τ β) : Role → Prop
  | .out => True
  | .atTail i => 0 ≤ i ∧ i ≤ r.tail
  | .sawFree i => 0 ≤ i ∧ i ≤ r.tail ∧ i ≤ r.turn (i % n)
  | .filling i => 0 ≤ i ∧ i < r.tail ∧ r.turn (i % n) = i ∧ ¬ r.full (i % n)
  | .atHead i => 0 ≤ i ∧ i ≤ r.head
  | .sawFull i => 0 ≤ i ∧ i ≤ r.head ∧ r.Filled n i
  | .draining i => 0 ≤ i ∧ i < r.head ∧ r.turn (i % n) = i

/-- The invariant of the ring. The fields about `j` speak of the cells, `0 ≤ j < n`. -/
structure Inv (n : ℤ) (r : Ring τ β) : Prop where
  pos : 0 < n
  head_nonneg : 0 ≤ r.head
  head_le : r.head ≤ r.tail
  turn_mod : ∀ j, 0 ≤ j → j < n → r.turn j % n = j
  turn_nonneg : ∀ j, 0 ≤ j → j < n → 0 ≤ r.turn j
  turn_lt : ∀ j, 0 ≤ j → j < n → r.turn j < r.head + n
  tail_le : ∀ j, 0 ≤ j → j < n → r.tail ≤ r.turn j + n
  full_lt : ∀ j, 0 ≤ j → j < n → r.full j → r.turn j < r.tail
  full_of_lt : ∀ j, 0 ≤ j → j < n → r.turn j < r.head → r.full j
  full_cell : ∀ j, 0 ≤ j → j < n → r.full j → r.cell j = r.val (r.turn j)
  filler : ∀ j, 0 ≤ j → j < n → ¬ r.full j → r.turn j < r.tail →
    ∃ p, r.role p = .filling (r.turn j)
  drainer : ∀ j, 0 ≤ j → j < n → r.turn j < r.head → ∃ p, r.role p = .draining (r.turn j)
  role : ∀ p, RoleOk n r (r.role p)
  filling_unique : ∀ p q i, r.role p = .filling i → r.role q = .filling i → p = q
  draining_unique : ∀ p q i, r.role p = .draining i → r.role q = .draining i → p = q

theorem Initial.inv {r : Ring τ β} (hn : 0 < n) (h : Initial n r) : Inv n r where
  pos := hn
  head_nonneg := by rw [h.head]
  head_le := by rw [h.head, h.tail]
  turn_mod j h0 hj := by rw [h.turn j h0 hj, Int.emod_eq_of_lt h0 hj]
  turn_nonneg j h0 hj := by rw [h.turn j h0 hj]; exact h0
  turn_lt j h0 hj := by rw [h.turn j h0 hj, h.head]; omega
  tail_le j h0 hj := by rw [h.turn j h0 hj, h.tail]; omega
  full_lt j h0 hj hf := absurd hf (h.full j h0 hj)
  full_of_lt j h0 hj hlt := by rw [h.turn j h0 hj, h.head] at hlt; omega
  full_cell j h0 hj hf := absurd hf (h.full j h0 hj)
  filler j h0 hj _ hlt := by rw [h.turn j h0 hj, h.tail] at hlt; omega
  drainer j h0 hj hlt := by rw [h.turn j h0 hj, h.head] at hlt; omega
  role p := by rw [h.role p]; trivial
  filling_unique p q i hp := by rw [h.role p] at hp; cases hp
  draining_unique p q i hp := by rw [h.role p] at hp; cases hp

section Facts

variable {r : Ring τ β}

theorem Inv.cell_range (h : Inv n r) (i : ℤ) : 0 ≤ i % n ∧ i % n < n :=
  ⟨Int.emod_nonneg _ h.pos.ne', Int.emod_lt_of_pos _ h.pos⟩

theorem Inv.turn_emod (h : Inv n r) (i : ℤ) : r.turn (i % n) % n = i % n :=
  h.turn_mod _ (h.cell_range i).1 (h.cell_range i).2

theorem Inv.role_ok (h : Inv n r) {p : τ} {ρ : Role} (hp : r.role p = ρ) : RoleOk n r ρ :=
  hp ▸ h.role p

/-- A cell is full until its consumer releases it. -/
theorem Inv.full_of_draining (h : Inv n r) {p : τ} {i : ℤ} (hp : r.role p = .draining i) :
    r.full (i % n) ∧ r.turn (i % n) = i := by
  obtain ⟨h0, hlt⟩ := h.cell_range i
  obtain ⟨-, hhead, hturn⟩ := h.role_ok hp
  exact ⟨h.full_of_lt _ h0 hlt (by rw [hturn]; exact hhead), hturn⟩

/-- The cell of the ticket at `tail` cannot be a lap ahead of it: seen free, it is free. -/
theorem Inv.turn_of_free (h : Inv n r) (hle : r.tail ≤ r.turn (r.tail % n)) :
    r.turn (r.tail % n) = r.tail := by
  have hlt := h.turn_lt _ (h.cell_range r.tail).1 (h.cell_range r.tail).2
  have := h.head_le
  have := h.pos
  exact eq_of_emod_eq (h.turn_emod r.tail) (by omega) (by omega)

/-- The cell of the ticket at `head` cannot be a lap ahead of it: once filled, it is still
full. -/
theorem Inv.turn_of_filled (h : Inv n r) (hf : r.Filled n r.head) :
    r.turn (r.head % n) = r.head ∧ r.full (r.head % n) := by
  rcases hf with hlt | hf
  · have hlap := add_le_of_emod_eq (h.turn_emod r.head).symm h.pos hlt
    have := h.turn_lt _ (h.cell_range r.head).1 (h.cell_range r.head).2
    omega
  · exact hf

/-- **No more than a lap of tickets is outstanding.** -/
theorem Inv.tail_sub_head (h : Inv n r) : 0 ≤ r.tail - r.head ∧ r.tail - r.head ≤ n := by
  obtain ⟨h0, hlt⟩ := h.cell_range r.head
  have hturn : r.turn (r.head % n) ≤ r.head := by
    by_contra hgt
    have := add_le_of_emod_eq (h.turn_emod r.head).symm h.pos (by omega)
    have := h.turn_lt _ h0 hlt
    omega
  have := h.tail_le _ h0 hlt
  have := h.head_le
  omega

/-- **A cell is held by at most one party**, whichever tickets of it they hold. -/
theorem Inv.holder_unique (h : Inv n r) {p q : τ} {i k : ℤ} (hp : (r.role p).held = some i)
    (hq : (r.role q).held = some k) (hik : i % n = k % n) : p = q := by
  obtain ⟨h0, hlt⟩ := h.cell_range i
  rcases Role.held_eq_some.mp hp with hp | hp <;> rcases Role.held_eq_some.mp hq with hq | hq
  · obtain ⟨-, -, hi, -⟩ := h.role_ok hp
    obtain ⟨-, -, hk, -⟩ := h.role_ok hq
    obtain rfl : i = k := by rw [← hi, ← hk, hik]
    exact h.filling_unique _ _ _ hp hq
  · obtain ⟨-, -, hi, hnf⟩ := h.role_ok hp
    obtain ⟨-, hk, hkt⟩ := h.role_ok hq
    exact absurd (h.full_of_lt _ h0 hlt (by rw [hik, hkt]; exact hk)) hnf
  · obtain ⟨-, hi, hit⟩ := h.role_ok hp
    obtain ⟨-, -, -, hnf⟩ := h.role_ok hq
    rw [← hik] at hnf
    exact absurd (h.full_of_lt _ h0 hlt (by rw [hit]; exact hi)) hnf
  · obtain ⟨-, -, hi⟩ := h.role_ok hp
    obtain ⟨-, -, hk⟩ := h.role_ok hq
    obtain rfl : i = k := by rw [← hi, ← hk, hik]
    exact h.draining_unique _ _ _ hp hq

/-- **With no ticket held, the cells spell out the window.** The cell of each ticket `i` in
`[head, head + n)` serves `i`, and is full exactly when `i` has been claimed. -/
theorem Inv.turn_of_quiet (h : Inv n r) (hquiet : ∀ p, (r.role p).held = none) {i : ℤ}
    (hi : r.head ≤ i) (hin : i < r.head + n) :
    r.turn (i % n) = i ∧ (r.full (i % n) ↔ i < r.tail) := by
  obtain ⟨h0, hlt⟩ := h.cell_range i
  have hge : r.head ≤ r.turn (i % n) := by
    by_contra hgt
    obtain ⟨p, hp⟩ := h.drainer _ h0 hlt (by omega)
    have := hquiet p
    simp [hp, Role.held] at this
  have hturn : r.turn (i % n) = i :=
    eq_of_emod_eq (h.turn_emod i) (by have := h.turn_lt _ h0 hlt; omega) (by omega)
  refine ⟨hturn, fun hf => by have := h.full_lt _ h0 hlt hf; omega, ?_⟩
  intro htail
  by_contra hnf
  obtain ⟨p, hp⟩ := h.filler _ h0 hlt hnf (by omega)
  have := hquiet p
  simp [hp, Role.held] at this

/-- The ticket at `head`, once claimed, is full unless its producer is still at it. -/
theorem Inv.head_full_iff (h : Inv n r) (hlt : r.head < r.tail) :
    (r.turn (r.head % n) = r.head ∧ r.full (r.head % n)) ↔ ∀ p, r.role p ≠ .filling r.head := by
  obtain ⟨h0, hn⟩ := h.cell_range r.head
  constructor
  · rintro ⟨-, hfull⟩ p hp
    exact (h.role_ok hp).2.2.2 hfull
  · intro hnone
    have hturn : r.turn (r.head % n) = r.head :=
      eq_of_emod_eq (h.turn_emod r.head) (by have := h.turn_lt _ h0 hn; omega)
        (by have := h.tail_le _ h0 hn; omega)
    refine ⟨hturn, ?_⟩
    by_contra hfull
    obtain ⟨p, hp⟩ := h.filler _ h0 hn hfull (by omega)
    exact hnone p (by rw [hp, hturn])

/-- With room in the ring, the ticket at `tail` finds its cell free unless the consumer of the
lap before is still at it. -/
theorem Inv.tail_free_iff (h : Inv n r) (hlt : r.tail < r.head + n) :
    r.turn (r.tail % n) = r.tail ↔ ∀ p, r.role p ≠ .draining (r.tail - n) := by
  obtain ⟨h0, hn⟩ := h.cell_range r.tail
  have hpos := h.pos
  constructor
  · intro hturn p hp
    have hok := (h.role_ok hp).2.2
    rw [Int.sub_emod_right] at hok
    omega
  · intro hnone
    rcases lt_or_ge (r.turn (r.tail % n)) r.tail with hbusy | hfree
    · have hlap := add_le_of_emod_eq (h.turn_emod r.tail) hpos hbusy
      have hturn : r.turn (r.tail % n) = r.tail - n := by
        have := h.tail_le _ h0 hn
        omega
      obtain ⟨p, hp⟩ := h.drainer _ h0 hn (by omega)
      exact absurd (by rw [hp, hturn]) (hnone p)
    · exact h.turn_of_free hfree

end Facts

/-! ## Preservation

One lemma for each kind of step. Steps that only change what a party knows share `Inv.setRole`;
the other parties are always handled by `RoleOk.mono`. -/

/-- Other parties' knowledge survives a step: the counters and turns only grow, a filled ticket
stays filled, and the cells this party holds are left alone. -/
theorem RoleOk.mono {r r' : Ring τ β} {ρ : Role} (h : RoleOk n r ρ) (htail : r.tail ≤ r'.tail)
    (hhead : r.head ≤ r'.head) (hturn : ∀ i, r.turn (i % n) ≤ r'.turn (i % n))
    (hfilled : ∀ i, r.Filled n i → r'.Filled n i)
    (hheld : ∀ i, ρ.held = some i →
      r'.turn (i % n) = r.turn (i % n) ∧ r'.full (i % n) = r.full (i % n)) :
    RoleOk n r' ρ := by
  cases ρ with
  | out => trivial
  | atTail i => exact ⟨h.1, h.2.trans htail⟩
  | sawFree i => exact ⟨h.1, h.2.1.trans htail, h.2.2.trans (hturn i)⟩
  | filling i =>
    obtain ⟨ht, hf⟩ := hheld i rfl
    exact ⟨h.1, h.2.1.trans_le htail, by rw [ht]; exact h.2.2.1, by rw [hf]; exact h.2.2.2⟩
  | atHead i => exact ⟨h.1, h.2.trans hhead⟩
  | sawFull i => exact ⟨h.1, h.2.1.trans hhead, hfilled i h.2.2⟩
  | draining i => exact ⟨h.1, h.2.1.trans_le hhead, (hheld i rfl).1.trans h.2.2⟩

/-- Writing a claimed cell. It is not full, so no full cell changes. -/
theorem Inv.write {r : Ring τ β} {p : τ} {i : ℤ} {v : β} (h : Inv n r)
    (hp : r.role p = .filling i) :
    Inv n { r with cell := Function.update r.cell (i % n) v } := by
  obtain ⟨-, -, -, hnf⟩ := h.role_ok hp
  exact { h with
    full_cell := by
      intro j hj0 hj hf
      have hne : j ≠ i % n := by
        rintro rfl
        exact hnf hf
      simpa [Function.update_of_ne hne] using h.full_cell j hj0 hj hf
    role := h.role }

/-- Neither `head` nor `tail` is more than a lap ahead of a ticket that is not released yet. -/
theorem Inv.tail_le_of_draining {r : Ring τ β} {p : τ} {i : ℤ} (h : Inv n r)
    (hp : r.role p = .draining i) : r.tail ≤ i + n := by
  obtain ⟨hc0, hcn⟩ := h.cell_range i
  have htail := h.tail_le _ hc0 hcn
  rwa [(h.role_ok hp).2.2] at htail

/-- Turns and marks after the release of ticket `i`: its cell turns to the ticket one lap later and
is empty, and no other cell changes. -/
structure Released (n : ℤ) (r : Ring τ β) (i : ℤ) (turn : ℤ → ℤ) (full : ℤ → Prop) : Prop where
  turn_self : turn (i % n) = i + n
  not_full : ¬ full (i % n)
  other : ∀ j, j ≠ i % n → turn j = r.turn j ∧ full j = r.full j

section Cells

variable {r : Ring τ β} {p : τ} {i : ℤ} {turn : ℤ → ℤ} {full : ℤ → Prop}

theorem released_update (n : ℤ) (r : Ring τ β) (i : ℤ) :
    Released n r i (Function.update r.turn (i % n) (i + n))
      (Function.update r.full (i % n) False) where
  turn_self := Function.update_self ..
  not_full := by simp
  other _ hj := ⟨Function.update_of_ne hj _ _, Function.update_of_ne hj _ _⟩

variable (hs : Released n r i turn full)

include hs

/-- A full cell is another one, and was full before. -/
theorem Released.full_old {j : ℤ} (hf : full j) : j ≠ i % n ∧ r.full j := by
  have hne : j ≠ i % n := by
    rintro rfl
    exact hs.not_full hf
  exact ⟨hne, (hs.other j hne).2 ▸ hf⟩

/-- A cell whose turn comes before that of the released one is another one. -/
theorem Released.ne_of_lt {j : ℤ} (hlt : turn j < i + n) : j ≠ i % n := by
  rintro rfl
  rw [hs.turn_self] at hlt
  exact lt_irrefl _ hlt

variable (h : Inv n r)

include h

theorem Released.turn_mod {j : ℤ} (hj0 : 0 ≤ j) (hj : j < n) : turn j % n = j := by
  by_cases hne : j = i % n
  · subst hne
    rw [hs.turn_self, Int.add_emod_right]
  · rw [(hs.other j hne).1, h.turn_mod j hj0 hj]

variable (hp : r.role p = .draining i)

include hp

/-- Turns only grow. -/
theorem Released.turn_le (j : ℤ) : r.turn j ≤ turn j := by
  have hpos := h.pos
  by_cases hne : j = i % n
  · subst hne
    rw [hs.turn_self, (h.role_ok hp).2.2]
    omega
  · rw [(hs.other j hne).1]

theorem Released.turn_lt {j : ℤ} (hj0 : 0 ≤ j) (hj : j < n) : turn j < r.head + n := by
  have hlt := (h.role_ok hp).2.1
  by_cases hne : j = i % n
  · subst hne
    rw [hs.turn_self]
    omega
  · rw [(hs.other j hne).1]
    exact h.turn_lt j hj0 hj

end Cells

section Preservation

variable [DecidableEq τ] {r : Ring τ β} {p : τ}

@[simp] theorem Ring.setRole_turn (ρ : Role) : (r.setRole p ρ).turn = r.turn := rfl
@[simp] theorem Ring.setRole_cell (ρ : Role) : (r.setRole p ρ).cell = r.cell := rfl

@[simp] theorem Ring.setRole_role_self (ρ : Role) : (r.setRole p ρ).role p = ρ := by
  simp [Ring.setRole]

theorem Ring.setRole_role_of_ne (ρ : Role) {q : τ} (hq : q ≠ p) :
    (r.setRole p ρ).role q = r.role q := by
  simp [Ring.setRole, hq]

/-- A party that takes the role it has. -/
theorem Ring.setRole_eq_self {ρ : Role} (hρ : r.role p = ρ) : r.setRole p ρ = r := by
  subst hρ
  simp [Ring.setRole]

/-- A role held by somebody other than `p` is still held after `p` changes its own. -/
theorem Ring.exists_setRole {ρ ρ' : Role} (h : ∃ q, r.role q = ρ') (hp : r.role p ≠ ρ') :
    ∃ q, (r.setRole p ρ).role q = ρ' := by
  obtain ⟨q, hq⟩ := h
  have hne : q ≠ p := by
    rintro rfl
    exact hp hq
  exact ⟨q, (Ring.setRole_role_of_ne ρ hne).trans hq⟩

/-- Tickets of the kind `c` stay with one holder each, as long as `p` does not enter the role of
somebody else. -/
theorem Ring.unique_setRole {c : ℤ → Role} {ρ : Role}
    (h : ∀ q q' i, r.role q = c i → r.role q' = c i → q = q')
    (hnew : ∀ i, ρ = c i → ∀ q, r.role q ≠ c i) (q q' : τ) (i : ℤ)
    (hq : (r.setRole p ρ).role q = c i) (hq' : (r.setRole p ρ).role q' = c i) : q = q' := by
  by_cases hqp : q = p <;> by_cases hqp' : q' = p
  · rw [hqp, hqp']
  · rw [hqp, Ring.setRole_role_self] at hq
    rw [Ring.setRole_role_of_ne ρ hqp'] at hq'
    exact absurd hq' (hnew i hq q')
  · rw [hqp', Ring.setRole_role_self] at hq'
    rw [Ring.setRole_role_of_ne ρ hqp] at hq
    exact absurd hq (hnew i hq' q)
  · rw [Ring.setRole_role_of_ne ρ hqp] at hq
    rw [Ring.setRole_role_of_ne ρ hqp'] at hq'
    exact h q q' i hq hq'

/-- Every party's role is all right in `r'` if `p`'s new role is and the others' old ones are. -/
theorem Ring.roleOk_setRole {r' : Ring τ β} {ρ : Role} (hρ : RoleOk n r' ρ)
    (hother : ∀ q, q ≠ p → RoleOk n r' (r.role q)) (q : τ) :
    RoleOk n r' ((r.setRole p ρ).role q) := by
  by_cases hq : q = p
  · subst hq
    rwa [Ring.setRole_role_self]
  · rw [Ring.setRole_role_of_ne ρ hq]
    exact hother q hq

/-- Changing what a party knows. -/
theorem Inv.setRole {ρ : Role} (h : Inv n r) (hold : (r.role p).held = none)
    (hρ : ρ.held = none) (hok : RoleOk n r ρ) : Inv n (r.setRole p ρ) where
  pos := h.pos
  head_nonneg := h.head_nonneg
  head_le := h.head_le
  turn_mod := h.turn_mod
  turn_nonneg := h.turn_nonneg
  turn_lt := h.turn_lt
  tail_le := h.tail_le
  full_lt := h.full_lt
  full_of_lt := h.full_of_lt
  full_cell := h.full_cell
  filler j h0 hj hf hlt :=
    Ring.exists_setRole (h.filler j h0 hj hf hlt) fun hp => by simp [hp, Role.held] at hold
  drainer j h0 hj hlt :=
    Ring.exists_setRole (h.drainer j h0 hj hlt) fun hp => by simp [hp, Role.held] at hold
  role := Ring.roleOk_setRole
    (hok.mono le_rfl le_rfl (fun _ => le_rfl) (fun _ => id) fun _ _ => ⟨rfl, rfl⟩)
    fun q _ => (h.role q).mono le_rfl le_rfl (fun _ => le_rfl) (fun _ => id) fun _ _ => ⟨rfl, rfl⟩
  filling_unique := Ring.unique_setRole h.filling_unique fun i hi => by simp [hi, Role.held] at hρ
  draining_unique := Ring.unique_setRole h.draining_unique fun i hi => by
    simp [hi, Role.held] at hρ

/-- Claiming a ticket. The cell's turn cannot be ahead of `tail`, so what was seen free earlier
is free now (`Inv.turn_of_free`). -/
theorem Inv.claim {i : ℤ} {v : β} (h : Inv n r) (hp : r.role p = .sawFree i) (hi : r.tail = i) :
    Inv n { r.setRole p (.filling i) with tail := i + 1, val := Function.update r.val i v } := by
  subst hi
  obtain ⟨h0, hlt⟩ := h.cell_range r.tail
  have hturn : r.turn (r.tail % n) = r.tail := h.turn_of_free (h.role_ok hp).2.2
  have hnf : ¬ r.full (r.tail % n) := fun hf => by have := h.full_lt _ h0 hlt hf; omega
  have hpos := h.pos
  have hhead := h.head_nonneg
  have hle := h.head_le
  exact {
    pos := h.pos
    head_nonneg := h.head_nonneg
    head_le := show r.head ≤ r.tail + 1 by omega
    turn_mod := h.turn_mod
    turn_nonneg := h.turn_nonneg
    turn_lt := h.turn_lt
    tail_le := by
      intro j hj0 hj
      change r.tail + 1 ≤ r.turn j + n
      have hjle := h.tail_le j hj0 hj
      rcases eq_or_ne (r.turn j + n) r.tail with heq | hne
      · -- the cell would be the claimed one, whose turn is `tail`
        have hcell : r.tail % n = j := by
          rw [← heq, Int.add_emod_right, h.turn_mod j hj0 hj]
        rw [hcell] at hturn
        omega
      · omega
    full_lt := fun j hj0 hj hf => show r.turn j < r.tail + 1 by
      have := h.full_lt j hj0 hj hf
      omega
    full_of_lt := h.full_of_lt
    full_cell := by
      intro j hj0 hj hf
      have hne : r.turn j ≠ r.tail := (h.full_lt j hj0 hj hf).ne
      simpa [Function.update_of_ne hne] using h.full_cell j hj0 hj hf
    filler := by
      intro j hj0 hj hf hjt
      change r.turn j < r.tail + 1 at hjt
      rcases eq_or_ne (r.turn j) r.tail with heq | hne
      · exact ⟨p, by simp [heq, Ring.setRole]⟩
      · exact Ring.exists_setRole (h.filler j hj0 hj hf (by omega)) (by simp [hp])
    drainer := fun j hj0 hj hjh =>
      Ring.exists_setRole (h.drainer j hj0 hj hjh) (by simp [hp])
    role := Ring.roleOk_setRole
      ⟨by omega, show r.tail < r.tail + 1 by omega, hturn, hnf⟩
      fun q _ => (h.role q).mono (show r.tail ≤ r.tail + 1 by omega) le_rfl (fun _ => le_rfl)
        (fun _ => id) fun _ _ => ⟨rfl, rfl⟩
    filling_unique := Ring.unique_setRole h.filling_unique fun i hi q hq => by
      obtain rfl := Role.filling.inj hi
      exact absurd (h.role_ok hq).2.1 (lt_irrefl _)
    draining_unique := Ring.unique_setRole h.draining_unique fun i hi => by cases hi }

/-- Marking a claimed cell full. -/
theorem Inv.fill {i : ℤ} (h : Inv n r) (hp : r.role p = .filling i)
    (hi : r.cell (i % n) = r.val i) :
    Inv n { r.setRole p .out with full := Function.update r.full (i % n) True } := by
  obtain ⟨h0, hlt, hturn, hnf⟩ := h.role_ok hp
  have hfull : ∀ j, r.full j → Function.update r.full (i % n) True j := by
    intro j hf
    by_cases hne : j = i % n
    · subst hne
      simp
    · rwa [Function.update_of_ne hne]
  exact {
    pos := h.pos
    head_nonneg := h.head_nonneg
    head_le := h.head_le
    turn_mod := h.turn_mod
    turn_nonneg := h.turn_nonneg
    turn_lt := h.turn_lt
    tail_le := h.tail_le
    full_lt := by
      intro j hj0 hj hf
      change Function.update r.full (i % n) True j at hf
      by_cases hne : j = i % n
      · subst hne
        exact hturn.symm ▸ hlt
      · exact h.full_lt j hj0 hj (by rwa [Function.update_of_ne hne] at hf)
    full_of_lt := fun j hj0 hj hjh => hfull j (h.full_of_lt j hj0 hj hjh)
    full_cell := by
      intro j hj0 hj hf
      change Function.update r.full (i % n) True j at hf
      by_cases hne : j = i % n
      · subst hne
        exact hi.trans (congrArg r.val hturn.symm)
      · exact h.full_cell j hj0 hj (by rwa [Function.update_of_ne hne] at hf)
    filler := by
      intro j hj0 hj hf hjt
      have hnf' : ¬ r.full j := fun hf' => hf (hfull j hf')
      refine Ring.exists_setRole (h.filler j hj0 hj hnf' hjt) ?_
      intro heq
      obtain rfl : i = r.turn j := Role.filling.inj (hp.symm.trans heq)
      refine hf ?_
      change Function.update r.full (r.turn j % n) True j
      rw [h.turn_mod j hj0 hj, Function.update_self]
      trivial
    drainer := fun j hj0 hj hjh =>
      Ring.exists_setRole (h.drainer j hj0 hj hjh) (by simp [hp])
    role := Ring.roleOk_setRole trivial fun q hq => by
      refine (h.role q).mono le_rfl le_rfl (fun _ => le_rfl) (fun k hk => ?_) fun k hk => ?_
      · exact hk.imp id fun hk => ⟨hk.1, hfull _ hk.2⟩
      · have hne : k % n ≠ i % n := fun heq =>
          hq (h.holder_unique hk (by rw [hp]; rfl) heq)
        exact ⟨rfl, Function.update_of_ne hne _ _⟩
    filling_unique := Ring.unique_setRole h.filling_unique fun i hi => by cases hi
    draining_unique := Ring.unique_setRole h.draining_unique fun i hi => by cases hi }

/-- Taking a ticket. The cell's turn cannot be ahead of `head`, so what was seen filled earlier
is still there (`Inv.turn_of_filled`). -/
theorem Inv.take {i : ℤ} (h : Inv n r) (hp : r.role p = .sawFull i) (hi : r.head = i) :
    Inv n { r.setRole p (.draining i) with head := i + 1 } := by
  subst hi
  obtain ⟨h0, hlt⟩ := h.cell_range r.head
  obtain ⟨hturn, hfull⟩ := h.turn_of_filled (h.role_ok hp).2.2
  have htail : r.head < r.tail := hturn ▸ h.full_lt _ h0 hlt hfull
  have hhead := h.head_nonneg
  have hcell : ∀ j, 0 ≤ j → j < n → r.turn j = r.head → j = r.head % n := by
    intro j hj0 hj heq
    rw [← heq, h.turn_mod j hj0 hj]
  exact {
    pos := h.pos
    head_nonneg := show 0 ≤ r.head + 1 by omega
    head_le := show r.head + 1 ≤ r.tail by omega
    turn_mod := h.turn_mod
    turn_nonneg := h.turn_nonneg
    turn_lt := fun j hj0 hj => show r.turn j < r.head + 1 + n by
      have := h.turn_lt j hj0 hj
      omega
    tail_le := h.tail_le
    full_lt := h.full_lt
    full_of_lt := by
      intro j hj0 hj hjh
      change r.turn j < r.head + 1 at hjh
      rcases eq_or_ne (r.turn j) r.head with heq | hne
      · exact hcell j hj0 hj heq ▸ hfull
      · exact h.full_of_lt j hj0 hj (by omega)
    full_cell := h.full_cell
    filler := fun j hj0 hj hf hjt =>
      Ring.exists_setRole (h.filler j hj0 hj hf hjt) (by simp [hp])
    drainer := by
      intro j hj0 hj hjh
      change r.turn j < r.head + 1 at hjh
      rcases eq_or_ne (r.turn j) r.head with heq | hne
      · exact ⟨p, by simp [heq, Ring.setRole]⟩
      · exact Ring.exists_setRole (h.drainer j hj0 hj (by omega)) (by simp [hp])
    role := Ring.roleOk_setRole ⟨hhead, show r.head < r.head + 1 by omega, hturn⟩
      fun q _ => (h.role q).mono le_rfl (show r.head ≤ r.head + 1 by omega) (fun _ => le_rfl)
        (fun _ => id) fun _ _ => ⟨rfl, rfl⟩
    filling_unique := Ring.unique_setRole h.filling_unique fun i hi => by cases hi
    draining_unique := Ring.unique_setRole h.draining_unique fun i hi q hq => by
      obtain rfl := Role.draining.inj hi
      exact absurd (h.role_ok hq).2.1 (lt_irrefl _) }

section Release

variable {i : ℤ} {turn : ℤ → ℤ} {full : ℤ → Prop} (hs : Released n r i turn full) (h : Inv n r)
  (hp : r.role p = .draining i)

include hs h hp

/-- An empty cell whose ticket has been claimed has somebody filling it. -/
theorem Released.filler {j : ℤ} (hj0 : 0 ≤ j) (hj : j < n) (hf : ¬ full j)
    (hlt : turn j < r.tail) : ∃ q, (r.setRole p .out).role q = .filling (turn j) := by
  have hne := hs.ne_of_lt (hlt.trans_le (h.tail_le_of_draining hp))
  rw [(hs.other j hne).1] at hlt ⊢
  rw [(hs.other j hne).2] at hf
  exact Ring.exists_setRole (h.filler j hj0 hj hf hlt) (by simp [hp])

/-- A cell whose ticket has been taken has somebody emptying it. -/
theorem Released.drainer {j : ℤ} (hj0 : 0 ≤ j) (hj : j < n) (hlt : turn j < r.head) :
    ∃ q, (r.setRole p .out).role q = .draining (turn j) := by
  have hne := hs.ne_of_lt (hlt.trans_le (h.head_le.trans (h.tail_le_of_draining hp)))
  rw [(hs.other j hne).1] at hlt ⊢
  refine Ring.exists_setRole (h.drainer j hj0 hj hlt) fun heq => hne ?_
  rw [← h.turn_mod j hj0 hj, ← Role.draining.inj (hp.symm.trans heq)]

/-- What others know stays true: the released cell is nobody else's. -/
theorem Released.roleOk {q : τ} (hq : q ≠ p) :
    RoleOk n { r.setRole p .out with turn := turn, full := full } (r.role q) := by
  have hpos := h.pos
  refine (h.role q).mono le_rfl le_rfl (fun k => hs.turn_le h hp _) (fun k hk => ?_) fun k hk => ?_
  · change k < turn (k % n) ∨ turn (k % n) = k ∧ full (k % n)
    rcases eq_or_ne (k % n) (i % n) with heq | hne
    · left
      rw [heq, hs.turn_self]
      rcases hk with hk | ⟨hk, -⟩ <;> rw [heq, (h.role_ok hp).2.2] at hk <;> omega
    · rw [(hs.other _ hne).1, (hs.other _ hne).2]
      exact hk
  · exact hs.other _ fun heq => hq (h.holder_unique hk (by rw [hp]; rfl) heq)

/-- The invariant after a release, whatever turns and marks are called. -/
theorem Released.inv : Inv n { r.setRole p .out with turn := turn, full := full } where
  pos := h.pos
  head_nonneg := h.head_nonneg
  head_le := h.head_le
  turn_mod _ hj0 hj := hs.turn_mod h hj0 hj
  turn_nonneg j hj0 hj := (h.turn_nonneg j hj0 hj).trans (hs.turn_le h hp j)
  turn_lt _ hj0 hj := hs.turn_lt h hp hj0 hj
  tail_le j hj0 hj := (h.tail_le j hj0 hj).trans (Int.add_le_add_right (hs.turn_le h hp j) n)
  full_lt j hj0 hj hf := by
    obtain ⟨hne, hold⟩ := hs.full_old hf
    change turn j < r.tail
    rw [(hs.other j hne).1]
    exact h.full_lt j hj0 hj hold
  full_of_lt j hj0 hj hlt := by
    have hne := hs.ne_of_lt (hlt.trans_le (h.head_le.trans (h.tail_le_of_draining hp)))
    change turn j < r.head at hlt
    rw [(hs.other j hne).1] at hlt
    change full j
    rw [(hs.other j hne).2]
    exact h.full_of_lt j hj0 hj hlt
  full_cell j hj0 hj hf := by
    obtain ⟨hne, hold⟩ := hs.full_old hf
    exact (h.full_cell j hj0 hj hold).trans (congrArg r.val (hs.other j hne).1.symm)
  filler _ hj0 hj hf hlt := hs.filler h hp hj0 hj hf hlt
  drainer _ hj0 hj hlt := hs.drainer h hp hj0 hj hlt
  role := Ring.roleOk_setRole trivial fun _ hq => hs.roleOk h hp hq
  filling_unique := Ring.unique_setRole h.filling_unique fun i hi => by cases hi
  draining_unique := Ring.unique_setRole h.draining_unique fun i hi => by cases hi

end Release

/-- Releasing a taken ticket: its cell turns to the ticket one lap later. -/
theorem Inv.release {i : ℤ} (h : Inv n r) (hp : r.role p = .draining i) :
    Inv n { r.setRole p .out with
      turn := Function.update r.turn (i % n) (i + n)
      full := Function.update r.full (i % n) False } :=
  (released_update n r i).inv h hp

/-- **One step keeps the invariant.** -/
theorem Inv.step {r' : Ring τ β} (h : Inv n r) (hstep : Step n r p r') : Inv n r' := by
  cases hstep with
  | leave hp => exact h.setRole hp rfl trivial
  | readTail hp => exact h.setRole hp rfl ⟨h.head_nonneg.trans h.head_le, le_rfl⟩
  | seeFree i hp hi =>
    exact h.setRole (by rw [hp]; rfl) rfl ⟨(h.role_ok hp).1, (h.role_ok hp).2, hi⟩
  | claim i v hp hi => exact h.claim hp hi
  | write i v hp => exact h.write hp
  | fill i hp hi => exact h.fill hp hi
  | readHead hp => exact h.setRole hp rfl ⟨h.head_nonneg, le_rfl⟩
  | seeFull i hp hi =>
    exact h.setRole (by rw [hp]; rfl) rfl ⟨(h.role_ok hp).1, (h.role_ok hp).2, hi⟩
  | take i hp hi => exact h.take hp hi
  | release i hp => exact h.release hp

/-- A ticket may pass from one party to another that holds none: the protocol does not care who
holds it. -/
theorem Inv.handOver {q : τ} {ρ : Role} (h : Inv n r) (hp : r.role p = ρ)
    (hq : (r.role q).held = none) (hpq : p ≠ q) : Inv n ((r.setRole p .out).setRole q ρ) := by
  have hself : ((r.setRole p .out).setRole q ρ).role q = ρ := Ring.setRole_role_self ρ
  have hother : ∀ x, x ≠ q → x ≠ p → ((r.setRole p .out).setRole q ρ).role x = r.role x := by
    intro x hxq hxp
    rw [Ring.setRole_role_of_ne ρ hxq, Ring.setRole_role_of_ne .out hxp]
  have hout : ((r.setRole p .out).setRole q ρ).role p = .out := by
    rw [Ring.setRole_role_of_ne ρ hpq, Ring.setRole_role_self]
  -- whoever held a ticket before, somebody holds it now
  have hkeep : ∀ σ : Role, σ.held ≠ none → (∃ x, r.role x = σ) →
      ∃ x, ((r.setRole p .out).setRole q ρ).role x = σ := by
    rintro σ hσ ⟨x, rfl⟩
    by_cases hxp : x = p
    · subst hxp
      exact ⟨q, hself.trans hp.symm⟩
    · have hxq : x ≠ q := by
        rintro rfl
        exact hσ hq
      exact ⟨x, hother x hxq hxp⟩
  -- and whoever holds one now stands for one party that held it before
  have hback : ∀ x (σ : Role), σ.held ≠ none → ((r.setRole p .out).setRole q ρ).role x = σ →
      (x = q ∧ r.role p = σ) ∨ (x ≠ q ∧ x ≠ p ∧ r.role x = σ) := by
    rintro x σ hσ rfl
    by_cases hxq : x = q
    · subst hxq
      exact Or.inl ⟨rfl, hp.trans hself.symm⟩
    · by_cases hxp : x = p
      · subst hxp
        rw [hout] at hσ
        exact absurd rfl hσ
      · exact Or.inr ⟨hxq, hxp, (hother x hxq hxp).symm⟩
  have hunique : ∀ σ : Role, σ.held ≠ none → (∀ x y, r.role x = σ → r.role y = σ → x = y) →
      ∀ x y, ((r.setRole p .out).setRole q ρ).role x = σ →
        ((r.setRole p .out).setRole q ρ).role y = σ → x = y := by
    intro σ hσ huniq x y hx hy
    rcases hback x σ hσ hx with ⟨rfl, hx'⟩ | ⟨-, hxp, hx'⟩ <;>
      rcases hback y σ hσ hy with ⟨rfl, hy'⟩ | ⟨-, hyp, hy'⟩
    · rfl
    · exact absurd (huniq _ _ hy' hx') hyp
    · exact absurd (huniq _ _ hx' hy') hxp
    · exact huniq _ _ hx' hy'
  exact {
    pos := h.pos
    head_nonneg := h.head_nonneg
    head_le := h.head_le
    turn_mod := h.turn_mod
    turn_nonneg := h.turn_nonneg
    turn_lt := h.turn_lt
    tail_le := h.tail_le
    full_lt := h.full_lt
    full_of_lt := h.full_of_lt
    full_cell := h.full_cell
    filler := fun j h0 hj hf hlt => hkeep _ (by simp [Role.held]) (h.filler j h0 hj hf hlt)
    drainer := fun j h0 hj hlt => hkeep _ (by simp [Role.held]) (h.drainer j h0 hj hlt)
    role := by
      intro x
      refine RoleOk.mono (r := r) ?_ le_rfl le_rfl (fun _ => le_rfl) (fun _ => id)
        fun _ _ => ⟨rfl, rfl⟩
      by_cases hxq : x = q
      · rw [hxq, hself, ← hp]
        exact h.role p
      · by_cases hxp : x = p
        · rw [hxp, hout]
          trivial
        · rw [hother x hxq hxp]
          exact h.role x
    filling_unique := fun x y i => hunique (.filling i) (by simp [Role.held])
      (fun x y => h.filling_unique x y i) x y
    draining_unique := fun x y i => hunique (.draining i) (by simp [Role.held])
      (fun x y => h.draining_unique x y i) x y }

/-- **Every run keeps the invariant**, whatever the number of parties and laps. -/
theorem inv_of_run (hn : 0 < n) {π : List (τ × Ring τ β)} (h : (system n τ β).Run π r) :
    Inv n r := by
  obtain ⟨r₀, h₀, hsteps⟩ := h
  exact hsteps.preserve (fun _ _ _ h hstep => h.step hstep) (Initial.inv hn h₀)

end Preservation

end TicketRing
