import LeonUtils.Transition
import Mathlib.Algebra.Order.Field.Rat
import Mathlib.Data.Rat.Cast.Order

/-!
# The clock that counts cycles

`TscClock_t` keeps two anchors, each of them a time stamp with the cycle count that belongs to it,
and takes the frequency from the two. `calibrate( for_time )` takes both anchors anew; after that,
`calibrate()` takes one more anchor and keeps it if it is better than one of the two, that is, if
its jitter is not larger and the kept anchors do not come closer together.

Counts and stamps are integers here and the frequency is a rational number. Where the sum of two
readings of the counter fits into 64 bits, the halves of such sums differ by less than `2 ^ 63`.

## Main definitions

* `getAnchor` — the try with the least jitter
* `TscClock`, `TscClock.calibrateFor`, `TscClock.calibrate` — the clock and its calibration
* `upkeep` — a clock calibrated again and again, with anchors ever later

## Main results

* `calibrateWith_cases` — what one more anchor can do
* `kept_anchors` — the anchors stay in order, apart, and good
-/

namespace LeonUtils

open Transition

namespace TscClock

/-! ## Anchors -/

/-- One try: the counter, the time, and the counter again. -/
structure Try where
  beg : ℤ
  now : ℤ
  fin : ℤ

/-- A time stamp, the cycle count that belongs to it, and how well the two do so. -/
structure Anchor where
  tstamp : ℤ := 0
  cycles : ℤ := 2 ^ 63 - 1
  jitter : ℤ := 2 ^ 63 - 1

/-- The anchor of one try. -/
def Anchor.of (x : Try) : Anchor := ⟨x.now, (x.beg + x.fin).tdiv 2, x.fin - x.beg⟩

/-- The better of what there was and one more try. -/
def Anchor.attempt (result : Anchor) (x : Try) : Anchor :=
  if x.fin - x.beg < result.jitter then .of x else result

/-- `TscClock_t::GetAnchor`: the best of `cnt` tries. -/
def getAnchor (tries : ℕ → Try) (cnt : ℤ) : Except String Anchor :=
  if cnt < 1 then .error "TscClock_t:1次都不尝试,取什么锚点?"
  else .ok ((List.range cnt.toNat).foldl (fun result i => result.attempt (tries i)) {})

/-- Tries that are all alike give their anchor. -/
theorem getAnchor_const {x : Try} (hx : x.fin - x.beg < 2 ^ 63 - 1) {cnt : ℤ} (hcnt : 1 ≤ cnt) :
    getAnchor (fun _ => x) cnt = .ok (.of x) := by
  rw [getAnchor, if_neg (by omega)]
  congr 1
  obtain ⟨n, hn⟩ : ∃ n, cnt.toNat = n + 1 := ⟨cnt.toNat - 1, by omega⟩
  rw [hn]
  clear hn
  induction n with
  | zero => exact if_pos hx
  | succ n ih =>
    rw [List.range_succ, List.foldl_append, ih]
    exact if_neg (lt_irrefl _)

/-- One anchor comes before another. -/
structure Anchor.Before (a b : Anchor) : Prop where
  cycles : a.cycles < b.cycles
  tstamp : a.tstamp < b.tstamp

end TscClock

/-! ## The clock -/

/-- A clock: its two anchors, and the cycles per nanosecond. -/
structure TscClock where
  anc0 : TscClock.Anchor := {}
  anc1 : TscClock.Anchor := {}
  ghz : ℚ := 0

namespace TscClock

/-- `_setup`: the anchors in order, and the frequency they give. -/
def setup (c : TscClock) : TscClock :=
  let c := if c.anc0.cycles > c.anc1.cycles then { c with anc0 := c.anc1, anc1 := c.anc0 } else c
  let nanoss := c.anc1.tstamp - c.anc0.tstamp
  let cycles := c.anc1.cycles - c.anc0.cycles
  { c with ghz := cycles / nanoss }

/-- How often to try for an anchor of the first calibration. -/
def anchorTries : ℤ := 10000

/-- `TscClock_t::calibrate( for_time )`: both anchors anew, with a pause in between. -/
def calibrateFor (c : TscClock) (first second : ℕ → Try) : Except String TscClock := do
  let anc0 ← getAnchor first anchorTries
  let anc1 ← getAnchor second anchorTries
  return setup { c with anc0, anc1 }

/-- What `calibrate()` does with one more anchor. -/
def calibrateWith (c : TscClock) (newAnc : Anchor) : TscClock :=
  if newAnc.jitter ≤ c.anc1.jitter then setup { c with anc1 := newAnc }
  else if newAnc.jitter > c.anc0.jitter then c
  else
    let span0 := |c.anc1.cycles - c.anc0.cycles|
    let span1 := |c.anc1.cycles - newAnc.cycles|
    if span1 > span0 then setup { c with anc0 := newAnc } else c

/-- `TscClock_t::calibrate()`: one more anchor, in one try. -/
def calibrate (c : TscClock) (tries : ℕ → Try) : Except String TscClock := do
  let newAnc ← getAnchor tries 1
  return c.calibrateWith newAnc

/-- Cycles per nanosecond from one anchor to another. -/
def quotient (a b : Anchor) : ℚ := ((b.cycles - a.cycles : ℤ) : ℚ) / ((b.tstamp - a.tstamp : ℤ) : ℚ)

theorem quotient_pos {a b : Anchor} (h : a.Before b) : 0 < quotient a b := by
  have hcycles : (0 : ℤ) < b.cycles - a.cycles := sub_pos.mpr h.cycles
  have htstamp : (0 : ℤ) < b.tstamp - a.tstamp := sub_pos.mpr h.tstamp
  exact div_pos (by exact_mod_cast hcycles) (by exact_mod_cast htstamp)

theorem setup_eq {a b : Anchor} (h : a.Before b) (ghz : ℚ) :
    setup ⟨a, b, ghz⟩ = ⟨a, b, quotient a b⟩ := by
  have hno : ¬ a.cycles > b.cycles := not_lt.mpr h.cycles.le
  rw [setup, if_neg hno]
  rfl

/-- Anchors that come in the wrong order are exchanged. -/
theorem setup_eq_swap {a b : Anchor} (h : a.Before b) (ghz : ℚ) :
    setup ⟨b, a, ghz⟩ = ⟨a, b, quotient a b⟩ := by
  have hyes : b.cycles > a.cycles := h.cycles
  rw [setup, if_pos hyes]
  rfl

/-- **What one more anchor can do**, if it is the latest: nothing, or it takes the place of the
later one with no more jitter, or the earlier one is given up for it, with less jitter than that one
and with more cycles between those kept. -/
theorem calibrateWith_cases {c : TscClock} {a : Anchor} (h01 : c.anc0.Before c.anc1)
    (h1 : c.anc1.Before a) :
    c.calibrateWith a = c ∨
    (a.jitter ≤ c.anc1.jitter ∧ c.calibrateWith a = ⟨c.anc0, a, quotient c.anc0 a⟩) ∨
    (c.anc1.jitter < a.jitter ∧ a.jitter ≤ c.anc0.jitter ∧
      c.anc1.cycles - c.anc0.cycles < a.cycles - c.anc1.cycles ∧
      c.calibrateWith a = ⟨c.anc1, a, quotient c.anc1 a⟩) := by
  have h0 : c.anc0.Before a := ⟨h01.cycles.trans h1.cycles, h01.tstamp.trans h1.tstamp⟩
  by_cases hbetter : a.jitter ≤ c.anc1.jitter
  · refine Or.inr (Or.inl ⟨hbetter, ?_⟩)
    rw [calibrateWith, if_pos hbetter, setup_eq h0]
  · by_cases hworse : a.jitter > c.anc0.jitter
    · rw [calibrateWith, if_neg hbetter, if_pos hworse]
      exact Or.inl rfl
    · rw [calibrateWith, if_neg hbetter, if_neg hworse]
      simp only [abs_of_pos (sub_pos.mpr h01.cycles), abs_of_neg (sub_neg.mpr h1.cycles), neg_sub]
      split
      · rename_i hspan
        exact Or.inr (Or.inr ⟨not_le.mp hbetter, not_lt.mp hworse, hspan, setup_eq_swap h1 _⟩)
      · exact Or.inl rfl

/-! ## Calibrated again and again -/

/-- The cycles between the kept anchors. -/
def span (c : TscClock) : ℤ := c.anc1.cycles - c.anc0.cycles

/-- The larger one of the kept jitters. -/
def jitter (c : TscClock) : ℤ := max c.anc0.jitter c.anc1.jitter

/-- A clock, and the last anchor taken, kept or not. -/
structure Upkeep where
  clock : TscClock
  newest : Anchor

/-- A clock calibrated for a time, then over and over, where each anchor taken comes before the
next. -/
def upkeep : System Upkeep (ℕ → Try) where
  init u := ∃ c first second anc0, getAnchor first anchorTries = .ok anc0 ∧
    getAnchor second anchorTries = .ok u.newest ∧ anc0.Before u.newest ∧
    calibrateFor c first second = .ok u.clock
  next u tries v := getAnchor tries 1 = .ok v.newest ∧ u.newest.Before v.newest ∧
    u.clock.calibrate tries = .ok v.clock

/-- The kept anchors are in order and not later than the last one taken. -/
structure Upkeep.Inv (u : Upkeep) : Prop where
  before : u.clock.anc0.Before u.clock.anc1
  ghz : u.clock.ghz = quotient u.clock.anc0 u.clock.anc1
  cycles : u.clock.anc1.cycles ≤ u.newest.cycles
  tstamp : u.clock.anc1.tstamp ≤ u.newest.tstamp

/-- A clock whose anchors were taken one after the other. -/
theorem Upkeep.Inv.of_eq {u : Upkeep} {anc0 : Anchor} (h : anc0.Before u.newest)
    (hclock : u.clock = ⟨anc0, u.newest, quotient anc0 u.newest⟩) : u.Inv := by
  refine ⟨?_, ?_, ?_, ?_⟩ <;> rw [hclock]
  exact h

theorem Upkeep.Inv.init {u : Upkeep} (h : upkeep.init u) : u.Inv := by
  obtain ⟨c, first, second, anc0, hfirst, hsecond, hbefore, hclock⟩ := h
  rw [calibrateFor, hfirst, hsecond] at hclock
  exact .of_eq hbefore ((Except.ok.inj hclock).symm.trans (setup_eq hbefore c.ghz))

/-- **A step** keeps the anchors in order, the cycles between them and the jitter. -/
theorem Upkeep.Inv.step {u v : Upkeep} {tries : ℕ → Try} (h : u.Inv)
    (hnext : upkeep.next u tries v) :
    v.Inv ∧ u.clock.span ≤ v.clock.span ∧ v.clock.jitter ≤ u.clock.jitter := by
  obtain ⟨hnewest, hlate, hclock⟩ := hnext
  rw [calibrate, hnewest] at hclock
  have hclock : v.clock = u.clock.calibrateWith v.newest := (Except.ok.inj hclock).symm
  have h1 : u.clock.anc1.Before v.newest :=
    ⟨h.cycles.trans_lt hlate.cycles, h.tstamp.trans_lt hlate.tstamp⟩
  have h0 : u.clock.anc0.Before v.newest :=
    ⟨h.before.cycles.trans h1.cycles, h.before.tstamp.trans h1.tstamp⟩
  rcases calibrateWith_cases h.before h1 with heq | ⟨hbetter, heq⟩ |
    ⟨hworse, hbetter, hspan, heq⟩
  · rw [heq] at hclock
    refine ⟨⟨?_, ?_, ?_, ?_⟩, ?_, ?_⟩ <;> rw [hclock]
    · exact h.before
    · exact h.ghz
    · exact h1.cycles.le
    · exact h1.tstamp.le
  · rw [heq] at hclock
    refine ⟨.of_eq h0 hclock, ?_, ?_⟩ <;> rw [hclock]
    · exact sub_le_sub_right h1.cycles.le _
    · exact max_le_max le_rfl hbetter
  · rw [heq] at hclock
    refine ⟨.of_eq h1 hclock, ?_, ?_⟩ <;> rw [hclock]
    · exact hspan.le
    · exact max_le (le_max_right _ _) (hbetter.trans (le_max_left _ _))

/-- **The kept anchors**, over any number of calibrations: they are in order, the frequency is a
positive quotient, they never come closer together, and the larger jitter never grows. -/
theorem kept_anchors {π ρ : List ((ℕ → Try) × Upkeep)} {u v : Upkeep} (h : upkeep.Run π u)
    (hsteps : upkeep.Steps u ρ v) :
    v.clock.anc0.cycles < v.clock.anc1.cycles ∧ v.clock.anc0.tstamp < v.clock.anc1.tstamp ∧
      v.clock.ghz = ((v.clock.anc1.cycles - v.clock.anc0.cycles : ℤ) : ℚ) /
        ((v.clock.anc1.tstamp - v.clock.anc0.tstamp : ℤ) : ℚ) ∧ 0 < v.clock.ghz ∧
      u.clock.span ≤ v.clock.span ∧ v.clock.jitter ≤ u.clock.jitter := by
  obtain ⟨u₀, hinit, hrun⟩ := h
  have hu : u.Inv := hrun.preserve (fun _ _ _ h hnext => (h.step hnext).1) (.init hinit)
  obtain ⟨hv, hspan, hjitter⟩ := hsteps.preserve
    (P := fun v => v.Inv ∧ u.clock.span ≤ v.clock.span ∧ v.clock.jitter ≤ u.clock.jitter)
    (fun _ _ _ ⟨h, hspan, hjitter⟩ hnext =>
      have ⟨h', hspan', hjitter'⟩ := h.step hnext
      ⟨h', hspan.trans hspan', hjitter'.trans hjitter⟩) ⟨hu, le_rfl, le_rfl⟩
  exact ⟨hv.before.cycles, hv.before.tstamp, hv.ghz, hv.ghz ▸ quotient_pos hv.before, hspan,
    hjitter⟩

/-- A try every microsecond of a counter at two cycles a nanosecond, each with less jitter than the
one before. -/
def tick (k : ℤ) : Try := ⟨2000 * k, 1000 * k, 2000 * k + 30 - k⟩

theorem kept_anchors_sample : ∃ π ρ u v, upkeep.Run π u ∧ upkeep.Steps u ρ v ∧ ρ ≠ [] ∧
    v.clock.anc0.cycles < v.clock.anc1.cycles ∧ v.clock.anc0.tstamp < v.clock.anc1.tstamp ∧
      v.clock.ghz = ((v.clock.anc1.cycles - v.clock.anc0.cycles : ℤ) : ℚ) /
        ((v.clock.anc1.tstamp - v.clock.anc0.tstamp : ℤ) : ℚ) ∧ 0 < v.clock.ghz ∧
      u.clock.span ≤ v.clock.span ∧ v.clock.jitter ≤ u.clock.jitter := by
  have hanchor : ∀ k ≥ 0, ∀ cnt ≥ 1, getAnchor (fun _ => tick k) cnt = .ok (.of (tick k)) :=
    fun k hk cnt hcnt => getAnchor_const (by simp only [tick]; omega) hcnt
  let u : Upkeep := ⟨setup ⟨.of (tick 0), .of (tick 1), 0⟩, .of (tick 1)⟩
  let v : Upkeep := ⟨u.clock.calibrateWith (.of (tick 2)), .of (tick 2)⟩
  have hrun : upkeep.Run [] u := by
    refine .nil ⟨{}, fun _ => tick 0, fun _ => tick 1, .of (tick 0), ?_, ?_,
      ⟨by decide, by decide⟩, ?_⟩
    · exact hanchor 0 (by decide) _ (by decide)
    · exact hanchor 1 (by decide) _ (by decide)
    · rw [calibrateFor, hanchor 0 (by decide) _ (by decide), hanchor 1 (by decide) _ (by decide)]
      rfl
  have hnext : upkeep.next u (fun _ => tick 2) v := by
    refine ⟨hanchor 2 (by decide) 1 le_rfl, ⟨by decide, by decide⟩, ?_⟩
    rw [calibrate, hanchor 2 (by decide) 1 le_rfl]
    rfl
  exact ⟨[], _, u, v, hrun, .single hnext, List.cons_ne_nil _ _, kept_anchors hrun (.single hnext)⟩

end TscClock

end LeonUtils
