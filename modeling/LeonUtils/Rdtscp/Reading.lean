import LeonUtils.Rdtscp
import Mathlib.Data.Rat.Floor
import Mathlib.Tactic.FieldSimp
import Mathlib.Tactic.Linarith
import Mathlib.Tactic.LinearCombination
import Mathlib.Tactic.Ring

/-!
# Reading the clock that counts cycles

`nowFree` and `nowLFence` read the counter and reckon from the earlier anchor at the frequency that
the two anchors gave. So the clock is right at both anchors, and how wrong it is elsewhere depends
on how well the anchors were taken, how far they are apart, and how far away the reading is.

To say what is right there has to be a counter that runs evenly (`Honest`): `r * t + b` cycles have
passed at the time `t`, and a try reads the time somewhere between its two readings of the counter.
Fractions are exact here, as in `Rdtscp`: in type `double` the clock can be off by a nanosecond even
at an anchor, when the two are far apart.

## Main definitions

* `toRep` — the conversion to an integer
* `nowFree`, `nowLFence` — reading the clock
* `Honest`, `honest` — tries against a counter that runs evenly, and a clock calibrated by these
* `Near` — how well an anchor was taken

## Main results

* `nowFree_anc0`, `nowFree_anc1`, `nowFree_mono` — the clock is right at its anchors, and never goes
  back
* `near_of_run` — the anchors kept after any number of calibrations
* `nowFree_accurate` — how wrong the clock can be
-/

namespace LeonUtils

open Transition

namespace TscClock

/-! ## Reading -/

/-- `static_cast<ns::rep>`: the fraction is cut off. -/
def toRep (q : ℚ) : ℤ := if 0 ≤ q then ⌊q⌋ else ⌈q⌉

/-- `nowFree`, for a reading of the counter. -/
def nowFree (c : TscClock) (tsc : ℤ) : ℤ :=
  let cycles := tsc - c.anc0.cycles
  let nanoss := toRep (cycles / c.ghz + 1 / 2)
  c.anc0.tstamp + nanoss

/-- `nowLFence`, for a reading of the counter. -/
def nowLFence (c : TscClock) (tsc : ℤ) : ℤ :=
  let cycles := tsc - c.anc0.cycles
  let nanoss := toRep (cycles / c.ghz + 1 / 2)
  c.anc0.tstamp + nanoss

theorem nowLFence_eq (c : TscClock) : c.nowLFence = c.nowFree := rfl

theorem toRep_mono {p q : ℚ} (h : p ≤ q) : toRep p ≤ toRep q := by
  rw [toRep, toRep]
  split <;> split
  · exact Int.floor_le_floor h
  · rename_i hp hq
    exact absurd (hp.trans h) hq
  · rename_i hp hq
    exact (Int.ceil_le.mpr (by simpa using (not_le.mp hp).le)).trans (Int.floor_nonneg.mpr hq)
  · exact Int.ceil_le_ceil h

/-- What is added before cutting off makes a rounding to the nearest of it, from zero on. -/
theorem abs_toRep_sub_le (q : ℚ) :
    |(toRep (q + 1 / 2) : ℚ) - q| ≤ if 0 ≤ q then 1 / 2 else 3 / 2 := by
  rw [toRep]
  split
  · have hle := Int.floor_le (q + 1 / 2)
    have hlt := Int.lt_floor_add_one (q + 1 / 2)
    have hhalf : |(⌊q + 1 / 2⌋ : ℚ) - q| ≤ 1 / 2 := abs_le.mpr ⟨by linarith, by linarith⟩
    split <;> linarith
  · rename_i hneg
    have hle := Int.le_ceil (q + 1 / 2)
    have hlt := Int.ceil_lt_add_one (q + 1 / 2)
    rw [if_neg (by linarith)]
    exact abs_le.mpr ⟨by linarith, by linarith⟩

theorem toRep_intCast_add_half (n : ℤ) (h : 0 ≤ n) : toRep (n + 1 / 2) = n := by
  have hcast : (0 : ℚ) ≤ n := by exact_mod_cast h
  rw [toRep, if_pos (by linarith), Int.floor_eq_iff]
  constructor <;> linarith

variable {u : Upkeep}

/-- **The clock is right at the earlier anchor.** -/
theorem nowFree_anc0 (c : TscClock) : c.nowFree c.anc0.cycles = c.anc0.tstamp := by
  have hzero : toRep (((0 : ℤ) : ℚ) + 1 / 2) = 0 := toRep_intCast_add_half 0 le_rfl
  have hdiv : ((c.anc0.cycles - c.anc0.cycles : ℤ) : ℚ) / c.ghz = ((0 : ℤ) : ℚ) := by simp
  simp only [nowFree, hdiv, hzero, add_zero]

/-- **And at the later one.** -/
theorem nowFree_anc1 (h : u.Inv) : u.clock.nowFree u.clock.anc1.cycles = u.clock.anc1.tstamp := by
  have hcycles : (0 : ℚ) < ((u.clock.anc1.cycles - u.clock.anc0.cycles : ℤ) : ℚ) := by
    exact_mod_cast sub_pos.mpr h.before.cycles
  have htstamp : (0 : ℚ) < ((u.clock.anc1.tstamp - u.clock.anc0.tstamp : ℤ) : ℚ) := by
    exact_mod_cast sub_pos.mpr h.before.tstamp
  have hdiv : ((u.clock.anc1.cycles - u.clock.anc0.cycles : ℤ) : ℚ) / u.clock.ghz =
      ((u.clock.anc1.tstamp - u.clock.anc0.tstamp : ℤ) : ℚ) := by
    rw [h.ghz, quotient]
    field_simp
  have hround := toRep_intCast_add_half (u.clock.anc1.tstamp - u.clock.anc0.tstamp)
    (sub_pos.mpr h.before.tstamp).le
  simp only [nowFree, hdiv, hround]
  omega

/-- **The clock never goes back**, as long as the counter does not. -/
theorem nowFree_mono (h : u.Inv) {x y : ℤ} (hxy : x ≤ y) :
    u.clock.nowFree x ≤ u.clock.nowFree y := by
  have hghz : 0 < u.clock.ghz := h.ghz ▸ quotient_pos h.before
  have hle : ((x - u.clock.anc0.cycles : ℤ) : ℚ) / u.clock.ghz ≤
      ((y - u.clock.anc0.cycles : ℤ) : ℚ) / u.clock.ghz :=
    div_le_div_of_nonneg_right (by exact_mod_cast sub_le_sub_right hxy _) hghz.le
  exact Int.add_le_add_left (toRep_mono (by linarith)) _

/-! ## A counter that runs evenly -/

/-- The time is read while the counter goes from one reading to the other. -/
structure Honest (r b : ℚ) (x : Try) : Prop where
  beg : (x.beg : ℚ) ≤ r * x.now + b
  fin : r * x.now + b < x.fin + 1
  short : x.fin - x.beg < 2 ^ 63 - 1

/-- A clock that is calibrated again and again, by honest tries. -/
def honest (r b : ℚ) : System Upkeep (ℕ → Try) where
  init u := ∃ c first second anc0, (∀ i, Honest r b (first i)) ∧ (∀ i, Honest r b (second i)) ∧
    getAnchor first anchorTries = .ok anc0 ∧ getAnchor second anchorTries = .ok u.newest ∧
    anc0.Before u.newest ∧ calibrateFor c first second = .ok u.clock
  next u tries v := (∀ i, Honest r b (tries i)) ∧ upkeep.next u tries v

/-- An anchor is wrong by no more than half its jitter, and the rounding. -/
def Near (r b : ℚ) (a : Anchor) : Prop := |a.cycles - (r * a.tstamp + b)| ≤ (a.jitter + 3) / 2

variable {r b : ℚ}

theorem Honest.near {x : Try} (h : Honest r b x) : Near r b (.of x) := by
  have hhalf : x.beg + x.fin - 1 ≤ 2 * (x.beg + x.fin).tdiv 2 ∧
      2 * (x.beg + x.fin).tdiv 2 ≤ x.beg + x.fin + 1 := by
    have hsign : Int.sign 2 = 1 := rfl
    rw [Int.tdiv_eq_ediv]
    split <;> omega
  have hlow : ((x.beg + x.fin - 1 : ℤ) : ℚ) ≤ ((2 * (x.beg + x.fin).tdiv 2 : ℤ) : ℚ) := by
    exact_mod_cast hhalf.1
  have hhigh : ((2 * (x.beg + x.fin).tdiv 2 : ℤ) : ℚ) ≤ ((x.beg + x.fin + 1 : ℤ) : ℚ) := by
    exact_mod_cast hhalf.2
  have hbeg := h.beg
  have hfin := h.fin
  push_cast at hlow hhigh
  simp only [Near, Anchor.of]
  push_cast
  exact abs_le.mpr ⟨by linarith, by linarith⟩

/-- An anchor of honest tries is the anchor of one of them. -/
theorem near_of_getAnchor {tries : ℕ → Try} (htries : ∀ i, Honest r b (tries i)) {cnt : ℤ}
    {a : Anchor} (h : getAnchor tries cnt = .ok a) : Near r b a := by
  rw [getAnchor] at h
  split at h
  · cases h
  · rename_i hcnt
    obtain ⟨n, hn⟩ : ∃ n, cnt.toNat = n + 1 := ⟨cnt.toNat - 1, by omega⟩
    rw [← Except.ok.inj h, hn]
    clear hn h
    induction n with
    | zero =>
      have hshort : (tries 0).fin - (tries 0).beg < ({} : Anchor).jitter := (htries 0).short
      have hfirst : (List.range (0 + 1)).foldl (fun result i => result.attempt (tries i)) {} =
          Anchor.of (tries 0) := if_pos hshort
      rw [hfirst]
      exact (htries 0).near
    | succ n ih =>
      rw [List.range_succ, List.foldl_append, List.foldl_cons, List.foldl_nil, Anchor.attempt]
      split
      · exact (htries (n + 1)).near
      · exact ih

/-- The anchors of a clock calibrated by honest tries. -/
structure Upkeep.Fair (r b : ℚ) (u : Upkeep) : Prop extends u.Inv where
  near0 : Near r b u.clock.anc0
  near1 : Near r b u.clock.anc1

theorem Upkeep.Fair.init (h : (honest r b).init u) : u.Fair r b := by
  obtain ⟨c, first, second, anc0, hhonest0, hhonest1, hfirst, hsecond, hbefore, hclock⟩ := h
  have hinv := Upkeep.Inv.init ⟨c, first, second, anc0, hfirst, hsecond, hbefore, hclock⟩
  rw [calibrateFor, hfirst, hsecond] at hclock
  have heq : u.clock = ⟨anc0, u.newest, quotient anc0 u.newest⟩ :=
    (Except.ok.inj hclock).symm.trans (setup_eq hbefore c.ghz)
  refine ⟨hinv, ?_, ?_⟩ <;> rw [heq]
  · exact near_of_getAnchor hhonest0 hfirst
  · exact near_of_getAnchor hhonest1 hsecond

theorem Upkeep.Fair.step {v : Upkeep} {tries : ℕ → Try} (h : u.Fair r b)
    (hnext : (honest r b).next u tries v) : v.Fair r b := by
  obtain ⟨htries, hnext⟩ := hnext
  have hinv := (h.toInv.step hnext).1
  obtain ⟨hnewest, hlate, hclock⟩ := hnext
  have hnear : Near r b v.newest := near_of_getAnchor htries hnewest
  rw [calibrate, hnewest] at hclock
  have hclock : v.clock = u.clock.calibrateWith v.newest := (Except.ok.inj hclock).symm
  have h1 : u.clock.anc1.Before v.newest :=
    ⟨h.cycles.trans_lt hlate.cycles, h.tstamp.trans_lt hlate.tstamp⟩
  rcases calibrateWith_cases h.before h1 with heq | ⟨-, heq⟩ | ⟨-, -, -, heq⟩ <;>
    rw [heq] at hclock <;> refine ⟨hinv, ?_, ?_⟩ <;> rw [hclock]
  · exact h.near0
  · exact h.near1
  · exact h.near0
  · exact hnear
  · exact h.near1
  · exact hnear

/-- The anchors kept after any number of calibrations. -/
theorem near_of_run {π : List ((ℕ → Try) × Upkeep)} (h : (honest r b).Run π u) : u.Fair r b := by
  obtain ⟨u₀, hinit, hsteps⟩ := h
  exact hsteps.preserve (fun _ _ _ h hnext => h.step hnext) (.init hinit)

/-! ## How wrong the clock can be -/

/-- **A straight line through two points**, each of them a little off: how far it is off elsewhere.
The `e` are what is wrong with the points and with the place that is asked for. -/
theorem line_sub {t0 t1 t c0 c1 x g e0 e1 e : ℚ} (ht : t0 < t1) (hg : g ≠ 0)
    (hquot : g = (c1 - c0) / (t1 - t0)) (h0 : c0 = r * t0 + b + e0) (h1 : c1 = r * t1 + b + e1)
    (hx : x = r * t + b + e) :
    t0 + (x - c0) / g - t = (e - (e0 * (t1 - t) + e1 * (t - t0)) / (t1 - t0)) / g := by
  have hne : t1 - t0 ≠ 0 := (sub_pos.mpr ht).ne'
  have hslope : g * (t1 - t0) = r * (t1 - t0) + (e1 - e0) := by
    rw [hquot, div_mul_cancel₀ _ hne, h0, h1]
    ring
  rw [eq_div_iff hg, h0, hx]
  field_simp
  linear_combination (t0 - t) * hslope

/-- Errors within a bound stay within it along the line, as far as the place is away. -/
theorem abs_line_sub_le {t0 t1 t g e0 e1 e E : ℚ} (ht : t0 < t1) (hg : 0 < g) (h0 : |e0| ≤ E)
    (h1 : |e1| ≤ E) (he : |e| ≤ 1) :
    |(e - (e0 * (t1 - t) + e1 * (t - t0)) / (t1 - t0)) / g| ≤
      (1 + E * (|t1 - t| + |t - t0|) / (t1 - t0)) / g := by
  have hpos : 0 < t1 - t0 := sub_pos.mpr ht
  have hsum : |e0 * (t1 - t) + e1 * (t - t0)| ≤ E * (|t1 - t| + |t - t0|) := by
    calc |e0 * (t1 - t) + e1 * (t - t0)| ≤ |e0 * (t1 - t)| + |e1 * (t - t0)| := abs_add_le _ _
      _ = |e0| * |t1 - t| + |e1| * |t - t0| := by rw [abs_mul, abs_mul]
      _ ≤ E * |t1 - t| + E * |t - t0| :=
        add_le_add (mul_le_mul_of_nonneg_right h0 (abs_nonneg _))
          (mul_le_mul_of_nonneg_right h1 (abs_nonneg _))
      _ = E * (|t1 - t| + |t - t0|) := (mul_add _ _ _).symm
  rw [abs_div, abs_of_pos hg]
  refine div_le_div_of_nonneg_right ?_ hg.le
  refine (abs_sub _ _).trans (add_le_add he ?_)
  rw [abs_div, abs_of_pos hpos]
  exact div_le_div_of_nonneg_right hsum hpos.le

/-- **How wrong the clock can be**, after any number of calibrations, where fractions are exact: it
is right at its two anchors and never goes back, and what it says at the time `t` is wrong by no
more than the anchors were, as far as the time is away from them, and the rounding to whole
nanoseconds. -/
theorem nowFree_accurate {π : List ((ℕ → Try) × Upkeep)} (h : (honest r b).Run π u) :
    u.clock.nowFree u.clock.anc0.cycles = u.clock.anc0.tstamp ∧
    u.clock.nowFree u.clock.anc1.cycles = u.clock.anc1.tstamp ∧
    (∀ x y, x ≤ y → u.clock.nowFree x ≤ u.clock.nowFree y) ∧
    ∀ t : ℚ, |(u.clock.nowFree ⌊r * t + b⌋ : ℚ) - t| ≤
      (1 + ((u.clock.jitter : ℚ) + 3) / 2 *
        (|u.clock.anc1.tstamp - t| + |t - u.clock.anc0.tstamp|) /
          (u.clock.anc1.tstamp - u.clock.anc0.tstamp)) / u.clock.ghz +
      if u.clock.anc0.cycles ≤ ⌊r * t + b⌋ then 1 / 2 else 3 / 2 := by
  obtain ⟨hinv, hnear0, hnear1⟩ := near_of_run h
  refine ⟨nowFree_anc0 _, nowFree_anc1 hinv, fun x y => nowFree_mono hinv, fun t => ?_⟩
  have hghz : 0 < u.clock.ghz := hinv.ghz ▸ quotient_pos hinv.before
  have ht : (u.clock.anc0.tstamp : ℚ) < u.clock.anc1.tstamp := by exact_mod_cast hinv.before.tstamp
  have hquot := hinv.ghz
  rw [quotient] at hquot
  push_cast at hquot
  have hjitter0 : (u.clock.anc0.jitter : ℚ) ≤ u.clock.jitter := by
    exact_mod_cast le_max_left u.clock.anc0.jitter u.clock.anc1.jitter
  have hjitter1 : (u.clock.anc1.jitter : ℚ) ≤ u.clock.jitter := by
    exact_mod_cast le_max_right u.clock.anc0.jitter u.clock.anc1.jitter
  obtain ⟨e0, h0⟩ : ∃ e0, (u.clock.anc0.cycles : ℚ) = r * u.clock.anc0.tstamp + b + e0 :=
    ⟨u.clock.anc0.cycles - (r * u.clock.anc0.tstamp + b), by ring⟩
  obtain ⟨e1, h1⟩ : ∃ e1, (u.clock.anc1.cycles : ℚ) = r * u.clock.anc1.tstamp + b + e1 :=
    ⟨u.clock.anc1.cycles - (r * u.clock.anc1.tstamp + b), by ring⟩
  rw [Near, h0, add_sub_cancel_left] at hnear0
  rw [Near, h1, add_sub_cancel_left] at hnear1
  have he0 : |e0| ≤ (u.clock.jitter + 3) / 2 := by linarith
  have he1 : |e1| ≤ (u.clock.jitter + 3) / 2 := by linarith
  obtain ⟨e, he, hx⟩ : ∃ e : ℚ, |e| ≤ 1 ∧ (⌊r * t + b⌋ : ℚ) = r * t + b + e := by
    have hle := Int.floor_le (r * t + b)
    have hlt := Int.lt_floor_add_one (r * t + b)
    exact ⟨⌊r * t + b⌋ - (r * t + b), abs_le.mpr ⟨by linarith, by linarith⟩, by ring⟩
  generalize ⌊r * t + b⌋ = x at hx
  -- the line through the anchors, and the rounding of what it gives
  have herror := abs_line_sub_le (t := t) ht hghz he0 he1 he
  rw [← line_sub ht hghz.ne' hquot h0 h1 hx] at herror
  have hround := abs_toRep_sub_le (((x - u.clock.anc0.cycles : ℤ) : ℚ) / u.clock.ghz)
  have hsign : 0 ≤ ((x - u.clock.anc0.cycles : ℤ) : ℚ) / u.clock.ghz ↔
      u.clock.anc0.cycles ≤ x := by
    rw [le_div_iff₀ hghz, zero_mul, Int.cast_nonneg_iff, sub_nonneg]
  rw [if_congr hsign rfl rfl] at hround
  push_cast at hround
  have hsum : (u.clock.nowFree x : ℚ) - t =
      (u.clock.anc0.tstamp + (x - u.clock.anc0.cycles) / u.clock.ghz - t) +
        (toRep ((x - u.clock.anc0.cycles) / u.clock.ghz + 1 / 2) -
          (x - u.clock.anc0.cycles) / u.clock.ghz) := by
    rw [nowFree]
    push_cast
    ring
  rw [hsum]
  exact (abs_add_le _ _).trans (add_le_add herror hround)

theorem honest_tick {k : ℤ} (h0 : 0 ≤ k) (h30 : k ≤ 30) : Honest 2 0 (tick k) := by
  have hk : (k : ℚ) ≤ 30 := by exact_mod_cast h30
  refine ⟨?_, ?_, by simp only [tick]; omega⟩ <;> simp only [tick] <;> push_cast <;> linarith

/-- A clock that is calibrated by the tries of `tick`, and once more. -/
theorem exists_honest_run : ∃ π u, (honest 2 0).Run π u ∧ π ≠ [] := by
  have hanchor : ∀ k ≥ 0, ∀ cnt ≥ 1, getAnchor (fun _ => tick k) cnt = .ok (.of (tick k)) :=
    fun k hk cnt hcnt => getAnchor_const (by simp only [tick]; omega) hcnt
  let u : Upkeep := ⟨setup ⟨.of (tick 0), .of (tick 1), 0⟩, .of (tick 1)⟩
  let v : Upkeep := ⟨u.clock.calibrateWith (.of (tick 2)), .of (tick 2)⟩
  have hrun : (honest 2 0).Run [] u := by
    refine .nil ⟨{}, fun _ => tick 0, fun _ => tick 1, .of (tick 0),
      fun _ => honest_tick (by decide) (by decide), fun _ => honest_tick (by decide) (by decide),
      hanchor 0 (by decide) _ (by decide), hanchor 1 (by decide) _ (by decide),
      ⟨by decide, by decide⟩, ?_⟩
    rw [calibrateFor, hanchor 0 (by decide) _ (by decide), hanchor 1 (by decide) _ (by decide)]
    rfl
  have hnext : (honest 2 0).next u (fun _ => tick 2) v := by
    refine ⟨fun _ => honest_tick (by decide) (by decide), hanchor 2 (by decide) 1 le_rfl,
      ⟨by decide, by decide⟩, ?_⟩
    rw [calibrate, hanchor 2 (by decide) 1 le_rfl]
    rfl
  exact ⟨_, v, hrun.snoc hnext, List.append_ne_nil_of_right_ne_nil _ (List.cons_ne_nil _ _)⟩

theorem nowFree_accurate_tick : ∃ π u, (honest 2 0).Run π u ∧ π ≠ [] ∧
    u.clock.nowFree u.clock.anc1.cycles = u.clock.anc1.tstamp ∧
    ∀ x y, x ≤ y → u.clock.nowFree x ≤ u.clock.nowFree y := by
  obtain ⟨π, u, hrun, hne⟩ := exists_honest_run
  obtain ⟨-, hanc1, hmono, -⟩ := nowFree_accurate hrun
  exact ⟨π, u, hrun, hne, hanc1, hmono⟩

end TscClock

end LeonUtils
