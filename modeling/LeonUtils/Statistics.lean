import LeonUtils.Samples
import Mathlib.Analysis.SpecialFunctions.Sqrt
import Mathlib.Data.List.GetD
import Mathlib.Tactic.FieldSimp
import Mathlib.Tactic.NormNum

/-!
# Statistics of a list of samples

`IncStat_t` takes one sample at a time and keeps none of them: the extremes so far, how many there
were, their sum and the sum of their squares. `Statistic_t` has them all: it sorts them, reads the
extremes off the ends and makes a second pass for the deviations from the average.

Numbers of type `double` are elements of any ordered field here, with a function for the square
root: what is proved for every such field holds of the reals, and the definitions can be run on the
rationals. Rounding is left aside.

## Main definitions

* `IncStat`, `IncStat.update`, `IncStat.avg`, `IncStat.std` — one sample at a time
* `Statistic`, `Statistic.run`, `Statistic.make` — all samples at once

## Main results

* `IncStat.foldl_update` — what is kept of a list of samples
* `Statistic.make_avg_std` — what the average and the deviation say of the samples
* `incremental_eq_batch` — the two agree
-/

namespace LeonUtils

open Samples

variable {K : Type*} [Field K] [LinearOrder K]

/-! ## One sample at a time -/

/-- `IncStat_t`. -/
structure IncStat (K : Type*) [Zero K] where
  max : ℤ := -2 ^ 63
  min : ℤ := 2 ^ 63 - 1
  cnt : ℤ := 0
  sum : K := 0
  sqr : K := 0

namespace IncStat

omit [LinearOrder K]

/-- One more sample. -/
def update (s : IncStat K) (d : ℤ) : IncStat K where
  max := Max.max s.max d
  min := Min.min s.min d
  cnt := s.cnt + 1
  sum := s.sum + d
  sqr := s.sqr + d * d

def avg (s : IncStat K) : K := if s.cnt = 0 then 0 else s.sum / s.cnt

def std (sqrt : K → K) (s : IncStat K) : K :=
  if s.cnt ≤ 1 then 0
  else
    let a := s.avg
    sqrt ((s.sqr - (2 : ℤ) * s.sum * a + a * a * s.cnt) / ((s.cnt - 1 : ℤ) : K))

/-- **What is kept of a list of samples.** -/
theorem foldl_update (s : IncStat K) (ds : List ℤ) :
    ds.foldl update s = ⟨ds.foldl Max.max s.max, ds.foldl Min.min s.min, s.cnt + ds.length,
      s.sum + (ds.map ((↑) : ℤ → K)).sum,
      s.sqr + ((ds.map ((↑) : ℤ → K)).map fun x => x * x).sum⟩ := by
  induction ds generalizing s with
  | nil => simp
  | cons d ds ih =>
    rw [List.foldl_cons, ih]
    simp only [update, List.foldl_cons, List.length_cons, List.map_cons, List.sum_cons,
      Nat.cast_succ, mk.injEq, true_and]
    exact ⟨by ring, by ring, by ring⟩

end IncStat

/-! ## All samples at once -/

/-- `Statistic_t`. -/
structure Statistic (K : Type*) where
  cnt : ℤ
  sum : K
  max : K
  min : K
  med : K
  avg : K
  std : K

namespace Statistic

/-- `Statistic_t::operator()`: whether there are samples, the results, and the samples sorted. -/
def run (sqrt : K → K) (st : Statistic K) (samps : List K) : Bool × Statistic K × List K :=
  if samps.isEmpty then (false, st, samps)
  else
    let cnt : ℤ := samps.length
    if cnt = 1 then
      let x := samps.getD 0 0
      (true, { cnt, sum := x, max := x, min := x, med := x, avg := x, std := 0 }, samps)
    else
      let iLast := samps.length - 1
      let samps := samps.mergeSort (· ≤ ·)
      let sum : K := samps.foldl (· + ·) 0
      let max := samps.getD iLast 0
      let min := samps.getD 0 0
      let iMed := iLast / 2
      let med := if iLast % 2 = 0 then samps.getD iMed 0
        else (samps.getD iMed 0 + samps.getD (iMed + 1) 0) / (2 : ℤ)
      let avg := sum / (cnt : K)
      let std := samps.foldl (fun a b =>
        let diff := b - avg
        a + diff * diff) 0
      (true, { cnt, sum, max, min, med, avg, std := sqrt (std / (iLast : K)) }, samps)

/-- The constructor: all results are zero if there are no samples. -/
def make (sqrt : K → K) (samps : List K) : Statistic K × List K :=
  match run sqrt ⟨0, 0, 0, 0, 0, 0, 0⟩ samps with
  | (true, st, samps) => (st, samps)
  | (false, _, samps) => (⟨0, 0, 0, 0, 0, 0, 0⟩, samps)

/-- The results for one sample. -/
theorem make_singleton (sqrt : K → K) (x : K) :
    (make sqrt [x]).1 = ⟨1, x, x, x, x, x, 0⟩ := by
  simp [make, run]

/-- The results for more than one sample: the extremes are the ends of the sorted list, the rest
does not depend on the order. -/
theorem make_many (sqrt : K → K) {samps : List K} (h : 1 < samps.length) :
    (make sqrt samps).1.cnt = samps.length ∧ (make sqrt samps).1.sum = samps.sum ∧
    (make sqrt samps).1.max = (samps.mergeSort (· ≤ ·)).getD (samps.length - 1) 0 ∧
    (make sqrt samps).1.min = (samps.mergeSort (· ≤ ·)).getD 0 0 ∧
    (make sqrt samps).1.avg = samps.sum / samps.length ∧
    (make sqrt samps).1.std = sqrt ((samps.map fun x =>
      (x - samps.sum / samps.length) * (x - samps.sum / samps.length)).sum /
        ((samps.length - 1 : ℕ) : K)) := by
  have hperm := List.mergeSort_perm samps (· ≤ ·)
  have hcnt : ¬ ((samps.length : ℤ) = 1) := by omega
  have hsum : (samps.mergeSort (· ≤ ·)).foldl (· + ·) 0 = samps.sum := by
    rw [← List.sum_eq_foldl, hperm.sum_eq]
  simp only [make, run, if_neg (not_isEmpty_of_many h), if_neg hcnt, hsum, foldl_add_map, zero_add,
    (hperm.map _).sum_eq, Int.cast_natCast, and_self]

theorem make_cnt_sum (sqrt : K → K) {samps : List K} (hne : samps ≠ []) :
    (make sqrt samps).1.cnt = samps.length ∧ (make sqrt samps).1.sum = samps.sum := by
  rcases many_or_one hne with hmany | ⟨x, rfl⟩
  · obtain ⟨hcnt, hsum, -⟩ := make_many sqrt hmany
    exact ⟨hcnt, hsum⟩
  · rw [make_singleton]
    simp

/-- `max` and `min` are the extremes of the samples. -/
theorem make_extremes (sqrt : K → K) {samps : List K} (h : samps ≠ []) :
    IsGreatest {x | x ∈ samps} (make sqrt samps).1.max ∧
      IsLeast {x | x ∈ samps} (make sqrt samps).1.min := by
  rcases many_or_one h with hmany | ⟨x, rfl⟩
  · obtain ⟨-, -, hmax, hmin, -, -⟩ := make_many sqrt hmany
    have hsorted : (samps.mergeSort (· ≤ ·)).SortedLE := List.sortedLE_mergeSort
    have hlen : (samps.mergeSort (· ≤ ·)).length = samps.length := List.length_mergeSort samps
    have hlast : samps.length - 1 < (samps.mergeSort (· ≤ ·)).length := by omega
    have hset : {x | x ∈ samps.mergeSort (· ≤ ·)} = {x | x ∈ samps} :=
      Set.ext fun x => List.mem_mergeSort
    rw [hmax, hmin, List.getD_eq_getElem _ _ hlast, List.getD_eq_getElem _ _ (by omega), ← hset]
    simp only [← hlen] at hlast ⊢
    exact ⟨isGreatest_sort hsorted hlast, isLeast_sort hsorted _⟩
  · rw [make_singleton]
    simp

variable [IsStrictOrderedRing K] {sqrt : K → K}

/-- What the average and the deviation say of the samples. -/
theorem make_avg_std (hsqrt : ∀ v, 0 ≤ v → sqrt v * sqrt v = v) {samps : List K}
    (hne : samps ≠ []) :
    let st := (make sqrt samps).1
    st.avg * samps.length = samps.sum ∧
      st.std * st.std * ((samps.length - 1 : ℤ) : K) =
        (samps.map fun x => (x - st.avg) * (x - st.avg)).sum := by
  intro st
  have hpos := List.length_pos_iff.mpr hne
  have hn : (samps.length : K) ≠ 0 := by exact_mod_cast hpos.ne'
  rcases many_or_one hne with hmany | ⟨x, rfl⟩
  · obtain ⟨-, -, -, -, havg, hstd⟩ := make_many sqrt hmany
    change st.avg = _ at havg
    change st.std = _ at hstd
    have hlast : ((samps.length - 1 : ℤ) : K) = ((samps.length - 1 : ℕ) : K) := by
      rw [← Int.cast_natCast (samps.length - 1), Nat.cast_sub hmany.le, Nat.cast_one]
    have hlast0 : ((samps.length - 1 : ℕ) : K) ≠ 0 := by
      exact_mod_cast (Nat.sub_pos_of_lt hmany).ne'
    have hnonneg := sum_sq_nonneg (fun x => x - samps.sum / samps.length) samps
    refine ⟨?_, ?_⟩
    · rw [havg, div_mul_cancel₀ _ hn]
    · rw [hstd, hsqrt _ (div_nonneg hnonneg (Nat.cast_nonneg _)), hlast, div_mul_cancel₀ _ hlast0,
        havg]
  · simp [st, make_singleton]

end Statistic

/-! ## One at a time, and all at once -/

/-- What the average and the deviation are taken from: a count, a sum and a sum of squares. -/
theorem avg_std_of_sums (sqrt : K → K) {samps : List K} (hne : samps ≠ []) {s : IncStat K}
    (hcnt : s.cnt = samps.length) (hsum : s.sum = samps.sum)
    (hsqr : s.sqr = (samps.map fun x => x * x).sum) :
    s.avg = (Statistic.make sqrt samps).1.avg ∧
      s.std sqrt = (Statistic.make sqrt samps).1.std := by
  have hpos := List.length_pos_iff.mpr hne
  have hn : ¬ s.cnt = 0 := by omega
  rcases many_or_one hne with hmany | ⟨x, rfl⟩
  · obtain ⟨-, -, -, -, havg, hstd⟩ := Statistic.make_many sqrt hmany
    have hn' : ¬ s.cnt ≤ 1 := by omega
    have hlast : s.cnt - 1 = ((samps.length - 1 : ℕ) : ℤ) := by omega
    have havg' : s.avg = samps.sum / samps.length := by
      rw [IncStat.avg, if_neg hn, hcnt, hsum, Int.cast_natCast]
    refine ⟨havg'.trans havg.symm, ?_⟩
    -- the deviations, from the sums kept
    rw [IncStat.std, if_neg hn', hlast, hstd]
    simp only [havg', hcnt, hsum, hsqr, sum_sq_sub, Int.cast_natCast, Int.cast_ofNat]
  · rw [Statistic.make_singleton, IncStat.avg, IncStat.std, if_neg hn, hcnt, hsum]
    simp

section Agree

variable [IsStrictOrderedRing K] {samples order : List ℤ}

omit [LinearOrder K] [IsStrictOrderedRing K] in
/-- What is kept of samples in any order, in terms of what does not depend on the order. -/
theorem foldl_update_perm (hne : samples ≠ [])
    (hrange : ∀ d ∈ samples, -2 ^ 63 ≤ d ∧ d < 2 ^ 63) (hperm : order.Perm samples) :
    ∃ dmax dmin, IsGreatest {d | d ∈ samples} dmax ∧ IsLeast {d | d ∈ samples} dmin ∧
      order.foldl IncStat.update ({} : IncStat K) =
        ⟨dmax, dmin, samples.length, (samples.map ((↑) : ℤ → K)).sum,
          ((samples.map ((↑) : ℤ → K)).map fun x => x * x).sum⟩ := by
  have hset : {d | d ∈ order} = {d | d ∈ samples} := Set.ext fun d => hperm.mem_iff
  have hne : order ≠ [] := by
    rintro rfl
    exact hne hperm.nil_eq.symm
  refine ⟨order.foldl max (-2 ^ 63), order.foldl min (2 ^ 63 - 1), ?_, ?_, ?_⟩
  · rw [← hset]
    exact isGreatest_foldl_max hne fun d hd => (hrange d (hperm.subset hd)).1
  · rw [← hset]
    exact isLeast_foldl_min hne fun d hd => Int.le_sub_one_of_lt (hrange d (hperm.subset hd)).2
  · rw [IncStat.foldl_update, hperm.length_eq, ((hperm.map _).map _).sum_eq, (hperm.map _).sum_eq]
    simp only [zero_add]

/-- **The two agree**, for any ordered field and any function for the square root. -/
theorem update_eq_make (sqrt : K → K) (hne : samples ≠ [])
    (hrange : ∀ d ∈ samples, -2 ^ 63 ≤ d ∧ d < 2 ^ 63) (hperm : order.Perm samples) :
    let inc : IncStat K := order.foldl IncStat.update {}
    let st := (Statistic.make sqrt (samples.map ((↑) : ℤ → K))).1
    inc.cnt = st.cnt ∧ inc.sum = st.sum ∧ (inc.max : K) = st.max ∧ (inc.min : K) = st.min ∧
      inc.avg = st.avg ∧ inc.std sqrt = st.std := by
  intro inc st
  obtain ⟨dmax, dmin, hmax, hmin, hinc⟩ := foldl_update_perm (K := K) hne hrange hperm
  change inc = _ at hinc
  have hne' : samples.map ((↑) : ℤ → K) ≠ [] := by simpa using hne
  obtain ⟨hgreatest, hleast⟩ := Statistic.make_extremes sqrt hne'
  have himage : {x | x ∈ samples.map ((↑) : ℤ → K)} = ((↑) : ℤ → K) '' {d | d ∈ samples} :=
    Set.ext fun x => List.mem_map
  have hstmax : (dmax : K) = st.max :=
    (Int.cast_mono.map_isGreatest hmax).unique (himage ▸ hgreatest)
  have hstmin : (dmin : K) = st.min := (Int.cast_mono.map_isLeast hmin).unique (himage ▸ hleast)
  obtain ⟨hcnt, hsum⟩ := Statistic.make_cnt_sum sqrt hne'
  have hlen : (samples.map ((↑) : ℤ → K)).length = samples.length := List.length_map _
  have hcnt' : inc.cnt = (samples.map ((↑) : ℤ → K)).length := by rw [hlen, hinc]
  have hsum' : inc.sum = (samples.map ((↑) : ℤ → K)).sum := by rw [hinc]
  have hsqr' : inc.sqr = ((samples.map ((↑) : ℤ → K)).map fun x => x * x).sum := by rw [hinc]
  refine ⟨hcnt'.trans hcnt.symm, hsum'.trans hsum.symm, ?_, ?_,
    avg_std_of_sums sqrt hne' hcnt' hsum' hsqr'⟩
  · rw [← hstmax, hinc]
  · rw [← hstmin, hinc]

end Agree

/-- **Incremental and batch statistics agree** on every non-empty list of samples, whatever the
order in which they come. -/
theorem incremental_eq_batch {samples order : List ℤ} (hne : samples ≠ [])
    (hrange : ∀ d ∈ samples, -2 ^ 63 ≤ d ∧ d < 2 ^ 63) (hperm : order.Perm samples) :
    let inc : IncStat ℝ := order.foldl IncStat.update {}
    let st := (Statistic.make Real.sqrt (samples.map ((↑) : ℤ → ℝ))).1
    inc.cnt = st.cnt ∧ inc.sum = st.sum ∧ (inc.max : ℝ) = st.max ∧ (inc.min : ℝ) = st.min ∧
      inc.avg = st.avg ∧ inc.std Real.sqrt = st.std :=
  update_eq_make Real.sqrt hne hrange hperm

theorem incremental_eq_batch_three :
    let inc : IncStat ℝ := [3, -1, 2].foldl IncStat.update {}
    let st := (Statistic.make Real.sqrt ([-1, 2, 3].map ((↑) : ℤ → ℝ))).1
    inc.cnt = st.cnt ∧ inc.sum = st.sum ∧ (inc.max : ℝ) = st.max ∧ (inc.min : ℝ) = st.min ∧
      inc.avg = st.avg ∧ inc.std Real.sqrt = st.std :=
  incremental_eq_batch (by decide) (by decide) (by decide)

end LeonUtils
