import LeonUtils.Statistics

/-!
# Samples taken for granted

An `IncStat_t` may start as if it had seen samples of which only the count, the average and the
standard deviation are known. From these it takes back the sum and the sum of the squares, so that
what comes later is counted as if it had followed those samples.

## Main definitions

* `IncStat.initialized` — `initialize`

## Main results

* `IncStat.initialized_make` — the sums are those of the samples
* `initialized_update_eq_make` — average and deviation are those of all samples together
-/

namespace LeonUtils

open Samples

namespace IncStat

variable {K : Type*} [Field K]

/-- `initialize`: the sums are what `std` is computed from, backwards. -/
def initialized (_s : IncStat K) (cnt : ℤ) (avg std : K) : IncStat K where
  max := -2 ^ 63
  min := 2 ^ 63 - 1
  cnt := cnt
  sum := avg * cnt
  sqr :=
    let avg_p2 := avg * avg
    let std_p2 := std * std
    std_p2 * ((cnt - 1 : ℤ) : K) - avg_p2 * cnt + (2 : ℤ) * (avg * cnt) * avg

end IncStat

section Prior

variable {K : Type*} [Field K] [LinearOrder K] [IsStrictOrderedRing K] {sqrt : K → K}

/-- **The sums are taken back** from the count, the average and the deviation of samples. -/
theorem IncStat.initialized_make (hsqrt : ∀ v, 0 ≤ v → sqrt v * sqrt v = v) (s : IncStat K)
    {samps : List K} (hne : samps ≠ []) :
    let st := (Statistic.make sqrt samps).1
    s.initialized st.cnt st.avg st.std =
      ⟨-2 ^ 63, 2 ^ 63 - 1, samps.length, samps.sum, (samps.map fun x => x * x).sum⟩ := by
  intro st
  obtain ⟨havg, hstd⟩ := Statistic.make_avg_std hsqrt hne
  have hcnt : st.cnt = samps.length := (Statistic.make_cnt_sum sqrt hne).1
  change st.avg * _ = _ at havg
  change st.std * st.std * _ = (samps.map fun x => (x - st.avg) * (x - st.avg)).sum at hstd
  rw [sum_sq_sub, ← havg] at hstd
  simp only [initialized, hcnt, hstd, Int.cast_natCast, Int.cast_ofNat, mk.injEq, true_and]
  exact ⟨havg, by ring⟩

/-- **Known samples and later ones** are counted together, and the known ones alone are given back
as they were. -/
theorem initialized_update (hsqrt : ∀ v, 0 ≤ v → sqrt v * sqrt v = v) (s : IncStat K) {A : List ℤ}
    (hne : A ≠ []) (B : List ℤ) :
    let stA := (Statistic.make sqrt (A.map ((↑) : ℤ → K))).1
    let st := (Statistic.make sqrt ((A ++ B).map ((↑) : ℤ → K))).1
    let inc := B.foldl IncStat.update (s.initialized stA.cnt stA.avg stA.std)
    inc.avg = st.avg ∧ inc.std sqrt = st.std := by
  intro stA st inc
  have hA : A.map ((↑) : ℤ → K) ≠ [] := by simpa using hne
  have hAB : (A ++ B).map ((↑) : ℤ → K) ≠ [] := by simp [hne]
  have hinc : inc = B.foldl IncStat.update (s.initialized stA.cnt stA.avg stA.std) := rfl
  rw [IncStat.initialized_make hsqrt s hA, IncStat.foldl_update] at hinc
  refine avg_std_of_sums sqrt hAB ?_ ?_ ?_
  · simp [hinc]
  · simp [hinc]
  · simp [hinc]

end Prior

/-- **A known average and deviation** go on with later samples as the samples themselves would, and
are given back as long as there are none. -/
theorem initialized_update_eq_make (s : IncStat ℝ) {A : List ℤ} (hne : A ≠ []) (B : List ℤ) :
    let stA := (Statistic.make Real.sqrt (A.map ((↑) : ℤ → ℝ))).1
    let st := (Statistic.make Real.sqrt ((A ++ B).map ((↑) : ℤ → ℝ))).1
    let inc := B.foldl IncStat.update (s.initialized stA.cnt stA.avg stA.std)
    (inc.avg = st.avg ∧ inc.std Real.sqrt = st.std) ∧
      (B = [] → inc.avg = stA.avg ∧ inc.std Real.sqrt = stA.std) := by
  refine ⟨initialized_update (fun _ => Real.mul_self_sqrt) s hne B, ?_⟩
  rintro rfl
  simpa using initialized_update (fun _ => Real.mul_self_sqrt) s hne []

theorem initialized_update_eq_make_three :
    let stA := (Statistic.make Real.sqrt ([1, 3].map ((↑) : ℤ → ℝ))).1
    let st := (Statistic.make Real.sqrt (([1, 3] ++ [5]).map ((↑) : ℤ → ℝ))).1
    let inc := [5].foldl IncStat.update
      (({} : IncStat ℝ).initialized stA.cnt stA.avg stA.std)
    (inc.avg = st.avg ∧ inc.std Real.sqrt = st.std) ∧
      ([5] = ([] : List ℤ) → inc.avg = stA.avg ∧ inc.std Real.sqrt = stA.std) :=
  initialized_update_eq_make {} (by decide) [5]

end LeonUtils
