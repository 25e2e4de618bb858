import Mathlib.Algebra.BigOperators.Group.List.Basic
import Mathlib.Algebra.BigOperators.Ring.List
import Mathlib.Algebra.Order.BigOperators.Group.List
import Mathlib.Algebra.Order.Ring.Defs
import Mathlib.Data.List.Sort
import Mathlib.Order.Bounds.Image
import Mathlib.Tactic.Ring

/-!
# Lists of samples

The largest and the smallest sample of a list, found in one pass or at the ends of the sorted list,
the samples on either side of a number, counted in the sorted list, and the sum of the squared
deviations from a number, in one pass or in two.

## Main results

* `isGreatest_foldl_max`, `isLeast_foldl_min` — extremes in one pass
* `isLeast_sort`, `isGreatest_sort` — extremes of a sorted list
* `succ_le_countP_le`, `sub_le_countP_ge` — how many samples lie on either side of a number
* `sum_sq_sub` — squared deviations from the sums of the samples and of their squares
* `sum_sq_eq_zero_iff` — a sum of squares vanishes just if all of them do
-/

namespace Samples

theorem many_or_one {α : Type*} {l : List α} (hne : l ≠ []) : 1 < l.length ∨ ∃ x, l = [x] := by
  have hpos := List.length_pos_iff.mpr hne
  rw [← List.length_eq_one_iff]
  omega

theorem not_isEmpty_of_many {α : Type*} {l : List α} (hmany : 1 < l.length) :
    ¬ l.isEmpty = true := by
  rw [List.isEmpty_iff_length_eq_zero]
  omega

/-! ## Extremes -/

section Extremes

variable {α : Type*} [LinearOrder α]

/-- The largest sample, in one pass that starts with something no larger than any of them. -/
theorem isGreatest_foldl_max {a : α} {l : List α} (hne : l ≠ []) (ha : ∀ x ∈ l, a ≤ x) :
    IsGreatest {x | x ∈ l} (l.foldl max a) := by
  have hmem : ∀ (l : List α) (a : α), l.foldl max a = a ∨ l.foldl max a ∈ l := by
    intro l
    induction l with
    | nil => exact fun _ => Or.inl rfl
    | cons x l ih =>
      intro a
      rcases ih (max a x) with heq | hmem
      · rw [List.foldl_cons, heq]
        rcases max_choice a x with h | h
        · exact Or.inl h
        · rw [h]
          exact Or.inr List.mem_cons_self
      · exact Or.inr (List.mem_cons_of_mem _ hmem)
  have hle : ∀ (l : List α) (a : α), a ≤ l.foldl max a ∧ ∀ x ∈ l, x ≤ l.foldl max a := by
    intro l
    induction l with
    | nil => exact fun _ => ⟨le_rfl, fun _ h => absurd h (List.not_mem_nil)⟩
    | cons x l ih =>
      intro a
      obtain ⟨hmax, hall⟩ := ih (max a x)
      exact ⟨(le_max_left a x).trans hmax,
        List.forall_mem_cons.mpr ⟨(le_max_right a x).trans hmax, hall⟩⟩
  refine ⟨?_, (hle l a).2⟩
  rcases hmem l a with heq | hmem
  · obtain ⟨x, hx⟩ := List.exists_mem_of_ne_nil l hne
    have hxa : x = a := le_antisymm (((hle l a).2 x hx).trans heq.le) (ha x hx)
    rw [heq, ← hxa]
    exact hx
  · exact hmem

/-- The smallest sample, in one pass that starts with something no smaller than any of them. -/
theorem isLeast_foldl_min {a : α} {l : List α} (hne : l ≠ []) (ha : ∀ x ∈ l, x ≤ a) :
    IsLeast {x | x ∈ l} (l.foldl min a) :=
  isGreatest_foldl_max (α := αᵒᵈ) hne ha

theorem isLeast_sort {l : List α} (hsorted : l.SortedLE) (h : 0 < l.length) :
    IsLeast {x | x ∈ l} l[0] := by
  refine ⟨List.getElem_mem h, fun x hx => ?_⟩
  obtain ⟨i, hi, rfl⟩ := List.getElem_of_mem hx
  have hle : (⟨0, h⟩ : Fin l.length) ≤ ⟨i, hi⟩ := Nat.zero_le i
  exact hsorted.monotone_get hle

theorem isGreatest_sort {l : List α} (hsorted : l.SortedLE) (h : l.length - 1 < l.length) :
    IsGreatest {x | x ∈ l} l[l.length - 1] := by
  refine ⟨List.getElem_mem h, fun x hx => ?_⟩
  obtain ⟨i, hi, rfl⟩ := List.getElem_of_mem hx
  have hle : (⟨i, hi⟩ : Fin l.length) ≤ ⟨_, h⟩ := Nat.le_pred_of_lt hi
  exact hsorted.monotone_get hle

/-- A sample at most `m` has as many samples at most `m` as there are up to it in the sorted
list. -/
theorem succ_le_countP_le {l : List α} (hsorted : l.SortedLE) {i : ℕ} (hi : i < l.length) {m : α}
    (hm : l[i] ≤ m) : i + 1 ≤ l.countP (· ≤ m) := by
  have hall : (l.take (i + 1)).countP (· ≤ m) = (l.take (i + 1)).length := by
    rw [List.countP_eq_length]
    intro x hx
    obtain ⟨j, hj, rfl⟩ := List.getElem_of_mem hx
    rw [List.length_take] at hj
    have hji : j ≤ i := by omega
    have hle : (⟨j, hji.trans_lt hi⟩ : Fin l.length) ≤ ⟨i, hi⟩ := hji
    rw [List.getElem_take]
    exact decide_eq_true ((hsorted.monotone_get hle).trans hm)
  calc i + 1 = (l.take (i + 1)).countP (· ≤ m) := by
        rw [hall, List.length_take]
        omega
    _ ≤ l.countP (· ≤ m) := (List.take_sublist _ l).countP_le

/-- And a sample no less than `m` as many that are no less as there are from it on. -/
theorem sub_le_countP_ge {l : List α} (hsorted : l.SortedLE) {i : ℕ} (hi : i < l.length) {m : α}
    (hm : m ≤ l[i]) : l.length - i ≤ l.countP (m ≤ ·) := by
  have hall : (l.drop i).countP (m ≤ ·) = (l.drop i).length := by
    rw [List.countP_eq_length]
    intro x hx
    obtain ⟨j, hj, rfl⟩ := List.getElem_of_mem hx
    rw [List.length_drop] at hj
    have hle : (⟨i, hi⟩ : Fin l.length) ≤ ⟨i + j, by omega⟩ := Nat.le_add_right i j
    rw [List.getElem_drop]
    exact decide_eq_true (hm.trans (hsorted.monotone_get hle))
  calc l.length - i = (l.drop i).countP (m ≤ ·) := by rw [hall, List.length_drop]
    _ ≤ l.countP (m ≤ ·) := (List.drop_sublist _ l).countP_le

end Extremes

/-! ## Deviations -/

section Deviations

variable {K : Type*} [CommRing K]

/-- A pass that adds up the values of a function. -/
theorem foldl_add_map {α : Type*} (f : α → K) (l : List α) (a : K) :
    l.foldl (fun a x => a + f x) a = a + (l.map f).sum := by
  induction l generalizing a with
  | nil => simp
  | cons x l ih =>
    rw [List.foldl_cons, ih, List.map_cons, List.sum_cons]
    ring

/-- **The squared deviations** from a number, from the sums of the samples and of their squares. -/
theorem sum_sq_sub (l : List K) (a : K) :
    (l.map fun x => (x - a) * (x - a)).sum =
      (l.map fun x => x * x).sum - 2 * l.sum * a + a * a * l.length := by
  induction l with
  | nil => simp
  | cons x l ih =>
    simp only [List.map_cons, List.sum_cons, ih, List.length_cons, Nat.cast_succ]
    ring

variable [LinearOrder K] [IsStrictOrderedRing K]

theorem sum_sq_nonneg {α : Type*} (f : α → K) (l : List α) :
    0 ≤ (l.map fun x => f x * f x).sum := by
  refine List.sum_nonneg fun y hy => ?_
  obtain ⟨x, -, rfl⟩ := List.mem_map.mp hy
  exact mul_self_nonneg _

theorem sum_sq_eq_zero_iff {α : Type*} (f : α → K) (l : List α) :
    (l.map fun x => f x * f x).sum = 0 ↔ ∀ x ∈ l, f x = 0 := by
  induction l with
  | nil => simp
  | cons x l ih =>
    have hx := mul_self_nonneg (f x)
    rw [List.map_cons, List.sum_cons, add_eq_zero_iff_of_nonneg hx (sum_sq_nonneg f l), ih,
      mul_self_eq_zero, List.forall_mem_cons]

end Deviations

end Samples
