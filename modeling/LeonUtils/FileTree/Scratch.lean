import LeonUtils.FileTree
import Mathlib.Order.Antichain

/-!
# Directories that come and go

A tree in which some directories have been made since, and used for anything at all. What is asked
of it is that it be the tree from before everywhere else: these directories were not there before,
are there now, and no other place has changed. Nothing is said of what is below them.

The tree from before is the smaller one then (`Scratch.le`), so that a path that led somewhere
before the directories were made leads to the same place while they are there.

## Main definitions

* `FileTree.plant` — a new directory
* `FileTree.uproot` — a directory removed, and what is below it
* `FileTree.Scratch` — a tree with directories made since

## Main results

* `Scratch.eq` — when all of them are gone, the tree is the one from before
* `Scratch.plant`, `Scratch.edit`, `Scratch.uproot` — one more, something below one, one less
-/

namespace LeonUtils

namespace FileTree

@[ext]
theorem ext {t t' : FileTree} (h : ∀ q, t.entry q = t'.entry q) : t = t' := by
  cases t
  cases t'
  congr
  exact funext h

/-- Below a place where there is nothing there is nothing. -/
theorem entry_below_none {t : FileTree} {d q : Place} (hd : t.entry d = none) (hq : d <+: q) :
    t.entry q = none := by
  obtain ⟨r, rfl⟩ := hq
  induction r using List.reverseRecOn with
  | nil => rwa [List.append_nil]
  | append_singleton r c ih =>
    by_contra hne
    rw [← List.append_assoc] at hne
    rw [t.parent hne] at ih
    cases ih

/-- A new directory, at a place where there is none. -/
def plant (t : FileTree) (l : Place) (c : List Char) (h : t.entry l = some .dir) : FileTree where
  entry := Function.update t.entry (l ++ [c]) (some .dir)
  root := by
    rw [Function.update_of_ne (by simp)]
    exact t.root
  parent := by
    intro m b hm
    rcases eq_or_ne m (l ++ [c]) with rfl | hne
    · exact Function.update_self ..
    rw [Function.update_of_ne hne]
    rcases eq_or_ne (m ++ [b]) (l ++ [c]) with heq | hne'
    · rw [(List.append_inj' heq rfl).1]
      exact h
    · rw [Function.update_of_ne hne'] at hm
      exact t.parent hm

theorem plant_entry (t : FileTree) {l : Place} {c : List Char} (h : t.entry l = some .dir)
    (q : Place) : (t.plant l c h).entry q = if q = l ++ [c] then some .dir else t.entry q :=
  Function.update_apply ..

/-- The directory `c` at `l` removed, after everything below it. -/
def uproot (t : FileTree) (l : Place) (c : List Char) : FileTree :=
  (t.prune (.below (l ++ [c]))).prune (.at l c)

theorem uproot_entry (t : FileTree) (l : Place) (c : List Char) (q : Place) :
    (t.uproot l c).entry q = if l ++ [c] <+: q then none else t.entry q := by
  rw [uproot, prune_entry, prune_entry]
  by_cases hq : l ++ [c] <+: q
  · rw [if_pos hq, if_pos (Cut.at_dead.mpr hq)]
  · have hbelow := fun hdead => hq (Cut.below_dead.mp hdead).1
    rw [if_neg hq, if_neg (mt Cut.at_dead.mp hq), if_neg hbelow]

/-- A tree in which the directories of `D` have been made since it was `t₀`. -/
structure Scratch (t₀ : FileTree) (D : Set Place) (t : FileTree) : Prop where
  fresh : ∀ d ∈ D, t₀.entry d = none
  live : ∀ d ∈ D, t.entry d = some .dir
  apart : IsAntichain (· <+: ·) D
  rest : ∀ q, (∀ d ∈ D, ¬ d <+: q) → t.entry q = t₀.entry q

namespace Scratch

variable {t₀ t t' : FileTree} {D : Set Place} {l : Place} {c : List Char}

theorem refl (t₀ : FileTree) : Scratch t₀ ∅ t₀ where
  fresh _ h := h.elim
  live _ h := h.elim
  apart := IsAntichain.empty
  rest _ _ := rfl

/-- **When all of the directories are gone, the tree is the one from before.** -/
theorem eq (h : Scratch t₀ ∅ t) : t = t₀ := by
  ext q
  rw [h.rest q fun d hd => hd.elim]

/-- Nothing of the tree from before is missing. -/
theorem le (h : Scratch t₀ D t) : t₀ ≤ t := by
  intro q
  by_cases hq : ∀ d ∈ D, ¬ d <+: q
  · exact Or.inl (h.rest q hq).symm
  · simp only [not_forall, not_not] at hq
    obtain ⟨d, hd, hpre⟩ := hq
    exact Or.inr (entry_below_none (h.fresh d hd) hpre)

/-- One more directory, not inside of another one. -/
theorem plant (h : Scratch t₀ D t) (hl : t.entry l = some .dir) (hnone : t.entry (l ++ [c]) = none)
    (hD : ∀ d ∈ D, ¬ d <+: l ++ [c]) : Scratch t₀ (insert (l ++ [c]) D) (t.plant l c hl) where
  fresh := by
    rintro d (rfl | hd)
    · exact (h.rest _ hD).symm.trans hnone
    · exact h.fresh d hd
  live := by
    intro d hd
    rw [plant_entry]
    split
    · rfl
    · rename_i hne
      exact h.live d (hd.resolve_left hne)
  apart := by
    refine h.apart.insert (fun d hd _ hpre => hD d hd hpre) fun d hd _ hpre => ?_
    have hnone' := entry_below_none hnone hpre
    rw [h.live d hd] at hnone'
    cases hnone'
  rest q hq := by
    rw [plant_entry, if_neg]
    · exact h.rest q fun d hd => hq d (Or.inr hd)
    · rintro rfl
      exact hq _ (Or.inl rfl) (List.prefix_refl _)

/-- Anything done below the directories. -/
theorem edit (h : Scratch t₀ D t)
    (ht' : ∀ q, (∀ d ∈ D, ¬ (d <+: q ∧ q ≠ d)) → t'.entry q = t.entry q) : Scratch t₀ D t' where
  fresh := h.fresh
  live d hd := by
    rw [ht' d fun e he hpre => hpre.2 (h.apart.eq he hd hpre.1).symm]
    exact h.live d hd
  apart := h.apart
  rest q hq := by
    rw [ht' q fun d hd hpre => hq d hd hpre.1]
    exact h.rest q hq

/-- One of the directories removed. -/
theorem uproot (h : Scratch t₀ D t) (hd : l ++ [c] ∈ D) :
    Scratch t₀ (D \ {l ++ [c]}) (t.uproot l c) where
  fresh d hd := h.fresh d hd.1
  live d hd' := by
    rw [uproot_entry, if_neg fun hpre => hd'.2 (h.apart.eq hd hd'.1 hpre).symm]
    exact h.live d hd'.1
  apart := h.apart.subset Set.sdiff_subset
  rest q hq := by
    rw [uproot_entry]
    split
    · rename_i hpre
      exact (entry_below_none (h.fresh _ hd) hpre).symm
    · rename_i hpre
      refine h.rest q fun d hd' hpre' => ?_
      rcases eq_or_ne d (l ++ [c]) with rfl | hne
      · exact hpre hpre'
      · exact hq d ⟨hd', hne⟩ hpre'

end Scratch

end FileTree

end LeonUtils
