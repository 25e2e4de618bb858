import Mathlib.Data.List.Chain
import Mathlib.Data.List.Pairwise
import Mathlib.Data.List.Sort

/-!
# Sorting by a comparison

What a sort by a comparison function promises: a permutation of what it was given, in which nothing
comes before something less. Elements that are not told apart may come in any order, unless the sort
is stable.

## Main definitions

* `IsSort` — the promise
* `stableSort` — a sort that keeps the order of elements that are not told apart
* `lessBy` — the comparison of one quantity

## Main results

* `isSort_stableSort` — the promise is kept
* `IsSort.eq_of_ties` — without ties the result does not depend on the order of the list
* `stableSort_exchange` — nor does a stable result on that of two neighbours that are told apart
-/

namespace Sorting

variable {α β : Type*}

/-- What a sort promises for a comparison that is a strict weak order. -/
structure IsSort (sort : (α → α → Bool) → List α → List α) : Prop where
  perm : ∀ lt l, IsStrictWeakOrder α (fun a b => lt a b = true) → (sort lt l).Perm l
  sorted : ∀ lt l, IsStrictWeakOrder α (fun a b => lt a b = true) →
    (sort lt l).Pairwise fun a b => lt b a = false

/-- Merge sort, which is stable. -/
def stableSort (lt : α → α → Bool) (l : List α) : List α := l.mergeSort fun a b => !lt b a

theorem not_lt_trans {lt : α → α → Bool} [IsStrictWeakOrder α (fun a b => lt a b = true)]
    (a b c : α) (hab : (!lt b a) = true) (hbc : (!lt c b) = true) : (!lt c a) = true := by
  rw [Bool.not_eq_true'] at hab hbc ⊢
  by_contra hca
  rw [Bool.not_eq_false] at hca
  have hb : ¬ lt b c = true := fun h => by
    simpa [hab] using IsTrans.trans (r := fun a b => lt a b = true) b c a h hca
  have ha : ¬ lt a b = true := fun h => by
    simpa [hbc] using IsTrans.trans (r := fun a b => lt a b = true) c a b hca h
  have hincomp : ¬ lt c a = true ∧ ¬ lt a c = true :=
    (inferInstance : IsStrictWeakOrder α fun a b => lt a b = true).incomp_trans c b a
      ⟨by simp [hbc], hb⟩ ⟨by simp [hab], ha⟩
  exact hincomp.1 hca

theorem not_lt_total {lt : α → α → Bool} [IsStrictWeakOrder α (fun a b => lt a b = true)]
    (a b : α) : (!lt b a || !lt a b) = true := by
  by_contra h
  simp only [Bool.or_eq_true, Bool.not_eq_true', not_or, Bool.not_eq_false] at h
  exact Std.Irrefl.irrefl (r := fun a b => lt a b = true) a
    (IsTrans.trans (r := fun a b => lt a b = true) a b a h.2 h.1)

theorem isSort_stableSort : IsSort (stableSort (α := α)) where
  perm _ l _ := List.mergeSort_perm l _
  sorted lt l hlt := by
    have h : (stableSort lt l).Pairwise fun a b => (!lt b a) = true :=
      List.pairwise_mergeSort not_lt_trans not_lt_total l
    exact h.imp fun hab => by rwa [Bool.not_eq_true'] at hab

theorem stableSort_of_sorted {lt : α → α → Bool} {l : List α}
    (h : l.Pairwise fun a b => lt b a = false) : stableSort lt l = l :=
  List.mergeSort_of_pairwise (h.imp fun h => by rw [h]; rfl)

/-! ## The comparison of one quantity -/

section Key

variable [LinearOrder β] {key : α → β} {l l' : List α}

/-- The comparison of one quantity. -/
def lessBy (key : α → β) (a b : α) : Bool := decide (key a < key b)

theorem lessBy_eq_false_iff (a b : α) : lessBy key a b = false ↔ key b ≤ key a := by
  rw [lessBy, decide_eq_false_iff_not, not_lt]

instance isStrictWeakOrder_lessBy (key : α → β) :
    IsStrictWeakOrder α (fun a b => lessBy key a b = true) where
  irrefl a := by simp [lessBy]
  trans a b c hab hbc := by
    rw [lessBy, decide_eq_true_eq] at hab hbc ⊢
    exact hab.trans hbc
  incomp_trans a b c hab hbc := by
    simp only [lessBy, decide_eq_true_eq, not_lt] at hab hbc ⊢
    exact ⟨hbc.1.trans hab.1, hab.2.trans hbc.2⟩

theorem IsSort.sorted_lessBy {sort : (α → α → Bool) → List α → List α} (hsort : IsSort sort)
    (key : α → β) (l : List α) : (sort (lessBy key) l).Pairwise fun a b => key a ≤ key b :=
  (hsort.sorted _ l inferInstance).imp fun h => (lessBy_eq_false_iff _ _).mp h

/-- **Without ties** the result does not depend on the order of the list. -/
theorem IsSort.eq_of_ties {sort : (α → α → Bool) → List α → List α} (hsort : IsSort sort)
    (hperm : l'.Perm l) (hties : ∀ a ∈ l, ∀ b ∈ l, key a = key b → a = b) :
    sort (lessBy key) l' = sort (lessBy key) l := by
  have hl := hsort.perm (lessBy key) l inferInstance
  have hl' := (hsort.perm (lessBy key) l' inferInstance).trans hperm
  refine (hl'.trans hl.symm).eq_of_pairwise ?_ (hsort.sorted_lessBy key l')
    (hsort.sorted_lessBy key l)
  intro a b ha hb hab hba
  exact hties a (hl'.mem_iff.mp ha) b (hl.mem_iff.mp hb) (le_antisymm hab hba)

/-- If a quantity differs in a tie, it does so between two neighbours of the sorted list. -/
theorem exists_adjacent {γ : Type*} {value : α → γ} (hsorted : l.Pairwise fun a b => key a ≤ key b)
    {a b : α} (ha : a ∈ l) (hb : b ∈ l) (hkey : key a = key b) (hvalue : value a ≠ value b) :
    ∃ A p q B, l = A ++ p :: q :: B ∧ key p = key q ∧ value p ≠ value q := by
  by_contra hnone
  have htrans : IsTrans α fun p q => key p < key q ∨ key p = key q ∧ value p = value q := by
    constructor
    rintro p q r (hpq | ⟨hpq, hpq'⟩) (hqr | ⟨hqr, hqr'⟩)
    · exact Or.inl (hpq.trans hqr)
    · exact Or.inl (hpq.trans_eq hqr)
    · exact Or.inl (hpq.trans_lt hqr)
    · exact Or.inr ⟨hpq.trans hqr, hpq'.trans hqr'⟩
  have hchain : l.IsChain fun p q => key p < key q ∨ key p = key q ∧ value p = value q := by
    rw [List.isChain_iff_forall_rel_of_append_cons_cons]
    intro p q A B hl
    have hle : key p ≤ key q := List.isChain_iff_forall_rel_of_append_cons_cons.mp
      hsorted.isChain hl
    refine hle.lt_or_eq.imp_right fun heq => ⟨heq, ?_⟩
    by_contra hne
    exact hnone ⟨A, p, q, B, hl, heq, hne⟩
  have hpair : l.Pairwise fun p q => key p = key q → value p = value q :=
    (List.isChain_iff_pairwise.mp hchain).imp fun h heq => by
      rcases h with h | h
      · exact absurd heq h.ne
      · exact h.2
  have hsymm : Std.Symm fun p q => key p = key q → value p = value q :=
    ⟨fun _ _ h heq => (h heq.symm).symm⟩
  exact hvalue (hpair.forall_of_forall (fun _ _ _ => rfl) ha hb hkey)

/-! ## Stability -/

/-- **Stability**: what is not told apart keeps its order. -/
theorem filter_stableSort (key : α → β) (l : List α) (v : β) :
    (stableSort (lessBy key) l).filter (fun a => decide (key a = v)) =
      l.filter fun a => decide (key a = v) := by
  have hperm : (stableSort (lessBy key) l).Perm l := List.mergeSort_perm l _
  have hclass : (l.filter fun a => decide (key a = v)).Pairwise fun a b =>
      (!lessBy key b a) = true := by
    refine List.pairwise_of_forall_mem_list fun a ha b hb => ?_
    have ha : key a = v := by simpa using List.of_mem_filter ha
    have hb : key b = v := by simpa using List.of_mem_filter hb
    rw [Bool.not_eq_true', lessBy_eq_false_iff, ha, hb]
  have hsub : (l.filter fun a => decide (key a = v)).Sublist (stableSort (lessBy key) l) :=
    List.sublist_mergeSort not_lt_trans not_lt_total hclass List.filter_sublist
  have hsub' := hsub.filter fun a => decide (key a = v)
  rw [List.filter_filter] at hsub'
  simp only [Bool.and_self] at hsub'
  exact (hsub'.eq_of_length (hperm.filter _).length_eq.symm).symm

theorem mem_iff_of_filter_key (hfilter : ∀ v, l.filter (fun a => decide (key a = v)) =
    l'.filter fun a => decide (key a = v)) (a : α) : a ∈ l ↔ a ∈ l' := by
  have ha : a ∈ l.filter (fun b => decide (key b = key a)) ↔
      a ∈ l'.filter fun b => decide (key b = key a) := by rw [hfilter]
  simpa only [List.mem_filter, decide_true, and_true] using ha

/-- The least elements come first. -/
theorem key_head_le {a b : α} (h : (a :: l).Pairwise fun a b => key a ≤ key b) (hb : b ∈ a :: l) :
    key a ≤ key b := by
  rcases List.mem_cons.mp hb with rfl | hb
  · rfl
  · exact List.rel_of_pairwise_cons h hb

/-- Two sorted lists with the same elements in each tie, in the same order, are equal. -/
theorem eq_of_filter_key (h : l.Pairwise fun a b => key a ≤ key b)
    (h' : l'.Pairwise fun a b => key a ≤ key b)
    (hfilter : ∀ v, l.filter (fun a => decide (key a = v)) =
      l'.filter fun a => decide (key a = v)) : l = l' := by
  have hmem := mem_iff_of_filter_key hfilter
  induction l generalizing l' with
  | nil =>
    exact (List.eq_nil_iff_forall_not_mem.mpr fun a ha => by simpa using (hmem a).mpr ha).symm
  | cons a l ih =>
    cases l' with
    | nil => exact absurd ((hmem a).mp List.mem_cons_self) List.not_mem_nil
    | cons b l' =>
      have hab : key a = key b := le_antisymm (key_head_le h ((hmem b).mpr List.mem_cons_self))
        (key_head_le h' ((hmem a).mp List.mem_cons_self))
      obtain rfl : a = b := by
        have hhead := hfilter (key a)
        simp only [List.filter_cons, hab, decide_true, if_true] at hhead
        exact (List.cons.inj hhead).1
      have htail : ∀ v, l.filter (fun a => decide (key a = v)) =
          l'.filter fun a => decide (key a = v) := by
        intro v
        have hv := hfilter v
        simp only [List.filter_cons] at hv
        split at hv
        · exact (List.cons.inj hv).2
        · exact hv
      rw [ih h.of_cons h'.of_cons htail (mem_iff_of_filter_key htail)]

/-- **Two neighbours that are told apart** may be exchanged before they are sorted. -/
theorem stableSort_exchange (A B : List α) {a b : α} (hab : key a ≠ key b) :
    stableSort (lessBy key) (A ++ a :: b :: B) = stableSort (lessBy key) (A ++ b :: a :: B) := by
  refine eq_of_filter_key (isSort_stableSort.sorted_lessBy key _)
    (isSort_stableSort.sorted_lessBy key _) fun v => ?_
  rw [filter_stableSort, filter_stableSort, List.filter_append, List.filter_append]
  refine congrArg _ ?_
  by_cases ha : key a = v
  · have hb : ¬ key b = v := fun hb => hab (ha.trans hb.symm)
    simp [ha, hb]
  · simp [List.filter_cons, ha]

theorem map_stableSort {f : α → α} (hf : ∀ a, key (f a) = key a) (l : List α) :
    (stableSort (lessBy key) l).map f = stableSort (lessBy key) (l.map f) :=
  List.map_mergeSort fun a _ b _ => by simp only [lessBy, hf]

end Key

end Sorting
