import Mathlib.Data.List.Pairwise
import Mathlib.Data.List.Sort
import Mathlib.Order.RelClasses

/-!
# Ordered sets

A set over a comparison that is a strict weak order, as a list in which every element is less than
those behind it. Of elements that are not told apart it holds at most one.

Two such lists are merged in one pass: what is in one of them, in the first but not in the second,
and in both. Where the lists hold elements that are not told apart, the result has that of the first
list.

## Main definitions

* `Same` — elements that are not told apart
* `insertList` — a new element, where it belongs
* `mergeUnion`, `mergeDifference`, `mergeIntersection` — the three merges
* `OrdSet`, `OrdSet.insert`, `OrdSet.insertAll` — sets

## Main results

* `mem_mergeUnion`, `mem_mergeDifference`, `mem_mergeIntersection` — what comes out of a merge
* `pairwise_mergeUnion`, `mergeDifference_sublist`, `mergeIntersection_sublist` — it is in order
* `length_mergeUnion`, `length_mergeDifference` — how much it is
* `OrdSet.insertAll_empty` — inserting elements that are in order, one by one
-/

namespace OrderedSet

variable {α : Type*} {lt : α → α → Prop}

/-! ## Elements that are not told apart -/

/-- Neither of two elements is less. -/
def Same (lt : α → α → Prop) (a b : α) : Prop := ¬ lt a b ∧ ¬ lt b a

theorem Same.symm {a b : α} (h : Same lt a b) : Same lt b a := And.symm h

theorem not_same_of_lt {a b : α} (h : lt a b) : ¬ Same lt a b := fun hsame => hsame.1 h

section Order

variable [IsStrictWeakOrder α lt] {a b c : α}

theorem Same.refl (a : α) : Same lt a a := ⟨irrefl_of lt a, irrefl_of lt a⟩

theorem Same.trans (hab : Same lt a b) (hbc : Same lt b c) : Same lt a c :=
  IsStrictWeakOrder.incomp_trans a b c hab hbc

theorem lt_of_same_of_lt (hab : Same lt a b) (hbc : lt b c) : lt a c := by
  by_contra hac
  by_cases hca : lt c a
  · exact hab.2 (trans_of lt hbc hca)
  · exact not_same_of_lt hbc (hab.symm.trans ⟨hac, hca⟩)

/-- What is less than the head of a list in order is less than all of it. -/
theorem lt_of_lt_head {x : α} {l : List α} (hab : lt a b) (h : (b :: l).Pairwise lt)
    (hx : x ∈ b :: l) : lt a x := by
  rcases List.mem_cons.mp hx with rfl | hx
  · exact hab
  · exact trans_of lt hab ((List.pairwise_cons.mp h).1 x hx)

end Order

instance isStrictWeakOrder_lt {β : Type*} [LinearOrder β] :
    IsStrictWeakOrder β fun a b => a < b :=
  isStrictWeakOrder_of_isOrderConnected

/-! ## Inserting -/

variable [DecidableRel lt]

/-- A new element goes before the first one that it is less than, unless there is one that it is not
told apart from. -/
def insertList (lt : α → α → Prop) [DecidableRel lt] (x : α) : List α → List α
  | [] => [x]
  | y :: ys => if lt x y then x :: y :: ys else if lt y x then y :: insertList lt x ys else y :: ys

theorem mem_insertList_subset {x y : α} {l : List α} (h : y ∈ insertList lt x l) :
    y = x ∨ y ∈ l := by
  induction l with
  | nil => exact Or.inl (List.mem_singleton.mp h)
  | cons z l ih =>
    rw [insertList] at h
    split at h
    · exact List.mem_cons.mp h
    · split at h
      · rcases List.mem_cons.mp h with rfl | h
        · exact Or.inr List.mem_cons_self
        · exact (ih h).imp_right (List.mem_cons_of_mem z)
      · exact Or.inr h

/-- An element greater than all goes to the end. -/
theorem insertList_append [IsStrictWeakOrder α lt] {x : α} {l : List α} (h : ∀ y ∈ l, lt y x) :
    insertList lt x l = l ++ [x] := by
  induction l with
  | nil => rfl
  | cons y l ih =>
    have hyx : lt y x := h y List.mem_cons_self
    rw [insertList, if_neg (asymm_of lt hyx), if_pos hyx,
      ih fun z hz => h z (List.mem_cons_of_mem y hz), List.cons_append]

theorem pairwise_insertList [IsStrictWeakOrder α lt] {x : α} {l : List α} (h : l.Pairwise lt) :
    (insertList lt x l).Pairwise lt := by
  induction l with
  | nil => exact List.pairwise_singleton lt x
  | cons y l ih =>
    obtain ⟨hy, hl⟩ := List.pairwise_cons.mp h
    rw [insertList]
    split
    · rename_i hxy
      refine List.pairwise_cons.mpr ⟨fun z hz => ?_, h⟩
      rcases List.mem_cons.mp hz with rfl | hz
      · exact hxy
      · exact trans_of lt hxy (hy z hz)
    · split
      · rename_i hyx
        refine List.pairwise_cons.mpr ⟨fun z hz => ?_, ih hl⟩
        rcases mem_insertList_subset hz with rfl | hz
        · exact hyx
        · exact hy z hz
      · exact h

/-! ## Merging -/

/-- What is in one of two lists. -/
def mergeUnion (lt : α → α → Prop) [DecidableRel lt] : List α → List α → List α
  | [], l₂ => l₂
  | l₁, [] => l₁
  | a :: l₁, b :: l₂ =>
    if lt b a then b :: mergeUnion lt (a :: l₁) l₂
    else if lt a b then a :: mergeUnion lt l₁ (b :: l₂)
    else a :: mergeUnion lt l₁ l₂
termination_by l₁ l₂ => l₁.length + l₂.length

/-- What is in the first list and not in the second. -/
def mergeDifference (lt : α → α → Prop) [DecidableRel lt] : List α → List α → List α
  | [], _ => []
  | l₁, [] => l₁
  | a :: l₁, b :: l₂ =>
    if lt a b then a :: mergeDifference lt l₁ (b :: l₂)
    else if lt b a then mergeDifference lt (a :: l₁) l₂
    else mergeDifference lt l₁ l₂
termination_by l₁ l₂ => l₁.length + l₂.length

/-- What is in both lists. -/
def mergeIntersection (lt : α → α → Prop) [DecidableRel lt] : List α → List α → List α
  | [], _ => []
  | _, [] => []
  | a :: l₁, b :: l₂ =>
    if lt a b then mergeIntersection lt l₁ (b :: l₂)
    else if lt b a then mergeIntersection lt (a :: l₁) l₂
    else a :: mergeIntersection lt l₁ l₂
termination_by l₁ l₂ => l₁.length + l₂.length

theorem mem_mergeUnion_subset {l₁ l₂ : List α} {x : α} (h : x ∈ mergeUnion lt l₁ l₂) :
    x ∈ l₁ ∨ x ∈ l₂ := by
  induction l₁, l₂ using mergeUnion.induct lt with
  | case1 l₂ =>
    rw [mergeUnion] at h
    exact Or.inr h
  | case2 l₁ hl₁ =>
    rw [mergeUnion] at h
    · exact Or.inl h
    · exact hl₁
  | case3 a l₁ b l₂ hba ih =>
    rw [mergeUnion, if_pos hba, List.mem_cons] at h
    rcases h with rfl | h
    · exact Or.inr List.mem_cons_self
    · exact (ih h).imp_right (List.mem_cons_of_mem b)
  | case4 a l₁ b l₂ hba hab ih =>
    rw [mergeUnion, if_neg hba, if_pos hab, List.mem_cons] at h
    rcases h with rfl | h
    · exact Or.inl List.mem_cons_self
    · exact (ih h).imp_left (List.mem_cons_of_mem a)
  | case5 a l₁ b l₂ hba hab ih =>
    rw [mergeUnion, if_neg hba, if_neg hab, List.mem_cons] at h
    rcases h with rfl | h
    · exact Or.inl List.mem_cons_self
    · exact (ih h).imp (List.mem_cons_of_mem a) (List.mem_cons_of_mem b)

/-- **What comes out of `mergeUnion`**: the first list, and of the second one the elements that are
told apart from all of the first. -/
theorem mem_mergeUnion [IsStrictWeakOrder α lt] {l₁ l₂ : List α} (h₁ : l₁.Pairwise lt)
    (h₂ : l₂.Pairwise lt) (x : α) :
    x ∈ mergeUnion lt l₁ l₂ ↔ x ∈ l₁ ∨ x ∈ l₂ ∧ ∀ y ∈ l₁, ¬ Same lt x y := by
  induction l₁, l₂ using mergeUnion.induct lt with
  | case1 l₂ =>
    rw [mergeUnion]
    simp
  | case2 l₁ hl₁ =>
    rw [mergeUnion]
    · simp
    · exact hl₁
  | case3 a l₁ b l₂ hba ih =>
    rw [mergeUnion, if_pos hba, List.mem_cons, ih h₁ h₂.of_cons]
    have hb : ∀ y ∈ a :: l₁, ¬ Same lt b y := fun y hy =>
      not_same_of_lt (lt_of_lt_head hba h₁ hy)
    constructor
    · rintro (rfl | hx | ⟨hx, hne⟩)
      · exact Or.inr ⟨List.mem_cons_self, hb⟩
      · exact Or.inl hx
      · exact Or.inr ⟨List.mem_cons_of_mem b hx, hne⟩
    · rintro (hx | ⟨hx, hne⟩)
      · exact Or.inr (Or.inl hx)
      · exact (List.mem_cons.mp hx).imp_right fun hx => Or.inr ⟨hx, hne⟩
  | case4 a l₁ b l₂ hba hab ih =>
    rw [mergeUnion, if_neg hba, if_pos hab, List.mem_cons, ih h₁.of_cons h₂,
      List.mem_cons (a := x) (b := a), or_assoc]
    refine or_congr_right (or_congr_right (and_congr_right fun hx => ?_))
    have hax : ¬ Same lt x a := fun hsame => not_same_of_lt (lt_of_lt_head hab h₂ hx) hsame.symm
    rw [List.forall_mem_cons]
    exact (and_iff_right hax).symm
  | case5 a l₁ b l₂ hba hab ih =>
    rw [mergeUnion, if_neg hba, if_neg hab, List.mem_cons, ih h₁.of_cons h₂.of_cons, List.mem_cons,
      or_assoc]
    refine or_congr_right (or_congr_right ?_)
    have hsame : Same lt a b := ⟨hab, hba⟩
    rw [List.forall_mem_cons, List.mem_cons]
    constructor
    · rintro ⟨hx, hne⟩
      have hax : lt a x := lt_of_same_of_lt hsame ((List.pairwise_cons.mp h₂).1 x hx)
      exact ⟨Or.inr hx, fun h => not_same_of_lt hax h.symm, hne⟩
    · rintro ⟨rfl | hx, hxa, hne⟩
      · exact absurd hsame.symm hxa
      · exact ⟨hx, hne⟩

/-- The merged list is in order. -/
theorem pairwise_mergeUnion [IsStrictWeakOrder α lt] {l₁ l₂ : List α} (h₁ : l₁.Pairwise lt)
    (h₂ : l₂.Pairwise lt) : (mergeUnion lt l₁ l₂).Pairwise lt := by
  induction l₁, l₂ using mergeUnion.induct lt with
  | case1 l₂ =>
    rw [mergeUnion]
    exact h₂
  | case2 l₁ hl₁ =>
    rw [mergeUnion]
    · exact h₁
    · exact hl₁
  | case3 a l₁ b l₂ hba ih =>
    rw [mergeUnion, if_pos hba]
    refine List.pairwise_cons.mpr ⟨fun x hx => ?_, ih h₁ h₂.of_cons⟩
    exact (mem_mergeUnion_subset hx).elim (lt_of_lt_head hba h₁) ((List.pairwise_cons.mp h₂).1 x)
  | case4 a l₁ b l₂ hba hab ih =>
    rw [mergeUnion, if_neg hba, if_pos hab]
    refine List.pairwise_cons.mpr ⟨fun x hx => ?_, ih h₁.of_cons h₂⟩
    exact (mem_mergeUnion_subset hx).elim ((List.pairwise_cons.mp h₁).1 x) (lt_of_lt_head hab h₂)
  | case5 a l₁ b l₂ hba hab ih =>
    rw [mergeUnion, if_neg hba, if_neg hab]
    refine List.pairwise_cons.mpr ⟨fun x hx => ?_, ih h₁.of_cons h₂.of_cons⟩
    exact (mem_mergeUnion_subset hx).elim ((List.pairwise_cons.mp h₁).1 x) fun hx =>
      lt_of_same_of_lt ⟨hab, hba⟩ ((List.pairwise_cons.mp h₂).1 x hx)

theorem mergeDifference_sublist (l₁ l₂ : List α) : (mergeDifference lt l₁ l₂).Sublist l₁ := by
  induction l₁, l₂ using mergeDifference.induct lt with
  | case1 l₂ =>
    rw [mergeDifference]
  | case2 l₁ hl₁ =>
    rw [mergeDifference]
    exact hl₁
  | case3 a l₁ b l₂ hab ih =>
    rw [mergeDifference, if_pos hab]
    exact ih.cons_cons a
  | case4 a l₁ b l₂ hab hba ih =>
    rw [mergeDifference, if_neg hab, if_pos hba]
    exact ih
  | case5 a l₁ b l₂ hab hba ih =>
    rw [mergeDifference, if_neg hab, if_neg hba]
    exact ih.cons a

/-- **What comes out of `mergeDifference`**: the elements of the first list that are told apart from
all of the second. -/
theorem mem_mergeDifference [IsStrictWeakOrder α lt] {l₁ l₂ : List α} (h₁ : l₁.Pairwise lt)
    (h₂ : l₂.Pairwise lt) (x : α) :
    x ∈ mergeDifference lt l₁ l₂ ↔ x ∈ l₁ ∧ ∀ y ∈ l₂, ¬ Same lt x y := by
  induction l₁, l₂ using mergeDifference.induct lt with
  | case1 l₂ =>
    rw [mergeDifference]
    simp
  | case2 l₁ hl₁ =>
    rw [mergeDifference]
    · simp
    · exact hl₁
  | case3 a l₁ b l₂ hab ih =>
    rw [mergeDifference, if_pos hab, List.mem_cons, ih h₁.of_cons h₂, List.mem_cons, or_and_right]
    refine or_congr_left (iff_self_and.mpr ?_)
    rintro rfl y hy
    exact not_same_of_lt (lt_of_lt_head hab h₂ hy)
  | case4 a l₁ b l₂ hab hba ih =>
    rw [mergeDifference, if_neg hab, if_pos hba, ih h₁ h₂.of_cons]
    refine and_congr_right fun hx => ?_
    have hbx : ¬ Same lt x b := fun hsame => not_same_of_lt (lt_of_lt_head hba h₁ hx) hsame.symm
    rw [List.forall_mem_cons]
    exact (and_iff_right hbx).symm
  | case5 a l₁ b l₂ hab hba ih =>
    rw [mergeDifference, if_neg hab, if_neg hba, ih h₁.of_cons h₂.of_cons, List.mem_cons,
      List.forall_mem_cons]
    have hsame : Same lt a b := ⟨hab, hba⟩
    constructor
    · rintro ⟨hx, hne⟩
      have hbx : lt b x := lt_of_same_of_lt hsame.symm ((List.pairwise_cons.mp h₁).1 x hx)
      exact ⟨Or.inr hx, fun h => not_same_of_lt hbx h.symm, hne⟩
    · rintro ⟨rfl | hx, hxb, hne⟩
      · exact absurd hsame hxb
      · exact ⟨hx, hne⟩

theorem mergeIntersection_sublist (l₁ l₂ : List α) : (mergeIntersection lt l₁ l₂).Sublist l₁ := by
  induction l₁, l₂ using mergeIntersection.induct lt with
  | case1 l₂ =>
    rw [mergeIntersection]
  | case2 l₁ hl₁ =>
    rw [mergeIntersection]
    · exact List.nil_sublist l₁
    · exact hl₁
  | case3 a l₁ b l₂ hab ih =>
    rw [mergeIntersection, if_pos hab]
    exact ih.cons a
  | case4 a l₁ b l₂ hab hba ih =>
    rw [mergeIntersection, if_neg hab, if_pos hba]
    exact ih
  | case5 a l₁ b l₂ hab hba ih =>
    rw [mergeIntersection, if_neg hab, if_neg hba]
    exact ih.cons_cons a

/-- **What comes out of `mergeIntersection`**: the elements of the first list that are not told
apart from one of the second. -/
theorem mem_mergeIntersection [IsStrictWeakOrder α lt] {l₁ l₂ : List α} (h₁ : l₁.Pairwise lt)
    (h₂ : l₂.Pairwise lt) (x : α) :
    x ∈ mergeIntersection lt l₁ l₂ ↔ x ∈ l₁ ∧ ∃ y ∈ l₂, Same lt x y := by
  induction l₁, l₂ using mergeIntersection.induct lt with
  | case1 l₂ =>
    rw [mergeIntersection]
    simp
  | case2 l₁ hl₁ =>
    rw [mergeIntersection]
    · simp
    · exact hl₁
  | case3 a l₁ b l₂ hab ih =>
    rw [mergeIntersection, if_pos hab, ih h₁.of_cons h₂]
    constructor
    · rintro ⟨hx, hy⟩
      exact ⟨List.mem_cons_of_mem a hx, hy⟩
    · rintro ⟨hx, y, hy, hsame⟩
      refine ⟨(List.mem_cons.mp hx).resolve_left ?_, y, hy, hsame⟩
      rintro rfl
      exact not_same_of_lt (lt_of_lt_head hab h₂ hy) hsame
  | case4 a l₁ b l₂ hab hba ih =>
    rw [mergeIntersection, if_neg hab, if_pos hba, ih h₁ h₂.of_cons]
    refine and_congr_right fun hx => ?_
    have hbx : ¬ Same lt x b := fun hsame => not_same_of_lt (lt_of_lt_head hba h₁ hx) hsame.symm
    simp only [List.mem_cons, exists_eq_or_imp, hbx, false_or]
  | case5 a l₁ b l₂ hab hba ih =>
    rw [mergeIntersection, if_neg hab, if_neg hba, List.mem_cons, ih h₁.of_cons h₂.of_cons]
    have hsame : Same lt a b := ⟨hab, hba⟩
    constructor
    · rintro (rfl | ⟨hx, y, hy, hxy⟩)
      · exact ⟨List.mem_cons_self, b, List.mem_cons_self, hsame⟩
      · exact ⟨List.mem_cons_of_mem a hx, y, List.mem_cons_of_mem b hy, hxy⟩
    · rintro ⟨hx, y, hy, hxy⟩
      refine (List.mem_cons.mp hx).imp_right fun hx => ?_
      have hbx : lt b x := lt_of_same_of_lt hsame.symm ((List.pairwise_cons.mp h₁).1 x hx)
      refine ⟨hx, y, (List.mem_cons.mp hy).resolve_left ?_, hxy⟩
      rintro rfl
      exact not_same_of_lt hbx hxy.symm

/-- The two lists, less what is counted twice. -/
theorem length_mergeUnion [IsStrictWeakOrder α lt] (l₁ l₂ : List α) :
    (mergeUnion lt l₁ l₂).length + (mergeIntersection lt l₁ l₂).length =
      l₁.length + l₂.length := by
  induction l₁, l₂ using mergeUnion.induct lt with
  | case1 l₂ =>
    rw [mergeUnion, mergeIntersection, List.length_nil]
    omega
  | case2 l₁ hl₁ =>
    rw [mergeUnion, mergeIntersection]
    · exact hl₁
    · exact hl₁
  | case3 a l₁ b l₂ hba ih =>
    have hab : ¬ lt a b := asymm_of lt hba
    rw [mergeUnion, if_pos hba, mergeIntersection, if_neg hab, if_pos hba]
    simp only [List.length_cons] at ih ⊢
    omega
  | case4 a l₁ b l₂ hba hab ih =>
    rw [mergeUnion, if_neg hba, if_pos hab, mergeIntersection, if_pos hab]
    simp only [List.length_cons] at ih ⊢
    omega
  | case5 a l₁ b l₂ hba hab ih =>
    rw [mergeUnion, if_neg hba, if_neg hab, mergeIntersection, if_neg hab, if_neg hba]
    simp only [List.length_cons] at ih ⊢
    omega

/-- The first list falls into what is not in the second and what is. -/
theorem length_mergeDifference (l₁ l₂ : List α) :
    (mergeDifference lt l₁ l₂).length + (mergeIntersection lt l₁ l₂).length = l₁.length := by
  induction l₁, l₂ using mergeDifference.induct lt with
  | case1 l₂ =>
    rw [mergeDifference, mergeIntersection]
    rfl
  | case2 l₁ hl₁ =>
    rw [mergeDifference, mergeIntersection]
    · rfl
    · exact hl₁
    · exact hl₁
  | case3 a l₁ b l₂ hab ih =>
    rw [mergeDifference, if_pos hab, mergeIntersection, if_pos hab]
    simp only [List.length_cons] at ih ⊢
    omega
  | case4 a l₁ b l₂ hab hba ih =>
    rw [mergeDifference, if_neg hab, if_pos hba, mergeIntersection, if_neg hab, if_pos hba]
    exact ih
  | case5 a l₁ b l₂ hab hba ih =>
    rw [mergeDifference, if_neg hab, if_neg hba, mergeIntersection, if_neg hab, if_neg hba]
    simp only [List.length_cons] at ih ⊢
    omega

/-! ## Sets -/

/-- A set over a comparison. -/
structure OrdSet (α : Type*) (lt : α → α → Prop) where
  items : List α
  sorted : items.Pairwise lt

namespace OrdSet

/-- The empty set. -/
def empty : OrdSet α lt := ⟨[], List.Pairwise.nil⟩

/-- One of the elements is not told apart from `x`. -/
def Contains (s : OrdSet α lt) (x : α) : Prop := ∃ y ∈ s.items, Same lt x y

omit [DecidableRel lt] in
theorem not_contains_iff (s : OrdSet α lt) (x : α) :
    ¬ s.Contains x ↔ ∀ y ∈ s.items, ¬ Same lt x y := by
  simp only [Contains, not_exists, not_and]

omit [DecidableRel lt] in
theorem contains_of_mem [IsStrictWeakOrder α lt] {s : OrdSet α lt} {x : α} (h : x ∈ s.items) :
    s.Contains x :=
  ⟨x, h, Same.refl x⟩

omit [DecidableRel lt] in
/-- A set holds one of elements that are not told apart. -/
theorem eq_of_same {s : OrdSet α lt} {x y : α} (hx : x ∈ s.items) (hy : y ∈ s.items)
    (h : Same lt x y) : x = y := by
  refine List.Pairwise.forall_of_forall_of_flip (R := fun a b => Same lt a b → a = b) ?_ ?_ ?_
    hx hy h
  · exact fun _ _ _ => rfl
  · exact s.sorted.imp fun hab hsame => absurd hsame (not_same_of_lt hab)
  · exact s.sorted.imp fun hab hsame => absurd hsame.symm (not_same_of_lt hab)

omit [DecidableRel lt] in
/-- Sets with the same elements are equal. -/
theorem ext_mem [IsStrictWeakOrder α lt] {s t : OrdSet α lt} (h : ∀ x, x ∈ s.items ↔ x ∈ t.items) :
    s = t := by
  obtain ⟨l, hl⟩ := s
  obtain ⟨l', hl'⟩ := t
  obtain rfl : l = l' := hl.eq_of_mem_iff hl' h
  rfl

/-- `insert`. -/
def insert [IsStrictWeakOrder α lt] (s : OrdSet α lt) (x : α) : OrdSet α lt :=
  ⟨insertList lt x s.items, pairwise_insertList s.sorted⟩

/-- Inserting the elements of a list, one by one. -/
def insertAll [IsStrictWeakOrder α lt] (s : OrdSet α lt) (l : List α) : OrdSet α lt :=
  l.foldl insert s

theorem items_insertAll [IsStrictWeakOrder α lt] {s : OrdSet α lt} {l : List α}
    (h : (s.items ++ l).Pairwise lt) : (s.insertAll l).items = s.items ++ l := by
  induction l generalizing s with
  | nil => exact (List.append_nil _).symm
  | cons x l ih =>
    have hlast : (s.insert x).items = s.items ++ [x] :=
      insertList_append fun y hy =>
        (List.pairwise_append.mp h).2.2 y hy x List.mem_cons_self
    have hstep := ih (s := s.insert x) (by rwa [hlast, List.append_assoc])
    rw [hlast, List.append_assoc] at hstep
    exact hstep

/-- **Inserting elements that are in order**, one by one, gives the set of them. -/
theorem insertAll_empty [IsStrictWeakOrder α lt] {l : List α} (h : l.Pairwise lt) :
    (empty.insertAll l : OrdSet α lt) = ⟨l, h⟩ := by
  have hitems : (empty.insertAll l : OrdSet α lt).items = l := items_insertAll h
  refine ext_mem fun x => ?_
  rw [hitems]

end OrdSet

end OrderedSet
