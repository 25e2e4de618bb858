import LeonUtils.OrderedSet
import LeonUtils.SetOps

/-!
# Union, difference and intersection

`union_set`, `diffr_set` and `intersect` merge the elements of two sets and insert what comes out
into a third one. The algorithms of the standard library compare by `operator<`, so the sets have to
be in that order, as they are by default.

`operator<` may be any strict weak order: elements of which neither is less are the same to a set,
though they need not be equal. Where two sets hold different elements that are the same, the result
has that of the first set.

## Main definitions

* `unionSet`, `diffrSet`, `intersect` — the functions
* `elements` — a set of strings as it is cut out of a text

## Main results

* `algebra` — what is in the results, and how they go together
* `split2set_append` — cutting two texts with a delimiter between them
* `split2set_union` — two sets written one after the other are read as their union
-/

namespace LeonUtils

namespace SetOps

open OrderedSet

/-! ## The functions -/

section Functions

variable {K : Type*} {lt : K → K → Prop} [DecidableRel lt] [IsStrictWeakOrder K lt]

def unionSet (s0 s1 : OrdSet K lt) : OrdSet K lt :=
  OrdSet.empty.insertAll (mergeUnion lt s0.items s1.items)

def diffrSet (s0 s1 : OrdSet K lt) : OrdSet K lt :=
  OrdSet.empty.insertAll (mergeDifference lt s0.items s1.items)

def intersect (s0 s1 : OrdSet K lt) : OrdSet K lt :=
  OrdSet.empty.insertAll (mergeIntersection lt s0.items s1.items)

variable (s0 s1 s2 : OrdSet K lt)

theorem items_unionSet : (unionSet s0 s1).items = mergeUnion lt s0.items s1.items := by
  rw [unionSet, OrdSet.insertAll_empty (pairwise_mergeUnion s0.sorted s1.sorted)]

theorem items_diffrSet : (diffrSet s0 s1).items = mergeDifference lt s0.items s1.items := by
  rw [diffrSet, OrdSet.insertAll_empty (s0.sorted.sublist (mergeDifference_sublist _ _))]

theorem items_intersect : (intersect s0 s1).items = mergeIntersection lt s0.items s1.items := by
  rw [intersect, OrdSet.insertAll_empty (s0.sorted.sublist (mergeIntersection_sublist _ _))]

/-! ## What is in the results -/

variable {s0 s1 s2}

theorem mem_unionSet (x : K) :
    x ∈ (unionSet s0 s1).items ↔ x ∈ s0.items ∨ x ∈ s1.items ∧ ¬ s0.Contains x := by
  rw [items_unionSet, mem_mergeUnion s0.sorted s1.sorted, OrdSet.not_contains_iff]

theorem mem_diffrSet (x : K) :
    x ∈ (diffrSet s0 s1).items ↔ x ∈ s0.items ∧ ¬ s1.Contains x := by
  rw [items_diffrSet, mem_mergeDifference s0.sorted s1.sorted, OrdSet.not_contains_iff]

theorem mem_intersect (x : K) :
    x ∈ (intersect s0 s1).items ↔ x ∈ s0.items ∧ s1.Contains x := by
  rw [items_intersect, mem_mergeIntersection s0.sorted s1.sorted, OrdSet.Contains]

/-- An element is the same as one of the union just if it is the same as one of either set. -/
theorem contains_unionSet (x : K) :
    (unionSet s0 s1).Contains x ↔ s0.Contains x ∨ s1.Contains x := by
  constructor
  · rintro ⟨y, hy, hsame⟩
    rcases (mem_unionSet y).mp hy with hy | ⟨hy, -⟩
    · exact Or.inl ⟨y, hy, hsame⟩
    · exact Or.inr ⟨y, hy, hsame⟩
  · rintro (⟨y, hy, hsame⟩ | ⟨y, hy, hsame⟩)
    · exact ⟨y, (mem_unionSet y).mpr (Or.inl hy), hsame⟩
    · by_cases hcontains : s0.Contains y
      · obtain ⟨z, hz, hyz⟩ := hcontains
        exact ⟨z, (mem_unionSet z).mpr (Or.inl hz), hsame.trans hyz⟩
      · exact ⟨y, (mem_unionSet y).mpr (Or.inr ⟨hy, hcontains⟩), hsame⟩

/-- What is in the first set and in the second, and what is in the first and not in the second. -/
theorem unionSet_diffrSet_intersect : unionSet (diffrSet s0 s1) (intersect s0 s1) = s0 := by
  refine OrdSet.ext_mem fun x => ?_
  rw [mem_unionSet, mem_diffrSet, mem_intersect]
  constructor
  · rintro (⟨hx, -⟩ | ⟨⟨hx, -⟩, -⟩)
    · exact hx
    · exact hx
  · intro hx
    by_cases hcontains : s1.Contains x
    · refine Or.inr ⟨⟨hx, hcontains⟩, ?_⟩
      rintro ⟨y, hy, hsame⟩
      obtain ⟨hy, hnot⟩ := (mem_diffrSet y).mp hy
      exact hnot (OrdSet.eq_of_same hx hy hsame ▸ hcontains)
    · exact Or.inl ⟨hx, hcontains⟩

/-- What the second set adds to the first. -/
theorem unionSet_diffrSet : unionSet s0 (diffrSet s1 s0) = unionSet s0 s1 := by
  refine OrdSet.ext_mem fun x => ?_
  rw [mem_unionSet, mem_unionSet, mem_diffrSet, and_assoc, and_self_iff]

theorem unionSet_assoc : unionSet (unionSet s0 s1) s2 = unionSet s0 (unionSet s1 s2) := by
  refine OrdSet.ext_mem fun x => ?_
  simp only [mem_unionSet, contains_unionSet, not_or]
  tauto

/-- Taking away a union is taking away one set after the other. -/
theorem diffrSet_unionSet : diffrSet s0 (unionSet s1 s2) = diffrSet (diffrSet s0 s1) s2 := by
  refine OrdSet.ext_mem fun x => ?_
  simp only [mem_diffrSet, contains_unionSet, not_or, and_assoc]

/-- **The algebra of sets.** For any sets over any strict weak order, the elements of the results
are these, and the results go together like this. -/
theorem algebra (s0 s1 s2 : OrdSet K lt) :
    (∀ x, (x ∈ (unionSet s0 s1).items ↔ x ∈ s0.items ∨ x ∈ s1.items ∧ ¬ s0.Contains x) ∧
      (x ∈ (diffrSet s0 s1).items ↔ x ∈ s0.items ∧ ¬ s1.Contains x) ∧
      (x ∈ (intersect s0 s1).items ↔ x ∈ s0.items ∧ s1.Contains x)) ∧
    unionSet (diffrSet s0 s1) (intersect s0 s1) = s0 ∧
    unionSet s0 (diffrSet s1 s0) = unionSet s0 s1 ∧
    unionSet (unionSet s0 s1) s2 = unionSet s0 (unionSet s1 s2) ∧
    diffrSet s0 (unionSet s1 s2) = diffrSet (diffrSet s0 s1) s2 ∧
    (unionSet s0 s1).items.length + (intersect s0 s1).items.length =
      s0.items.length + s1.items.length ∧
    (diffrSet s0 s1).items.length + (intersect s0 s1).items.length = s0.items.length := by
  refine ⟨fun x => ⟨mem_unionSet x, mem_diffrSet x, mem_intersect x⟩, unionSet_diffrSet_intersect,
    unionSet_diffrSet, unionSet_assoc, diffrSet_unionSet, ?_, ?_⟩
  · rw [items_unionSet, items_intersect, length_mergeUnion]
  · rw [items_diffrSet, items_intersect, length_mergeDifference]

end Functions

/-- The two sets of the tests. -/
def oneToFour : OrdSet ℕ (· < ·) := ⟨[1, 2, 3, 4], by decide⟩

def fourToSeven : OrdSet ℕ (· < ·) := ⟨[4, 5, 6, 7], by decide⟩

theorem algebra_oneToFour :
    unionSet (diffrSet oneToFour fourToSeven) (intersect oneToFour fourToSeven) = oneToFour :=
  (algebra oneToFour fourToSeven oneToFour).2.1

/-! ## Sets in texts -/

/-- A set of strings as it is cut out of a text. -/
def elements (s : OrdSet Str (· < ·)) : Finset Str := s.items.toFinset

theorem mem_elements {s : OrdSet Str (· < ·)} {x : Str} : x ∈ elements s ↔ x ∈ s.items :=
  List.mem_toFinset

/-- Strings that are the same are equal. -/
theorem contains_iff_mem (s : OrdSet Str (· < ·)) (x : Str) : s.Contains x ↔ x ∈ s.items := by
  refine ⟨?_, OrdSet.contains_of_mem⟩
  rintro ⟨y, hy, hxy, hyx⟩
  exact le_antisymm (not_lt.mp hyx) (not_lt.mp hxy) ▸ hy

theorem elements_unionSet (s0 s1 : OrdSet Str (· < ·)) :
    elements (unionSet s0 s1) = elements s0 ∪ elements s1 := by
  ext x
  rw [Finset.mem_union, mem_elements, mem_elements, mem_elements, mem_unionSet, contains_iff_mem]
  tauto

/-- **Cutting two texts with a delimiter between them**: the first one is cut as if all of its
pieces were to be stripped. -/
theorem split2set_append (d : Char) (x y : Str) :
    split2set (x ++ d :: y) d = pieces d x ∪ split2set y d := by
  have hfirst : firstPieces d (x ++ d :: y) = x.splitOn d ++ firstPieces d y := by
    rw [firstPieces, List.splitOn_append_cons_self,
      List.dropLast_append_of_ne_nil (List.splitOn_ne_nil d y), firstPieces]
  have hlast : lastPiece d (x ++ d :: y) = lastPiece d y := by
    simp only [lastPiece, List.splitOn_append_cons_self]
    exact List.getLast_append_of_ne_nil _ (List.splitOn_ne_nil d y)
  rw [split2set_eq, split2set_eq, hfirst, hlast, pieces, ← Finset.erase_union_distrib,
    List.map_append, List.toFinset_append, Finset.union_insert]

/-- The strings of a set that was written are the pieces of the text. -/
theorem pieces_toStr (d : Char) (S : Finset Str) (h : ∀ s ∈ S, s ≠ [] ∧ d ∉ s ∧ Neat s) :
    pieces d (toStr id d S) = S := by
  have hneat : Neat (lastPiece d (toStr id d S)) := by
    by_cases hnil : lastPiece d (toStr id d S) = []
    · rw [hnil]
      decide
    · have hmem : lastPiece d (toStr id d S) ∈ split2set (toStr id d S) d := by
        rw [split2set_eq]
        exact Finset.mem_erase.mpr ⟨hnil, Finset.mem_insert_self _ _⟩
      rw [split2set_toStr d S h] at hmem
      exact (h _ hmem).2.2
  rw [← (split2set_pieces_iff _ d).mpr hneat, split2set_toStr d S h]

/-- **Two sets written one after the other are read as their union**, if none of their strings is
empty, contains the delimiter, or begins or ends with a blank. -/
theorem split2set_union (d : Char) (s0 s1 : OrdSet Str (· < ·))
    (h : ∀ s, s ∈ s0.items ∨ s ∈ s1.items → s ≠ [] ∧ d ∉ s ∧ Neat s) :
    split2set (toStr id d (elements s0) ++ d :: toStr id d (elements s1)) d =
      elements (unionSet s0 s1) := by
  have h0 : ∀ s ∈ elements s0, s ≠ [] ∧ d ∉ s ∧ Neat s := fun s hs =>
    h s (Or.inl (mem_elements.mp hs))
  have h1 : ∀ s ∈ elements s1, s ≠ [] ∧ d ∉ s ∧ Neat s := fun s hs =>
    h s (Or.inr (mem_elements.mp hs))
  rw [split2set_append, pieces_toStr d _ h0, split2set_toStr d _ h1, elements_unionSet]

/-- `"ab"`, and `"b c"`. -/
def oneWord : OrdSet Str (· < ·) := ⟨["ab".toList], by decide⟩

def twoWords : OrdSet Str (· < ·) := ⟨["ab".toList, "b c".toList], by decide⟩

theorem split2set_union_words :
    split2set (toStr id ',' (elements oneWord) ++ ',' :: toStr id ',' (elements twoWords)) ',' =
      elements (unionSet oneWord twoWords) := by
  have hneat : ∀ s ∈ oneWord.items ++ twoWords.items, s ≠ [] ∧ ',' ∉ s ∧ Neat s := by decide
  exact split2set_union ',' oneWord twoWords fun s hs => hneat s (List.mem_append.mpr hs)

end SetOps

end LeonUtils
