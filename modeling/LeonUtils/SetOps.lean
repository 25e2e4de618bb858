import LeonUtils.Text.Format
import Mathlib.Data.Char
import Mathlib.Data.Finset.Sort
import Mathlib.Data.List.DropRight
import Mathlib.Data.List.Lex

/-!
# Sets as text

`split2set` cuts a string at a delimiter and makes a set of the pieces, and `to_str` writes the
elements of a set one after the other with a delimiter between them. A `std::set` is a finite set;
what goes through it does so in ascending order, which for strings is the lexicographic one.

A piece that ends in a delimiter is stripped of blanks by `split2set` before it is inserted. What is
left behind the last delimiter is inserted as it is.

## Main definitions

* `trim`, `split2set`, `toStr` — the functions
* `strip`, `pieces` — what the result is meant to be
* `lastPiece`, `Neat` — what is behind the last delimiter, and strings without blanks at their ends

## Main results

* `split2set_eq` — the set that comes out
* `split2set_pieces_iff` — it is the set of the stripped pieces just if the last piece needs no
  stripping
* `split2set_toStr` — a set of neat strings that was written is read back
-/

namespace LeonUtils

namespace SetOps

/-! ## Stripping blanks -/

/-- `find_first_not_of`. -/
def findFirstNotOf (s : Str) (c : Char) : Option ℕ := s.findIdx? (· != c)

/-- `find_last_not_of`. -/
def findLastNotOf (s : Str) (c : Char) : Option ℕ :=
  (s.reverse.findIdx? (· != c)).map (s.length - 1 - ·)

def trimL (src : Str) : Str :=
  match findFirstNotOf src ' ' with
  | none => []
  | some pos => src.drop pos

def trimR (src : Str) : Str :=
  match findLastNotOf src ' ' with
  | none => []
  | some pos => src.take (pos + 1)

def trim (src : Str) : Str := trimL (trimR src)

/-- A string without the blanks at its beginning and at its end. -/
def strip (s : Str) : Str := (s.rdropWhile (· == ' ')).dropWhile (· == ' ')

/-- A string that neither begins nor ends with a blank. -/
def Neat (s : Str) : Prop := s.head? ≠ some ' ' ∧ s.getLast? ≠ some ' '

instance (s : Str) : Decidable (Neat s) := inferInstanceAs (Decidable (_ ∧ _))

theorem trimL_eq (s : Str) : trimL s = s.dropWhile (· == ' ') := by
  induction s with
  | nil => rfl
  | cons c s ih =>
    rw [trimL, findFirstNotOf] at ih ⊢
    rw [List.findIdx?_cons, List.dropWhile_cons]
    by_cases hc : c = ' '
    · subst hc
      simp only [bne_self_eq_false, Bool.false_eq_true, if_false, beq_self_eq_true, if_true]
      rw [← ih]
      cases List.findIdx? (fun x => x != ' ') s <;> rfl
    · simp only [bne_iff_ne, ne_eq, hc, not_false_eq_true, if_true, beq_iff_eq, if_false]
      rfl

/-- The end of a string is the beginning of the reversed one. -/
theorem trimR_eq_reverse (s : Str) : trimR s = (trimL s.reverse).reverse := by
  rw [trimR, trimL, findLastNotOf, findFirstNotOf]
  cases hfind : List.findIdx? (fun x => x != ' ') s.reverse with
  | none => rfl
  | some k =>
    obtain ⟨hk, -⟩ := List.findIdx?_eq_some_iff_getElem.mp hfind
    rw [List.length_reverse] at hk
    have hlen : s.length - 1 - k + 1 = s.length - k := by omega
    simp only [Option.map_some, hlen, List.drop_reverse, List.reverse_reverse]

theorem trim_eq (s : Str) : trim s = strip s := by
  rw [trim, trimL_eq, trimR_eq_reverse, trimL_eq]
  rfl

theorem neat_strip (s : Str) : Neat (strip s) := by
  constructor
  · intro hhead
    have hfirst := List.head?_dropWhile_not (· == ' ') (s.rdropWhile (· == ' '))
    rw [show (s.rdropWhile (· == ' ')).dropWhile (· == ' ') = strip s from rfl, hhead] at hfirst
    cases hfirst
  · intro hlast
    have hsplit := @List.takeWhile_append_dropWhile _ (· == ' ') (s.rdropWhile (· == ' '))
    rw [show (s.rdropWhile (· == ' ')).dropWhile (· == ' ') = strip s from rfl] at hsplit
    have hrest : (s.rdropWhile (· == ' ')).getLast? = some ' ' := by
      rw [← hsplit, List.getLast?_append, hlast]
      rfl
    have hblank := List.getLast_of_getLast?_eq_some hrest
    exact List.rdropWhile_last_not (· == ' ') s _ (beq_iff_eq.mpr hblank)

/-- Stripping changes exactly the strings with a blank at one of their ends. -/
theorem strip_eq_self_iff (s : Str) : strip s = s ↔ Neat s := by
  refine ⟨fun h => h ▸ neat_strip s, fun ⟨hhead, hlast⟩ => ?_⟩
  have hright : s.rdropWhile (· == ' ') = s := by
    refine List.rdropWhile_eq_self_iff.mpr fun hne hblank => hlast ?_
    rw [List.getLast?_eq_some_getLast hne, beq_iff_eq.mp hblank]
  rw [strip, hright, List.dropWhile_eq_self_iff]
  intro hpos hblank
  rw [List.head?_eq_getElem?, List.getElem?_eq_getElem hpos] at hhead
  exact hhead (congrArg some (beq_iff_eq.mp hblank))

/-! ## Cutting a string -/

/-- `find`: where a character is, from a position on. -/
def find (src : Str) (c : Char) (pos : ℕ) : Option ℕ :=
  ((src.drop pos).findIdx? (· == c)).map (pos + ·)

/-- `substr`, for a position in the string. -/
def substr (src : Str) (pos len : ℕ) : Str := (src.drop pos).take len

theorem find_some {src : Str} {d : Char} {pos e : ℕ} (h : find src d pos = some e) :
    src.drop pos = substr src pos (e - pos) ++ d :: src.drop (e + 1) ∧
      d ∉ substr src pos (e - pos) := by
  obtain ⟨k, hk, rfl⟩ := Option.map_eq_some_iff.mp h
  obtain ⟨hlt, hd, hbefore⟩ := List.findIdx?_eq_some_iff_getElem.mp hk
  have hd := beq_iff_eq.mp hd
  rw [substr, Nat.add_sub_cancel_left, Nat.add_assoc, ← List.drop_drop, ← hd]
  constructor
  · rw [List.getElem_cons_drop, List.take_append_drop]
  · intro hmem
    obtain ⟨j, hj, hjd⟩ := List.mem_take_iff_getElem.mp hmem
    exact hbefore j (lt_min_iff.mp hj).1 (beq_iff_eq.mpr (hjd.trans hd))

theorem find_lt {src : Str} {d : Char} {pos e : ℕ} (h : find src d pos = some e) :
    pos ≤ e ∧ e < src.length := by
  obtain ⟨k, hk, rfl⟩ := Option.map_eq_some_iff.mp h
  obtain ⟨hlt, -⟩ := List.findIdx?_eq_some_iff_getElem.mp hk
  rw [List.length_drop] at hlt
  omega

theorem find_none {src : Str} {d : Char} {pos : ℕ} (h : find src d pos = none) :
    d ∉ src.drop pos := by
  intro hmem
  have hall := List.findIdx?_eq_none_iff.mp (Option.map_eq_none_iff.mp h)
  have hd := hall d hmem
  rw [beq_self_eq_true] at hd
  cases hd

/-- The loop of `split2set`: the set so far, and where the last piece begins. -/
def splitLoop (src : Str) (d : Char) (pos : ℕ) (result : Finset Str) : Finset Str × ℕ :=
  match h : find src d pos with
  | none => (result, pos)
  | some e =>
    let piece := trim (substr src pos (e - pos))
    splitLoop src d (e + 1) (if piece ≠ [] then insert piece result else result)
termination_by src.length - pos
decreasing_by
  have hlt := find_lt h
  omega

/-- `split2set<str_t>`. -/
def split2set (src : Str) (d : Char) : Finset Str :=
  if src = [] then ∅
  else
    let (result, pos) := splitLoop src d 0 ∅
    let piece := src.drop pos
    if piece ≠ [] then insert piece result else result

/-! ## What comes out -/

/-- The pieces that end in a delimiter. -/
def firstPieces (d : Char) (s : Str) : List Str := (s.splitOn d).dropLast

/-- What is behind the last delimiter. -/
def lastPiece (d : Char) (s : Str) : Str := (s.splitOn d).getLast (List.splitOn_ne_nil d s)

/-- The pieces of a string, stripped of blanks, without empty ones. -/
def pieces (d : Char) (s : Str) : Finset Str := ((s.splitOn d).map strip).toFinset.erase []

section Pieces

variable {d : Char} {s x : Str}

theorem firstPieces_of_not_mem (h : d ∉ s) : firstPieces d s = [] := by
  rw [firstPieces, List.splitOn_eq_singleton h]
  rfl

theorem lastPiece_of_not_mem (h : d ∉ s) : lastPiece d s = s := by
  simp only [lastPiece, List.splitOn_eq_singleton h, List.getLast_singleton]

theorem firstPieces_append (h : d ∉ x) (s : Str) :
    firstPieces d (x ++ d :: s) = x :: firstPieces d s := by
  rw [firstPieces, List.splitOn_append_cons_self_of_not_mem h,
    List.dropLast_cons_of_ne_nil (List.splitOn_ne_nil d s), firstPieces]

theorem lastPiece_append (h : d ∉ x) (s : Str) : lastPiece d (x ++ d :: s) = lastPiece d s := by
  simp only [lastPiece, List.splitOn_append_cons_self_of_not_mem h,
    List.getLast_cons (List.splitOn_ne_nil d s)]

theorem firstPieces_append_lastPiece (d : Char) (s : Str) :
    firstPieces d s ++ [lastPiece d s] = s.splitOn d :=
  List.dropLast_append_getLast (List.splitOn_ne_nil d s)

end Pieces

/-- Inserting a string that is not empty. -/
theorem insert_ne_nil (p : Str) (A : Finset Str) :
    (if p ≠ [] then insert p (A.erase []) else A.erase []) = (insert p A).erase [] := by
  split
  · rename_i hp
    rw [Finset.erase_insert_of_ne hp]
  · rename_i hp
    rw [not_not.mp hp, Finset.erase_insert_eq_erase]

/-- One run through the loop takes one piece. -/
theorem splitLoop_some {src : Str} {d : Char} {pos e : ℕ} (h : find src d pos = some e)
    (result : Finset Str) : splitLoop src d pos result =
      splitLoop src d (e + 1) (if strip (substr src pos (e - pos)) ≠ [] then
        insert (strip (substr src pos (e - pos))) result else result) := by
  rw [splitLoop]
  split
  · rename_i hnone
    rw [hnone] at h
    cases h
  · rename_i e' hsome
    obtain rfl := Option.some_inj.mp (h.symm.trans hsome)
    rw [trim_eq]

theorem splitLoop_none {src : Str} {d : Char} {pos : ℕ} (h : find src d pos = none)
    (result : Finset Str) : splitLoop src d pos result = (result, pos) := by
  rw [splitLoop]
  split
  · rfl
  · rename_i e hsome
    rw [h] at hsome
    cases hsome

/-- **The loop** takes the pieces up to the last delimiter, and leaves the rest. -/
theorem splitLoop_eq (src : Str) (d : Char) (pos : ℕ) (A : Finset Str) :
    (splitLoop src d pos (A.erase [])).1 =
        (A ∪ ((firstPieces d (src.drop pos)).map strip).toFinset).erase [] ∧
      src.drop (splitLoop src d pos (A.erase [])).2 = lastPiece d (src.drop pos) := by
  induction hn : src.length - pos using Nat.strong_induction_on generalizing pos A with
  | _ n ih =>
    cases hfind : find src d pos with
    | none =>
      have hd := find_none hfind
      rw [splitLoop_none hfind, firstPieces_of_not_mem hd, lastPiece_of_not_mem hd, List.map_nil,
        List.toFinset_nil, Finset.union_empty]
      exact ⟨rfl, rfl⟩
    | some e =>
      obtain ⟨hle, hlt⟩ := find_lt hfind
      obtain ⟨hsplit, hd⟩ := find_some hfind
      obtain ⟨hset, hpos⟩ := ih (src.length - (e + 1)) (by omega) (e + 1)
        (insert (strip (substr src pos (e - pos))) A) rfl
      rw [splitLoop_some hfind, insert_ne_nil, hset, hpos, hsplit, firstPieces_append hd,
        lastPiece_append hd, List.map_cons, List.toFinset_cons, Finset.insert_union,
        Finset.union_insert]
      exact ⟨rfl, rfl⟩

/-- **The set that comes out**: the last piece is not stripped. -/
theorem split2set_eq (s : Str) (d : Char) : split2set s d =
    (insert (lastPiece d s) ((firstPieces d s).map strip).toFinset).erase [] := by
  rw [split2set]
  split
  · rename_i hs
    rw [hs]
    rfl
  · obtain ⟨hset, hpos⟩ := splitLoop_eq s d 0 ∅
    rw [Finset.erase_empty, List.drop_zero] at hset hpos
    show (if s.drop (splitLoop s d 0 ∅).2 ≠ [] then _ else _) = _
    rw [hpos, hset, insert_ne_nil, Finset.empty_union]

theorem pieces_eq (s : Str) (d : Char) : pieces d s =
    (insert (strip (lastPiece d s)) ((firstPieces d s).map strip).toFinset).erase [] := by
  rw [pieces, ← firstPieces_append_lastPiece, List.map_append, List.toFinset_append,
    Finset.union_comm]
  rfl

/-- **The pieces, stripped**: this is what comes out just if what is behind the last delimiter
neither begins nor ends with a blank. -/
theorem split2set_pieces_iff (s : Str) (d : Char) :
    split2set s d = pieces d s ↔ Neat (lastPiece d s) := by
  constructor
  · intro h
    by_cases hnil : lastPiece d s = []
    · rw [hnil]
      decide
    · have hmem : lastPiece d s ∈ split2set s d := by
        rw [split2set_eq]
        exact Finset.mem_erase.mpr ⟨hnil, Finset.mem_insert_self _ _⟩
      rw [h] at hmem
      obtain ⟨p, -, hp⟩ := List.mem_map.mp (List.mem_toFinset.mp (Finset.mem_of_mem_erase hmem))
      exact hp ▸ neat_strip p
  · intro h
    rw [split2set_eq, pieces_eq, (strip_eq_self_iff _).mpr h]

/-- A blank behind the last delimiter. -/
theorem split2set_not_pieces : split2set "a, b".toList ',' ≠ pieces ',' "a, b".toList := by
  rw [split2set_eq]
  decide

/-! ## Writing a set -/

section Writing

variable {K : Type*} (put : K → Str) (d : Char)

/-- The loop of `to_str`, with the stream so far. -/
def toStrLoop : Bool → Str → List K → Str
  | _, oss, [] => oss
  | first, oss, v :: vs =>
    let oss := if !first then oss ++ [d] else oss
    toStrLoop false (oss ++ put v) vs

/-- `to_str`, for elements of which the stream prints `put`. -/
def toStr [LinearOrder K] (S : Finset K) : Str := toStrLoop put d true [] S.sort

/-- The elements of a set, as a loop over it meets them. -/
def inOrder [LinearOrder K] (S : Finset K) : List K := S.sort

theorem toStrLoop_false (oss : Str) (vs : List K) :
    toStrLoop put d false oss vs = oss ++ (vs.map put).flatMap (d :: ·) := by
  induction vs generalizing oss with
  | nil => exact (List.append_nil oss).symm
  | cons v vs ih =>
    rw [toStrLoop, ih, List.map_cons, List.flatMap_cons]
    simp only [Bool.not_false, if_true, List.append_assoc, List.cons_append, List.nil_append]

/-- A delimiter stands between the elements. -/
theorem toStr_eq [LinearOrder K] (S : Finset K) :
    toStr put d S = [d].intercalate (S.sort.map put) := by
  have hcons : ∀ (x : Str) (xs : List Str),
      [d].intercalate (x :: xs) = x ++ xs.flatMap (d :: ·) := by
    intro x xs
    induction xs generalizing x with
    | nil => simp only [List.intercalate_singleton, List.flatMap_nil, List.append_nil]
    | cons y ys ih =>
      rw [List.intercalate_cons_cons, ih, List.flatMap_cons, List.append_assoc,
        List.singleton_append]
      rfl
  rw [toStr]
  cases S.sort with
  | nil => rfl
  | cons v vs =>
    rw [toStrLoop, toStrLoop_false, List.map_cons, hcons]
    rfl

end Writing

/-- Neat strings with a delimiter between them are taken apart again. -/
theorem split2set_intercalate {d : Char} {l : List Str}
    (h : ∀ s ∈ l, s ≠ [] ∧ d ∉ s ∧ Neat s) : split2set ([d].intercalate l) d = l.toFinset := by
  by_cases hl : l = []
  · subst hl
    rfl
  · have hsplit : ([d].intercalate l).splitOn d = l :=
      List.splitOn_intercalate d (fun s hs => (h s hs).2.1) hl
    have hlast : lastPiece d ([d].intercalate l) = l.getLast hl := by
      simp only [lastPiece, hsplit]
    have hstrip : l.map strip = l := by
      refine (List.map_congr_left fun s hs => ?_).trans (List.map_id l)
      exact (strip_eq_self_iff s).mpr (h s hs).2.2
    have hnil : [] ∉ l.toFinset := fun hmem => (h [] (List.mem_toFinset.mp hmem)).1 rfl
    rw [(split2set_pieces_iff _ d).mpr (hlast ▸ (h _ (List.getLast_mem hl)).2.2), pieces, hsplit,
      hstrip, Finset.erase_eq_of_notMem hnil]

/-- **A set of strings is read back**, if none of them is empty, contains the delimiter, or begins
or ends with a blank. -/
theorem split2set_toStr (d : Char) (S : Finset Str) (h : ∀ s ∈ S, s ≠ [] ∧ d ∉ s ∧ Neat s) :
    split2set (toStr id d S) d = S := by
  rw [toStr_eq, List.map_id, split2set_intercalate, Finset.sort_toFinset]
  exact fun s hs => h s ((Finset.mem_sort _).mp hs)

theorem split2set_toStr_two : split2set (toStr id ',' {"abc".toList, "d e".toList}) ',' =
    {"abc".toList, "d e".toList} :=
  split2set_toStr ',' {"abc".toList, "d e".toList} (by decide)

end SetOps

end LeonUtils
