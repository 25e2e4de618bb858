import Mathlib.Data.List.Basic

/-!
# Choosing elements of a list

A mask says of each position whether it is chosen. `keep` is what is left of a list, and `rank` is
where a chosen position goes.

A mask may be longer than the list; what it says beyond the end does not matter (`keep_append`).

A table is a list of rows, and `keep₂` chooses rows and columns of it.

## Main definitions

* `keep`, `keep₂` — the chosen elements
* `rank` — the position of a chosen element among them

## Main results

* `getElem?_keep`, `keep_set`, `keep₂_set` — reading and writing
-/

namespace LeonUtils.Mask

variable {α β : Type*}

/-- The elements at the chosen positions. -/
def keep : List Bool → List α → List α
  | b :: mask, x :: xs => if b then x :: keep mask xs else keep mask xs
  | _, _ => []

/-- How many positions before `i` are chosen. -/
def rank (mask : List Bool) (i : ℕ) : ℕ := (mask.take i).count true

@[simp]
theorem keep_nil (mask : List Bool) : keep mask ([] : List α) = [] := by
  cases mask <;> rfl

@[simp]
theorem rank_zero (mask : List Bool) : rank mask 0 = 0 := rfl

theorem rank_succ (b : Bool) (mask : List Bool) (i : ℕ) :
    rank (b :: mask) (i + 1) = rank mask i + if b then 1 else 0 := by
  rw [rank, rank, List.take_succ_cons, List.count_cons]
  cases b <;> rfl

/-- What is after the end of the list does not matter. -/
theorem keep_append {mask : List Bool} {xs : List α} (h : xs.length ≤ mask.length)
    (more : List Bool) : keep (mask ++ more) xs = keep mask xs := by
  induction mask generalizing xs with
  | nil =>
    obtain rfl := List.length_eq_zero_iff.mp (Nat.le_zero.mp h)
    rw [keep_nil, keep_nil]
  | cons b mask ih =>
    cases xs with
    | nil => rw [keep_nil, keep_nil]
    | cons x xs => rw [List.cons_append, keep, keep, ih (Nat.succ_le_succ_iff.mp h)]

theorem keep_replicate (mask : List Bool) (x : α) :
    keep mask (List.replicate mask.length x) = List.replicate (mask.count true) x := by
  induction mask with
  | nil => rfl
  | cons b mask ih =>
    rw [List.length_cons, List.replicate_succ, keep, ih]
    cases b with
    | true => rw [if_pos rfl, List.count_cons_self, List.replicate_succ]
    | false => rw [if_neg Bool.false_ne_true, List.count_cons_of_ne (by decide)]

/-- Elements are changed before or after the choice. -/
theorem map_keep (f : α → β) (mask : List Bool) (xs : List α) :
    (keep mask xs).map f = keep mask (xs.map f) := by
  induction mask generalizing xs with
  | nil => cases xs <;> rfl
  | cons b mask ih =>
    cases xs with
    | nil => rfl
    | cons x xs =>
      rw [List.map_cons, keep, keep, ← ih]
      cases b <;> rfl

/-- **Reading** a chosen position. -/
theorem getElem?_keep {mask : List Bool} {i : ℕ} (h : mask[i]? = some true) (xs : List α) :
    (keep mask xs)[rank mask i]? = xs[i]? := by
  induction mask generalizing i xs with
  | nil => cases h
  | cons b mask ih =>
    cases xs with
    | nil => rw [keep_nil, List.getElem?_nil, List.getElem?_nil]
    | cons x xs =>
      cases i with
      | zero =>
        obtain rfl : b = true := by simpa using h
        rfl
      | succ i =>
        have h : mask[i]? = some true := by simpa using h
        rw [keep, rank_succ, List.getElem?_cons_succ, ← ih h xs]
        cases b <;> rfl

/-- **Writing** moves to the new position, and is lost when the old one is not chosen. -/
theorem keep_set (mask : List Bool) (xs : List α) (i : ℕ) (x : α) :
    keep mask (xs.set i x) =
      if mask[i]? = some true then (keep mask xs).set (rank mask i) x else keep mask xs := by
  induction mask generalizing i xs with
  | nil => cases xs <;> cases i <;> rfl
  | cons b mask ih =>
    cases xs with
    | nil => simp
    | cons y ys =>
      cases i with
      | zero => cases b <;> simp [keep]
      | succ i =>
        rw [List.set_cons_succ, keep, keep, ih, rank_succ, List.getElem?_cons_succ]
        by_cases h : mask[i]? = some true
        · rw [if_pos h, if_pos h]
          cases b <;> rfl
        · rw [if_neg h, if_neg h]

/-! ## Tables -/

/-- The chosen columns of the chosen rows. -/
def keep₂ (rows cols : List Bool) (data : List (List α)) : List (List α) :=
  (keep rows data).map (keep cols)

theorem keep₂_append_rows {rows : List Bool} {data : List (List α)}
    (h : data.length ≤ rows.length) (more cols : List Bool) :
    keep₂ (rows ++ more) cols data = keep₂ rows cols data := by
  rw [keep₂, keep₂, keep_append h]

theorem keep₂_append_cols (rows : List Bool) {cols : List Bool} {data : List (List α)}
    (h : ∀ rd ∈ data, rd.length ≤ cols.length) (more : List Bool) :
    keep₂ rows (cols ++ more) data = keep₂ rows cols data := by
  rw [keep₂, keep₂, map_keep, map_keep]
  congr 1
  exact List.map_congr_left fun rd hrd => keep_append (h rd hrd) more

theorem keep₂_replicate (rows cols : List Bool) (x : α) :
    keep₂ rows cols (List.replicate rows.length (List.replicate cols.length x)) =
      List.replicate (rows.count true) (List.replicate (cols.count true) x) := by
  rw [keep₂, keep_replicate, List.map_replicate, keep_replicate]

/-- **Writing into a table** moves to the new row and column, and is lost unless both are chosen. -/
theorem keep₂_set (rows cols : List Bool) {data : List (List α)} {r : ℕ} {rd : List α}
    (hrd : data[r]? = some rd) (c : ℕ) (x : α) :
    keep₂ rows cols (data.set r (rd.set c x)) =
      if rows[r]? = some true ∧ cols[c]? = some true then
        (keep₂ rows cols data).set (rank rows r) ((keep cols rd).set (rank cols c) x)
      else keep₂ rows cols data := by
  rw [keep₂, keep_set]
  by_cases hr : rows[r]? = some true
  · rw [if_pos hr, List.map_set, keep_set]
    by_cases hc : cols[c]? = some true
    · rw [if_pos hc, if_pos ⟨hr, hc⟩]
      rfl
    · rw [if_neg hc, if_neg fun h => hc h.2]
      -- the row is written, but not changed
      have hget : (keep₂ rows cols data)[rank rows r]? = some (keep cols rd) := by
        rw [keep₂, List.getElem?_map, getElem?_keep hr, hrd]
        rfl
      obtain ⟨hlt, heq⟩ := List.getElem?_eq_some_iff.mp hget
      rw [← heq]
      exact List.set_getElem_self hlt
  · rw [if_neg hr, if_neg fun h => hr h.1]
    rfl

end LeonUtils.Mask
