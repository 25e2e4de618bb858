import LeonUtils.Sorting
import LeonUtils.Statistics.Correlation

/-!
# Correlation of ranks

`spearman` sorts the pairs by their first coordinate and puts their positions in its place, does the
same with the second one, and leaves the positions to `pearson`. Pairs that agree in the first
coordinate get different positions all the same, in the order in which the sort leaves them; the
sort does not see the second coordinate, and so that order is the one in which they came.

The sort is any that keeps its promise.

## Main definitions

* `ranked`, `spearman` — the positions, and their correlation

## Main results

* `pearson_rankY` — the correlation of positions, from one sum
* `exists_order_ne` — with a tie, two orders of the same pairs have different correlations
* `spearman_perm_iff` — the order of the pairs does not matter just if there is no such tie
-/

namespace LeonUtils

open Samples Sorting

section Spearman

variable {K : Type*} [Field K]

/-- The first loop: positions for the first coordinate. -/
def rankX (nps : List (NumPair K)) : List (NumPair K) := nps.mapIdx fun ord p => { p with x := ord }

/-- The second loop: positions for the second coordinate. -/
def rankY (nps : List (NumPair K)) : List (NumPair K) := nps.mapIdx fun ord p => { p with y := ord }

variable [LinearOrder K]
  (sort : (NumPair K → NumPair K → Bool) → List (NumPair K) → List (NumPair K))

/-- What `spearman` makes of the pairs. -/
def ranked (nps : List (NumPair K)) : List (NumPair K) :=
  let nps := rankX (sort (fun l r => decide (l.x < r.x)) nps)
  rankY (sort (fun l r => decide (l.y < r.y)) nps)

/-- `spearman`. -/
def spearman (sqrt : K → K) (nps : List (NumPair K)) : Option K := pearson sqrt (ranked sort nps)

end Spearman

/-! ## Positions -/

section Positions

/-- The positions in a list of so many. -/
def positions (n : ℕ) : List ℝ := (List.range n).map ((↑) : ℕ → ℝ)

theorem positions_nodup (n : ℕ) : (positions n).Nodup :=
  List.nodup_range.map Nat.cast_injective

theorem map_x_rankX (nps : List (NumPair ℝ)) :
    (rankX nps).map NumPair.x = positions nps.length := by
  apply List.ext_getElem <;> simp [rankX, positions]

theorem map_y_rankY (nps : List (NumPair ℝ)) :
    (rankY nps).map NumPair.y = positions nps.length := by
  apply List.ext_getElem <;> simp [rankY, positions]

theorem map_x_rankY (nps : List (NumPair ℝ)) : (rankY nps).map NumPair.x = nps.map NumPair.x := by
  apply List.ext_getElem <;> simp [rankY]

/-- Positions deviate from their average by more than the divisor is compared with. -/
theorem half_le_comoment_positions {n : ℕ} (hn : 1 < n) :
    1 / 2 ≤ comoment id id (positions n) := by
  obtain ⟨m, rfl⟩ : ∃ m, n = m + 2 := ⟨n - 2, by omega⟩
  obtain ⟨rest, hsplit⟩ : ∃ rest, positions (m + 2) = 0 :: 1 :: rest := by
    simp only [positions, List.range_succ_eq_map, List.map_cons, List.map_map, Function.comp_def,
      Nat.cast_zero, Nat.succ_eq_add_one, zero_add, Nat.cast_one]
    exact ⟨_, rfl⟩
  set c := mean id (positions (m + 2)) with hc
  rw [comoment, ← hc, hsplit, List.map_cons, List.map_cons, List.sum_cons, List.sum_cons]
  have hrest := sum_sq_nonneg (fun z => id z - c) rest
  simp only [id_eq] at hrest ⊢
  nlinarith [sq_nonneg (c - 1 / 2)]

/-- The numbers of a list times their positions, from the given one on. -/
def rankSum : ℕ → List ℝ → ℝ
  | _, [] => 0
  | k, x :: xs => x * k + rankSum (k + 1) xs

theorem rankSum_append (k : ℕ) (xs ys : List ℝ) :
    rankSum k (xs ++ ys) = rankSum k xs + rankSum (k + xs.length) ys := by
  induction xs generalizing k with
  | nil => simp [rankSum]
  | cons x xs ih =>
    rw [List.cons_append, rankSum, ih, rankSum, List.length_cons, Nat.add_right_comm, add_assoc,
      add_assoc]

theorem sum_mul_rankY (nps : List (NumPair ℝ)) :
    ((rankY nps).map fun p => p.x * p.y).sum = rankSum 0 (nps.map NumPair.x) := by
  have hfrom : ∀ (k : ℕ) (nps : List (NumPair ℝ)),
      ((nps.mapIdx fun ord p => { p with y := ((ord + k : ℕ) : ℝ) }).map fun p => p.x * p.y).sum =
        rankSum k (nps.map NumPair.x) := by
    intro k nps
    induction nps generalizing k with
    | nil => rfl
    | cons p nps ih =>
      have hih := ih (k + 1)
      simp only [List.mapIdx_cons, List.map_cons, List.sum_cons, rankSum, zero_add, ← hih]
      simp only [Nat.add_right_comm, Nat.add_assoc]
  exact hfrom 0 nps

/-- Two numbers exchanged change the sum by their distance times that of their positions. -/
theorem rankSum_exchange (A B C : List ℝ) (u v : ℝ) :
    rankSum 0 (A ++ v :: (B ++ u :: C)) - rankSum 0 (A ++ u :: (B ++ v :: C)) =
      (u - v) * (B.length + 1) := by
  simp only [rankSum_append, rankSum]
  push_cast
  ring

/-- Two different numbers of a list without repetition cannot be exchanged. -/
theorem rankSum_swap_ne {xs : List ℝ} (hnodup : xs.Nodup) {u v : ℝ} (hu : u ∈ xs) (hv : v ∈ xs)
    (huv : u ≠ v) : rankSum 0 (xs.map (Equiv.swap u v)) ≠ rankSum 0 xs := by
  -- the one that comes first may be either
  have hfirst : ∀ (A B C : List ℝ) (u v : ℝ), u ≠ v → (A ++ u :: (B ++ v :: C)).Nodup →
      rankSum 0 ((A ++ u :: (B ++ v :: C)).map (Equiv.swap u v)) ≠
        rankSum 0 (A ++ u :: (B ++ v :: C)) := by
    intro A B C u v huv hnodup
    have hfix : ∀ l : List ℝ, u ∉ l → v ∉ l → l.map (Equiv.swap u v) = l := by
      intro l hu hv
      refine (List.map_congr_left fun z hz => ?_).trans (List.map_id l)
      exact Equiv.swap_apply_of_ne_of_ne (ne_of_mem_of_not_mem hz hu) (ne_of_mem_of_not_mem hz hv)
    simp only [List.nodup_append, List.nodup_cons, List.mem_append, List.mem_cons, not_or] at hnodup
    obtain ⟨-, ⟨⟨huB, -, huC⟩, -, ⟨hvC, -⟩, hBC⟩, hA⟩ := hnodup
    have huA : u ∉ A := fun h => hA u h u (Or.inl rfl) rfl
    have hvA : v ∉ A := fun h => hA v h v (Or.inr (Or.inr (Or.inl rfl))) rfl
    have hvB : v ∉ B := fun h => hBC v h v (Or.inl rfl) rfl
    simp only [List.map_append, List.map_cons, Equiv.swap_apply_left, Equiv.swap_apply_right,
      hfix A huA hvA, hfix B huB hvB, hfix C huC hvC]
    rw [← sub_ne_zero, rankSum_exchange]
    exact mul_ne_zero (sub_ne_zero.mpr huv) (by positivity)
  obtain ⟨A, D, rfl⟩ := List.append_of_mem hu
  rcases List.mem_append.mp hv with hA | hD
  · obtain ⟨A, B, rfl⟩ := List.append_of_mem hA
    rw [Equiv.swap_comm]
    simpa using hfirst A B D v u huv.symm (by simpa using hnodup)
  · obtain ⟨B, C, rfl⟩ := List.append_of_mem ((List.mem_cons.mp hD).resolve_left huv.symm)
    exact hfirst A B C u v huv hnodup

end Positions

/-! ## The correlation of positions -/

section Ranks

variable {nps : List (NumPair ℝ)}
  {sort : (NumPair ℝ → NumPair ℝ → Bool) → List (NumPair ℝ) → List (NumPair ℝ)}

/-- **The correlation of positions**, if those of the first coordinate are all different. -/
theorem pearson_rankY (hperm : (nps.map NumPair.x).Perm (positions nps.length))
    (hmany : 1 < nps.length) :
    pearson Real.sqrt (rankY nps) = some ((rankSum 0 (nps.map NumPair.x) -
      (positions nps.length).sum * (positions nps.length).sum / nps.length) /
        comoment id id (positions nps.length)) := by
  have hlen : (rankY nps).length = nps.length := List.length_mapIdx
  have hmany' : 1 < (rankY nps).length := by omega
  have hne : rankY nps ≠ [] := List.ne_nil_of_length_pos (by omega)
  have hself : ∀ f : NumPair ℝ → ℝ, comoment f f (rankY nps) =
      comoment id id ((rankY nps).map f) := fun f => by rw [comoment_map]; rfl
  have hxx : comoment NumPair.x NumPair.x (rankY nps) = comoment id id (positions nps.length) := by
    rw [hself, map_x_rankY, comoment_perm hperm]
  have hyy : comoment NumPair.y NumPair.y (rankY nps) = comoment id id (positions nps.length) := by
    rw [hself, map_y_rankY]
  have hxy : comoment NumPair.x NumPair.y (rankY nps) = rankSum 0 (nps.map NumPair.x) -
      (positions nps.length).sum * (positions nps.length).sum / nps.length := by
    rw [comoment_eq hne, sum_mul_rankY, map_x_rankY, map_y_rankY, hperm.sum_eq, hlen]
  have hdiv : divisor Real.sqrt (rankY nps) = comoment id id (positions nps.length) := by
    rw [divisor, hxx, hyy, Real.mul_self_sqrt (comoment_self_nonneg _ _)]
  have hhalf := half_le_comoment_positions hmany
  have htiny : (tiny : ℝ) < 1 / 2 := by norm_num [tiny]
  rw [pearson_many _ hmany', hdiv, hxy, abs_of_nonneg (comoment_self_nonneg _ _), if_neg]
  linarith

/-- What the second sort makes of positions for the first coordinate. -/
theorem sort_rankX_perm (hsort : IsSort sort) (nps : List (NumPair ℝ)) :
    let ranks := sort (lessBy NumPair.y) (rankX (sort (lessBy NumPair.x) nps))
    ranks.length = nps.length ∧ (ranks.map NumPair.x).Perm (positions nps.length) := by
  intro ranks
  have hx := hsort.perm (lessBy NumPair.x) nps inferInstance
  have hy := hsort.perm (lessBy NumPair.y) (rankX (sort (lessBy NumPair.x) nps)) inferInstance
  have hlen : (rankX (sort (lessBy NumPair.x) nps)).length = nps.length :=
    List.length_mapIdx.trans hx.length_eq
  refine ⟨hy.length_eq.trans hlen, ?_⟩
  rw [← hx.length_eq, ← map_x_rankX]
  exact hy.map _

/-- **The correlation of the ranks** of more than one pair. -/
theorem spearman_many (hsort : IsSort sort) (hmany : 1 < nps.length) :
    spearman sort Real.sqrt nps = some
      ((rankSum 0 ((sort (lessBy NumPair.y) (rankX (sort (lessBy NumPair.x) nps))).map NumPair.x) -
        (positions nps.length).sum * (positions nps.length).sum / nps.length) /
          comoment id id (positions nps.length)) := by
  obtain ⟨hlen, hperm⟩ := sort_rankX_perm hsort nps
  have h := pearson_rankY (hlen.symm ▸ hperm) (hlen.symm ▸ hmany)
  rw [hlen] at h
  exact h

end Ranks

/-! ## Ties -/

section Ties

variable {nps : List (NumPair ℝ)}

/-- The first coordinate under a function. -/
def mapX (f : ℝ → ℝ) (p : NumPair ℝ) : NumPair ℝ := { p with x := f p.x }

theorem map_mapX_eq_self {f : ℝ → ℝ} (h : ∀ p ∈ nps, f p.x = p.x) : nps.map (mapX f) = nps :=
  (List.map_congr_left fun p hp => by rw [mapX, h p hp]; rfl).trans (List.map_id nps)

/-- The positions of two neighbours. -/
theorem rankX_append_cons_cons (A B : List (NumPair ℝ)) (a b : NumPair ℝ) :
    rankX (A ++ a :: b :: B) = rankX A ++ { a with x := A.length } ::
      { b with x := (A.length + 1 : ℕ) } ::
        B.mapIdx fun ord p => { p with x := (ord + (A.length + 2) : ℕ) } := by
  simp only [rankX, List.mapIdx_append, List.mapIdx_cons, zero_add, Nat.add_comm 1, Nat.add_assoc,
    Nat.reduceAdd]

/-- Two neighbours exchanged before they get their positions, and the positions exchanged after. -/
theorem map_mapX_rankX (A B : List (NumPair ℝ)) (a b : NumPair ℝ) :
    (rankX (A ++ a :: b :: B)).map
        (mapX (Equiv.swap (A.length : ℝ) (A.length + 1 : ℕ))) =
      rankX A ++ { a with x := (A.length + 1 : ℕ) } :: { b with x := A.length } ::
        B.mapIdx fun ord p => { p with x := (ord + (A.length + 2) : ℕ) } := by
  have hA : ∀ p ∈ rankX A, Equiv.swap (A.length : ℝ) (A.length + 1 : ℕ) p.x = p.x := by
    intro p hp
    obtain ⟨i, hi, rfl⟩ := List.mem_mapIdx.mp hp
    exact Equiv.swap_apply_of_ne_of_ne (Nat.cast_injective.ne hi.ne)
      (Nat.cast_injective.ne (by omega))
  have hB : ∀ p ∈ B.mapIdx fun ord p => { p with x := ((ord + (A.length + 2) : ℕ) : ℝ) },
      Equiv.swap (A.length : ℝ) (A.length + 1 : ℕ) p.x = p.x := by
    intro p hp
    obtain ⟨i, hi, rfl⟩ := List.mem_mapIdx.mp hp
    exact Equiv.swap_apply_of_ne_of_ne (Nat.cast_injective.ne (by omega))
      (Nat.cast_injective.ne (by omega))
  rw [rankX_append_cons_cons, List.map_append, List.map_cons, List.map_cons, map_mapX_eq_self hA,
    map_mapX_eq_self hB, mapX, mapX, Equiv.swap_apply_left, Equiv.swap_apply_right]

/-- The second sort does not see the exchange of two pairs that it tells apart. -/
theorem stableSort_rankX_exchange (A B : List (NumPair ℝ)) {a b : NumPair ℝ} (hab : a.y ≠ b.y) :
    stableSort (lessBy NumPair.y) (rankX (A ++ b :: a :: B)) =
      (stableSort (lessBy NumPair.y) (rankX (A ++ a :: b :: B))).map
        (mapX (Equiv.swap (A.length : ℝ) (A.length + 1 : ℕ))) := by
  have hkey : ∀ p, (mapX (Equiv.swap (A.length : ℝ) (A.length + 1 : ℕ)) p).y = p.y := fun _ => rfl
  rw [map_stableSort hkey, map_mapX_rankX, rankX_append_cons_cons]
  exact stableSort_exchange _ _ hab.symm

/-- Two neighbours that only the second sort tells apart. -/
theorem spearman_exchange_ne {A B : List (NumPair ℝ)} {a b : NumPair ℝ}
    (hsorted : (A ++ a :: b :: B).Pairwise fun p q => p.x ≤ q.x) (hx : a.x = b.x) (hy : a.y ≠ b.y) :
    spearman stableSort Real.sqrt (A ++ b :: a :: B) ≠
      spearman stableSort Real.sqrt (A ++ a :: b :: B) := by
  have hmany : 1 < (A ++ a :: b :: B).length := by simp; omega
  have hlen : (A ++ b :: a :: B).length = (A ++ a :: b :: B).length := by simp
  have hsorted' : (A ++ b :: a :: B).Pairwise fun p q => p.x ≤ q.x := by
    rw [← List.pairwise_map (f := NumPair.x)] at hsorted ⊢
    simpa only [List.map_append, List.map_cons, hx] using hsorted
  have hstay : ∀ l : List (NumPair ℝ), (l.Pairwise fun p q => p.x ≤ q.x) →
      stableSort (lessBy NumPair.x) l = l := fun l hl =>
    stableSort_of_sorted (hl.imp (lessBy_eq_false_iff _ _).mpr)
  obtain ⟨-, hpositions⟩ := sort_rankX_perm isSort_stableSort (A ++ a :: b :: B)
  rw [hstay _ hsorted] at hpositions
  have hmem : ∀ i < (A ++ a :: b :: B).length, (i : ℝ) ∈ (stableSort (lessBy NumPair.y)
      (rankX (A ++ a :: b :: B))).map NumPair.x := fun i hi =>
    hpositions.mem_iff.mpr (List.mem_map_of_mem (List.mem_range.mpr hi))
  have hne := rankSum_swap_ne (hpositions.nodup_iff.mpr (positions_nodup _))
    (hmem A.length (by simp)) (hmem (A.length + 1) (by simp))
    (Nat.cast_injective.ne (Nat.lt_succ_self _).ne)
  have hhalf := half_le_comoment_positions hmany
  have hpos : comoment id id (positions (A ++ a :: b :: B).length) ≠ 0 := by linarith
  rw [spearman_many isSort_stableSort (hlen ▸ hmany), spearman_many isSort_stableSort hmany,
    hstay _ hsorted, hstay _ hsorted', stableSort_rankX_exchange A B hy, hlen, List.map_map]
  rw [List.map_map] at hne
  intro h
  exact hne (sub_left_injective ((div_left_inj' hpos).mp (Option.some.inj h)))

/-- **Two orders of the same pairs**, if two of them agree in the first coordinate only: even a
stable sort leaves them in different positions. -/
theorem exists_order_ne {p q : NumPair ℝ} (hp : p ∈ nps) (hq : q ∈ nps) (hx : p.x = q.x)
    (hy : p.y ≠ q.y) :
    ∃ order order' : List (NumPair ℝ), order.Perm nps ∧ order'.Perm nps ∧
      spearman stableSort Real.sqrt order ≠ spearman stableSort Real.sqrt order' := by
  have hperm := isSort_stableSort.perm (lessBy NumPair.x) nps inferInstance
  have hsorted := isSort_stableSort.sorted_lessBy NumPair.x nps
  obtain ⟨A, a, b, B, hAB, hab, hab'⟩ := exists_adjacent hsorted (hperm.mem_iff.mpr hp)
    (hperm.mem_iff.mpr hq) hx hy
  rw [hAB] at hperm hsorted
  exact ⟨A ++ b :: a :: B, A ++ a :: b :: B, ((List.Perm.swap a b B).append_left A).trans hperm,
    hperm, spearman_exchange_ne hsorted hab hab'⟩

end Ties

/-- **The order of the pairs** does not matter to any correct sort just if pairs that agree in the
first coordinate agree in the second one, too. -/
theorem spearman_perm_iff (nps : List (NumPair ℝ)) :
    (∀ sort, IsSort sort → ∀ order : List (NumPair ℝ), order.Perm nps →
      spearman sort Real.sqrt order = spearman sort Real.sqrt nps) ↔
        ∀ p ∈ nps, ∀ q ∈ nps, p.x = q.x → p.y = q.y := by
  constructor
  · intro h p hp q hq hx
    by_contra hy
    obtain ⟨order, order', hperm, hperm', hne⟩ := exists_order_ne hp hq hx hy
    exact hne ((h _ isSort_stableSort order hperm).trans
      (h _ isSort_stableSort order' hperm').symm)
  · intro hties sort hsort order hperm
    have hfirst : sort (lessBy NumPair.x) order = sort (lessBy NumPair.x) nps :=
      hsort.eq_of_ties hperm fun p hp q hq hx => by
        obtain ⟨x, y⟩ := p
        obtain ⟨x', y'⟩ := q
        obtain rfl : x = x' := hx
        obtain rfl : y = y' := hties _ hp _ hq rfl
        rfl
    exact congrArg (fun l => pearson Real.sqrt (rankY (sort (lessBy NumPair.y) (rankX l)))) hfirst

/-- Two pairs that agree in the first coordinate rise in one order and fall in the other. -/
theorem not_spearman_perm :
    ¬ ∀ sort, IsSort sort → ∀ nps order : List (NumPair ℝ), order.Perm nps →
      spearman sort Real.sqrt order = spearman sort Real.sqrt nps := by
  intro h
  have heq := h stableSort isSort_stableSort [⟨1, 1⟩, ⟨1, 2⟩] [⟨1, 2⟩, ⟨1, 1⟩]
    (List.Perm.swap _ _ _)
  refine spearman_exchange_ne (A := []) (B := []) (a := ⟨1, 1⟩) (b := ⟨1, 2⟩) ?_ rfl ?_ heq
  · simp
  · norm_num

end LeonUtils
