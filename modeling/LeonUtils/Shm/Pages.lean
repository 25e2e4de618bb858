import LeonUtils.Shm.Advice

/-!
# How many pages a segment has

`make` and `plug` convert the size of the segment to `float` before they divide it by the size of a
page and round up. A `float` has 24 significant bits. Sizes up to 16 MiB have no more than that; a
larger one is rounded first, and the number of pages is right only if the last byte of a segment of
the rounded size lies in the same page as the last byte of the segment.

A size that is rounded down to a page's boundary loses its last page, which can then never be handed
to `madvise`. From 64 GiB on a size can also be rounded up beyond its last page.

## Main definitions

* `ShmBuffer.Covered` — the pages of an object are those of its segment
* `ShmBuffer.RoundsDown`, `ShmBuffer.LastByteStays` — what rounding does to a size

## Main results

* `ShmBuffer.pageCount_iff` — when the number of pages is right
* `ShmBuffer.covered_iff` — when it is right after `make` or `plug`
-/

namespace LeonUtils

namespace ShmBuffer

/-- The pages cover the segment, all of them are needed, and the last one can be handed over by
itself. -/
structure Covered (b : ShmBuffer) : Prop where
  needed : ((b.pages : ℤ) - 1) * b.onePage < b.bytes
  enough : b.bytes ≤ b.pages * b.onePage
  last : b.Attached → ∀ kind ok k,
    Advised (b.advise kind (.pages (-1) 0) true ok) b k ↔ k = (b.bytes - 1) / b.onePage

/-! ## Rounding -/

/-- The distance between one `float` and the next, for those with as many digits as `n`. -/
def spacing (n : ℕ) : ℕ := 2 ^ (Nat.log2 n - 23)

/-- The nearest `float` is not above: less than half the distance is lost, or just half of it and
the last bit that is kept is zero. -/
def RoundsDown (n : ℕ) : Prop :=
  2 * (n % spacing n) < spacing n ∨ 2 * (n % spacing n) = spacing n ∧ n / spacing n % 2 = 0

instance (n : ℕ) : Decidable (RoundsDown n) := inferInstanceAs (Decidable (_ ∨ _))

/-- The last byte of a segment of `n` bytes stays in its page when the size is rounded: what is lost
lies before that byte in the page, or what is added lies behind it. -/
def LastByteStays (n page : ℕ) : Prop :=
  if RoundsDown n then n % spacing n ≤ (n - 1) % page
  else (n - 1) % page + (spacing n - n % spacing n) < page

instance (n page : ℕ) : Decidable (LastByteStays n page) :=
  inferInstanceAs (Decidable (if RoundsDown n then _ ≤ _ else _ < _))

theorem spacing_pos (n : ℕ) : 0 < spacing n := Nat.two_pow_pos _

theorem spacing_le {n : ℕ} (h : 0 < n) : spacing n ≤ n :=
  (Nat.pow_le_pow_right two_pos (Nat.sub_le _ _)).trans (Nat.log2_self_le h.ne')

theorem toFloat_of_roundsDown {n : ℕ} (h : RoundsDown n) : toFloat n = n - n % spacing n := by
  have hfloor : n / spacing n * spacing n = n - n % spacing n := Nat.div_mul_self_eq_mod_sub_self
  rw [← hfloor, toFloat, ← spacing, Text.roundDiv]
  rcases h with hlt | ⟨heq, heven⟩
  · rw [if_pos hlt]
  · rw [if_neg heq.not_lt, if_neg heq.not_gt, heven, Nat.add_zero]

theorem toFloat_of_not_roundsDown {n : ℕ} (h : ¬ RoundsDown n) :
    toFloat n = n + (spacing n - n % spacing n) := by
  have hdiv : spacing n * (n / spacing n) + n % spacing n = n := Nat.div_add_mod n (spacing n)
  have hmod : n % spacing n < spacing n := Nat.mod_lt n (spacing_pos n)
  obtain ⟨hge, hodd⟩ := not_or.mp h
  -- both ways up lead to the next multiple of the distance
  have hup : Text.roundDiv n (spacing n) = n / spacing n + 1 := by
    rw [Text.roundDiv, if_neg hge]
    split
    · rfl
    · have heq : 2 * (n % spacing n) = spacing n := by omega
      have := not_and.mp hodd heq
      omega
  rw [toFloat, ← spacing, hup, Nat.add_mul, Nat.mul_comm, Nat.one_mul]
  omega

/-! ## The number of pages -/

/-- A page's number from the offset of a byte. -/
theorem tight_iff {q n page : ℕ} (hpage : 0 < page) (hn : 0 < n) :
    (((q : ℤ) - 1) * page < n ∧ n ≤ q * page) ↔ q = (n - 1) / page + 1 := by
  cases q with
  | zero => simp [hn.ne']
  | succ k =>
    have hdiv : k = (n - 1) / page ↔ k * page ≤ n - 1 ∧ n - 1 < (k + 1) * page := by
      rw [eq_comm, Nat.div_eq_iff hpage]
      have hsucc : (k + 1) * page = k * page + page := Nat.succ_mul k page
      omega
    rw [Nat.succ_inj, hdiv]
    push_cast
    rw [add_sub_cancel_right]
    have hlt : ((k : ℤ) * page < n) ↔ k * page < n := by exact_mod_cast Iff.rfl
    rw [hlt]
    omega

/-- A byte that is not the first stays in its page if it moves back by no more than its offset. -/
theorem sub_div_eq_iff {a r page : ℕ} (hpage : 0 < page) (hr : r ≤ a) :
    (a - r) / page = a / page ↔ r ≤ a % page := by
  have hdiv : page * (a / page) + a % page = a := Nat.div_add_mod a page
  have hmod : a % page < page := Nat.mod_lt a hpage
  have hcomm : a / page * page = page * (a / page) := Nat.mul_comm _ _
  rw [Nat.div_eq_iff hpage]
  omega

theorem add_div_eq_iff {a r page : ℕ} (hpage : 0 < page) :
    (a + r) / page = a / page ↔ a % page + r < page := by
  have hdiv : page * (a / page) + a % page = a := Nat.div_add_mod a page
  have hcomm : a / page * page = page * (a / page) := Nat.mul_comm _ _
  rw [Nat.div_eq_iff hpage]
  omega

theorem pageCount_eq {n page : ℕ} (hpage : 0 < page) (h : 0 < toFloat n) :
    pageCount n page = (toFloat n - 1) / page + 1 := by
  rw [pageCount, ← Nat.add_div_right _ hpage]
  congr 1
  omega

/-- **When the number of pages is right**: when rounding leaves the last byte in its page. -/
theorem pageCount_iff {page : ℕ} (hpage : 0 < page) (n : ℕ) :
    (((pageCount n page : ℤ) - 1) * page < n ∧ n ≤ pageCount n page * page) ↔
      LastByteStays n page := by
  rcases Nat.eq_zero_or_pos n with rfl | hn
  · have hzero : pageCount 0 page = 0 := by
      have : toFloat 0 = 0 := by decide
      rw [pageCount, this, Nat.div_eq_of_lt (by omega)]
    have hstays : LastByteStays 0 page := by
      rw [LastByteStays, if_pos (by decide)]
      simp
    rw [hzero]
    simpa using iff_of_true hpage hstays
  have hle := spacing_le hn
  have hmod := Nat.mod_lt n (spacing_pos n)
  rw [tight_iff hpage hn]
  by_cases hdown : RoundsDown n
  · have hfloat := toFloat_of_roundsDown hdown
    have hsub : toFloat n - 1 = n - 1 - n % spacing n := by omega
    rw [pageCount_eq hpage (by omega), hsub, Nat.succ_inj, sub_div_eq_iff hpage (by omega),
      LastByteStays, if_pos hdown]
  · have hfloat := toFloat_of_not_roundsDown hdown
    have hadd : toFloat n - 1 = n - 1 + (spacing n - n % spacing n) := by omega
    rw [pageCount_eq hpage (by omega), hadd, Nat.succ_inj, add_div_eq_iff hpage, LastByteStays,
      if_neg hdown]

/-! ## `make` and `plug` -/

/-- What a call that succeeds leaves in the object. -/
structure Opened (o : Outcomes) (b : ShmBuffer) (n : ℕ) : Prop where
  fileSize : o.fileSize = some n
  bytes : b.bytes = n
  onePage : b.onePage = o.getpagesize
  pages : b.pages = pageCount n o.getpagesize

theorem opened_of_run {o : Outcomes} {s s' : Sys} {b b' : ShmBuffer} {call : Call} {n : ℕ}
    (h : call.run o s b = (s', b', .ok n)) : Opened o b' n := by
  cases call with
  | make name bytes wr =>
    simp only [Call.run, make] at h
    split at h
    · cases h
    rename_i shmP hmk
    obtain ⟨-, -, -, -, rfl⟩ := mkPlug_ok hmk
    split at h
    · split at h
      · cases h
      · rename_i size hsize
        cases h
        exact ⟨hsize, rfl, rfl, rfl⟩
    · cases h
  | plug name wr =>
    simp only [Call.run, plug] at h
    split at h
    · split at h
      · cases h
      · rename_i rs hsize
        split at h
        · cases h
        · rename_i shmP hmk
          cases h
          obtain ⟨-, -, -, -, rfl⟩ := mkPlug_ok hmk
          exact ⟨hsize, rfl, rfl, rfl⟩
    · cases h

/-- If the number of pages is right, then the last page is that of the last byte. -/
theorem advised_last {b : ShmBuffer} (h : b.Attached)
    (hpages : b.pages = (b.bytes - 1) / b.onePage + 1) (kind : Kind) (ok : Bool) (k : ℕ) :
    Advised (b.advise kind (.pages (-1) 0) true ok) b k ↔ k = (b.bytes - 1) / b.onePage := by
  have hpos := h.pages
  simp only [advised_advise_iff h, doneEnd_true, Range.beg, Range.fin, firstPage, lastPage]
  omega

/-- **When `make` and `plug` count the pages of a segment right.** -/
theorem covered_iff {o : Outcomes} {s s' : Sys} {b b' : ShmBuffer} {call : Call} {n : ℕ}
    (hpage : 0 < o.getpagesize) (hrun : call.run o s b = (s', b', .ok n)) :
    b'.bytes = n ∧ (b'.Covered ↔ LastByteStays n o.getpagesize) := by
  have hopened := opened_of_run hrun
  refine ⟨hopened.bytes, ?_⟩
  rw [← pageCount_iff hpage n]
  have hcount : (((b'.pages : ℤ) - 1) * b'.onePage < b'.bytes ∧
      b'.bytes ≤ b'.pages * b'.onePage) ↔
      (((pageCount n o.getpagesize : ℤ) - 1) * o.getpagesize < n ∧
        n ≤ pageCount n o.getpagesize * o.getpagesize) := by
    rw [hopened.bytes, hopened.pages, hopened.onePage]
  rw [← hcount]
  refine ⟨fun h => ⟨h.needed, h.enough⟩, fun ⟨hneeded, henough⟩ => ⟨hneeded, henough, ?_⟩⟩
  intro hatt kind ok k
  have hpos : 0 < b'.bytes := by
    have hnonneg : 0 ≤ ((b'.pages : ℤ) - 1) * b'.onePage :=
      mul_nonneg (by have := hatt.pages; omega) (Int.natCast_nonneg _)
    omega
  exact advised_last hatt ((tight_iff (zero_lt_one.trans hatt.onePage) hpos).mp
    ⟨hneeded, henough⟩) kind ok k

/-- One byte more than 16 MiB: the byte is in a page of its own, which is not counted. -/
theorem not_covered :
    ¬ ∀ s' b' n, (Call.plug "q" false).run (Outcomes.fine 65536 16777217)
      ⟨fun _ => some 0, 1, [], []⟩ {} = (s', b', .ok n) → b'.Covered := by
  intro h
  exact absurd (h _ _ _ rfl).enough (by decide)

theorem covered_iff_sample :
    (⟨"q", 65536, 8193, 3, 4096, 0, 0⟩ : ShmBuffer).bytes = 8193 ∧
      ((⟨"q", 65536, 8193, 3, 4096, 0, 0⟩ : ShmBuffer).Covered ↔ LastByteStays 8193 4096) :=
  covered_iff (o := Outcomes.fine 65536 8193) (by decide)
    (show (Call.plug "q" false).run _ ⟨fun _ => some 0, 1, [], []⟩ {} = (_, _, .ok 8193) from rfl)

end ShmBuffer

end LeonUtils
