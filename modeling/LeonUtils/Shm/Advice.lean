import LeonUtils.Shm.Buffer
import LeonUtils.Shm.Layout

/-!
# Advice about pages

The functions of `ShmBuffer_t` that give up pages of a mapping: `tagCold` and `tagPage` for pages
that have become cold, `swapOut` and `pageOut` for pages to be swapped out. Each remembers the page
where its last advice ended, and skips a call that would not go beyond it.

All of them end in `_madvise`, which takes a range of page numbers. Negative numbers count from the
end, and an end of `0` stands for all pages; then both numbers are cut to the mapping, the first
page to one that exists. Advice is what is handed to the system call, in bytes (`Advice.Covers`
says which pages these are).

## Numbers

An address or a size is a `size_t`, a page number an `int64_t`; `ofSize` and `toSize` convert
between them.

## Main definitions

* `ShmBuffer.Kind` — cold pages, or pages to be swapped out
* `ShmBuffer.pageNo`, `ShmBuffer.madvise` — the code
* `ShmBuffer.advise` — the four members
* `ShmBuffer.Attached` — what is true of an object that has a mapping

## Main results

* `ShmBuffer.madvise_eq` — the range of pages that is handed over
* `ShmBuffer.advise_before_iff` — when all pages handed over lie before the address
* `ShmBuffer.forced_iff` — when a forced call hands over what was asked for
-/

namespace LeonUtils

namespace ShmBuffer

open ShmAtmRQ (ofSize toSize)

/-! ## The code -/

/-- `MADV_DONTNEED`, and the end in `_coold`; or `MADV_PAGEOUT`, and the end in `_swapd`. -/
inductive Kind
  | cold
  | swap
deriving DecidableEq

/-- The page where the last advice of a kind ended. -/
def lastEnd (b : ShmBuffer) : Kind → ℕ
  | .cold => b.coold
  | .swap => b.swapd

def setLastEnd (b : ShmBuffer) (kind : Kind) (e : ℕ) : ShmBuffer :=
  match kind with
  | .cold => { b with coold := e }
  | .swap => { b with swapd := e }

/-- What is handed to `madvise`. -/
structure Advice where
  tagHead : ℕ
  toBe : ℕ
  kind : Kind
deriving DecidableEq

/-- `_page_no`. -/
def pageNo (b : ShmBuffer) (addr : ℕ) : ℕ :=
  if addr < b.shmP then 0 else (addr - b.shmP) / b.onePage

/-- The first page of a range, among the pages that exist. -/
def firstPage (pages beg : ℤ) : ℤ :=
  min (pages - 1) (max 0 (if beg ≥ 0 then beg else pages + beg))

/-- The page after a range. -/
def lastPage (pages fin : ℤ) : ℤ :=
  min pages (max 0 (if fin > 0 then fin else pages + fin))

/-- `_madvise`: the advice, the result, and the object; `ok` says whether the system call
succeeds. -/
def madvise (b : ShmBuffer) (kind : Kind) (beg fin : ℤ) (ok : Bool) :
    Option Advice × ℕ × ShmBuffer :=
  let pages := ofSize b.pages
  let beg := firstPage pages beg
  let fin := lastPage pages fin
  let morePages := fin - ofSize (b.lastEnd kind)
  let coolPages := fin - beg
  if morePages < 1 ∨ coolPages < 1 then (none, 0, b)
  else
    let toBe := toSize (coolPages * b.onePage)
    let tagHead := toSize (b.shmP + b.onePage * beg)
    if ok then (some ⟨tagHead, toBe, kind⟩, toBe, b.setLastEnd kind (toSize fin))
    else (some ⟨tagHead, toBe, kind⟩, 0, b)

/-- What is asked for: everything before an address, but for some pages; or a range. -/
inductive Range
  | before (addr : ℕ) (skip : ℕ)
  | pages (beg fin : ℤ)

def Range.beg : Range → ℤ
  | .before _ skip => ofSize skip
  | .pages beg _ => beg

def Range.fin (b : ShmBuffer) : Range → ℤ
  | .before addr _ => ofSize (b.pageNo addr)
  | .pages _ fin => fin

/-- `tagCold`, `tagPage`, `swapOut` and `pageOut`. -/
def advise (b : ShmBuffer) (kind : Kind) (range : Range) (force ok : Bool) :
    Option Advice × ℕ × ShmBuffer :=
  let b := if force then b.setLastEnd kind 0 else b
  b.madvise kind range.beg (range.fin b) ok

def tagCold (b : ShmBuffer) (addr skip : ℕ) := b.advise .cold (.before addr skip)
def tagPage (b : ShmBuffer) (beg fin : ℤ) := b.advise .cold (.pages beg fin)
def swapOut (b : ShmBuffer) (addr skip : ℕ) := b.advise .swap (.before addr skip)
def pageOut (b : ShmBuffer) (beg fin : ℤ) := b.advise .swap (.pages beg fin)

/-- `clearTagRanges`. -/
def clearTagRanges (b : ShmBuffer) : ShmBuffer := { b with coold := 0, swapd := 0 }

/-! ## Pages -/

/-- An object with a mapping of at least one page, which lies in the address space. -/
structure Attached (b : ShmBuffer) : Prop where
  addr : 0 < b.shmP
  onePage : 1 < b.onePage
  pages : 0 < b.pages
  fits : b.shmP + b.onePage * b.pages ≤ 2 ^ 64

/-- Page `k` is among those handed over. -/
def Advice.Covers (a : Advice) (b : ShmBuffer) (k : ℕ) : Prop :=
  a.tagHead ≤ b.shmP + b.onePage * k ∧ b.shmP + b.onePage * (k + 1) ≤ a.tagHead + a.toBe

/-- Page `k` is handed to the system call. -/
def Advised (r : Option Advice × ℕ × ShmBuffer) (b : ShmBuffer) (k : ℕ) : Prop :=
  ∃ a, r.1 = some a ∧ a.Covers b k

@[simp]
theorem lastEnd_setLastEnd (b : ShmBuffer) (kind : Kind) (e : ℕ) :
    (b.setLastEnd kind e).lastEnd kind = e := by
  cases kind <;> rfl

@[simp]
theorem setLastEnd_shmP (b : ShmBuffer) (kind : Kind) (e : ℕ) :
    (b.setLastEnd kind e).shmP = b.shmP := by
  cases kind <;> rfl

@[simp]
theorem setLastEnd_onePage (b : ShmBuffer) (kind : Kind) (e : ℕ) :
    (b.setLastEnd kind e).onePage = b.onePage := by
  cases kind <;> rfl

@[simp]
theorem setLastEnd_pages (b : ShmBuffer) (kind : Kind) (e : ℕ) :
    (b.setLastEnd kind e).pages = b.pages := by
  cases kind <;> rfl

theorem ofSize_eq {n : ℕ} (h : n < 2 ^ 63) : ofSize n = n :=
  Int.bmod_eq_of_le (by norm_num) (by norm_num; omega)

theorem toSize_eq {n : ℕ} (h : n < 2 ^ 64) : toSize n = n := by
  have hcast : (n : ℤ) < 2 ^ 64 := by exact_mod_cast h
  rw [toSize, Int.emod_eq_of_lt (Int.natCast_nonneg n) hcast, Int.toNat_natCast]

/-- Page numbers of a mapping are far from the ends of `int64_t`. -/
theorem Attached.pages_lt {b : ShmBuffer} (h : b.Attached) : b.pages < 2 ^ 63 := by
  have htwo : 2 * b.pages ≤ b.onePage * b.pages := Nat.mul_le_mul_right _ h.onePage
  have hfits := h.fits
  have haddr := h.addr
  omega

/-- So are those of addresses. -/
theorem Attached.pageNo_lt {b : ShmBuffer} (h : b.Attached) {addr : ℕ} (haddr : addr < 2 ^ 64) :
    b.pageNo addr < 2 ^ 63 := by
  rw [pageNo]
  split
  · norm_num
  · have htwo : 2 * 2 ^ 63 ≤ b.onePage * 2 ^ 63 := Nat.mul_le_mul_right _ h.onePage
    exact Nat.div_lt_of_lt_mul (by omega)

theorem Attached.setLastEnd {b : ShmBuffer} (h : b.Attached) (kind : Kind) (e : ℕ) :
    (b.setLastEnd kind e).Attached := by
  refine ⟨?_, ?_, ?_, ?_⟩ <;> simp only [setLastEnd_shmP, setLastEnd_onePage, setLastEnd_pages]
  · exact h.addr
  · exact h.onePage
  · exact h.pages
  · exact h.fits

/-- The first page exists. -/
theorem firstPage_mem {pages : ℤ} (h : 0 < pages) (beg : ℤ) :
    0 ≤ firstPage pages beg ∧ firstPage pages beg < pages := by
  rw [firstPage]
  omega

theorem lastPage_le {pages : ℤ} (h : 0 < pages) (fin : ℤ) :
    0 ≤ lastPage pages fin ∧ lastPage pages fin ≤ pages := by
  rw [lastPage]
  omega

/-- What `_madvise` does, for a range that is `beg` and `fin` in the mapping. -/
theorem madvise_eq {b : ShmBuffer} (h : b.Attached) (kind : Kind) {beg fin : ℤ} {m e : ℕ}
    (hbeg : firstPage b.pages beg = m) (hfin : lastPage b.pages fin = e) (ok : Bool) :
    b.madvise kind beg fin ok =
      if (e : ℤ) ≤ ofSize (b.lastEnd kind) ∨ e ≤ m then (none, 0, b)
      else
        (some ⟨b.shmP + b.onePage * m, (e - m) * b.onePage, kind⟩,
          if ok then ((e - m) * b.onePage, b.setLastEnd kind e) else (0, b)) := by
  have hle : e ≤ b.pages := by
    have := (lastPage_le (by exact_mod_cast h.pages : (0 : ℤ) < b.pages) fin).2
    omega
  have hmul : b.onePage * e ≤ b.onePage * b.pages := Nat.mul_le_mul_left _ hle
  have hfits := h.fits
  have haddr := h.addr
  have hpages := h.pages_lt
  rw [madvise, ofSize_eq hpages]
  simp only [hbeg, hfin]
  by_cases hskip : (e : ℤ) ≤ ofSize (b.lastEnd kind) ∨ e ≤ m
  · rw [if_pos hskip, if_pos (by omega)]
  · obtain ⟨hmore, hcool⟩ := not_or.mp hskip
    have hlt : m < e := not_le.mp hcool
    have hmul' : b.onePage * m < b.onePage * e :=
      Nat.mul_lt_mul_of_pos_left hlt (zero_lt_one.trans h.onePage)
    have hlen : (e - m) * b.onePage + b.onePage * m = b.onePage * e := by
      rw [Nat.mul_comm, ← Nat.mul_add, Nat.sub_add_cancel hlt.le]
    have htoBe : toSize (((e : ℤ) - m) * b.onePage) = (e - m) * b.onePage := by
      rw [← Nat.cast_sub hlt.le, ← Nat.cast_mul]
      exact toSize_eq (by omega)
    have hhead : toSize (b.shmP + b.onePage * (m : ℤ)) = b.shmP + b.onePage * m := by
      rw [← Nat.cast_mul, ← Nat.cast_add]
      exact toSize_eq (by omega)
    rw [if_neg hskip, if_neg (by omega), htoBe, hhead, toSize_eq (by omega : e < 2 ^ 64)]
    cases ok <;> rfl

/-- **The pages that `_madvise` hands over**: those of the range, if it goes beyond the last one. -/
theorem advised_madvise_iff {b : ShmBuffer} (h : b.Attached) (kind : Kind) (beg fin : ℤ)
    (ok : Bool) (k : ℕ) :
    Advised (b.madvise kind beg fin ok) b k ↔
      ofSize (b.lastEnd kind) < lastPage b.pages fin ∧
        firstPage b.pages beg ≤ k ∧ k < lastPage b.pages fin := by
  have hpages : (0 : ℤ) < b.pages := by exact_mod_cast h.pages
  obtain ⟨m, hm⟩ := Int.eq_ofNat_of_zero_le (firstPage_mem hpages beg).1
  obtain ⟨e, he⟩ := Int.eq_ofNat_of_zero_le (lastPage_le hpages fin).1
  rw [Advised, madvise_eq h kind hm he, hm, he]
  by_cases hskip : (e : ℤ) ≤ ofSize (b.lastEnd kind) ∨ e ≤ m
  · rw [if_pos hskip]
    simp only [reduceCtorEq, false_and, exists_false, false_iff]
    omega
  · obtain ⟨hmore, hcool⟩ := not_or.mp hskip
    have hlt : m < e := not_le.mp hcool
    have hpage : 0 < b.onePage := zero_lt_one.trans h.onePage
    have hlen : b.shmP + b.onePage * m + (e - m) * b.onePage = b.shmP + b.onePage * e := by
      rw [Nat.add_assoc, Nat.mul_comm (e - m), ← Nat.mul_add, Nat.add_sub_cancel' hlt.le]
    rw [if_neg hskip]
    simp only [Option.some.injEq, exists_eq_left', Advice.Covers, hlen, Nat.add_le_add_iff_left,
      Nat.mul_le_mul_left_iff hpage]
    omega

/-- Which pages an advice covers does not depend on what is remembered. -/
theorem advised_setLastEnd {r : Option Advice × ℕ × ShmBuffer} {b : ShmBuffer} {kind : Kind}
    {e k : ℕ} : Advised r (b.setLastEnd kind e) k ↔ Advised r b k := by
  simp only [Advised, Advice.Covers, setLastEnd_shmP, setLastEnd_onePage]

theorem Range.fin_setLastEnd (range : Range) (b : ShmBuffer) (kind : Kind) (e : ℕ) :
    range.fin (b.setLastEnd kind e) = range.fin b := by
  cases range with
  | before addr skip => simp only [Range.fin, pageNo, setLastEnd_shmP, setLastEnd_onePage]
  | pages beg fin => rfl

/-- The page up to which advice is taken to have been given already. -/
def doneEnd (b : ShmBuffer) (kind : Kind) (force : Bool) : ℤ :=
  if force then 0 else ofSize (b.lastEnd kind)

@[simp]
theorem doneEnd_true (b : ShmBuffer) (kind : Kind) : b.doneEnd kind true = 0 := if_pos rfl

@[simp]
theorem doneEnd_false (b : ShmBuffer) (kind : Kind) :
    b.doneEnd kind false = ofSize (b.lastEnd kind) := if_neg Bool.false_ne_true

/-- **The pages that the members hand over.** -/
theorem advised_advise_iff {b : ShmBuffer} (h : b.Attached) (kind : Kind) (range : Range)
    (force ok : Bool) (k : ℕ) :
    Advised (b.advise kind range force ok) b k ↔
      b.doneEnd kind force < lastPage b.pages (range.fin b) ∧
        firstPage b.pages range.beg ≤ k ∧ k < lastPage b.pages (range.fin b) := by
  cases force with
  | false =>
    rw [advise, if_neg Bool.false_ne_true, doneEnd_false]
    exact advised_madvise_iff h kind range.beg (range.fin b) ok k
  | true =>
    have hspec := advised_madvise_iff (h.setLastEnd kind 0) kind range.beg (range.fin b) ok k
    rw [advised_setLastEnd, lastEnd_setLastEnd, setLastEnd_pages] at hspec
    rw [advise, if_pos rfl, doneEnd_true, Range.fin_setLastEnd]
    exact hspec

/-! ## Pages before an address -/

/-- **All pages handed over lie before the address** unless it is below the second page, which
counts as no end at all. -/
theorem advise_before_iff {b : ShmBuffer} (h : b.Attached) (kind : Kind) {addr : ℕ}
    (haddr : addr < 2 ^ 64) (skip : ℕ) (force ok : Bool) :
    (∀ k, Advised (b.advise kind (.before addr skip) force ok) b k →
        b.shmP + b.onePage * (k + 1) ≤ addr) ↔
      b.shmP + b.onePage ≤ addr ∨
        force = false ∧ (b.pages : ℤ) ≤ ofSize (b.lastEnd kind) := by
  have hpages : (0 : ℤ) < b.pages := by exact_mod_cast h.pages
  have hpage : 0 < b.onePage := zero_lt_one.trans h.onePage
  have hfin : (Range.before addr skip).fin b = b.pageNo addr := ofSize_eq (h.pageNo_lt haddr)
  obtain ⟨hfirst0, hfirst⟩ := firstPage_mem hpages (ofSize skip)
  simp only [advised_advise_iff h, hfin, Range.beg]
  by_cases hin : b.shmP + b.onePage ≤ addr
  · -- the address has a page number, and all pages before that one lie before the address
    refine iff_of_true (fun k hk => ?_) (Or.inl hin)
    have hnum : b.pageNo addr = (addr - b.shmP) / b.onePage := if_neg (by omega)
    have hpos : 0 < b.pageNo addr := by
      rw [hnum]
      exact Nat.div_pos (by omega) hpage
    have hk : k + 1 ≤ b.pageNo addr := by
      have := hk.2.2
      rw [lastPage, if_pos (by omega)] at this
      omega
    have hmul := (Nat.mul_le_mul_left b.onePage hk).trans
      (hnum ▸ Nat.mul_div_le (addr - b.shmP) b.onePage)
    omega
  · -- the page number is zero, which stands for all pages
    have hnum : b.pageNo addr = 0 := by
      rw [pageNo]
      split
      · rfl
      · exact Nat.div_eq_of_lt (by omega)
    have hlast : lastPage b.pages (b.pageNo addr) = b.pages := by
      rw [hnum, lastPage]
      omega
    rw [or_iff_right hin, hlast]
    refine ⟨fun hall => ?_, fun hskip k hk => ?_⟩
    · by_contra hgo
      have hmore : b.doneEnd kind force < b.pages := by
        cases force with
        | true =>
          rw [doneEnd_true]
          exact hpages
        | false =>
          rw [doneEnd_false]
          exact not_le.mp fun hle => hgo ⟨rfl, hle⟩
      obtain ⟨m, hm⟩ := Int.eq_ofNat_of_zero_le hfirst0
      have hbefore := hall m ⟨hmore, hm.le, hm ▸ hfirst⟩
      have hmul : b.onePage * 1 ≤ b.onePage * (m + 1) := Nat.mul_le_mul_left _ (by omega)
      omega
    · obtain ⟨hforce, hskip⟩ := hskip
      rw [hforce, doneEnd_false] at hk
      omega

/-- A mapping of two pages. -/
def twoPages : ShmBuffer :=
  { shmN := "q", shmP := 65536, bytes := 8192, pages := 2, onePage := 4096 }

theorem twoPages_attached : twoPages.Attached := ⟨by decide, by decide, by decide, by decide⟩

/-- An address below the mapping. -/
theorem not_advise_before :
    ¬ ∀ k, Advised (twoPages.tagCold 100 0 false true) twoPages k →
      twoPages.shmP + twoPages.onePage * (k + 1) ≤ 100 := by
  intro h
  exact absurd (h 0 ⟨⟨65536, 8192, .cold⟩, by decide +kernel, by decide, by decide⟩) (by decide)

theorem advise_before_iff_sample :
    (∀ k, Advised (twoPages.advise .cold (.before 70000 0) false true) twoPages k →
        twoPages.shmP + twoPages.onePage * (k + 1) ≤ 70000) ↔
      twoPages.shmP + twoPages.onePage ≤ 70000 ∨
        false = false ∧ (twoPages.pages : ℤ) ≤ ofSize (twoPages.lastEnd .cold) :=
  advise_before_iff twoPages_attached .cold (by decide) 0 false true

/-! ## A range of pages -/

/-- **A forced call hands over the pages asked for**, unless these begin and end beyond the last
page, which is handed over then. -/
theorem forced_iff {b : ShmBuffer} (h : b.Attached) (kind : Kind) (beg fin : ℤ) (ok : Bool) :
    (∀ k : ℕ, Advised (b.advise kind (.pages beg fin) true ok) b k ↔
        k < b.pages ∧ (if beg < 0 then b.pages + beg else beg) ≤ k ∧
          k < if fin ≤ 0 then b.pages + fin else fin) ↔
      ¬ (b.pages ≤ beg ∧ (fin = 0 ∨ b.pages ≤ fin)) := by
  have hpages : (0 : ℤ) < b.pages := by exact_mod_cast h.pages
  simp only [advised_advise_iff h, doneEnd_true, Range.beg, Range.fin, firstPage, lastPage]
  refine ⟨fun hall hbad => ?_, fun hgood k => ?_⟩
  · -- the last page is handed over
    have hlast := hall (b.pages - 1)
    omega
  · omega

/-- A range that begins behind the last page. -/
theorem not_forced :
    ¬ ∀ k : ℕ, Advised (twoPages.tagPage 2 0 true true) twoPages k ↔
      k < twoPages.pages ∧ (if (2 : ℤ) < 0 then (twoPages.pages : ℤ) + 2 else 2) ≤ k ∧
        k < if (0 : ℤ) ≤ 0 then (twoPages.pages : ℤ) + 0 else 0 := by
  intro h
  exact absurd ((h 1).mp ⟨⟨69632, 4096, .cold⟩, by decide +kernel, by decide, by decide⟩)
    (by decide)

theorem forced_iff_sample :
    (∀ k : ℕ, Advised (twoPages.advise .swap (.pages (-1) 0) true true) twoPages k ↔
        k < twoPages.pages ∧ (if (-1 : ℤ) < 0 then (twoPages.pages : ℤ) + -1 else -1) ≤ k ∧
          k < if (0 : ℤ) ≤ 0 then (twoPages.pages : ℤ) + 0 else 0) ↔
      ¬ ((twoPages.pages : ℤ) ≤ -1 ∧ ((0 : ℤ) = 0 ∨ (twoPages.pages : ℤ) ≤ 0)) :=
  forced_iff twoPages_attached .swap (-1) 0 true

end ShmBuffer

end LeonUtils
