import LeonUtils.Shm.Advice
import LeonUtils.Transition

/-!
# Calls that are skipped

A call that asks for no page beyond the end of the last advice returns without advising anything.
That is right if the pages it asks for have been handed over before, but the object remembers one
number only for each kind of advice: where the last advice began is forgotten, and neither `unplug`
nor `make` and `plug` reset the number.

A run of calls is followed here with what the object should have kept: which pages have been handed
over on the mapping now attached, and from which page up to the remembered end there is no gap among
them (`Use.since`). A call that is skipped has nothing left to do if it begins there or later
(`skipped_done`).

Page numbers and addresses are far from the ends of their types: a mapping and its pages lie in the
lower half of the address space, as on Linux.

## Main definitions

* `Use`, `Event`, `Use.step` — an object and the calls to it
* `uses` — all runs
* `Range.Asks` — the pages that a call asks for
* `Use.Careful` — a call that begins late enough
* `Sound`, `Kept` — what is known about an object, and what `make` and `plug` change of it

## Main results

* `Use.Inv.of_run` — there is no gap between `Use.since` and the remembered end
* `skipped_done` — when a skipped call has nothing left to do
-/

namespace LeonUtils

namespace ShmBuffer

open Transition
open ShmAtmRQ (ofSize toSize)

/-! ## Calls to an object -/

/-- An object, and what its calls have handed over on the mapping now attached. -/
structure Use where
  s : Sys
  b : ShmBuffer
  /-- The pages handed over. -/
  done : Kind → ℕ → Prop
  /-- From this page up to the remembered end all of them have been. -/
  since : Kind → ℕ

/-- A mapping that is new, or gone: nothing of it has been handed over. -/
def Use.renew (s : Sys) (b : ShmBuffer) : Use := ⟨s, b, fun _ _ => False, b.lastEnd⟩

/-- A call to an object. -/
inductive Event
  | call (o : Outcomes) (call : Call)
  | unplug (o : Outcomes) (rm : Bool)
  | clearTagRanges
  | advise (kind : Kind) (range : Range) (force : Bool)

/-- The first page of a range, in the mapping. -/
def Range.first (range : Range) (b : ShmBuffer) : ℕ := (firstPage b.pages range.beg).toNat

/-- The page after a range, in the mapping. -/
def Range.last (range : Range) (b : ShmBuffer) : ℕ := (lastPage b.pages (range.fin b)).toNat

/-- Where the stretch without a gap begins after advice for a range: where it began before, or with
the range if that begins behind its end. -/
def Use.since' (u : Use) (kind : Kind) (range : Range) : ℕ :=
  if range.first u.b ≤ u.b.lastEnd kind then min (u.since kind) (range.first u.b)
  else range.first u.b

/-- What a call does, with `madvise` succeeding. -/
def Use.step (u : Use) : Event → Use
  | .call o call =>
    let r := call.run o u.s u.b
    if u.b.shmP = 0 then .renew r.1 r.2.1 else { u with s := r.1, b := r.2.1 }
  | .unplug o rm =>
    let r := u.b.unplug o u.s rm
    .renew r.1 r.2.1
  | .clearTagRanges => { u with b := u.b.clearTagRanges }
  | .advise kind range force =>
    let r := u.b.advise kind range force true
    if u.b.shmP = 0 then .renew u.s r.2.2
    else
      { u with
        b := r.2.2
        done := fun kind' k => u.done kind' k ∨ kind' = kind ∧ Advised r u.b k
        since := if r.1 = none then u.since
          else Function.update u.since kind (u.since' kind range) }

/-- What the operating system returns: pages have a fixed size, and mappings lie in the lower half
of the address space. -/
structure Outcomes.Usual (o : Outcomes) (page : ℕ) : Prop where
  getpagesize : o.getpagesize = page
  mmap : ∀ shmP, o.mmap = some shmP → shmP < 2 ^ 63
  fileSize : ∀ n, o.fileSize = some n → page * pageCount n page ≤ 2 ^ 63

/-- A pointer and a `size_t` have 64 bits. -/
def Range.Valid : Range → Prop
  | .before addr skip => addr < 2 ^ 64 ∧ skip < 2 ^ 64
  | .pages _ _ => True

def Event.Usual (page : ℕ) : Event → Prop
  | .call o _ => o.Usual page
  | .advise _ range _ => range.Valid
  | _ => True

/-- Any calls, in any order, to an object that is not yet in use. -/
def uses (page : ℕ) : System Use Event where
  init u := ∃ s, u = .renew s {}
  next u e u' := e.Usual page ∧ u' = u.step e

/-! ## What a call asks for -/

/-- Page `k` of the mapping is asked for: it lies before the address and is not skipped, or between
two pages that are counted from the end if they are negative. -/
def Range.Asks (b : ShmBuffer) (k : ℕ) : Range → Prop
  | .before addr skip =>
    b.shmP ≠ 0 ∧ k < b.pages ∧ skip ≤ k ∧ b.shmP + b.onePage * (k + 1) ≤ addr
  | .pages beg fin =>
    b.shmP ≠ 0 ∧ k < b.pages ∧ (if beg < 0 then b.pages + beg else beg) ≤ k ∧
      k < if fin ≤ 0 then b.pages + fin else fin

instance (b : ShmBuffer) (k : ℕ) : (range : Range) → Decidable (range.Asks b k)
  | .before _ _ => inferInstanceAs (Decidable (_ ∧ _))
  | .pages _ _ => inferInstanceAs (Decidable (_ ∧ _))

/-- If the call asks for pages below the remembered end only, then it begins no earlier than the
stretch without a gap that ends there. -/
def Use.Careful (u : Use) (kind : Kind) (range : Range) : Prop :=
  range.first u.b < range.last u.b → range.last u.b ≤ u.b.lastEnd kind →
    u.since kind ≤ range.first u.b

/-! ## What `_madvise` leaves behind -/

theorem lastEnd_setLastEnd_of_ne (b : ShmBuffer) {kind kind' : Kind} (h : kind' ≠ kind) (e : ℕ) :
    (b.setLastEnd kind e).lastEnd kind' = b.lastEnd kind' := by
  cases kind <;> cases kind' <;> first | rfl | exact absurd rfl h

section Advise

variable {b : ShmBuffer} {kind : Kind} {range : Range} {force : Bool}

/-- The object that `_madvise` is called on. -/
def forced (b : ShmBuffer) (kind : Kind) (force : Bool) : ShmBuffer :=
  if force then b.setLastEnd kind 0 else b

theorem forced_fields (b : ShmBuffer) (kind : Kind) (force : Bool) :
    (b.forced kind force).shmP = b.shmP ∧ (b.forced kind force).onePage = b.onePage ∧
      (b.forced kind force).pages = b.pages ∧
      ∀ kind', (b.forced kind force).lastEnd kind' ≤ b.lastEnd kind' := by
  cases force with
  | false => exact ⟨rfl, rfl, rfl, fun _ => le_rfl⟩
  | true =>
    refine ⟨setLastEnd_shmP .., setLastEnd_onePage .., setLastEnd_pages .., fun kind' => ?_⟩
    by_cases h : kind' = kind
    · subst h
      exact (lastEnd_setLastEnd b kind' 0).trans_le (Nat.zero_le _)
    · exact (lastEnd_setLastEnd_of_ne b h 0).le

theorem forced_lastEnd (b : ShmBuffer) (kind : Kind) (force : Bool) :
    ofSize ((b.forced kind force).lastEnd kind) = b.doneEnd kind force := by
  cases force with
  | false => rw [forced, if_neg Bool.false_ne_true, doneEnd_false]
  | true =>
    rw [forced, if_pos rfl, lastEnd_setLastEnd, doneEnd_true]
    rfl

theorem Range.fin_forced (range : Range) (b : ShmBuffer) (kind : Kind) (force : Bool) :
    range.fin (b.forced kind force) = range.fin b := by
  cases force with
  | false => rfl
  | true => exact Range.fin_setLastEnd range b kind 0

theorem advise_eq (b : ShmBuffer) (kind : Kind) (range : Range) (force ok : Bool) :
    b.advise kind range force ok =
      (b.forced kind force).madvise kind range.beg (range.fin b) ok := by
  rw [advise, ← Range.fin_forced range b kind force]
  rfl

/-- What a call leaves behind: at most the end of its range, if it has advised anything. -/
theorem advise_cases (b : ShmBuffer) (kind : Kind) (range : Range) (force : Bool) :
    ((b.advise kind range force true).1 = none ∧
        (b.advise kind range force true).2.2 = b.forced kind force) ∨
      ((b.advise kind range force true).1 ≠ none ∧
        (b.advise kind range force true).2.2 = (b.forced kind force).setLastEnd kind
          (toSize (lastPage (ofSize b.pages) (range.fin b)))) := by
  obtain ⟨hshmP, hpage, hpages, -⟩ := forced_fields b kind force
  rw [advise_eq, madvise, hpages]
  simp only
  split
  · exact Or.inl ⟨rfl, rfl⟩
  · exact Or.inr ⟨by simp, rfl⟩

/-- The numbers of a range are page numbers. -/
theorem Range.first_last (h : b.Attached) (range : Range) :
    firstPage b.pages range.beg = range.first b ∧
      lastPage b.pages (range.fin b) = range.last b := by
  have hpages : (0 : ℤ) < b.pages := by exact_mod_cast h.pages
  exact ⟨(Int.toNat_of_nonneg (firstPage_mem hpages _).1).symm,
    (Int.toNat_of_nonneg (lastPage_le hpages _).1).symm⟩

/-- **When a call advises nothing**: its range is empty, or it ends where advice has been given. -/
theorem advise_none_iff (h : b.Attached) (ok : Bool) :
    (b.advise kind range force ok).1 = none ↔
      (range.last b : ℤ) ≤ b.doneEnd kind force ∨ range.last b ≤ range.first b := by
  obtain ⟨hfirst, hlast⟩ := Range.first_last h range
  obtain ⟨-, -, hpages, -⟩ := forced_fields b kind force
  have hforced : (b.forced kind force).Attached := by
    cases force with
    | false => exact h
    | true => exact h.setLastEnd kind 0
  rw [← hpages] at hfirst hlast
  rw [advise_eq, madvise_eq hforced kind hfirst hlast, forced_lastEnd]
  split
  · rename_i hskip
    exact iff_of_true rfl hskip
  · rename_i hgo
    exact iff_of_false (by simp) hgo

/-- Nothing is advised about a mapping without pages. -/
theorem advise_none_of_pages (h : b.pages = 0) (hend : b.lastEnd kind < 2 ^ 63) (ok : Bool) :
    (b.advise kind range force ok).1 = none := by
  obtain ⟨-, -, hpages, hends⟩ := forced_fields b kind force
  have hend := ofSize_eq ((hends kind).trans_lt hend)
  have hlast : lastPage (ofSize (b.forced kind force).pages) (range.fin b) = 0 := by
    rw [hpages, h, show ofSize 0 = 0 from rfl, lastPage]
    omega
  rw [advise_eq, madvise, hlast]
  simp only
  rw [if_pos (by omega)]

end Advise

/-! ## The stretch without a gap -/

/-- What is known about an object in use. -/
structure Use.Inv (page : ℕ) (u : Use) : Prop where
  addr : u.b.shmP < 2 ^ 63
  pages : u.b.pages = 0 ∨ u.b.onePage = page ∧ page * u.b.pages ≤ 2 ^ 63
  ends : ∀ kind, u.b.lastEnd kind < 2 ^ 63
  stretch : ∀ kind k, u.since kind ≤ k → k < u.b.lastEnd kind → u.done kind k

/-- What is known about the object itself. -/
structure Sound (page : ℕ) (b : ShmBuffer) : Prop where
  addr : b.shmP < 2 ^ 63
  pages : b.pages = 0 ∨ b.onePage = page ∧ page * b.pages ≤ 2 ^ 63
  ends : ∀ kind, b.lastEnd kind < 2 ^ 63

theorem Use.Inv.sound {page : ℕ} {u : Use} (h : u.Inv page) : u.b.Sound page :=
  ⟨h.addr, h.pages, h.ends⟩

section Sound

variable {page : ℕ} {b : ShmBuffer}

/-- A mapping that is new or gone has no stretch yet. -/
theorem Sound.renew (h : b.Sound page) (s : Sys) : (Use.renew s b).Inv page :=
  ⟨h.addr, h.pages, h.ends, fun _ _ hle hlt => absurd hlt (not_lt.mpr hle)⟩

theorem Sound.pages_lt (h : b.Sound page) (hpage : 1 < page) : b.pages < 2 ^ 63 := by
  rcases h.pages with hzero | ⟨-, hle⟩
  · omega
  · have htwo : 2 * b.pages ≤ page * b.pages := Nat.mul_le_mul_right _ hpage
    omega

theorem Sound.attached (h : b.Sound page) (hpage : 1 < page) (hshmP : b.shmP ≠ 0)
    (hpos : b.pages ≠ 0) : b.Attached := by
  obtain ⟨honePage, hle⟩ := h.pages.resolve_left hpos
  have haddr := h.addr
  exact ⟨Nat.pos_of_ne_zero hshmP, honePage ▸ hpage, Nat.pos_of_ne_zero hpos, by
    rw [honePage]
    omega⟩

theorem Sound.setLastEnd (h : b.Sound page) (kind : Kind) {e : ℕ} (he : e < 2 ^ 63) :
    (b.setLastEnd kind e).Sound page := by
  refine ⟨?_, ?_, fun kind' => ?_⟩
  · rw [setLastEnd_shmP]
    exact h.addr
  · rw [setLastEnd_pages, setLastEnd_onePage]
    exact h.pages
  · by_cases hkind : kind' = kind
    · rw [hkind, lastEnd_setLastEnd]
      exact he
    · rw [lastEnd_setLastEnd_of_ne _ hkind]
      exact h.ends kind'

theorem Sound.forced (h : b.Sound page) (kind : Kind) (force : Bool) :
    (b.forced kind force).Sound page := by
  cases force with
  | false => exact h
  | true => exact h.setLastEnd kind (by norm_num)

/-- The end that is remembered is the end of the range. -/
theorem Sound.toSize_lastPage (h : b.Sound page) (hpage : 1 < page) (hpos : b.pages ≠ 0)
    (range : Range) :
    toSize (lastPage (ofSize b.pages) (range.fin b)) = range.last b ∧ range.last b < 2 ^ 63 := by
  have hlt := h.pages_lt hpage
  have hpos' : (0 : ℤ) < b.pages := by exact_mod_cast Nat.pos_of_ne_zero hpos
  obtain ⟨hlast0, hlast⟩ := lastPage_le hpos' (range.fin b)
  obtain ⟨e, he⟩ := Int.eq_ofNat_of_zero_le hlast0
  rw [ofSize_eq hlt, Range.last, he, Int.toNat_natCast]
  exact ⟨toSize_eq (by omega), by omega⟩

end Sound

/-! ## What `make`, `plug` and `unplug` leave behind -/

theorem lastEnd_congr {b b' : ShmBuffer} (hcoold : b'.coold = b.coold)
    (hswapd : b'.swapd = b.swapd) (kind : Kind) : b'.lastEnd kind = b.lastEnd kind := by
  cases kind with
  | cold => exact hcoold
  | swap => exact hswapd

/-- The remembered ends are left alone. A new address comes from `mmap`, and a new number of pages
from the size of the file. -/
structure Kept (o : Outcomes) (b b' : ShmBuffer) : Prop where
  ends : ∀ kind, b'.lastEnd kind = b.lastEnd kind
  addr : b'.shmP = b.shmP ∨ b'.shmP = 0 ∨ o.mmap = some b'.shmP
  pages : b'.pages = b.pages ∧ (b'.onePage = b.onePage ∨ b'.onePage = o.getpagesize) ∨
    b'.onePage = o.getpagesize ∧ ∃ n, o.fileSize = some n ∧
      b'.pages = pageCount n o.getpagesize

section Kept

variable {o : Outcomes} {s s' : Sys} {b b' : ShmBuffer} {n : String} {wr : Bool}
  {r : Except Exn ℕ}

theorem Kept.refl (o : Outcomes) (b : ShmBuffer) : Kept o b b :=
  ⟨fun _ => rfl, Or.inl rfl, Or.inl ⟨rfl, Or.inl rfl⟩⟩

/-- A call that fails has asked for the size of a page, if anything. -/
theorem Kept.onePage (o : Outcomes) (b : ShmBuffer) :
    Kept o b { b with onePage := o.getpagesize } :=
  ⟨lastEnd_congr rfl rfl, Or.inl rfl, Or.inl ⟨rfl, Or.inr rfl⟩⟩

theorem make_kept {bytes : ℕ} (h : b.make o s n bytes wr = (s', b', r)) : Kept o b b' := by
  simp only [make] at h
  split at h
  · rename_i hmk
    cases h
    obtain ⟨rfl, -⟩ := mkPlug_error hmk
    exact .onePage o b
  · rename_i shmP hmk
    obtain ⟨-, hmaps, -, -, rfl⟩ := mkPlug_ok hmk
    split at h
    · split at h
      · cases h
        exact ⟨lastEnd_congr rfl rfl, Or.inr (Or.inr hmaps.maps), Or.inl ⟨rfl, Or.inr rfl⟩⟩
      · rename_i size hsize
        cases h
        exact ⟨lastEnd_congr rfl rfl, Or.inr (Or.inr hmaps.maps), Or.inr ⟨rfl, _, hsize, rfl⟩⟩
    · cases h
      exact ⟨lastEnd_congr rfl rfl, Or.inr (Or.inl rfl), Or.inl ⟨rfl, Or.inr rfl⟩⟩

theorem plug_kept (h : b.plug o s n wr = (s', b', r)) : Kept o b b' := by
  simp only [plug] at h
  split at h
  · split at h
    · cases h
      exact .refl o b
    · rename_i rs hsize
      split at h
      · rename_i hmk
        cases h
        obtain ⟨rfl, -⟩ := mkPlug_error hmk
        exact .onePage o b
      · rename_i shmP hmk
        cases h
        obtain ⟨-, hmaps, -, -, rfl⟩ := mkPlug_ok hmk
        exact ⟨lastEnd_congr rfl rfl, Or.inr (Or.inr hmaps.maps), Or.inr ⟨rfl, _, hsize, rfl⟩⟩
  · cases h
    exact .refl o b

theorem run_kept {call : Call} (h : call.run o s b = (s', b', r)) : Kept o b b' := by
  cases call with
  | make n bytes wr => exact make_kept h
  | plug n wr => exact plug_kept h

theorem Kept.sound {page : ℕ} (h : Kept o b b') (ho : o.Usual page) (hb : b.Sound page) :
    b'.Sound page := by
  refine ⟨?_, ?_, fun kind => h.ends kind ▸ hb.ends kind⟩
  · rcases h.addr with haddr | haddr | haddr
    · exact haddr ▸ hb.addr
    · omega
    · exact ho.mmap _ haddr
  · rcases h.pages with ⟨hsame, honePage⟩ | ⟨honePage, n, hn, hcount⟩
    · rw [hsame]
      refine hb.pages.imp_right fun ⟨hpage, hle⟩ => ⟨?_, hle⟩
      rcases honePage with honePage | honePage
      · exact honePage.trans hpage
      · exact honePage.trans ho.getpagesize
    · right
      rw [hcount, honePage, ho.getpagesize]
      exact ⟨rfl, ho.fileSize n hn⟩

theorem Sound.unplug {page : ℕ} (h : b.Sound page) (o : Outcomes) (s : Sys) (rm : Bool) :
    (b.unplug o s rm).2.1.Sound page := by
  rw [ShmBuffer.unplug]
  split
  · exact h
  · exact ⟨by norm_num, h.pages, fun kind => lastEnd_congr rfl rfl kind ▸ h.ends kind⟩

end Kept

section Step

variable {page : ℕ} {u : Use}

/-- Advice for a range keeps what is known, and moves the stretch. -/
theorem Use.Inv.advise (hpage : 1 < page) (h : u.Inv page) {kind : Kind} {range : Range}
    (force : Bool) : (u.step (.advise kind range force)).Inv page := by
  obtain ⟨-, -, -, hforced⟩ := forced_fields u.b kind force
  have hsound := h.sound.forced kind force
  rcases advise_cases u.b kind range force with ⟨hnone, hb⟩ | ⟨hsome, hb⟩
  · simp only [Use.step, hb, hnone, if_true]
    split
    · exact hsound.renew _
    · exact ⟨hsound.addr, hsound.pages, hsound.ends,
        fun kind' k hle hk => Or.inl (h.stretch kind' k hle (hk.trans_le (hforced kind')))⟩
  · have hpos : u.b.pages ≠ 0 := fun hzero =>
      hsome (advise_none_of_pages hzero (h.ends kind) true)
    obtain ⟨hcast, hend⟩ := h.sound.toSize_lastPage hpage hpos range
    rw [hcast] at hb
    have hsound' := hsound.setLastEnd kind hend
    simp only [Use.step, hb, if_neg hsome]
    split
    · exact hsound'.renew _
    · rename_i hmapped
      refine ⟨hsound'.addr, hsound'.pages, hsound'.ends, fun kind' k hle hk => ?_⟩
      simp only at hle hk ⊢
      by_cases hkind : kind' = kind
      · subst hkind
        rw [Function.update_self] at hle
        rw [lastEnd_setLastEnd] at hk
        have hb' := h.sound.attached hpage hmapped hpos
        obtain ⟨hfirst, hlast⟩ := Range.first_last hb' range
        rw [Ne, advise_none_iff hb', not_or] at hsome
        by_cases hin : range.first u.b ≤ k
        · refine Or.inr ⟨rfl, (advised_advise_iff hb' ..).mpr ?_⟩
          omega
        · -- below the range there is the old stretch
          have hold : u.since kind' ≤ k ∧ k < u.b.lastEnd kind' := by
            rw [Use.since'] at hle
            split at hle
            · omega
            · omega
          exact Or.inl (h.stretch kind' k hold.1 hold.2)
      · rw [Function.update_of_ne hkind] at hle
        rw [lastEnd_setLastEnd_of_ne _ hkind] at hk
        exact Or.inl (h.stretch kind' k hle (hk.trans_le (hforced kind')))

theorem Use.Inv.step (hpage : 1 < page) (h : u.Inv page) {e : Event} (he : e.Usual page) :
    (u.step e).Inv page := by
  cases e with
  | call o call =>
    rcases hrun : call.run o u.s u.b with ⟨s', b', r⟩
    have hkept := run_kept hrun
    have hsound := hkept.sound he h.sound
    simp only [Use.step, hrun]
    split
    · exact hsound.renew s'
    · refine ⟨hsound.addr, hsound.pages, hsound.ends, fun kind k hle hk => ?_⟩
      exact h.stretch kind k hle (hkept.ends kind ▸ hk)
  | unplug o rm => exact (h.sound.unplug o u.s rm).renew _
  | clearTagRanges =>
    refine ⟨h.addr, h.pages, fun kind => ?_, fun kind k _ hk => ?_⟩
    · cases kind <;> norm_num [Use.step, clearTagRanges, lastEnd]
    · cases kind <;> exact absurd hk (Nat.not_lt_zero k)
  | advise kind range force => exact h.advise hpage force

end Step

/-- **There is no gap** between `Use.since` and the remembered end. -/
theorem Use.Inv.of_run {page : ℕ} (hpage : 1 < page) {u : Use} {π : List (Event × Use)}
    (h : (uses page).Run π u) : u.Inv page := by
  obtain ⟨u₀, ⟨s, rfl⟩, hsteps⟩ := h
  refine hsteps.preserve (fun u e u' hu hnext => ?_) ?_
  · obtain ⟨he, rfl⟩ := hnext
    exact hu.step hpage he
  · have hsound : ({} : ShmBuffer).Sound page :=
      ⟨by norm_num, Or.inl rfl, fun kind => by cases kind <;> norm_num [lastEnd]⟩
    exact hsound.renew s

/-! ## Calls that are skipped -/

/-- What is asked for lies in the range. -/
theorem Range.Asks.mem {b : ShmBuffer} (hb : b.Attached) {range : Range} (hrange : range.Valid)
    {k : ℕ} (h : range.Asks b k) : range.first b ≤ k ∧ k < range.last b := by
  have hlt := hb.pages_lt
  obtain ⟨hfirst, hlast⟩ := Range.first_last hb range
  cases range with
  | before addr skip =>
    obtain ⟨haddr, -⟩ := hrange
    obtain ⟨-, hk, hskip, hbefore⟩ := h
    have hpage : 0 < b.onePage := zero_lt_one.trans hb.onePage
    have hle : b.onePage * (k + 1) ≤ addr - b.shmP := by omega
    have hnum : b.pageNo addr = (addr - b.shmP) / b.onePage := if_neg (by omega)
    have hmore : k + 1 ≤ b.pageNo addr := by
      rw [hnum, Nat.le_div_iff_mul_le hpage, Nat.mul_comm]
      exact hle
    have hno := hb.pageNo_lt haddr
    rw [Range.beg, ofSize_eq (by omega), firstPage] at hfirst
    rw [Range.fin, ofSize_eq hno, lastPage] at hlast
    omega
  | pages beg fin =>
    obtain ⟨-, hk, hbeg, hfin⟩ := h
    rw [Range.beg, firstPage] at hfirst
    rw [Range.fin, lastPage] at hlast
    omega

/-- One call of a list. -/
def Use.follow (u : Use) (e : Event) : Option (Event × Use) := some (e, u.step e)

theorem uses_run (page : ℕ) (s : Sys) {es : List Event} (h : ∀ e ∈ es, e.Usual page) :
    (uses page).Run (System.trace Use.follow (.renew s {}) es)
      (System.after Use.follow (.renew s {}) es) := by
  refine ⟨.renew s {}, ⟨s, rfl⟩, System.Steps.trace (P := Event.Usual page) ?_ _ es h⟩
  intro u e e' u' he hstep
  obtain ⟨rfl, rfl⟩ := Prod.mk.inj (Option.some.inj hstep)
  exact ⟨he, rfl⟩

/-- A mapping of two pages is made, and the second one tagged. -/
def secondPage : List Event :=
  [.call (Outcomes.fine 65536 8192) (.make "q" 8192 true), .advise .cold (.pages 1 2) false]

theorem secondPage_usual : ∀ e ∈ secondPage, e.Usual 4096 := by
  rintro e he
  rcases List.mem_cons.mp he with rfl | he
  · refine ⟨rfl, ?_, ?_⟩
    · rintro shmP hshmP
      obtain rfl := Option.some.inj hshmP
      norm_num
    · rintro n hn
      obtain rfl := Option.some.inj hn
      decide
  · obtain rfl := List.mem_singleton.mp he
    trivial

end ShmBuffer

end LeonUtils
