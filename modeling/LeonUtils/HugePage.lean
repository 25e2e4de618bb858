import LeonUtils.Shm.Buffer
import LeonUtils.Transition

/-!
# Huge pages

The class `HugePage_t`: one object, from its construction to its destruction, and the mappings of
the process. What comes out of `mmap` is part of the event.

`make` stores the result of `mmap` before it looks at it. After a failure the object therefore has
the address `MAP_FAILED` and no bytes: `get` is not null, another `make` takes the object for one
that is in use, and the destructor hands that address to `munmap`. As long as no `mmap` fails, all
is as it should be (`sound_iff`).

Exceptions have the texts of the source without the system's own errors. What is only printed is
left out.

## Main definitions

* `HugePage`, `HugePage.Sys` — the object, and what the process has mapped
* `HugePage.make`, `HugePage.release`, `HugePage.destroy` — the members
* `HugePage.Right` — `get` tells whether the object holds what `bytes` says

## Main results

* `HugePage.Good.next` — what a step does, as long as no `mmap` fails
* `HugePage.sound_iff` — every step of a run is sound just when no `mmap` has failed
-/

namespace LeonUtils

open Transition System

/-- `HugePage_t`. The address `0` is `nullptr`. -/
structure HugePage where
  shmP : ℕ := 0
  bytes : ℤ := 0
  onePage : ℤ := 0

namespace HugePage

open ShmBuffer (Exn)

/-! ## The system -/

/-- A mapping. -/
@[ext]
structure Mapping where
  addr : ℕ
  len : ℕ
  pos : 0 < len

/-- What the process has mapped: through the object, and otherwise. -/
structure Sys where
  mine : List Mapping
  others : List Mapping

/-- `MAP_FAILED`. -/
def mapFailed : ℕ := 2 ^ 64 - 1

/-- The two ranges have no address in common. -/
def Apart (m : Mapping) (addr len : ℕ) : Prop := m.addr + m.len ≤ addr ∨ addr + len ≤ m.addr

/-- What may come out of `mmap` for `len` bytes: a failure, or an address on a page's boundary in
the lower half of the address space, at which so many bytes are free. -/
def Sys.Allows (s : Sys) (len : ℕ) (o : Option ℕ) : Prop :=
  ∀ p ∈ o, p ≠ 0 ∧ p % 4096 = 0 ∧ 0 < len ∧ p + len ≤ 2 ^ 63 ∧
    ∀ m ∈ s.mine ++ s.others, Apart m p len

def Sys.mmap (s : Sys) (len : ℕ) (o : Option ℕ) : Sys :=
  match o with
  | none => s
  | some p => if h : 0 < len then { s with mine := ⟨p, len, h⟩ :: s.mine } else s

/-- What is left of a mapping once a range has been unmapped. -/
def Mapping.cut (addr len : ℕ) (m : Mapping) : List Mapping :=
  (if h : m.addr < addr then
    [⟨m.addr, min m.len (addr - m.addr), by have := m.pos; omega⟩] else []) ++
  if h : addr + len < m.addr + m.len then
    [⟨max m.addr (addr + len), m.addr + m.len - max m.addr (addr + len), by
      have := m.pos; omega⟩] else []

/-- `munmap`. An address inside a page and the length `0` are refused. -/
def Sys.munmap (s : Sys) (addr len : ℕ) : Sys :=
  if addr % 4096 ≠ 0 ∨ len = 0 then s
  else ⟨s.mine.flatMap (Mapping.cut addr len), s.others.flatMap (Mapping.cut addr len)⟩

/-! ## The code -/

/-- `HUGE_PAGE_SIZE`. -/
def hugePageSize : ℤ := 2048 * 1024

/-- `static_cast<double>` of an `ssize_t`: 53 significant bits, halves to even. -/
def toDouble (b : ℤ) : ℤ :=
  let e := Nat.log2 b.natAbs - 52
  b.sign * (Text.roundDiv b.natAbs (2 ^ e) * 2 ^ e : ℕ)

/-- What `make` turns its argument into: the size of whole pages, as an `ssize_t`. -/
def wholePages (b onePage : ℤ) : ℤ := Int.bmod (-(-toDouble b / onePage) * onePage) (2 ^ 64)

/-- The conversion of an `ssize_t` to `size_t`. -/
def toSize (b : ℤ) : ℕ := (b % 2 ^ 64).toNat

/-- The object is in use. -/
def Misused (h : HugePage) : Prop := h.shmP ≠ 0 ∨ h.bytes ≠ 0

instance (h : HugePage) : Decidable h.Misused := inferInstanceAs (Decidable (_ ∨ _))

/-- `make`. -/
def make (o : Option ℕ) (s : Sys) (h : HugePage) (b : ℤ) : Sys × HugePage × Except Exn ℤ :=
  let h := { h with onePage := hugePageSize }
  if h.Misused then (s, h, .error (.badUsage "重复申请的HugePage!!!"))
  else
    let b := wholePages b h.onePage
    let s := s.mmap (toSize b) o
    let h := { h with shmP := o.getD mapFailed }
    if h.shmP = mapFailed then (s, h, .error (.runtime "mmap错误:"))
    else (s, { h with bytes := b }, .ok b)

/-- `release`. -/
def release (s : Sys) (h : HugePage) : Sys × HugePage × Except Exn Unit :=
  if h.shmP = 0 then (s, h, .error (.badUsage "重复释放shm!!!"))
  else (s.munmap h.shmP (toSize h.bytes), { h with shmP := 0, bytes := 0 }, .ok ())

/-- `~HugePage_t`. -/
def destroy (s : Sys) (h : HugePage) : Sys := if h.shmP ≠ 0 then (h.release s).1 else s

/-! ## Runs -/

/-- The mappings, and the object until it is destroyed. -/
structure State where
  sys : Sys
  obj : Option HugePage

/-- A call, with what comes out of `mmap` if `make` calls it. -/
inductive Event
  | make (b : ℤ) (o : Option ℕ)
  | release
  | destroy

def Event.run (s : Sys) (h : HugePage) : Event → State
  | .make b o => ⟨(h.make o s b).1, some (h.make o s b).2.1⟩
  | .release => ⟨(h.release s).1, some (h.release s).2.1⟩
  | .destroy => ⟨h.destroy s, none⟩

/-- The argument is an `ssize_t`, and `mmap` does what it may. -/
def Event.Possible (s : Sys) (h : HugePage) : Event → Prop
  | .make b o => -2 ^ 63 ≤ b ∧ b < 2 ^ 63 ∧
    (¬ h.Misused → s.Allows (toSize (wholePages b hugePageSize)) o)
  | _ => True

/-- An object from its construction on. -/
def system : System State Event where
  init v := v.sys.mine = [] ∧ v.obj = some {}
  next v e w := ∃ h, v.obj = some h ∧ e.Possible v.sys h ∧ w = e.run v.sys h

/-- The object holds a live mapping of `bytes()` bytes, at `get()`. -/
def Holds (s : Sys) (h : HugePage) : Prop := ∃ m ∈ s.mine, m.addr = h.shmP ∧ (m.len : ℤ) = h.bytes

/-- `get()` is not null just when the object holds what `bytes()` says, and nothing that the object
has mapped is lost. -/
def Right (v : State) : Prop :=
  match v.obj with
  | some h => (h.shmP ≠ 0 ↔ Holds v.sys h) ∧ (h.shmP = 0 → v.sys.mine = [])
  | none => v.sys.mine = []

/-- After the step all is right. If `mmap` has failed, then `make` can be called again. The object's
destructor unmaps only what the object had mapped, and so does `release`. -/
structure Sound (v : State) (e : Event) (w : State) : Prop where
  right : Right w
  retry : ∀ h b o what, v.obj = some h → e = .make b o →
    (h.make o v.sys b).2.2 = .error (.runtime what) → ∀ h' ∈ w.obj, ¬ h'.Misused
  unmaps : ∀ h, v.obj = some h → (e = .release ∨ e = .destroy) → h.shmP ≠ 0 → Holds v.sys h
  others : w.sys.others = v.sys.others

/-- `mmap` is called, and fails. -/
def Fails (v : State) : Event → Prop
  | .make _ none => ∃ h, v.obj = some h ∧ ¬ h.Misused
  | _ => False

/-! ## As long as no `mmap` fails -/

theorem wholePages_bounds (b onePage : ℤ) :
    -2 ^ 63 ≤ wholePages b onePage ∧ wholePages b onePage < 2 ^ 63 := by
  have hle := Int.le_bmod (x := -(-toDouble b / onePage) * onePage) (m := 2 ^ 64) (by norm_num)
  have hlt := Int.bmod_lt (x := -(-toDouble b / onePage) * onePage) (m := 2 ^ 64) (by norm_num)
  exact ⟨le_trans (by norm_num) hle, lt_of_lt_of_le hlt (by norm_num)⟩

/-- What can be mapped has the same size as `size_t` and as `ssize_t`. -/
theorem toSize_eq {b : ℤ} (hb : -2 ^ 63 ≤ b ∧ b < 2 ^ 63) (h : toSize b < 2 ^ 63) :
    (toSize b : ℤ) = b := by
  rw [toSize] at h ⊢
  omega

/-- A mapping has a size that `release` passes on to `munmap` unchanged. -/
theorem toSize_natCast {n : ℕ} (h : n < 2 ^ 63) : toSize n = n := by
  rw [toSize]
  omega

theorem Mapping.cut_self (m : Mapping) : m.cut m.addr m.len = [] := by
  simp [Mapping.cut]

theorem Mapping.cut_apart {m : Mapping} {addr len : ℕ} (h : Apart m addr len) :
    m.cut addr len = [m] := by
  have hpos := m.pos
  rcases h with h | h
  · rw [Mapping.cut, dif_pos (by omega), dif_neg (by omega), List.append_nil]
    congr 1
    ext
    · rfl
    · exact min_eq_left (by omega)
  · rw [Mapping.cut, dif_neg (by omega), dif_pos (by omega), List.nil_append]
    have hmax : max m.addr (addr + len) = m.addr := max_eq_left (by omega)
    congr 1
    ext
    · exact hmax
    · simp only [hmax]
      omega

/-- Nothing else is unmapped along with the object's mapping. -/
theorem flatMap_cut {ms : List Mapping} {addr len : ℕ} (h : ∀ m ∈ ms, Apart m addr len) :
    ms.flatMap (Mapping.cut addr len) = ms := by
  calc ms.flatMap (Mapping.cut addr len)
      = ms.flatMap fun m => [m] := List.flatMap_congr fun m hm => Mapping.cut_apart (h m hm)
    _ = ms := List.flatMap_singleton' ms

/-- The mapping lies where `mmap` may have put it, apart from all others. -/
structure Placed (m : Mapping) (others : List Mapping) : Prop where
  nonnull : m.addr ≠ 0
  aligned : m.addr % 4096 = 0
  low : m.addr + m.len ≤ 2 ^ 63
  apart : ∀ m' ∈ others, Apart m' m.addr m.len

/-- The object holds nothing, or one mapping of its size, or it is gone. -/
inductive Good : State → Prop
  | idle (others : List Mapping) (p : ℤ) : Good ⟨⟨[], others⟩, some ⟨0, 0, p⟩⟩
  | held (m : Mapping) (others : List Mapping) (p : ℤ) (hm : Placed m others) :
    Good ⟨⟨[m], others⟩, some ⟨m.addr, m.len, p⟩⟩
  | gone (others : List Mapping) : Good ⟨⟨[], others⟩, none⟩

theorem Good.right {v : State} (h : Good v) : Right v := by
  cases h with
  | idle others p => simp [Right, Holds]
  | held m others p hm => simp [Right, Holds, hm.nonnull]
  | gone others => rfl

theorem good_init {v : State} (h : system.init v) : Good v := by
  obtain ⟨⟨mine, others⟩, obj⟩ := v
  obtain ⟨rfl, rfl⟩ : mine = [] ∧ obj = some {} := h
  exact .idle others 0

section Release

variable {m : Mapping} {others : List Mapping} {p : ℤ}

theorem munmap_held (hm : Placed m others) :
    (⟨[m], others⟩ : Sys).munmap m.addr m.len = ⟨[], others⟩ := by
  have hpos := m.pos.ne'
  rw [Sys.munmap, if_neg (by simp [hm.aligned, hpos]), flatMap_cut hm.apart,
    List.flatMap_singleton, Mapping.cut_self]

/-- `release` unmaps the mapping, and nothing else. -/
theorem release_held (hm : Placed m others) :
    release ⟨[m], others⟩ ⟨m.addr, m.len, p⟩ = (⟨[], others⟩, ⟨0, 0, p⟩, .ok ()) := by
  have hpos := m.pos
  have hlow := hm.low
  have hlen : toSize (m.len : ℤ) = m.len := toSize_natCast (by have := hm.nonnull; omega)
  rw [release, if_neg hm.nonnull, hlen, munmap_held hm]

end Release

section Make

variable {o : Option ℕ} {s : Sys} {h : HugePage} {b : ℤ}

/-- An object in use is left alone. -/
theorem make_misused (hused : h.Misused) :
    h.make o s b = (s, { h with onePage := hugePageSize },
      .error (.badUsage "重复申请的HugePage!!!")) := by
  have : Misused { h with onePage := hugePageSize } := hused
  rw [make, if_pos this]

/-- A failure of `mmap` leaves its value behind. -/
theorem make_none (hfresh : ¬ h.Misused) :
    h.make none s b = (s, ⟨mapFailed, h.bytes, hugePageSize⟩, .error (.runtime "mmap错误:")) := by
  have : ¬ Misused { h with onePage := hugePageSize } := hfresh
  rw [make, if_neg this]
  rfl

/-- On success the object holds the mapping. -/
theorem make_some {q : ℕ} (hfresh : ¬ h.Misused)
    (hq : s.Allows (toSize (wholePages b hugePageSize)) (some q)) :
    ∃ m, Placed m s.others ∧ (m.len : ℤ) = wholePages b hugePageSize ∧
      h.make (some q) s b = (⟨m :: s.mine, s.others⟩, ⟨m.addr, m.len, hugePageSize⟩,
        .ok (wholePages b hugePageSize)) := by
  obtain ⟨hnonnull, haligned, hpos, hlow, hapart⟩ := hq q rfl
  have hlen := toSize_eq (wholePages_bounds b hugePageSize) (by omega)
  have hfailed : q ≠ mapFailed := by
    rw [mapFailed]
    omega
  have : ¬ Misused { h with onePage := hugePageSize } := hfresh
  refine ⟨⟨q, toSize (wholePages b hugePageSize), hpos⟩, ⟨hnonnull, haligned, hlow, fun m hm =>
    hapart m (List.mem_append_right _ hm)⟩, hlen, ?_⟩
  simp [make, this, Sys.mmap, hpos, hlen, hfailed]

end Make

/-- What a step does, as long as no `mmap` fails. -/
theorem Good.next {v w : State} {e : Event} (hv : Good v) (hstep : system.next v e w)
    (hfails : ¬ Fails v e) : Good w ∧ Sound v e w := by
  suffices h : Good w ∧ w.sys.others = v.sys.others ∧
      ∀ h b o what, v.obj = some h → e = .make b o →
        (h.make o v.sys b).2.2 ≠ .error (.runtime what) by
    obtain ⟨hw, hothers, hthrow⟩ := h
    refine ⟨hw, hw.right, fun h b o what hh he hmake => absurd hmake (hthrow h b o what hh he),
      fun h hh _ hp => ?_, hothers⟩
    have hright := hv.right
    rw [Right, hh] at hright
    exact hright.1.mp hp
  obtain ⟨h, hobj, hposs, rfl⟩ := hstep
  cases hv with
  | gone others => cases hobj
  | idle others p =>
    cases hobj
    cases e with
    | make b o =>
      have hfresh : ¬ Misused ⟨0, 0, p⟩ := by simp [Misused]
      cases o with
      | none => exact absurd ⟨_, rfl, hfresh⟩ hfails
      | some q =>
        obtain ⟨m, hm, hlen, hmake⟩ := make_some hfresh (hposs.2.2 hfresh)
        refine ⟨?_, ?_, ?_⟩
        · simpa [Event.run, hmake] using Good.held m others hugePageSize hm
        · simp [Event.run, hmake]
        · rintro h b' o' what ⟨⟩ ⟨⟩
          simp [hmake]
    | release => exact ⟨.idle others p, rfl, by rintro _ _ _ _ _ ⟨⟩⟩
    | destroy => exact ⟨.gone others, rfl, by rintro _ _ _ _ _ ⟨⟩⟩
  | held m others p hm =>
    cases hobj
    cases e with
    | make b o =>
      have hused : Misused ⟨m.addr, m.len, p⟩ := Or.inl hm.nonnull
      refine ⟨?_, ?_, ?_⟩
      · simpa [Event.run, make_misused hused] using Good.held m others hugePageSize hm
      · simp [Event.run, make_misused hused]
      · rintro h b' o' what ⟨⟩ ⟨⟩
        simp [make_misused hused]
    | release =>
      refine ⟨?_, ?_, by rintro _ _ _ _ _ ⟨⟩⟩
      · simpa [Event.run, release_held hm] using Good.idle others p
      · simp [Event.run, release_held hm]
    | destroy =>
      have hrun : Event.run ⟨[m], others⟩ ⟨m.addr, m.len, p⟩ .destroy = ⟨⟨[], others⟩, none⟩ := by
        rw [Event.run, destroy, if_pos hm.nonnull, release_held hm]
      rw [hrun]
      exact ⟨.gone others, rfl, by rintro _ _ _ _ _ ⟨⟩⟩

/-- After a failure `get()` is not null, and the object holds nothing. -/
theorem Good.not_right {v w : State} {e : Event} (hv : Good v) (hstep : system.next v e w)
    (hfails : Fails v e) : ¬ Right w := by
  obtain ⟨h, hobj, -, rfl⟩ := hstep
  obtain ⟨b, rfl⟩ : ∃ b, e = .make b none := by
    cases e with
    | make b o =>
      cases o with
      | none => exact ⟨b, rfl⟩
      | some q => exact absurd hfails id
    | release => exact absurd hfails id
    | destroy => exact absurd hfails id
  obtain ⟨h', hobj', hfresh⟩ := hfails
  obtain rfl : h = h' := Option.some.inj (hobj.symm.trans hobj')
  cases hv with
  | gone others => cases hobj
  | held m others p hm =>
    cases hobj
    exact absurd (Or.inl hm.nonnull) hfresh
  | idle others p =>
    cases hobj
    have hne : mapFailed ≠ 0 := by norm_num [mapFailed]
    simp [Right, Event.run, make_none hfresh, Holds, hne]

/-- Every step of a run is sound just when no `mmap` has failed. -/
theorem sound_iff {v₀ v : State} {π : List (Event × State)} (h₀ : system.init v₀)
    (hπ : system.Steps v₀ π v) : Throughout Sound v₀ π ↔ ¬ Makes Fails v₀ π := by
  suffices h : (Throughout Sound v₀ π ↔ ¬ Makes Fails v₀ π) ∧ (¬ Makes Fails v₀ π → Good v) from h.1
  -- as long as nothing has failed the state is good, and the next step tells
  induction hπ with
  | refl => exact ⟨by simp [Throughout, Makes], fun _ => good_init h₀⟩
  | @snoc π v w e hsteps hstep ih =>
    obtain ⟨ih, hgood⟩ := ih
    rw [hsteps.throughout_snoc, hsteps.makes_snoc, not_or, ih]
    refine ⟨and_congr_right fun hnone => ⟨fun hsound hfails => ?_, fun hfails => ?_⟩, fun h => ?_⟩
    · exact (hgood hnone).not_right hstep hfails hsound.right
    · exact ((hgood hnone).next hstep hfails).2
    · exact ((hgood h.1).next hstep h.2).1

/-! ## Two runs -/

/-- 100 bytes are one page. -/
theorem wholePages_hundred : wholePages 100 hugePageSize = 2097152 := by decide

/-- The mapping that `mmap` makes for them. -/
def page : Mapping := ⟨4194304, 2097152, by norm_num⟩

/-- A mapping that is there before. -/
def stranger : Mapping := ⟨4096, 8192, by norm_num⟩

/-- A page is mapped and unmapped. -/
theorem sound_iff_page :
    let v₀ : State := ⟨⟨[], [stranger]⟩, some {}⟩
    let v₁ : State := ⟨⟨[page], [stranger]⟩, some ⟨page.addr, page.len, hugePageSize⟩⟩
    let v₂ : State := ⟨⟨[], [stranger]⟩, none⟩
    let π : List (Event × State) := [(.make 100 (some page.addr), v₁), (.destroy, v₂)]
    system.Steps v₀ π v₂ ∧ (Throughout Sound v₀ π ↔ ¬ Makes Fails v₀ π) ∧
      Throughout Sound v₀ π := by
  intro v₀ v₁ v₂ π
  have hallows : v₀.sys.Allows (toSize (wholePages 100 hugePageSize)) (some page.addr) := by
    rintro p ⟨⟩
    simp [wholePages_hundred, toSize, v₀, Apart, page, stranger]
  have hsteps : system.Steps v₀ π v₂ :=
    Steps.cons ⟨_, rfl, ⟨by norm_num, by norm_num, fun _ => hallows⟩, rfl⟩
      (Steps.single ⟨_, rfl, trivial, rfl⟩)
  have hiff := sound_iff (show system.init v₀ from ⟨rfl, rfl⟩) hsteps
  refine ⟨hsteps, hiff, hiff.mpr ?_⟩
  simp [π, Makes, Fails]

/-- `mmap` fails: the object has an address, holds nothing, and is refused when it tries again. -/
theorem not_sound_failure :
    let v₀ : State := ⟨⟨[], [stranger]⟩, some {}⟩
    let h : HugePage := ⟨mapFailed, 0, hugePageSize⟩
    let v : State := ⟨⟨[], [stranger]⟩, some h⟩
    system.init v₀ ∧ system.Steps v₀ [(.make 100 none, v)] v ∧
      (h.make (some page.addr) v.sys 100).2.2 = .error (.badUsage "重复申请的HugePage!!!") ∧
      ¬ Throughout Sound v₀ [(.make 100 none, v)] := by
  intro v₀ h v
  have hstep : system.next v₀ (.make 100 none) v :=
    ⟨_, rfl, ⟨by norm_num, by norm_num, fun _ => by rintro p ⟨⟩⟩, rfl⟩
  refine ⟨⟨rfl, rfl⟩, Steps.single hstep, rfl, fun hsound => ?_⟩
  have hright : Right v := hsound.1.right
  have hne : mapFailed ≠ 0 := by norm_num [mapFailed]
  simp [Right, v, h, Holds, hne] at hright

end HugePage

end LeonUtils
