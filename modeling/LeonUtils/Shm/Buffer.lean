import LeonUtils.Text.Format
import Mathlib.Logic.Function.Basic

/-!
# A block of shared memory

The class `ShmBuffer_t`: `make`, `plug` and `unplug` of one object, with the outcomes of the system
calls as inputs. The functions that give advice about pages are in `Shm.Advice`.

What is left of a call are the object and what the process holds: open descriptors, mappings, and
which segment each name denotes. A call that throws should leave all that as it was, but only the
first of its system calls may fail without a descriptor or a mapping being lost, and `make` removes
the name before it looks whether the object is in use (`safe_iff`).

Exceptions have the texts of the source without the system's own errors. What is only printed is
left out. On Linux a descriptor is gone after `close`, whatever `close` returns.

## Main definitions

* `ShmBuffer` — the object
* `Sys`, `Outcomes` — what the process holds, and what its system calls return
* `ShmBuffer.make`, `ShmBuffer.plug`, `ShmBuffer.unplug` — the members

## Main results

* `ShmBuffer.mkPlug_ok`, `ShmBuffer.mkPlug_error` — what `_mk_plug` leaves behind
* `ShmBuffer.safe_iff` — when a call that throws leaves everything as it was
-/

namespace LeonUtils

/-- `ShmBuffer_t`. The address `0` is `nullptr`. -/
structure ShmBuffer where
  shmN : String := ""
  shmP : ℕ := 0
  bytes : ℕ := 0
  pages : ℕ := 0
  onePage : ℕ := 0
  coold : ℕ := 0
  swapd : ℕ := 0

namespace ShmBuffer

/-! ## The system -/

/-- How a call can fail. -/
inductive Exn
  | badUsage (what : String)
  | runtime (what : String)

/-- A mapping. -/
structure Mapping where
  addr : ℕ
  bytes : ℕ
  writable : Bool

/-- What the process holds, and the segments that names in `/dev/shm` denote. -/
structure Sys where
  names : String → Option ℕ
  /-- The number of the next segment to be created. -/
  next : ℕ
  fds : List ℕ
  maps : List Mapping

/-- What the system calls of a member return: whether they succeed, and a result if there is one. -/
structure Outcomes where
  getpagesize : ℕ
  shmUnlink : Bool
  /-- `fs::exists`, as far as it matters -/
  present : Bool
  fileSize : Option ℕ
  shmOpen : Option ℕ
  ftruncate : Bool
  mmap : Option ℕ
  close : Bool
  munmap : Bool

/-- `shm_unlink`. -/
def Sys.unlink (s : Sys) (n : String) : Sys := { s with names := Function.update s.names n none }

/-- `shm_open`, with `O_CREAT` or without. A segment that the name denotes is opened. -/
def Sys.open (s : Sys) (n : String) (creat : Bool) (fd : ℕ) : Sys :=
  if creat = true ∧ s.names n = none then
    { s with
      names := Function.update s.names n (some s.next)
      next := s.next + 1
      fds := fd :: s.fds }
  else { s with fds := fd :: s.fds }

def Sys.mmap (s : Sys) (m : Mapping) : Sys := { s with maps := m :: s.maps }

def Sys.close (s : Sys) (fd : ℕ) : Sys := { s with fds := s.fds.erase fd }

/-! ## The code -/

/-- `static_cast<float>` of a `size_t`: 24 significant bits, halves to even. -/
def toFloat (n : ℕ) : ℕ :=
  let e := Nat.log2 n - 23
  Text.roundDiv n (2 ^ e) * 2 ^ e

/-- `std::ceil( static_cast<float>( bytes ) / _1page )`. -/
def pageCount (bytes onePage : ℕ) : ℕ := (toFloat bytes + onePage - 1) / onePage

/-- The object is in use. -/
def Misused (b : ShmBuffer) : Prop := b.shmP ≠ 0 ∨ b.bytes ≠ 0 ∨ b.shmN ≠ ""

instance (b : ShmBuffer) : Decidable b.Misused := inferInstanceAs (Decidable (_ ∨ _))

/-- `_mk_plug`. The file is opened to create a segment and cut to its size, or neither. -/
def mkPlug (o : Outcomes) (s : Sys) (b : ShmBuffer) (n : String) (bytes : ℕ) (tr wr : Bool) :
    Sys × ShmBuffer × Except Exn ℕ :=
  let b := { b with onePage := o.getpagesize }
  if b.Misused then
    (s, b, .error (.badUsage ("用于\"" ++ n ++ "\"的ShmBuffer对象已作为\"" ++ b.shmN ++ "\"之用!!!")))
  else match o.shmOpen with
    | none => (s, b, .error (.runtime "shm_open错误:"))
    | some fd =>
      let s := s.open n tr fd
      if tr = true ∧ o.ftruncate = false then (s, b, .error (.runtime "ftruncate错误:"))
      else match o.mmap with
        | none => (s, b, .error (.runtime "mmap错误:"))
        | some shmP =>
          let s := (s.mmap ⟨shmP, bytes, wr⟩).close fd
          if o.close = false then (s, b, .error (.runtime "close( shm_fd )错误:"))
          else if shmP % 64 ≠ 0 then (s, b, .error (.runtime (n ++ ":地址未从64字节整倍数开始!")))
          else (s, b, .ok shmP)

/-- The path of a name. -/
def osFile (n : String) : String := "/dev/shm/" ++ n

/-- `make`. -/
def make (o : Outcomes) (s : Sys) (b : ShmBuffer) (n : String) (bytes : ℕ) (wr : Bool) :
    Sys × ShmBuffer × Except Exn ℕ :=
  let s := if o.shmUnlink then s.unlink n else s
  match mkPlug o s b n bytes true wr with
  | (s, b, .error e) => (s, b, .error e)
  | (s, b, .ok shmP) =>
    let b := { b with shmP := shmP, shmN := n }
    if o.present then
      match o.fileSize with
      | none => (s, b, .error (.runtime "filesystem error"))
      | some size =>
        (s, { b with bytes := size, pages := pageCount size b.onePage }, .ok size)
    else
      (s, { b with shmN := "", shmP := 0, bytes := 0 },
        .error (.runtime (osFile n ++ ":shm创建完了居然不存在?")))

/-- `plug`. -/
def plug (o : Outcomes) (s : Sys) (b : ShmBuffer) (n : String) (wr : Bool) :
    Sys × ShmBuffer × Except Exn ℕ :=
  if o.present then
    match o.fileSize with
    | none => (s, b, .error (.runtime "filesystem error"))
    | some rs =>
      match mkPlug o s b n rs false wr with
      | (s, b, .error e) => (s, b, .error e)
      | (s, b, .ok shmP) =>
        (s, { b with shmP := shmP, shmN := n, bytes := rs, pages := pageCount rs b.onePage },
          .ok rs)
  else (s, b, .error (.runtime (osFile n ++ ":shm不存在?")))

/-- `delOsFile`. -/
def delOsFile (o : Outcomes) (s : Sys) (b : ShmBuffer) : Sys :=
  if b.shmN = "" then s
  else if o.present then if o.shmUnlink then s.unlink b.shmN else s
  else s

/-- `unplug`. -/
def unplug (o : Outcomes) (s : Sys) (b : ShmBuffer) (rm : Bool) :
    Sys × ShmBuffer × Except Exn Unit :=
  if b.shmP = 0 then (s, b, .error (.badUsage "重复释放shm!!!"))
  else
    let s := if o.munmap then { s with maps := s.maps.filter (·.addr ≠ b.shmP) } else s
    let s := if rm then delOsFile o s b else s
    (s, { b with shmN := "", shmP := 0, bytes := 0 }, .ok ())

/-! ## What `_mk_plug` leaves behind -/

/-- The system calls of `_mk_plug` succeed, and map the segment at `shmP`. -/
structure Outcomes.Maps (o : Outcomes) (tr : Bool) (shmP : ℕ) : Prop where
  opens : o.shmOpen.isSome
  truncates : tr = true → o.ftruncate = true
  maps : o.mmap = some shmP
  closes : o.close = true
  aligned : shmP % 64 = 0

/-- No descriptor and no mapping has been lost. -/
def Sys.Released (s s' : Sys) : Prop := s'.fds = s.fds ∧ s'.maps = s.maps

@[simp]
theorem Sys.open_fds (s : Sys) (n : String) (creat : Bool) (fd : ℕ) :
    (s.open n creat fd).fds = fd :: s.fds := by
  rw [Sys.open]
  split <;> rfl

@[simp]
theorem Sys.open_maps (s : Sys) (n : String) (creat : Bool) (fd : ℕ) :
    (s.open n creat fd).maps = s.maps := by
  rw [Sys.open]
  split <;> rfl

/-- After a new descriptor something is lost. -/
theorem not_released_of_fds {s s' : Sys} {fd : ℕ} (h : s'.fds = fd :: s.fds) : ¬ s.Released s' :=
  fun hrel => List.cons_ne_self _ _ (h.symm.trans hrel.1)

/-- After a new mapping something is lost. -/
theorem not_released_of_maps {s s' : Sys} {m : Mapping} (h : s'.maps = m :: s.maps) :
    ¬ s.Released s' :=
  fun hrel => List.cons_ne_self _ _ (h.symm.trans hrel.2)

section MkPlug

variable {o : Outcomes} {s s' : Sys} {b b' : ShmBuffer} {n : String} {bytes : ℕ} {tr wr : Bool}

/-- On success one mapping is new. -/
theorem mkPlug_ok {shmP : ℕ} (h : mkPlug o s b n bytes tr wr = (s', b', .ok shmP)) :
    ¬ b.Misused ∧ o.Maps tr shmP ∧ s'.fds = s.fds ∧ s'.maps = ⟨shmP, bytes, wr⟩ :: s.maps ∧
      b' = { b with onePage := o.getpagesize } := by
  simp only [mkPlug] at h
  split at h
  · cases h
  rename_i hfresh
  split at h
  · cases h
  rename_i fd hopen
  split at h
  · cases h
  rename_i htr
  split at h
  · cases h
  rename_i p hmap
  split at h
  · cases h
  rename_i hclose
  split at h
  · cases h
  rename_i halign
  cases h
  refine ⟨hfresh, ⟨by simp [hopen], fun h => by simpa [h] using htr, hmap, by simpa using hclose,
    by simpa using halign⟩, ?_, ?_, rfl⟩
  · simp [Sys.close, Sys.mmap]
  · simp [Sys.close, Sys.mmap]

/-- On failure nothing is lost only if the object was in use, or nothing had been opened. -/
theorem mkPlug_error {e : Exn} (h : mkPlug o s b n bytes tr wr = (s', b', .error e)) :
    b' = { b with onePage := o.getpagesize } ∧
      ((b.Misused ∧ s' = s ∧ ∃ what, e = .badUsage what) ∨
        (¬ b.Misused ∧ o.shmOpen = none ∧ s' = s ∧ ∃ what, e = .runtime what) ∨
        (¬ b.Misused ∧ o.shmOpen.isSome ∧ (∀ shmP, ¬ o.Maps tr shmP) ∧ ¬ s.Released s')) := by
  simp only [mkPlug] at h
  split at h
  · rename_i hused
    cases h
    exact ⟨rfl, Or.inl ⟨hused, rfl, _, rfl⟩⟩
  rename_i hfresh
  split at h
  · rename_i hopen
    cases h
    exact ⟨rfl, Or.inr (Or.inl ⟨hfresh, hopen, rfl, _, rfl⟩)⟩
  rename_i fd hopen
  have hsome : o.shmOpen.isSome := by simp [hopen]
  split at h
  · rename_i htr
    cases h
    refine ⟨rfl, Or.inr (Or.inr ⟨hfresh, hsome, fun p hp => ?_,
      not_released_of_fds (s.open_fds n tr fd)⟩)⟩
    simpa [htr.2] using hp.truncates htr.1
  split at h
  · rename_i hmap
    cases h
    refine ⟨rfl, Or.inr (Or.inr ⟨hfresh, hsome, fun p hp => ?_,
      not_released_of_fds (s.open_fds n tr fd)⟩)⟩
    simpa [hmap] using hp.maps
  rename_i p hmap
  have hmaps : (((s.open n tr fd).mmap ⟨p, bytes, wr⟩).close fd).maps =
      ⟨p, bytes, wr⟩ :: s.maps := by
    simp [Sys.close, Sys.mmap]
  split at h
  · rename_i hclose
    cases h
    refine ⟨rfl, Or.inr (Or.inr ⟨hfresh, hsome, fun p' hp => ?_,
      not_released_of_maps hmaps⟩)⟩
    simpa [hclose] using hp.closes
  split at h
  · rename_i halign
    cases h
    refine ⟨rfl, Or.inr (Or.inr ⟨hfresh, hsome, fun p' hp => ?_,
      not_released_of_maps hmaps⟩)⟩
    obtain rfl : p = p' := by simpa [hmap] using hp.maps
    exact halign hp.aligned
  · cases h

end MkPlug

/-! ## A call that throws -/

/-- A call to `make` or `plug`. -/
inductive Call
  | make (n : String) (bytes : ℕ) (wr : Bool)
  | plug (n : String) (wr : Bool)

def Call.run (o : Outcomes) (s : Sys) (b : ShmBuffer) : Call → Sys × ShmBuffer × Except Exn ℕ
  | .make n bytes wr => b.make o s n bytes wr
  | .plug n wr => b.plug o s n wr

/-- If the call throws, then the object has the name, address and size that it had, no descriptor
and no mapping has been lost, and after `bad_usage` every name denotes what it denoted. -/
def Call.Safe (o : Outcomes) (s : Sys) (b : ShmBuffer) (call : Call) : Prop :=
  ∀ s' b' e, call.run o s b = (s', b', .error e) →
    b'.shmN = b.shmN ∧ b'.shmP = b.shmP ∧ b'.bytes = b.bytes ∧ s.Released s' ∧
      ((∃ what, e = .badUsage what) → s'.names = s.names)

/-- Either the call is rejected before it has changed anything, or nothing fails after
`shm_open`. -/
def Call.Clean (o : Outcomes) (s : Sys) (b : ShmBuffer) : Call → Prop
  | .make n _ _ =>
    if b.Misused then o.shmUnlink = false ∨ s.names n = none
    else o.shmOpen = none ∨ (∃ shmP, o.Maps true shmP) ∧ o.present = true ∧ o.fileSize.isSome
  | .plug _ _ =>
    o.present = false ∨ o.fileSize = none ∨ b.Misused ∨ o.shmOpen = none ∨ ∃ shmP, o.Maps false shmP

section Safe

variable {o : Outcomes} {s s' : Sys} {b b' : ShmBuffer} {call : Call}

/-- A call that returns leaves nothing to ask. -/
theorem safe_of_ok {r : ℕ} (h : call.run o s b = (s', b', .ok r)) : call.Safe o s b := by
  intro s'' b'' e hrun
  rw [h] at hrun
  cases hrun

theorem safe_iff_of_error {e : Exn} (h : call.run o s b = (s', b', .error e)) :
    call.Safe o s b ↔ b'.shmN = b.shmN ∧ b'.shmP = b.shmP ∧ b'.bytes = b.bytes ∧ s.Released s' ∧
      ((∃ what, e = .badUsage what) → s'.names = s.names) := by
  refine ⟨fun hsafe => hsafe s' b' e h, fun hall s'' b'' e' hrun => ?_⟩
  rw [h] at hrun
  cases hrun
  exact hall

/-- A call that throws and has changed nothing is safe. -/
theorem safe_of_same {e : Exn} (h : call.run o s b = (s, b, .error e)) : call.Safe o s b :=
  (safe_iff_of_error h).mpr ⟨rfl, rfl, rfl, ⟨rfl, rfl⟩, fun _ => rfl⟩

/-- A call that throws and has lost something is not. -/
theorem not_safe_of_lost {e : Exn} (h : call.run o s b = (s', b', .error e))
    (hlost : ¬ s.Released s') : ¬ call.Safe o s b :=
  fun hsafe => hlost (hsafe s' b' e h).2.2.2.1

theorem make_safe_iff {n : String} {bytes : ℕ} {wr : Bool} :
    (Call.make n bytes wr).Safe o s b ↔ (Call.make n bytes wr).Clean o s b := by
  let s₀ := if o.shmUnlink then s.unlink n else s
  have hrel : ∀ s₁ : Sys, s₀.Released s₁ ↔ s.Released s₁ := by
    intro s₁
    simp only [s₀]
    split <;> rfl
  rcases hmk : mkPlug o s₀ b n bytes true wr with ⟨s₁, b₁, e | shmP⟩
  · have hrun : (Call.make n bytes wr).run o s b = (s₁, b₁, .error e) := by
      simp only [Call.run, make]
      rw [hmk]
    obtain ⟨rfl, hcases⟩ := mkPlug_error hmk
    rw [safe_iff_of_error hrun, Call.Clean]
    rcases hcases with ⟨hused, rfl, what, rfl⟩ | ⟨hfresh, hopen, rfl, what, rfl⟩ |
      ⟨hfresh, hopen, hfail, hlost⟩
    · rw [if_pos hused]
      have hnames : s₀.names = s.names ↔ o.shmUnlink = false ∨ s.names n = none := by
        simp only [s₀]
        cases o.shmUnlink with
        | false => simp
        | true =>
          rw [if_pos rfl, Sys.unlink, Function.update_eq_self_iff]
          simp [eq_comm]
      simp [← hnames, (hrel s₀).mp ⟨rfl, rfl⟩]
    · rw [if_neg hfresh]
      simp [hopen, (hrel s₀).mp ⟨rfl, rfl⟩]
    · rw [if_neg hfresh]
      refine iff_of_false (fun h => hlost ((hrel s₁).mpr h.2.2.2.1)) ?_
      rintro (hnone | ⟨⟨shmP, hmaps⟩, -⟩)
      · simp [hnone] at hopen
      · exact hfail shmP hmaps
  · obtain ⟨hfresh, hmaps, -, hnew, rfl⟩ := mkPlug_ok hmk
    have hlost : ¬ s.Released s₁ := fun h => not_released_of_maps hnew ((hrel s₁).mpr h)
    have hopen := hmaps.opens
    rw [Call.Clean, if_neg hfresh]
    have hne : o.shmOpen ≠ none := by
      intro hnone
      simp [hnone] at hopen
    rw [or_iff_right hne]
    cases hpresent : o.present with
    | false =>
      have hrun : ∃ b' e, (Call.make n bytes wr).run o s b = (s₁, b', .error e) := by
        simp only [Call.run, make]
        rw [hmk]
        simp [hpresent]
      obtain ⟨b', e, hrun⟩ := hrun
      exact iff_of_false (not_safe_of_lost hrun hlost) (by simp)
    | true =>
      cases hsize : o.fileSize with
      | none =>
        have hrun : ∃ b' e, (Call.make n bytes wr).run o s b = (s₁, b', .error e) := by
          simp only [Call.run, make]
          rw [hmk]
          simp [hpresent, hsize]
        obtain ⟨b', e, hrun⟩ := hrun
        exact iff_of_false (not_safe_of_lost hrun hlost) (by simp)
      | some size =>
        have hrun : ∃ b', (Call.make n bytes wr).run o s b = (s₁, b', .ok size) := by
          simp only [Call.run, make]
          rw [hmk]
          simp [hpresent, hsize]
        obtain ⟨b', hrun⟩ := hrun
        exact iff_of_true (safe_of_ok hrun) ⟨⟨shmP, hmaps⟩, rfl, rfl⟩

theorem plug_safe_iff {n : String} {wr : Bool} :
    (Call.plug n wr).Safe o s b ↔ (Call.plug n wr).Clean o s b := by
  rw [Call.Clean]
  cases hpresent : o.present with
  | false =>
    have hrun : ∃ e, (Call.plug n wr).run o s b = (s, b, .error e) := by
      simp [Call.run, plug, hpresent]
    obtain ⟨e, hrun⟩ := hrun
    exact iff_of_true (safe_of_same hrun) (Or.inl rfl)
  | true =>
    cases hsize : o.fileSize with
    | none =>
      have hrun : ∃ e, (Call.plug n wr).run o s b = (s, b, .error e) := by
        simp [Call.run, plug, hpresent, hsize]
      obtain ⟨e, hrun⟩ := hrun
      exact iff_of_true (safe_of_same hrun) (Or.inr (Or.inl rfl))
    | some rs =>
      rw [or_iff_right (by simp), or_iff_right (by simp)]
      rcases hmk : mkPlug o s b n rs false wr with ⟨s₁, b₁, e | shmP⟩
      · have hrun : (Call.plug n wr).run o s b = (s₁, b₁, .error e) := by
          simp only [Call.run, plug, hpresent, hsize, if_true]
          rw [hmk]
        obtain ⟨rfl, hcases⟩ := mkPlug_error hmk
        rw [safe_iff_of_error hrun]
        rcases hcases with ⟨hused, rfl, -⟩ | ⟨hfresh, hopen, rfl, -⟩ |
          ⟨hfresh, hopen, hfail, hlost⟩
        · exact iff_of_true ⟨rfl, rfl, rfl, ⟨rfl, rfl⟩, fun _ => rfl⟩ (Or.inl hused)
        · exact iff_of_true ⟨rfl, rfl, rfl, ⟨rfl, rfl⟩, fun _ => rfl⟩ (Or.inr (Or.inl hopen))
        · refine iff_of_false (fun h => hlost h.2.2.2.1) ?_
          rintro (hused | hnone | ⟨shmP, hmaps⟩)
          · exact hfresh hused
          · simp [hnone] at hopen
          · exact hfail shmP hmaps
      · have hrun : ∃ b', (Call.plug n wr).run o s b = (s₁, b', .ok rs) := by
          simp only [Call.run, plug, hpresent, hsize, if_true]
          rw [hmk]
          exact ⟨_, rfl⟩
        obtain ⟨-, hmaps, -⟩ := mkPlug_ok hmk
        obtain ⟨b', hrun⟩ := hrun
        exact iff_of_true (safe_of_ok hrun) (Or.inr (Or.inr ⟨shmP, hmaps⟩))

end Safe

/-- **When a call that throws leaves everything as it was.** -/
theorem safe_iff (o : Outcomes) (s : Sys) (b : ShmBuffer) (call : Call) :
    call.Safe o s b ↔ call.Clean o s b := by
  cases call with
  | make n bytes wr => exact make_safe_iff
  | plug n wr => exact plug_safe_iff

/-- System calls that succeed, with a mapping at the given address. -/
def Outcomes.fine (shmP size : ℕ) : Outcomes :=
  ⟨4096, true, true, some size, some 3, true, some shmP, true, true⟩

/-- No memory is left to be mapped. -/
theorem not_safe_mmap :
    ¬ (Call.plug "q" true).Safe { Outcomes.fine 0 4224 with mmap := none }
      ⟨fun _ => some 0, 1, [], []⟩ {} := by
  intro h
  obtain ⟨-, -, -, ⟨hfds, -⟩, -⟩ := h _ _ _ rfl
  exact absurd hfds (List.cons_ne_nil _ _)

end ShmBuffer

end LeonUtils
