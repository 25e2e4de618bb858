import LeonUtils.Shm.Layout
import LeonUtils.Transition

/-!
# Creating a segment and attaching to it

`make`, `plug` and `makeOrPlug` of two processes on one name, one system call or one access to
shared memory at a time. A `Pos` is where a process is, with the local variables live there;
`Pos.step` is the code.

## The operating system

`Os` is `/dev/shm` as far as one name goes: the segment the name denotes, if any, and the
segments created so far. A segment outlives its name. `shm_open`, `ftruncate` and `mmap` may fail
at any time; a message thrown is given without the name in front of it and the system's own error
behind it. `mmap` of no bytes fails, and an access to a page beyond the end of the file kills the
process.

Left out are what `make` and `plug` only print, the test of the name that `ShmBuffer_t::make`
makes after `shm_unlink` in order to print, `close`, and the alignment checks: a mapping starts on
a page.

## Main definitions

* `Os`, `Seg` — the operating system
* `Pos`, `Pos.step` — the code of `make`, `plug` and `makeOrPlug`
* `Moves` — what a step does to the name
* `attaching` — two processes at it
-/

namespace LeonUtils

namespace ShmAtmRQ

open Transition

/-! ## The operating system -/

/-- A segment: the size of its file, and its contents. -/
structure Seg where
  bytes : ℕ
  shm : Shm

/-- What is left of the contents when the file is cut to `b` bytes. What lies beyond the end
reads as zero when the file grows again. -/
def Shm.cut (m : Shm) (b : ℕ) : Shm :=
  ⟨if sizeofMeta ≤ b then m.toMeta else zeroed.toMeta,
    fun j => if sizeofMeta + sizeofNode * (j + 1) ≤ b then m.base j else zeroed.base j⟩

/-- `ftruncate`. -/
def Seg.truncate (g : Seg) (b : ℕ) : Seg := ⟨b, g.shm.cut b⟩

/-- The page size of the test suite's platform. -/
def pageSize : ℕ := 4096

/-- Offset `off` lies in a page that has part of the file behind it. -/
def Seg.Mapped (g : Seg) (off : ℕ) : Prop := off < (g.bytes + pageSize - 1) / pageSize * pageSize

instance (g : Seg) (off : ℕ) : Decidable (g.Mapped off) := inferInstanceAs (Decidable (_ < _))

/-- One name in `/dev/shm`, and the segments created so far. -/
structure Os where
  /-- The segment the name denotes. -/
  name : Option ℕ
  segs : ℕ → Seg
  /-- The number of the next segment to be created. -/
  next : ℕ

/-- Change a segment. -/
def Os.setSeg (os : Os) (fd : ℕ) (g : Seg) : Os :=
  { os with segs := Function.update os.segs fd g }

/-- `shm_unlink`. Segments and mappings stay. -/
def Os.unlink (os : Os) : Os := { os with name := none }

/-- `shm_open` with `O_RDWR | O_CREAT | O_TRUNC`: the segment of the name, cut to nothing, or a
new one. -/
def Os.creat (os : Os) : Os × ℕ :=
  match os.name with
  | some fd => (os.setSeg fd ((os.segs fd).truncate 0), fd)
  | none =>
    ({ name := some os.next, segs := Function.update os.segs os.next ⟨0, zeroed⟩,
       next := os.next + 1 }, os.next)

/-! ## The code -/

/-- The offset of a store in the segment. -/
def Store.offset : Store → ℕ
  | .head _ => 0
  | .capa _ => 8
  | .mask _ => 16
  | .tail _ => 64
  | .hTag j _ => sizeofMeta + sizeofNode * j.toNat
  | .byte j b _ => sizeofMeta + sizeofNode * j.toNat + 8 + b
  | .tTag j _ => sizeofMeta + sizeofNode * j.toNat + 120

/-- The offset of an access of `make` in the segment. -/
def Init.offset : Init → ℕ
  | .store x => x.offset
  | .loadCapa => 8
  | .loadMask => 16

/-- Where a process is in `make`, `plug` or `makeOrPlug`. `fd` is the segment it has open. -/
inductive Pos
  /-- `makeOrPlug`: `fs::exists( shm_path )` -/
  | mopExists (w : ℤ)
  /-- `make`: `shm_unlink( n_.c_str() )` -/
  | mkUnlink (w : ℤ)
  /-- `make`: `shm_open( …, O_RDWR | O_CREAT | O_TRUNC, … )` -/
  | mkOpen (w : ℤ)
  /-- `make`: `ftruncate( shm_fd, b_ )` -/
  | mkTruncate (w : ℤ) (fd : ℕ)
  /-- `make`: `mmap( NULL, b_, … )` -/
  | mkMap (w : ℤ) (fd : ℕ)
  /-- `make`: `fs::exists( shm_path )` -/
  | mkExists (w : ℤ) (fd : ℕ)
  /-- `make`: `fs::file_size( shm_path )` -/
  | mkSize (w : ℤ) (fd : ℕ)
  /-- `make`: the initialisation, with the accesses still to do -/
  | mkInit (fd : ℕ) (todo : List Init) (h : Handle)
  /-- `plug`: `fs::exists( shm_path )` -/
  | plExists
  /-- `plug`: `rs = fs::file_size( shm_path )` -/
  | plSize
  /-- `plug`: `shm_open( …, O_RDWR, … )` -/
  | plOpen (rs : ℕ)
  /-- `plug`: `mmap( NULL, rs, … )` -/
  | plMap (rs fd : ℕ)
  /-- `plug`: `capa = _meta->_capa`, and the comparison of sizes -/
  | plCheck (rs fd : ℕ)
  /-- `plug`: `_capa = _meta->_capa` -/
  | plCapa (fd : ℕ)
  /-- `plug`: `_mask = _meta->_mask` -/
  | plMask (fd : ℕ) (capa : ℤ)
  /-- The call has returned. -/
  | done (fd : ℕ) (h : Handle) (ownr : Bool)
  /-- The call has thrown, and has left `_buff` with the segment `left`, if any. -/
  | threw (what : String) (left : Option ℕ)
  /-- The process has been killed. -/
  | crashed

/-- What a step does to the name, as far as it matters later: `unlink` says what it removed. -/
inductive Touch
  | unlink (was : Option ℕ)
  | other

/-- After an access of `make`. -/
def initNext (fd : ℕ) (todo : List Init) (h : Handle) : Pos :=
  match todo with
  | [] => .done fd h true
  | _ :: _ => .mkInit fd todo h

/-- The code: the next step of a process, with `fails` saying whether a system call fails. -/
def Pos.step (os : Os) (fails : Bool) : Pos → Option (Touch × Os × Pos)
  | .mopExists w => some (.other, os, if os.name.isSome then .plExists else .mkUnlink w)
  | .mkUnlink w => some (.unlink os.name, os.unlink, .mkOpen w)
  | .mkOpen w =>
    if fails then some (.other, os, .threw "shm_open错误:" none)
    else some (.other, os.creat.1, .mkTruncate w os.creat.2)
  | .mkTruncate w fd =>
    if fails then some (.other, os, .threw "ftruncate错误:" none)
    else some (.other, os.setSeg fd ((os.segs fd).truncate (wantBytes (alignCapa w))), .mkMap w fd)
  | .mkMap w fd =>
    if fails then some (.other, os, .threw "mmap错误:" none) else some (.other, os, .mkExists w fd)
  | .mkExists w fd =>
    if os.name.isSome then some (.other, os, .mkSize w fd)
    else some (.other, os, .threw ":shm创建完了居然不存在?" none)
  | .mkSize w fd =>
    if os.name.isSome then some (.other, os, .mkInit fd (makeProgram (alignCapa w)) .fresh)
    else some (.other, os, .threw "filesystem error" (some fd))
  | .mkInit fd [] h => some (.other, os, .done fd h true)
  | .mkInit fd (x :: todo) h =>
    if (os.segs fd).Mapped x.offset then
      let r := x.exec ((os.segs fd).shm, h)
      some (.other, os.setSeg fd ⟨(os.segs fd).bytes, r.1⟩, initNext fd todo r.2)
    else some (.other, os, .crashed)
  | .plExists =>
    if os.name.isSome then some (.other, os, .plSize) else some (.other, os, .threw ":shm不存在?" none)
  | .plSize =>
    match os.name with
    | some fd => some (.other, os, .plOpen (os.segs fd).bytes)
    | none => some (.other, os, .threw "filesystem error" none)
  | .plOpen rs =>
    match os.name, fails with
    | some fd, false => some (.other, os, .plMap rs fd)
    | _, _ => some (.other, os, .threw "shm_open错误:" none)
  | .plMap rs fd =>
    if rs = 0 ∨ fails = true then some (.other, os, .threw "mmap错误:" none)
    else some (.other, os, .plCheck rs fd)
  | .plCheck rs fd =>
    if (os.segs fd).Mapped Init.loadCapa.offset then
      if rs ≠ wantBytes (os.segs fd).shm.capa then
        some (.other, os, .threw ":实际尺寸与期望尺寸不符!" (some fd))
      else some (.other, os, .plCapa fd)
    else some (.other, os, .crashed)
  | .plCapa fd =>
    if (os.segs fd).Mapped Init.loadCapa.offset then
      some (.other, os, .plMask fd (os.segs fd).shm.capa)
    else some (.other, os, .crashed)
  | .plMask fd capa =>
    if (os.segs fd).Mapped Init.loadMask.offset then
      some (.other, os, .done fd ⟨capa, (os.segs fd).shm.mask, 0⟩ false)
    else some (.other, os, .crashed)
  | .done _ _ _ | .threw _ _ | .crashed => none

/-! ## What one step can do -/

/-- The segment a process has open, and whether it got it from `make`. -/
def Pos.held : Pos → Option (ℕ × Bool)
  | .mkTruncate _ fd | .mkMap _ fd | .mkExists _ fd | .mkSize _ fd | .mkInit fd _ _ =>
    some (fd, true)
  | .plMap _ fd | .plCheck _ fd | .plCapa fd | .plMask fd _ => some (fd, false)
  | .done fd _ ownr => some (fd, ownr)
  | _ => none

/-- A process about to create its segment. -/
def Pos.Opening : Pos → Prop
  | .mkOpen _ => True
  | _ => False

/-- A process whose call did not return. -/
def Pos.Dead : Pos → Prop
  | .threw _ _ | .crashed => True
  | _ => False

/-- What a step does to the name, said once: it unbinds it, binds it to a new segment, or leaves
it alone; and only then does a process come to hold a segment. -/
inductive Moves (os : Os) : Pos → Touch → Os → Pos → Prop
  | unlink (w : ℤ) : Moves os (.mkUnlink w) (.unlink os.name) os.unlink (.mkOpen w)
  | create (w : ℤ) : Moves os (.mkOpen w) .other os.creat.1 (.mkTruncate w os.creat.2)
  | opens {rs fd : ℕ} (hname : os.name = some fd) :
      Moves os (.plOpen rs) .other os (.plMap rs fd)
  | dies {pos pos' : Pos} (hdead : pos'.Dead) : Moves os pos .other os pos'
  | goes {pos pos' : Pos} {os' : Os} (hname : os'.name = os.name) (hnext : os'.next = os.next)
      (hheld : pos'.held = pos.held) (hfrom : ¬ pos.Opening) (hto : ¬ pos'.Opening) :
      Moves os pos .other os' pos'

theorem step_moves {os os' : Os} {fails : Bool} {pos pos' : Pos} {e : Touch}
    (h : pos.step os fails = some (e, os', pos')) : Moves os pos e os' pos' := by
  cases pos with
  | mkUnlink w =>
    cases h
    exact .unlink w
  | mkOpen w =>
    simp only [Pos.step] at h
    split at h <;> cases h
    · exact .dies trivial
    · exact .create w
  | plOpen rs =>
    simp only [Pos.step] at h
    split at h <;> cases h
    · exact .opens ‹_›
    · exact .dies trivial
  | mopExists w =>
    cases h
    refine .goes rfl rfl ?_ id ?_ <;> split <;> first | rfl | exact id
  | mkInit fd todo hd =>
    cases todo with
    | nil =>
      cases h
      exact .goes rfl rfl rfl id id
    | cons x todo =>
      simp only [Pos.step] at h
      split at h <;> cases h
      · cases todo <;> exact .goes rfl rfl rfl id id
      · exact .dies trivial
  | plCheck rs fd =>
    simp only [Pos.step] at h
    split at h
    · split at h <;> cases h
      · exact .dies trivial
      · exact .goes rfl rfl rfl id id
    · cases h
      exact .dies trivial
  | done fd hd ownr => cases h
  | threw what left => cases h
  | crashed => cases h
  | _ =>
    simp only [Pos.step] at h
    split at h <;> cases h <;> first | exact .dies trivial | exact .goes rfl rfl rfl id id

/-- A call that did not return takes no further step. -/
theorem Pos.Dead.step {pos : Pos} (h : pos.Dead) (os : Os) (fails : Bool) :
    pos.step os fails = none := by
  cases pos with
  | threw what left => rfl
  | crashed => rfl
  | _ => exact h.elim

theorem Pos.Dead.held {pos : Pos} (h : pos.Dead) : pos.held = none := by
  cases pos with
  | threw what left => rfl
  | crashed => rfl
  | _ => exact h.elim

theorem Pos.Dead.not_opening {pos : Pos} (h : pos.Dead) : ¬ pos.Opening := by
  cases pos with
  | mkOpen w => exact h.elim
  | _ => exact id

/-! ## Two processes -/

/-- What a process sets out to do. -/
inductive Job
  | make (w : ℤ)
  | plug
  | makeOrPlug (w : ℤ)

/-- Where it starts. -/
def Job.start : Job → Pos
  | .make w => .mkUnlink w
  | .plug => .plExists
  | .makeOrPlug w => .mopExists w

/-- The operating system and two processes. -/
structure World where
  os : Os
  prc : Bool → Pos

/-- Two processes, each with its job, which start on `os`. -/
def attaching (os : Os) (job : Bool → Job) : System World (Bool × Touch) where
  init W := W.os = os ∧ ∀ p, W.prc p = (job p).start
  next W e W' := ∃ fails, (W.prc e.1).step W.os fails = some (e.2, W'.os, W'.prc e.1) ∧
    W'.prc (!e.1) = W.prc (!e.1)

/-- No segment and no name yet. -/
def Os.blank : Os := ⟨none, fun _ => ⟨0, zeroed⟩, 0⟩

/-- Two processes about to start. -/
def World.start (os : Os) (job : Bool → Job) : World := ⟨os, fun p => (job p).start⟩

/-- One step, chosen: whose it is, and whether a system call fails. -/
def World.step (W : World) (c : Bool × Bool) : Option ((Bool × Touch) × World) :=
  match (W.prc c.1).step W.os c.2 with
  | none => none
  | some (e, os, pos) => some ((c.1, e), ⟨os, Function.update W.prc c.1 pos⟩)

theorem World.next_of_step {os : Os} {job : Bool → Job} {W W' : World} {c : Bool × Bool}
    {e : Bool × Touch} (h : W.step c = some (e, W')) : (attaching os job).next W e W' := by
  obtain ⟨p, fails⟩ := c
  rw [World.step] at h
  split at h
  · cases h
  · rename_i e' os pos hstep
    cases h
    refine ⟨fails, ?_, ?_⟩
    · simpa using hstep
    · cases p <;> rfl

/-- Following choices from the start is a run. -/
theorem World.run_trace (os : Os) (job : Bool → Job) (cs : List (Bool × Bool)) :
    (attaching os job).Run (System.trace World.step (World.start os job) cs)
      (System.after World.step (World.start os job) cs) :=
  ⟨World.start os job, ⟨rfl, fun _ => rfl⟩, System.Steps.trace (M := attaching os job)
    (P := fun _ => True) (fun _ _ _ _ _ h => World.next_of_step h) _ cs fun _ _ => trivial⟩

end ShmAtmRQ

end LeonUtils
