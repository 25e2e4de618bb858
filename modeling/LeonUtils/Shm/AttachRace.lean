import LeonUtils.Shm.Attach
import LeonUtils.Shm.Refine

/-!
# Attaching while a segment is being made

`plug` guards against a segment that is not ready by comparing its size with the capacity stored
in it. The capacity is the first thing `make` stores, so the comparison tells an untouched segment
from one in which `make` has begun, and no more: the mask, the counters and the tags come later.
A `plug` that comes upon the new segment therefore finds a queue fit for use exactly when `make`
has finished. One that has opened the segment the name denoted before is in no such danger.

## Main definitions

* `Ready` — a handle and the queue it is attached to are fit for use
* `Seg.LeftOver` — a segment that an earlier `make` has left
* `MakerOk`, `VisitorOk` — where the two processes are, and what the segment looks like then

## Main results

* `leftOver_of_run` — the segment of a queue in use is one that a `make` has left
* `plug_ready_iff` — what `plug` finds is fit for use unless `make` is still at work on it
* `plug_unready` — a `plug` that returns a mask of `0`
-/

namespace LeonUtils

namespace ShmAtmRQ

open Transition TicketRing

/-- The copies of a handle are right, and the tags of every node are tickets of that node. -/
def Ready (h : Handle) (m : Shm) : Prop :=
  (∃ k : ℕ, h.capa = 2 ^ k) ∧ h.mask = h.capa - 1 ∧
    ∀ j, 0 ≤ j → j < h.capa → (m.base j).hTag % h.capa = j ∧ (m.base j).tTag % h.capa = j

/-- A segment that an earlier `make` has left, whatever has become of its queue since. -/
def Seg.LeftOver (g : Seg) : Prop :=
  (∃ v, g.shm.capa = alignCapa v) ∧ g.bytes = wantBytes g.shm.capa ∧
    Ready ⟨g.shm.capa, g.shm.mask, 0⟩ g.shm

/-- **The segment of a queue in use is one that a `make` has left.** -/
theorem leftOver_of_run {Tid Hid : Type} [DecidableEq Tid] [DecidableEq Hid] {w : ℤ} {weak : Bool}
    {s : State Tid Hid} {π : List (Event Tid Hid × State Tid Hid)}
    (h : (queue Tid Hid w weak).Run π s) : Seg.LeftOver ⟨wantBytes s.shm.capa, s.shm⟩ := by
  have hc := coupled_of_run h
  refine ⟨⟨w, hc.capa⟩, rfl, ?_⟩
  rw [hc.capa, hc.mask]
  obtain ⟨k, -, -, hk⟩ := alignCapa_eq_two_pow w
  refine ⟨⟨k, by simpa only using hk⟩, by simp only, ?_⟩
  intro j h0 hj
  simp only at hj ⊢
  have hturn : (s.shm.base j).tTag % alignCapa w = j := (inv_of_run h).turn_mod j h0 hj
  refine ⟨?_, hturn⟩
  rcases hc.tags j h0 hj with htag | htag
  · rw [htag, hturn]
  · rw [htag, Int.sub_emod_right, hturn]

/-! ## The program of `make`, part way -/

/-- With `todo` left to do, `make` has brought segment and handle to `m` and `h`. -/
def PartDone (capa : ℤ) (todo : List Init) (m : Shm) (h : Handle) : Prop :=
  ∃ ran, makeProgram capa = ran ++ todo ∧ ran.foldl Init.exec (zeroed, .fresh) = (m, h)

theorem PartDone.start (capa : ℤ) : PartDone capa (makeProgram capa) zeroed .fresh :=
  ⟨[], rfl, rfl⟩

theorem PartDone.next {capa : ℤ} {x : Init} {todo : List Init} {m : Shm} {h : Handle}
    (hpart : PartDone capa (x :: todo) m h) :
    PartDone capa todo (x.exec (m, h)).1 (x.exec (m, h)).2 := by
  obtain ⟨ran, hprog, hran⟩ := hpart
  exact ⟨ran ++ [x], by simp [hprog], by rw [List.foldl_append, hran]; rfl⟩

theorem mem_tagProgram {capa : ℤ} {n : ℕ} {x : Init} (hx : x ∈ tagProgram capa n) :
    ∃ j : ℤ, 0 ≤ j ∧ j < n ∧ (x = .store (.hTag j (j - capa)) ∨ x = .store (.tTag j j)) := by
  induction n with
  | zero => cases hx
  | succ n ih =>
    rcases List.mem_append.mp hx with hx | hx
    · obtain ⟨j, h0, hj, hx⟩ := ih hx
      exact ⟨j, h0, by push_cast; omega, hx⟩
    · exact ⟨n, by omega, by push_cast; omega, by simpa using hx⟩

/-- The accesses of `make`: its header, then two tags for each node. -/
theorem mem_makeProgram {capa : ℤ} (hcapa : 0 ≤ capa) {x : Init} (hx : x ∈ makeProgram capa) :
    x ∈ [.store (.capa capa), .store (.mask (capa - 1)), .store (.head 0), .store (.tail 0),
      .loadCapa, .loadMask] ∨
    ∃ j, 0 ≤ j ∧ j < capa ∧ (x = .store (.hTag j (j - capa)) ∨ x = .store (.tTag j j)) := by
  refine (List.mem_append.mp hx).imp id ?_
  intro hx
  obtain ⟨j, h0, hj, hx⟩ := mem_tagProgram hx
  exact ⟨j, h0, by omega, hx⟩

theorem wantBytes_align (w : ℤ) : (wantBytes (alignCapa w) : ℤ) = 128 + alignCapa w * 128 := by
  have := alignCapa_bounds w
  simp only [wantBytes, toSize, sizeofMeta, sizeofNode]
  push_cast
  omega

theorem wantBytes_zero : wantBytes 0 = 128 := by decide

/-- `make` stays within the segment it has asked for. -/
theorem offset_lt {w : ℤ} {x : Init} (hx : x ∈ makeProgram (alignCapa w)) :
    x.offset < wantBytes (alignCapa w) := by
  have hb := alignCapa_bounds w
  have hw := wantBytes_align w
  rcases mem_makeProgram (by omega) hx with hx | ⟨j, h0, hj, rfl | rfl⟩
  · simp only [List.mem_cons, List.not_mem_nil, or_false] at hx
    rcases hx with rfl | rfl | rfl | rfl | rfl | rfl <;>
      simp only [Init.offset, Store.offset] <;> omega
  · simp only [Init.offset, Store.offset, sizeofMeta, sizeofNode]
    omega
  · simp only [Init.offset, Store.offset, sizeofMeta, sizeofNode]
    omega

theorem mapped_of_lt {g : Seg} {off : ℕ} (h : off < g.bytes) : g.Mapped off := by
  unfold Seg.Mapped pageSize
  omega

/-- `make` stores the capacity once and for all. -/
theorem exec_capa {w : ℤ} {x : Init} {r : Shm × Handle} (hx : x ∈ makeProgram (alignCapa w))
    (hr : r.1.capa = alignCapa w) : (x.exec r).1.capa = alignCapa w := by
  rcases mem_makeProgram (alignCapa_pos w).le hx with hx | ⟨j, h0, hj, rfl | rfl⟩
  · simp only [List.mem_cons, List.not_mem_nil, or_false] at hx
    rcases hx with rfl | rfl | rfl | rfl | rfl | rfl <;> simp [Init.exec, Shm.store, hr]
  · exact hr
  · exact hr

/-- Part way through `make`, the capacity is missing or right. -/
theorem PartDone.capa {w : ℤ} {todo : List Init} {m : Shm} {h : Handle}
    (hpart : PartDone (alignCapa w) todo m h) : m.capa = 0 ∨ m.capa = alignCapa w := by
  obtain ⟨ran, hprog, hran⟩ := hpart
  cases ran with
  | nil =>
    obtain ⟨rfl, -⟩ := Prod.mk.inj hran
    exact Or.inl rfl
  | cons x ran =>
    right
    have hfirst : (x.exec (zeroed, .fresh)).1.capa = alignCapa w := by
      rw [← (List.cons.inj hprog).1]
      simp only [Init.exec, Shm.store]
    have hm := List.foldlRecOn (motive := fun r => r.1.capa = alignCapa w) ran Init.exec
      hfirst fun r hr y hy =>
        exec_capa (by rw [hprog]; exact List.mem_append_left _ (List.mem_cons_of_mem _ hy)) hr
    rw [List.foldl_cons] at hran
    rwa [hran] at hm

/-- The last thing `make` does is to store the `t_tag` of the last node. -/
theorem makeProgram_last (w : ℤ) : ∃ l, makeProgram (alignCapa w) =
    l ++ [.store (.tTag (alignCapa w - 1) (alignCapa w - 1))] ∧
      ∀ x ∈ l, ∀ v, x ≠ .store (.tTag (alignCapa w - 1) v) := by
  have hpos := alignCapa_pos w
  obtain ⟨n, hn⟩ : ∃ n : ℕ, (alignCapa w).toNat = n + 1 := ⟨(alignCapa w).toNat - 1, by omega⟩
  have hlast : ((n : ℕ) : ℤ) = alignCapa w - 1 := by omega
  refine ⟨[.store (.capa (alignCapa w)), .store (.mask (alignCapa w - 1)), .store (.head 0),
    .store (.tail 0), .loadCapa, .loadMask] ++ tagProgram (alignCapa w) n ++
      [.store (.hTag n (n - alignCapa w))], ?_, fun x hx v => ?_⟩
  · rw [makeProgram, hn, tagProgram, hlast]
    simp
  · rintro rfl
    simp only [List.mem_append, List.mem_cons, List.not_mem_nil, or_false, reduceCtorEq,
      Init.store.injEq, false_or] at hx
    obtain ⟨j, -, hj, hx | hx⟩ := mem_tagProgram hx
    · cases hx
    · simp only [Init.store.injEq, Store.tTag.injEq] at hx
      omega

/-- Before the end of `make`, the last node lacks its `t_tag`. -/
theorem PartDone.tTag_last {w : ℤ} {todo : List Init} {m : Shm} {h : Handle}
    (hpart : PartDone (alignCapa w) todo m h) (htodo : todo ≠ []) :
    (m.base (alignCapa w - 1)).tTag = 0 := by
  obtain ⟨ran, hprog, hran⟩ := hpart
  obtain ⟨l, hl, hnot⟩ := makeProgram_last w
  obtain ⟨todo', x, rfl⟩ := (List.eq_nil_or_concat todo).resolve_left htodo
  rw [hl, List.concat_eq_append, ← List.append_assoc] at hprog
  obtain ⟨rfl, -⟩ := List.append_inj' hprog rfl
  have hm := List.foldlRecOn (motive := fun r => (r.1.base (alignCapa w - 1)).tTag = 0) ran
    Init.exec (b := (zeroed, .fresh)) rfl fun r hr y hy => by
      have hy := hnot y (List.mem_append_left _ hy)
      cases y with
      | store st =>
        cases st with
        | hTag j v =>
          rcases eq_or_ne (alignCapa w - 1) j with rfl | hj <;>
            simp [Init.exec, Shm.store, Shm.setNode, *]
        | tTag j v =>
          have hj : alignCapa w - 1 ≠ j := fun hj => hy v (by rw [hj])
          simp [Init.exec, Shm.store, Shm.setNode, *]
        | byte j b v =>
          rcases eq_or_ne (alignCapa w - 1) j with rfl | hj <;>
            simp [Init.exec, Shm.store, Shm.setNode, *]
        | _ => exact hr
      | _ => exact hr
  rwa [hran] at hm

/-! ## The two processes -/

/-- What the name denotes at first, if anything, is a segment that an earlier `make` has left. -/
def Settled (os : Os) : Prop := ∀ k, os.name = some k → k < os.next ∧ (os.segs k).LeftOver

/-- Where the maker is, and what name and segment look like then. It started on `os₀`. -/
inductive MakerOk (os₀ : Os) (w : ℤ) (os : Os) : Pos → Prop
  | start (hos : os = os₀) : MakerOk os₀ w os (.mkUnlink w)
  | unlinked (hos : os = os₀.unlink) : MakerOk os₀ w os (.mkOpen w)
  | opened (hname : os.name = some os₀.next) (hseg : os.segs os₀.next = ⟨0, zeroed⟩) :
      MakerOk os₀ w os (.mkTruncate w os₀.next)
  | sized {pos : Pos} (hname : os.name = some os₀.next)
      (hseg : os.segs os₀.next = ⟨wantBytes (alignCapa w), zeroed⟩)
      (hpos : pos = .mkMap w os₀.next ∨ pos = .mkExists w os₀.next ∨ pos = .mkSize w os₀.next) :
      MakerOk os₀ w os pos
  | running {pos : Pos} {todo : List Init} {h : Handle} (hname : os.name = some os₀.next)
      (hbytes : (os.segs os₀.next).bytes = wantBytes (alignCapa w))
      (hpart : PartDone (alignCapa w) todo (os.segs os₀.next).shm h)
      (hpos : pos = initNext os₀.next todo h) : MakerOk os₀ w os pos
  | failed {what : String} {left : Option ℕ} (hname : os.name = none ∨ os.name = some os₀.next ∧
      ((os.segs os₀.next).bytes = 0 ∨ (os.segs os₀.next).bytes = wantBytes (alignCapa w)) ∧
      (os.segs os₀.next).shm = zeroed) : MakerOk os₀ w os (.threw what left)

/-- Segment `fd` has come by the name: the old one, or the one the maker has created. -/
def Named (os₀ os : Os) (fd : ℕ) : Prop :=
  (fd < os₀.next ∧ os₀.name = some fd) ∨ (fd = os₀.next ∧ os.name = some fd)

/-- Where the visitor is, and what it knows then. -/
def VisitorOk (os₀ os : Os) : Pos → Prop
  | .mopExists _ | .plExists | .plSize => True
  | .plOpen rs => rs ≠ wantBytes 0
  | .plMap rs fd | .plCheck rs fd => rs ≠ wantBytes 0 ∧ Named os₀ os fd
  | .plCapa fd => Named os₀ os fd ∧ (os.segs fd).shm.capa ≠ 0
  | .plMask fd capa => Named os₀ os fd ∧ capa ≠ 0 ∧ (os.segs fd).shm.capa = capa
  | _ => False

/-- A process that has returned from `plug`, has given up, or makes a segment of its own. -/
def Pos.Away : Pos → Prop
  | .mkUnlink _ | .mkOpen _ | .mkTruncate _ _ | .mkMap _ _ | .mkExists _ _ | .mkSize _ _
  | .mkInit _ _ _ | .done _ _ _ | .threw _ _ | .crashed => True
  | _ => False

theorem Shm.cut_zeroed (b : ℕ) : zeroed.cut b = zeroed := by
  simp [Shm.cut, zeroed]

theorem wantBytes_align_ne (w : ℤ) : wantBytes (alignCapa w) ≠ wantBytes 0 := by
  have hpos := alignCapa_pos w
  have hw := wantBytes_align w
  rw [wantBytes_zero]
  omega

section Maker

variable {os₀ : Os} {w : ℤ} {os os' : Os} {pos pos' : Pos} {fails : Bool} {e : Touch}

/-- The new segment has its final size or none; and either nothing is stored in it, or `make` is
at its program or through with it. -/
theorem MakerOk.seg (hset : Settled os₀) (h : MakerOk os₀ w os pos)
    (hname : os.name = some os₀.next) :
    ((os.segs os₀.next).bytes = 0 ∨ (os.segs os₀.next).bytes = wantBytes (alignCapa w)) ∧
      ((os.segs os₀.next).shm = zeroed ∨ ∃ todo h, pos = initNext os₀.next todo h ∧
        PartDone (alignCapa w) todo (os.segs os₀.next).shm h) := by
  cases h with
  | start hos =>
    subst hos
    exact absurd (hset _ hname).1 (lt_irrefl _)
  | unlinked hos =>
    subst hos
    cases hname
  | opened _ hseg =>
    rw [hseg]
    exact ⟨Or.inl rfl, Or.inl rfl⟩
  | sized _ hseg hpos =>
    rw [hseg]
    exact ⟨Or.inr (by simp only), Or.inl rfl⟩
  | running _ hbytes hpart hpos => exact ⟨Or.inr hbytes, Or.inr ⟨_, _, hpos, hpart⟩⟩
  | failed hfail =>
    rcases hfail with hnone | ⟨-, hbytes, hseg⟩
    · cases hnone.symm.trans hname
    · exact ⟨hbytes, Or.inl hseg⟩

/-- What the name denotes is the old segment, or the one the maker has created. -/
theorem MakerOk.named (hset : Settled os₀) (h : MakerOk os₀ w os pos) {fd : ℕ}
    (hname : os.name = some fd) : Named os₀ os fd := by
  cases h with
  | start hos =>
    subst hos
    exact Or.inl ⟨(hset fd hname).1, hname⟩
  | unlinked hos =>
    subst hos
    cases hname
  | opened hnew _ => exact Or.inr ⟨Option.some.inj (hname.symm.trans hnew), hname⟩
  | sized hnew _ _ => exact Or.inr ⟨Option.some.inj (hname.symm.trans hnew), hname⟩
  | running hnew _ _ _ => exact Or.inr ⟨Option.some.inj (hname.symm.trans hnew), hname⟩
  | failed hfail =>
    rcases hfail with hnone | ⟨hnew, -⟩
    · cases hnone.symm.trans hname
    · exact Or.inr ⟨Option.some.inj (hname.symm.trans hnew), hname⟩

/-- The segment the maker holds is the one it has created. -/
theorem MakerOk.held (h : MakerOk os₀ w os pos) {fd : ℕ} {own : Bool}
    (hheld : pos.held = some (fd, own)) : fd = os₀.next := by
  cases h with
  | opened _ _ =>
    cases hheld
    rfl
  | sized _ _ hpos =>
    rcases hpos with rfl | rfl | rfl <;> cases hheld <;> rfl
  | @running _ todo _ _ _ _ hpos =>
    subst hpos
    cases todo <;> cases hheld <;> rfl
  | _ => cases hheld

/-- What a step of the maker leaves alone: the segments there were before, the new name, and the
new capacity once stored. -/
structure Keeps (os₀ os os' : Os) : Prop where
  old : ∀ k, k < os₀.next → os'.segs k = os.segs k
  name : os.name = some os₀.next → os'.name = some os₀.next ∧
    ((os.segs os₀.next).shm.capa ≠ 0 →
      (os'.segs os₀.next).shm.capa = (os.segs os₀.next).shm.capa)

theorem Keeps.refl (os₀ os : Os) : Keeps os₀ os os := ⟨fun _ _ => rfl, fun h => ⟨h, fun _ => rfl⟩⟩

/-- **A step of the maker.** -/
theorem MakerOk.step (hset : Settled os₀) (h : MakerOk os₀ w os pos)
    (hstep : pos.step os fails = some (e, os', pos')) :
    MakerOk os₀ w os' pos' ∧ Keeps os₀ os os' := by
  cases h with
  | start hos =>
    subst hos
    cases hstep
    exact ⟨.unlinked rfl, fun _ _ => rfl, fun hname => absurd (hset _ hname).1 (lt_irrefl _)⟩
  | unlinked hos =>
    subst hos
    simp only [Pos.step] at hstep
    split at hstep <;> cases hstep
    · exact ⟨.failed (Or.inl rfl), .refl _ _⟩
    · refine ⟨.opened rfl ?_, ?_, fun hname => by cases hname⟩
      · simp [Os.creat, Os.unlink]
      · intro k hk
        simp [Os.creat, Os.unlink, hk.ne]
  | opened hname hseg =>
    simp only [Pos.step] at hstep
    split at hstep <;> cases hstep
    · exact ⟨.failed (Or.inr ⟨hname, Or.inl (by rw [hseg]), by rw [hseg]⟩), .refl _ _⟩
    · refine ⟨.sized hname ?_ (Or.inl rfl), ?_, fun _ => ⟨hname, fun hcapa => ?_⟩⟩
      · simp only [Os.setSeg, Function.update_self, hseg, Seg.truncate, Shm.cut_zeroed]
      · intro k hk
        simp [Os.setSeg, hk.ne]
      · rw [hseg] at hcapa
        exact absurd rfl hcapa
  | sized hname hseg hpos =>
    rcases hpos with rfl | rfl | rfl
    · simp only [Pos.step] at hstep
      split at hstep <;> cases hstep
      · exact ⟨.failed (Or.inr ⟨hname, Or.inr (by rw [hseg]), by rw [hseg]⟩), .refl _ _⟩
      · exact ⟨.sized hname hseg (Or.inr (Or.inl rfl)), .refl _ _⟩
    · simp only [Pos.step, hname, Option.isSome_some, if_true] at hstep
      cases hstep
      exact ⟨.sized hname hseg (Or.inr (Or.inr rfl)), .refl _ _⟩
    · simp only [Pos.step, hname, Option.isSome_some, if_true] at hstep
      cases hstep
      have hpart : PartDone (alignCapa w) (makeProgram (alignCapa w)) (os.segs os₀.next).shm
          .fresh := by
        rw [hseg]
        exact .start _
      exact ⟨.running hname (by rw [hseg]) hpart (by simp [makeProgram, initNext]), .refl _ _⟩
  | @running _ todo hd hname hbytes hpart hpos =>
    subst hpos
    cases todo with
    | nil => cases hstep
    | cons x todo =>
      have hx : x ∈ makeProgram (alignCapa w) := by
        obtain ⟨ran, hprog, -⟩ := hpart
        simp [hprog]
      have hmap : (os.segs os₀.next).Mapped x.offset :=
        mapped_of_lt (by rw [hbytes]; exact offset_lt hx)
      simp only [initNext, Pos.step, hmap, if_true] at hstep
      cases hstep
      refine ⟨.running hname ?_ ?_ rfl, ?_, fun _ => ⟨hname, fun hcapa => ?_⟩⟩
      · simp only [Os.setSeg, Function.update_self, hbytes]
      · simp only [Os.setSeg, Function.update_self]
        exact hpart.next
      · intro k hk
        simp [Os.setSeg, hk.ne]
      · have hfull := hpart.capa.resolve_left hcapa
        simp only [Os.setSeg, Function.update_self]
        exact (exec_capa hx hfull).trans hfull.symm
  | failed hfail => cases hstep

/-- A step of the maker leaves the visitor in good standing. -/
theorem VisitorOk.frame (h : VisitorOk os₀ os pos) (hkeep : Keeps os₀ os os') :
    VisitorOk os₀ os' pos := by
  have hnamed : ∀ {fd}, Named os₀ os fd → Named os₀ os' fd ∧
      ((os.segs fd).shm.capa ≠ 0 → (os'.segs fd).shm.capa = (os.segs fd).shm.capa) := by
    rintro fd (⟨hlt, hold⟩ | ⟨rfl, hnew⟩)
    · exact ⟨Or.inl ⟨hlt, hold⟩, fun _ => by rw [hkeep.old fd hlt]⟩
    · exact ⟨Or.inr ⟨rfl, (hkeep.name hnew).1⟩, (hkeep.name hnew).2⟩
  cases pos with
  | plMap rs fd => exact ⟨h.1, (hnamed h.2).1⟩
  | plCheck rs fd => exact ⟨h.1, (hnamed h.2).1⟩
  | plCapa fd =>
    refine ⟨(hnamed h.1).1, ?_⟩
    rw [(hnamed h.1).2 h.2]
    exact h.2
  | plMask fd capa =>
    obtain ⟨hfd, hcapa, hcopy⟩ := h
    refine ⟨(hnamed hfd).1, hcapa, ?_⟩
    rw [(hnamed hfd).2 (by rwa [hcopy]), hcopy]
  | _ => exact h

/-- **A step of the visitor.** It changes nothing, and passes the comparison of sizes only once
the capacity has been stored. -/
theorem VisitorOk.step (hset : Settled os₀) (hold : ∀ k, k < os₀.next → os.segs k = os₀.segs k)
    {maker : Pos} (hm : MakerOk os₀ w os maker) (h : VisitorOk os₀ os pos)
    (hstep : pos.step os fails = some (e, os', pos')) :
    os' = os ∧ (VisitorOk os₀ os pos' ∨ pos'.Away) := by
  cases pos with
  | mopExists v =>
    cases hstep
    refine ⟨rfl, ?_⟩
    split
    · exact Or.inl trivial
    · exact Or.inr trivial
  | plExists =>
    simp only [Pos.step] at hstep
    split at hstep <;> cases hstep
    · exact ⟨rfl, Or.inl trivial⟩
    · exact ⟨rfl, Or.inr trivial⟩
  | plSize =>
    simp only [Pos.step] at hstep
    split at hstep
    · rename_i fd hname
      cases hstep
      refine ⟨rfl, Or.inl ?_⟩
      show (os.segs fd).bytes ≠ wantBytes 0
      rcases hm.named hset hname with ⟨hlt, hfd⟩ | ⟨rfl, -⟩
      · obtain ⟨-, ⟨v, hv⟩, hbytes, -⟩ := hset fd hfd
        rw [hold fd hlt, hbytes, hv]
        exact wantBytes_align_ne v
      · rcases (hm.seg hset hname).1 with hbytes | hbytes
        · rw [hbytes, wantBytes_zero]
          omega
        · rw [hbytes]
          exact wantBytes_align_ne w
    · cases hstep
      exact ⟨rfl, Or.inr trivial⟩
  | plOpen rs =>
    simp only [Pos.step] at hstep
    split at hstep <;> cases hstep
    · exact ⟨rfl, Or.inl ⟨h, hm.named hset ‹_›⟩⟩
    · exact ⟨rfl, Or.inr trivial⟩
  | plMap rs fd =>
    simp only [Pos.step] at hstep
    split at hstep <;> cases hstep
    · exact ⟨rfl, Or.inr trivial⟩
    · exact ⟨rfl, Or.inl h⟩
  | plCheck rs fd =>
    simp only [Pos.step] at hstep
    split at hstep
    · split at hstep <;> rename_i hsize <;> cases hstep
      · exact ⟨rfl, Or.inr trivial⟩
      · refine ⟨rfl, Or.inl ⟨h.2, ?_⟩⟩
        intro hzero
        rw [not_not] at hsize
        exact h.1 (hsize.trans (by rw [hzero]))
    · cases hstep
      exact ⟨rfl, Or.inr trivial⟩
  | plCapa fd =>
    simp only [Pos.step] at hstep
    split at hstep <;> cases hstep
    · exact ⟨rfl, Or.inl ⟨h.1, h.2, rfl⟩⟩
    · exact ⟨rfl, Or.inr trivial⟩
  | plMask fd capa =>
    simp only [Pos.step] at hstep
    split at hstep <;> cases hstep <;> exact ⟨rfl, Or.inr trivial⟩
  | _ => exact h.elim

/-- Away is away. -/
theorem Pos.Away.step (h : pos.Away) (hstep : pos.step os fails = some (e, os', pos')) :
    pos'.Away := by
  cases pos with
  | mkUnlink v =>
    cases hstep
    trivial
  | mkInit fd todo hd =>
    cases todo with
    | nil =>
      cases hstep
      trivial
    | cons x todo =>
      simp only [Pos.step] at hstep
      split at hstep <;> cases hstep
      · cases todo <;> trivial
      · trivial
  | mkOpen v => simp only [Pos.step] at hstep; split at hstep <;> cases hstep <;> trivial
  | mkTruncate v fd => simp only [Pos.step] at hstep; split at hstep <;> cases hstep <;> trivial
  | mkMap v fd => simp only [Pos.step] at hstep; split at hstep <;> cases hstep <;> trivial
  | mkExists v fd => simp only [Pos.step] at hstep; split at hstep <;> cases hstep <;> trivial
  | mkSize v fd => simp only [Pos.step] at hstep; split at hstep <;> cases hstep <;> trivial
  | done fd hd ownr => cases hstep
  | threw what left => cases hstep
  | crashed => cases hstep
  | _ => exact h.elim

end Maker

/-! ## What `plug` finds -/

section Race

variable {os₀ : Os} {w : ℤ} {job : Bool → Job} {W W' : World} {π : List ((Bool × Touch) × World)}

/-- After every run of a `make` and a `plug` or `makeOrPlug`, both are in good standing and the
segments there were before are as they were, unless the second is past attaching. -/
theorem race_of_run (hset : Settled os₀) (hmake : job false = .make w)
    (hplug : job true = .plug ∨ ∃ v, job true = .makeOrPlug v)
    (h : (attaching os₀ job).Run π W) :
    ((∀ k, k < os₀.next → W.os.segs k = os₀.segs k) ∧ MakerOk os₀ w W.os (W.prc false) ∧
      VisitorOk os₀ W.os (W.prc true)) ∨ (W.prc true).Away := by
  refine System.Run.induction (P := fun _ W =>
    ((∀ k, k < os₀.next → W.os.segs k = os₀.segs k) ∧ MakerOk os₀ w W.os (W.prc false) ∧
      VisitorOk os₀ W.os (W.prc true)) ∨ (W.prc true).Away) ?_ ?_ h
  · rintro W ⟨hos, hprc⟩
    left
    rw [hprc, hprc, hmake]
    refine ⟨fun k _ => by rw [hos], .start hos, ?_⟩
    rcases hplug with hplug | ⟨v, hplug⟩ <;> rw [hplug] <;> trivial
  · rintro π W ⟨p, e⟩ W' - ih ⟨fails, hstep, hother⟩
    cases p with
    | false =>
      rw [show W'.prc true = W.prc true from hother]
      refine ih.imp (fun ⟨hold, hm, hv⟩ => ?_) id
      obtain ⟨hm', hkeep⟩ := hm.step hset hstep
      exact ⟨fun k hk => (hkeep.old k hk).trans (hold k hk), hm', hv.frame hkeep⟩
    | true =>
      rcases ih with ⟨hold, hm, hv⟩ | haway
      · obtain ⟨hos, hv'⟩ := hv.step hset hold hm hstep
        rw [show W'.prc false = W.prc false from hother, hos]
        exact hv'.imp (fun hv' => ⟨hold, hm, hv'⟩) id
      · exact Or.inr (haway.step hstep)

/-- A `make` that is done has brought segment and handle to what `make w` says. -/
theorem PartDone.made {m : Shm} {h : Handle} (hpart : PartDone (alignCapa w) [] m h) :
    (m, h) = make w := by
  obtain ⟨ran, hprog, hran⟩ := hpart
  rw [make, hprog, List.append_nil, hran]

/-- A `make` that is done leaves a queue fit for use. -/
theorem PartDone.ready {m : Shm} {h : Handle} (hpart : PartDone (alignCapa w) [] m h) :
    Ready ⟨m.capa, m.mask, 0⟩ m := by
  have hm : m = (State.start Unit Unit w).shm := by
    rw [State.start, ← hpart.made]
  obtain ⟨s, hs, hrun⟩ : ∃ s : State Unit Unit, m = s.shm ∧ (queue Unit Unit w false).Run [] s :=
    ⟨_, hm, .nil rfl⟩
  rw [hs]
  exact (leftOver_of_run hrun).2.2

/-- A `make` that is not done lacks the last tag. -/
theorem PartDone.not_ready {todo : List Init} {m : Shm} {h : Handle}
    (hpart : PartDone (alignCapa w) todo m h) (htodo : todo ≠ []) (hcapa : m.capa ≠ 0) :
    ¬ Ready ⟨m.capa, m.mask, 0⟩ m := by
  rintro ⟨-, -, htags⟩
  have hb := alignCapa_bounds w
  simp only [hpart.capa.resolve_left hcapa] at htags
  have hlast := (htags (alignCapa w - 1) (by omega) (by omega)).2
  rw [hpart.tTag_last htodo, Int.zero_emod] at hlast
  omega

/-- The last step of a `plug` that returns. -/
theorem step_plMask {os os' : Os} {fails : Bool} {e : Touch} {fd₀ fd : ℕ} {capa : ℤ} {hd : Handle}
    {ownr : Bool} (hstep : (Pos.plMask fd₀ capa).step os fails = some (e, os', .done fd hd ownr)) :
    os' = os ∧ fd = fd₀ ∧ hd = ⟨capa, (os.segs fd₀).shm.mask, 0⟩ := by
  simp only [Pos.step] at hstep
  split at hstep
  · simp only [Option.some.injEq, Prod.mk.injEq, Pos.done.injEq] at hstep
    exact ⟨hstep.2.1.symm, hstep.2.2.1.symm, hstep.2.2.2.1.symm⟩
  · simp at hstep

section Plugged

variable {e : Touch} {fd₀ fd : ℕ} {capa : ℤ} {hd : Handle} {ownr : Bool}

/-- **What `plug` finds is fit for use unless `make` is still at work on it.** At the last step of
a `plug` that returns, its copies are right and all tags of its segment are initialised if and
only if the other process, where it is that very segment it holds, has got to the end of its
`make`. -/
theorem plug_ready_iff (hset : Settled os₀) (hmake : job false = .make w)
    (hplug : job true = .plug ∨ ∃ v, job true = .makeOrPlug v) (h : (attaching os₀ job).Run π W)
    (hnext : (attaching os₀ job).next W (true, e) W') (hat : W.prc true = .plMask fd₀ capa)
    (hdone : W'.prc true = .done fd hd ownr) :
    Ready hd (W'.os.segs fd).shm ↔ ∀ own, (W.prc false).held = some (fd, own) →
      ∃ hd' ownr', W.prc false = .done fd hd' ownr' := by
  obtain ⟨fails, hstep, -⟩ := hnext
  rcases race_of_run hset hmake hplug h with ⟨hold, hm, hv⟩ | haway
  · simp only [hat, hdone] at hstep
    obtain ⟨hos, rfl, hhd⟩ := step_plMask hstep
    rw [hat] at hv
    obtain ⟨hnamed, hcapa, hcopy⟩ := hv
    rw [hos, hhd, ← hcopy]
    rcases hnamed with ⟨hlt, hfd⟩ | ⟨rfl, hname⟩
    · -- the old segment, which the maker does not touch
      refine iff_of_true ?_ ?_
      · rw [hold fd hlt]
        exact (hset fd hfd).2.2.2
      · intro own hheld
        exact absurd (hm.held hheld) hlt.ne
    · rcases (hm.seg hset hname).2 with hzero | ⟨todo, hd', hpos, hpart⟩
      · rw [hzero] at hcopy
        exact absurd hcopy.symm hcapa
      · rw [hpos]
        cases todo with
        | nil => exact iff_of_true hpart.ready fun _ _ => ⟨hd', true, rfl⟩
        | cons x todo =>
          refine iff_of_false (hpart.not_ready (by simp) (by rwa [hcopy])) ?_
          intro hall
          obtain ⟨hd'', ownr', hfalse⟩ := hall true rfl
          cases hfalse
  · rw [hat] at haway
    exact haway.elim

end Plugged

end Race

/-- One process makes a queue, the other plugs into it. -/
def makeAndPlug (p : Bool) : Job := if p then .plug else .make 32

/-- The maker gets through its initialisation in peace. -/
def patient : List (Bool × Bool) :=
  List.replicate 76 (false, false) ++ List.replicate 6 (true, false)

/-- Before and after the last step of the visitor. -/
def beforeMask : World := System.after World.step (World.start .blank makeAndPlug) patient

def afterMask : World :=
  System.after World.step (World.start .blank makeAndPlug) (patient ++ [(true, false)])

theorem next_afterMask :
    (attaching .blank makeAndPlug).next beforeMask (true, .other) afterMask := by
  refine World.next_of_step (c := (true, false)) ?_
  rw [afterMask, System.after_append]
  rfl

theorem plug_ready_patient : ∃ W W' h fd, (attaching .blank makeAndPlug).next W (true, .other) W' ∧
    W'.prc true = .done fd h false ∧ Ready h (W'.os.segs fd).shm := by
  refine ⟨_, _, ⟨32, 31, 0⟩, 0, next_afterMask, by rfl, ?_⟩
  have hat : beforeMask.prc true = .plMask 0 32 := by rfl
  have hdone : afterMask.prc true = .done 0 ⟨32, 31, 0⟩ false := by rfl
  have hmade : beforeMask.prc false = .done 0 ⟨32, 31, 0⟩ true := by rfl
  exact (plug_ready_iff (fun _ hname => by cases hname) rfl (Or.inl rfl)
    (World.run_trace .blank makeAndPlug patient) next_afterMask hat hdone).mpr
    fun _ _ => ⟨_, _, hmade⟩

/-- The visitor comes along right after the maker has stored the capacity. -/
def early : List (Bool × Bool) :=
  List.replicate 7 (false, false) ++ List.replicate 6 (true, false)

theorem plug_unready : ∃ π W W', (attaching .blank makeAndPlug).Run π W ∧
    (attaching .blank makeAndPlug).next W (true, .other) W' ∧
    W'.prc true = .done 0 ⟨32, 0, 0⟩ false ∧ ¬ Ready ⟨32, 0, 0⟩ (W'.os.segs 0).shm := by
  refine ⟨_, _, System.after World.step (World.start .blank makeAndPlug)
    (early ++ [(true, false)]), World.run_trace .blank makeAndPlug early, ?_, ?_,
    fun h => absurd h.2.1 (by decide)⟩
  · refine World.next_of_step (c := (true, false)) ?_
    rw [System.after_append]
    rfl
  · rfl

end ShmAtmRQ

end LeonUtils
