import LeonUtils.Shm.Attach

/-!
# Two processes meeting under one name

`makeOrPlug` tests whether the name exists and then makes or plugs, and `make` begins by removing
the name. What the test has seen may be out of date by then: if the other process has created its
segment in between, the name is taken from that segment, and the two end up apart.

That is the only way for it to happen. As long as no `shm_unlink` has found the name bound, every
segment that a process holds is the one the name denotes.

## Main definitions

* `Together`, `Apart` — the two ways a run can go

## Main results

* `makeOrPlug_same_iff` — two that return hold one segment exactly when no `shm_unlink` found the
  name bound
* `makeOrPlug_apart` — two that return and hold different segments
-/

namespace LeonUtils

namespace ShmAtmRQ

open Transition

variable {os : Os} {job : Bool → Job} {W W' : World} {π : List ((Bool × Touch) × World)}
  {p q : Bool} {e : Touch}

/-- No segment has lost the name: what a process holds is what the name denotes. -/
structure Together (W : World) : Prop where
  held : ∀ p k made, (W.prc p).held = some (k, made) → W.os.name = some k
  named : ∀ k, W.os.name = some k → k < W.os.next ∧ ∃ p made, (W.prc p).held = some (k, made)

/-- Process `p` has taken the name from the segment of the other one. It is about to create its
own, or holds it already. -/
def Apart (p : Bool) (W : World) : Prop :=
  ∃ k made, (W.prc !p).held = some (k, made) ∧ k < W.os.next ∧
    (((W.prc p).Opening ∧ W.os.name = none) ∨
      ∃ k' made', (W.prc p).held = some (k', made') ∧ k' ≠ k)

/-- A step that leaves name and segments alone keeps the two together, if what the process then
holds it held before or has by the name. -/
theorem Together.keep (h : Together W) (hname : W'.os.name = W.os.name)
    (hnext : W'.os.next = W.os.next) (hother : W'.prc (!p) = W.prc (!p))
    (hheld : (W'.prc p).held = (W.prc p).held ∨
      ∃ k made, (W'.prc p).held = some (k, made) ∧ W.os.name = some k) : Together W' := by
  constructor
  · intro q k made hq
    rw [hname]
    rcases Bool.eq_or_eq_not q p with rfl | rfl
    · rcases hheld with hheld | ⟨k', made', hheld, hk'⟩
      · exact h.held q k made (hheld.symm.trans hq)
      · obtain ⟨rfl, -⟩ := Prod.mk.inj (Option.some.inj (hheld.symm.trans hq))
        exact hk'
    · rw [hother] at hq
      exact h.held _ k made hq
  · intro k hk
    rw [hname] at hk
    rw [hnext]
    obtain ⟨hlt, q, made, hq⟩ := h.named k hk
    refine ⟨hlt, ?_⟩
    rcases hheld with hheld | ⟨k', made', hheld, hk'⟩
    · rcases Bool.eq_or_eq_not q p with rfl | rfl
      · exact ⟨q, made, hheld.trans hq⟩
      · exact ⟨_, made, by rw [hother, hq]⟩
    · obtain rfl := Option.some.inj (hk'.symm.trans hk)
      exact ⟨p, made', hheld⟩

/-- A step of one process: it moves, and the other one stays. -/
theorem moves_of_next (h : (attaching os job).next W (p, e) W') :
    Moves W.os (W.prc p) e W'.os (W'.prc p) ∧ W'.prc (!p) = W.prc (!p) := by
  obtain ⟨fails, hstep, hother⟩ := h
  exact ⟨step_moves hstep, hother⟩

/-- **A step while the two are together.** Only an `shm_unlink` that finds the name bound sets
them apart. -/
theorem Together.step (h : Together W) (hnext : (attaching os job).next W (p, e) W') :
    (W'.prc p).Dead ∨ ((∀ k, e ≠ .unlink (some k)) ∧ Together W') ∨
      ((∃ k, e = .unlink (some k)) ∧ Apart p W') := by
  obtain ⟨hmoves, hother⟩ := moves_of_next hnext
  generalize hpos : W.prc p = pos at hmoves
  generalize hpos' : W'.prc p = pos' at hmoves
  generalize hos : W'.os = os' at hmoves
  cases hmoves with
  | unlink w =>
    right
    cases hname : W.os.name with
    | none =>
      refine Or.inl ⟨fun k => by simp, h.keep (p := p) ?_ ?_ hother (Or.inl ?_)⟩
      · rw [hos, hname]
        rfl
      · rw [hos]
        rfl
      · rw [hpos, hpos']
        rfl
    | some k =>
      obtain ⟨hlt, q, made, hq⟩ := h.named k hname
      rcases Bool.eq_or_eq_not q p with rfl | rfl
      · rw [hpos] at hq
        cases hq
      · refine Or.inr ⟨⟨k, rfl⟩, k, made, by rw [hother, hq], by rw [hos]; exact hlt, Or.inl ?_⟩
        rw [hpos', hos]
        exact ⟨trivial, rfl⟩
  | create w =>
    right; left
    refine ⟨fun k => by simp, ?_⟩
    cases hname : W.os.name with
    | none =>
      have hos' : W'.os.name = some W.os.next ∧ W'.os.next = W.os.next + 1 := by
        simp [hos, Os.creat, hname]
      have hheld : (W'.prc p).held = some (W.os.next, true) := by
        simp [hpos', Pos.held, Os.creat, hname]
      constructor
      · intro q k made hq
        rcases Bool.eq_or_eq_not q p with rfl | rfl
        · obtain ⟨rfl, -⟩ := Prod.mk.inj (Option.some.inj (hheld.symm.trans hq))
          exact hos'.1
        · rw [hother] at hq
          cases hname.symm.trans (h.held _ k made hq)
      · intro k hk
        obtain rfl := Option.some.inj (hos'.1.symm.trans hk)
        exact ⟨by omega, p, true, hheld⟩
    | some k =>
      refine h.keep (p := p) ?_ ?_ hother (Or.inr ⟨k, true, ?_, hname⟩)
      · simp [hos, Os.creat, hname, Os.setSeg]
      · simp [hos, Os.creat, hname, Os.setSeg]
      · simp [hpos', Pos.held, Os.creat, hname]
  | @opens rs fd hname =>
    right; left
    refine ⟨fun k => by simp, h.keep (p := p) ?_ ?_ hother (Or.inr ⟨fd, false, ?_, hname⟩)⟩
    · rw [hos]
    · rw [hos]
    · rw [hpos']
      rfl
  | dies hdead => exact Or.inl hdead
  | goes hname hnext hheld hfrom hto =>
    right; left
    refine ⟨fun k => by simp, h.keep (p := p) ?_ ?_ hother (Or.inl ?_)⟩
    · rw [hos, hname]
    · rw [hos, hnext]
    · rw [hpos, hpos', hheld]

/-- **A step while the two are apart.** They stay apart, whoever makes it. -/
theorem Apart.step (h : Apart q W) (hnext : (attaching os job).next W (p, e) W') :
    (W'.prc p).Dead ∨ Apart q W' := by
  obtain ⟨k, made, hk, hlt, hq⟩ := h
  obtain ⟨hmoves, hother⟩ := moves_of_next hnext
  generalize hpos : W.prc p = pos at hmoves
  generalize hpos' : W'.prc p = pos' at hmoves
  generalize hos : W'.os = os' at hmoves
  -- a process that holds a segment is past `shm_unlink` and `shm_open`
  rcases Bool.eq_or_eq_not p q with rfl | rfl
  · cases hmoves with
    | unlink w =>
      rcases hq with ⟨hopen, -⟩ | ⟨k', made', hk', -⟩
      · rw [hpos] at hopen
        exact hopen.elim
      · rw [hpos] at hk'
        cases hk'
    | create w =>
      rcases hq with ⟨-, hname⟩ | ⟨k', made', hk', -⟩
      · refine Or.inr ⟨k, made, by rw [hother, hk], ?_, Or.inr ⟨W.os.next, true, ?_, by omega⟩⟩
        · simp [hos, Os.creat, hname]
          omega
        · simp [hpos', Pos.held, Os.creat, hname]
      · rw [hpos] at hk'
        cases hk'
    | opens hname =>
      rcases hq with ⟨hopen, -⟩ | ⟨k', made', hk', -⟩
      · rw [hpos] at hopen
        exact hopen.elim
      · rw [hpos] at hk'
        cases hk'
    | dies hdead => exact Or.inl hdead
    | goes hname hnext hheld hfrom hto =>
      rcases hq with ⟨hopen, -⟩ | ⟨k', made', hk', hne⟩
      · rw [hpos] at hopen
        exact absurd hopen hfrom
      · refine Or.inr ⟨k, made, by rw [hother, hk], by rw [hos, hnext]; exact hlt,
          Or.inr ⟨k', made', ?_, hne⟩⟩
        rw [hpos', hheld, ← hpos, hk']
  · cases hmoves with
    | dies hdead => exact Or.inl hdead
    | goes hname hnext hheld hfrom hto =>
      rw [Bool.not_not] at hother
      refine Or.inr ⟨k, made, ?_, by rw [hos, hnext]; exact hlt, ?_⟩
      · rw [hpos', hheld, ← hpos, hk]
      · rw [hother, hos, hname]
        exact hq
    | _ =>
      rw [hpos] at hk
      cases hk

/-- A `shm_unlink` that has found the name bound. -/
def Unnamed (es : List (Bool × Touch)) : Prop := ∃ p k, (p, Touch.unlink (some k)) ∈ es

theorem Unnamed.snoc {es : List (Bool × Touch)} :
    Unnamed (es ++ [(p, e)]) ↔ Unnamed es ∨ ∃ k, e = .unlink (some k) := by
  constructor
  · rintro ⟨q, k, hmem⟩
    rcases List.mem_append.mp hmem with hmem | hmem
    · exact Or.inl ⟨q, k, hmem⟩
    · exact Or.inr ⟨k, (Prod.mk.inj (List.mem_singleton.mp hmem)).2.symm⟩
  · rintro (⟨q, k, hmem⟩ | ⟨k, rfl⟩)
    · exact ⟨q, k, List.mem_append_left _ hmem⟩
    · exact ⟨p, k, List.mem_append_right _ (List.mem_singleton_self _)⟩

/-- After every run of two processes on a name that denoted nothing, whatever their jobs, one of
them has failed, or they are together and the name has never been taken from a segment, or they
are apart and it has. -/
theorem meeting_of_run (hname : os.name = none) (h : (attaching os job).Run π W) :
    (∃ p, (W.prc p).Dead) ∨ (¬ Unnamed (System.events π) ∧ Together W) ∨
      (Unnamed (System.events π) ∧ ∃ p, Apart p W) := by
  refine System.Run.induction (P := fun π W => (∃ p, (W.prc p).Dead) ∨
    (¬ Unnamed (System.events π) ∧ Together W) ∨
      (Unnamed (System.events π) ∧ ∃ p, Apart p W)) ?_ ?_ h
  · rintro W ⟨rfl, hprc⟩
    refine Or.inr (Or.inl ⟨?_, ⟨?_, ?_⟩⟩)
    · rintro ⟨p, k, hmem⟩
      cases hmem
    · intro p k made hp
      rw [hprc] at hp
      cases hjob : job p <;> rw [hjob] at hp <;> cases hp
    · intro k hk
      cases hname.symm.trans hk
  · rintro π W ⟨p, e⟩ W' - ih hnext
    rw [System.events_append, System.events_singleton, Unnamed.snoc]
    rcases ih with ⟨q, hq⟩ | ⟨hun, htog⟩ | ⟨hun, q, hap⟩
    · obtain ⟨fails, hstep, hother⟩ := hnext
      refine Or.inl ⟨q, ?_⟩
      rcases Bool.eq_or_eq_not q p with rfl | rfl
      · cases (hq.step _ _).symm.trans hstep
      · rwa [show W'.prc (!p) = W.prc (!p) from hother]
    · rcases htog.step hnext with hdead | ⟨he, htog'⟩ | ⟨he, hap⟩
      · exact Or.inl ⟨p, hdead⟩
      · exact Or.inr (Or.inl ⟨not_or.mpr ⟨hun, fun ⟨k, hk⟩ => he k hk⟩, htog'⟩)
      · exact Or.inr (Or.inr ⟨Or.inr he, p, hap⟩)
    · rcases hap.step hnext with hdead | hap'
      · exact Or.inl ⟨p, hdead⟩
      · exact Or.inr (Or.inr ⟨Or.inl hun, q, hap'⟩)

/-- **Two `makeOrPlug` that both return hold one segment exactly when no `shm_unlink` of theirs
has found the name bound.** -/
theorem makeOrPlug_same_iff (hname : os.name = none) {w : Bool → ℤ}
    (h : (attaching os fun p => .makeOrPlug (w p)).Run π W) {fd₁ fd₂ : ℕ} {h₁ h₂ : Handle}
    {ownr₁ ownr₂ : Bool} (hdone₁ : W.prc false = .done fd₁ h₁ ownr₁)
    (hdone₂ : W.prc true = .done fd₂ h₂ ownr₂) :
    fd₁ = fd₂ ↔ ∀ p k, (p, Touch.unlink (some k)) ∉ System.events π := by
  have hheld₁ : (W.prc false).held = some (fd₁, ownr₁) := by
    rw [hdone₁]
    rfl
  have hheld₂ : (W.prc true).held = some (fd₂, ownr₂) := by
    rw [hdone₂]
    rfl
  rcases meeting_of_run hname h with ⟨p, hp⟩ | ⟨hun, htog⟩ | ⟨⟨p, k, hmem⟩, q, hap⟩
  · cases p
    · rw [hdone₁] at hp
      exact hp.elim
    · rw [hdone₂] at hp
      exact hp.elim
  · have hname₁ := htog.held false _ _ hheld₁
    have hname₂ := htog.held true _ _ hheld₂
    refine iff_of_true (Option.some.inj (hname₁.symm.trans hname₂)) ?_
    intro p k hmem
    exact hun ⟨p, k, hmem⟩
  · obtain ⟨k, made, hk, -, ⟨hopen, -⟩ | ⟨k', made', hk', hne⟩⟩ := hap
    · cases q
      · rw [hdone₁] at hopen
        exact hopen.elim
      · rw [hdone₂] at hopen
        exact hopen.elim
    · refine iff_of_false ?_ fun hno => hno p _ hmem
      intro heq
      cases q
      · obtain ⟨rfl, -⟩ := Prod.mk.inj (Option.some.inj (hheld₂.symm.trans hk))
        obtain ⟨rfl, -⟩ := Prod.mk.inj (Option.some.inj (hheld₁.symm.trans hk'))
        exact hne heq
      · obtain ⟨rfl, -⟩ := Prod.mk.inj (Option.some.inj (hheld₁.symm.trans hk))
        obtain ⟨rfl, -⟩ := Prod.mk.inj (Option.some.inj (hheld₂.symm.trans hk'))
        exact hne heq.symm

/-- Both processes call `makeOrPlug`. -/
def both (_ : Bool) : Job := .makeOrPlug 32

/-- One process after the other. -/
def inTurn : List (Bool × Bool) :=
  List.replicate 77 (false, false) ++ List.replicate 8 (true, false)

theorem makeOrPlug_same_inTurn : ∃ π W, (attaching .blank both).Run π W ∧
    W.prc false = .done 0 ⟨32, 31, 0⟩ true ∧ W.prc true = .done 0 ⟨32, 31, 0⟩ false ∧
    ∀ p k, (p, Touch.unlink (some k)) ∉ System.events π := by
  have hrun := World.run_trace .blank both inTurn
  have hdone₁ : (System.after World.step (World.start .blank both) inTurn).prc false =
      .done 0 ⟨32, 31, 0⟩ true := by rfl
  have hdone₂ : (System.after World.step (World.start .blank both) inTurn).prc true =
      .done 0 ⟨32, 31, 0⟩ false := by rfl
  exact ⟨_, _, hrun, hdone₁, hdone₂, (makeOrPlug_same_iff rfl hrun hdone₁ hdone₂).mp rfl⟩

/-- Both processes look for the name before either has made anything. -/
def crossing : List (Bool × Bool) :=
  [(false, false), (true, false)] ++ List.replicate 76 (false, false) ++
    List.replicate 76 (true, false)

/-- **Two `makeOrPlug` that return and hold different segments.** -/
theorem makeOrPlug_apart : ∃ π W, (attaching .blank both).Run π W ∧
    W.prc false = .done 0 ⟨32, 31, 0⟩ true ∧ W.prc true = .done 1 ⟨32, 31, 0⟩ true := by
  refine ⟨_, _, World.run_trace .blank both crossing, ?_, ?_⟩
  · set_option maxRecDepth 2000 in rfl
  · set_option maxRecDepth 2000 in rfl

end ShmAtmRQ

end LeonUtils
