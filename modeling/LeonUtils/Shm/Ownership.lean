import LeonUtils.Shm.Attach

/-!
# Owners and the name

Handles on one name are made, plugged in, stripped of their ownership and destroyed, in any order
and in any processes, one call at a time. A call of `make`, `plug` or `makeOrPlug` is the code of
`Shm.Attach` run to its end, with any of its system calls failing.

An owner removes the name when it is destroyed, and it does not look what the name denotes by
then. If a segment has been created under the name since the owner's own, it is that segment which
loses its name.

A `plug` that finds a segment of the wrong size throws, but the handle stays attached to it, and all
later calls are refused.

## Main definitions

* `Obj`, `Obj.step` — a handle, and what may be asked of it
* `handles` — any number of them
* `Owns` — what is known about an owner

## Main results

* `destroy_name` — what a destructor does to the name, and when it is still the owner's own
* `destroy_takes_name` — an owner that removes the name of a queue made later
* `plug_retry_iff` — when a `plug` that throws may be tried again
-/

namespace LeonUtils

namespace ShmAtmRQ

open Transition

/-! ## A call alone -/

/-- One step of a call that runs alone. -/
def callStep (x : Os × Pos) (fails : Bool) : Option (Touch × (Os × Pos)) :=
  match x.2.step x.1 fails with
  | none => none
  | some (e, os, pos) => some (e, (os, pos))

/-- A call that runs alone, with `fails` saying which of its system calls fail. -/
def Job.alone (job : Job) (os : Os) (fails : List Bool) : Os × Pos :=
  System.after callStep (os, job.start) fails

/-- Where a call started on `os` may be, alone: either no segment has been created, or the one
created is what the name denotes, and the call holds it unless it has failed. -/
def CallOk (os : Os) (x : Os × Pos) : Prop :=
  (x.1.next = os.next ∧ (x.1.name = os.name ∨ x.1.name = none) ∧
    (∀ k, x.2.held ≠ some (k, true)) ∧ (x.2.Opening → x.1.name = none)) ∨
  (x.1.next = os.next + 1 ∧ x.1.name = some os.next ∧
    (x.2.held = some (os.next, true) ∨ x.2.Dead))

theorem CallOk.start (os : Os) (job : Job) : CallOk os (os, job.start) := by
  left
  refine ⟨rfl, Or.inl rfl, ?_, ?_⟩
  · intro k hk
    cases job <;> cases hk
  · intro hopen
    cases job <;> exact hopen.elim

theorem CallOk.step {os : Os} {x y : Os × Pos} {fails : Bool} {e : Touch} (h : CallOk os x)
    (hstep : callStep x fails = some (e, y)) : CallOk os y := by
  obtain ⟨os₁, pos₁⟩ := x
  obtain ⟨os₂, pos₂⟩ := y
  have hcode : pos₁.step os₁ fails = some (e, os₂, pos₂) := by
    simp only [callStep] at hstep
    split at hstep
    · cases hstep
    · cases hstep
      assumption
  rcases h with ⟨hnext, hname, hheld, hopen⟩ | ⟨hnext, hname, hheld⟩
  · cases step_moves hcode with
    | unlink w => exact Or.inl ⟨hnext, Or.inr rfl, by simp [Pos.held], fun _ => rfl⟩
    | create w =>
      have hnone : os₁.name = none := hopen trivial
      right
      simp only at hnext
      simp [Os.creat, hnone, Pos.held, hnext]
    | opens hfd => exact Or.inl ⟨hnext, hname, by simp [Pos.held], fun h => h.elim⟩
    | dies hdead =>
      refine Or.inl ⟨hnext, hname, ?_, fun h => absurd h hdead.not_opening⟩
      intro k
      simp [hdead.held]
    | goes hname' hnext' hheld' hfrom hto =>
      simp only at hnext hname hheld
      left
      simp only
      exact ⟨by rw [hnext', hnext], by rwa [hname'], by rwa [hheld'], fun h => absurd h hto⟩
  · have hpast : pos₁.held = some (os.next, true) :=
      hheld.resolve_right fun hdead => by simp [hdead.step os₁ fails] at hcode
    right
    cases step_moves hcode with
    | dies hdead => exact ⟨hnext, hname, Or.inr hdead⟩
    | goes hname' hnext' hheld' hfrom hto =>
      exact ⟨hnext'.trans hnext, hname'.trans hname, Or.inl (hheld'.trans hpast)⟩
    | _ => cases hpast

theorem callOk_alone (os : Os) (job : Job) (fails : List Bool) : CallOk os (job.alone os fails) :=
  System.after_preserve (fun _ _ _ _ h hstep => CallOk.step h hstep) _ fails (.start os job)

/-! ## Handles -/

/-- A handle object. It is attached when `_buff` has a segment mapped, and then `_ownr` matters.
One that is gone has been destroyed, or killed along with its process. -/
inductive Obj
  | fresh
  | attached (fd : ℕ) (ownr : Bool)
  | gone

/-- What may be asked of a handle. -/
inductive Ask
  | call (job : Job) (fails : List Bool)
  | releaseOwnership
  | delOsFile
  | destroy

/-- What a step is, apart from the handle: a call, with the segment it created, or the end of the
handle, with the segment that lost its name. -/
inductive Deed
  | call (made : Option ℕ)
  | destroy (removed : Option ℕ)
  | other

/-- What becomes of the handle at the end of a call. -/
def Pos.outcome : Pos → Option Obj
  | .done fd _ ownr => some (.attached fd ownr)
  | .threw _ (some fd) => some (.attached fd false)
  | .threw _ none => some .fresh
  | .crashed => some .gone
  | _ => none

/-- `ShmBuffer_t::delOsFile` -/
def Os.delOsFile (os : Os) : Os := if os.name.isSome then os.unlink else os

/-- A call on a handle that is attached already throws `bad_usage`, but `make` has removed the
name by then. -/
def Job.refused (os : Os) : Job → Os
  | .make _ => os.unlink
  | .plug => os
  | .makeOrPlug _ => if os.name.isSome then os else os.unlink

/-- The segment created between two states. -/
def made (os os' : Os) : Option ℕ := if os'.next = os.next then none else some os.next

/-- What a handle does when asked. A call has to be over by the end of the step. -/
def Obj.step (os : Os) : Obj → Ask → Option (Deed × Os × Obj)
  | .fresh, .call job fails =>
    let x := job.alone os fails
    x.2.outcome.map fun obj => (.call (made os x.1), x.1, obj)
  | .attached fd ownr, .call job _ => some (.call none, job.refused os, .attached fd ownr)
  | .fresh, .releaseOwnership => some (.other, os, .fresh)
  | .attached fd _, .releaseOwnership => some (.other, os, .attached fd false)
  | .fresh, .delOsFile => some (.other, os, .fresh)
  | .attached fd ownr, .delOsFile => some (.other, os.delOsFile, .attached fd ownr)
  | .fresh, .destroy => some (.destroy none, os, .gone)
  | .attached _ true, .destroy => some (.destroy os.name, os.delOsFile, .gone)
  | .attached _ false, .destroy => some (.destroy none, os, .gone)
  | .gone, _ => none

/-- The operating system, and the handles. -/
structure Handles (Hid : Type) where
  os : Os
  obj : Hid → Obj

variable {Hid : Type} [DecidableEq Hid]

/-- Ask one handle for something. -/
def Handles.step (W : Handles Hid) (c : Hid × Ask) : Option ((Hid × Deed) × Handles Hid) :=
  match (W.obj c.1).step W.os c.2 with
  | none => none
  | some (d, os, o) => some ((c.1, d), ⟨os, Function.update W.obj c.1 o⟩)

/-- Any number of handles on one name, at first attached to nothing. -/
def handles (Hid : Type) [DecidableEq Hid] : System (Handles Hid) (Hid × Deed) where
  init W := ∀ h, W.obj h = .fresh
  next W e W' := ∃ c, W.step c = some (e, W')

/-! ## What one step can do -/

theorem Pos.held_of_outcome {pos : Pos} {fd : ℕ} (h : pos.outcome = some (.attached fd true)) :
    pos.held = some (fd, true) := by
  cases pos with
  | done fd' hd ownr =>
    cases h
    rfl
  | threw what left => cases left <;> cases h
  | _ => cases h

/-- What is asked of a handle creates no segment, and then makes nobody an owner and at most
unbinds the name; or it creates one, which the name then denotes, and only of that one can the
handle be the owner. -/
theorem Obj.step_cases {os os' : Os} {o o' : Obj} {ask : Ask} {d : Deed}
    (h : o.step os ask = some (d, os', o')) :
    ((∀ k, d ≠ .call (some k)) ∧ os'.next = os.next ∧ (os'.name = os.name ∨ os'.name = none) ∧
      ∀ fd, o' = .attached fd true → o = .attached fd true) ∨
    (d = .call (some os.next) ∧ os'.next = os.next + 1 ∧ os'.name = some os.next ∧
      ∀ fd, o' = .attached fd true → fd = os.next) := by
  have hdel : os.delOsFile.next = os.next ∧
      (os.delOsFile.name = os.name ∨ os.delOsFile.name = none) := by
    rw [Os.delOsFile]
    split
    · exact ⟨rfl, Or.inr rfl⟩
    · exact ⟨rfl, Or.inl rfl⟩
  cases o with
  | fresh =>
    cases ask with
    | call job fails =>
      obtain ⟨obj, hobj, heq⟩ := Option.map_eq_some_iff.mp h
      cases heq
      rcases callOk_alone os job fails with ⟨hnext, hname, hheld, -⟩ | ⟨hnext, hname, hheld⟩
      · refine Or.inl ⟨by simp [made, hnext], hnext, hname, ?_⟩
        rintro fd rfl
        exact absurd (Pos.held_of_outcome hobj) (hheld fd)
      · refine Or.inr ⟨by simp [made, hnext], hnext, hname, ?_⟩
        rintro fd rfl
        have hfd := Pos.held_of_outcome hobj
        rcases hheld with hheld | hdead
        · exact (Prod.mk.inj (Option.some.inj (hfd.symm.trans hheld))).1
        · cases hdead.held.symm.trans hfd
    | _ =>
      cases h
      exact Or.inl ⟨by simp, rfl, Or.inl rfl, fun fd hfd => by cases hfd⟩
  | attached fd ownr =>
    cases ask with
    | call job fails =>
      cases h
      refine Or.inl ⟨by simp, ?_, ?_, fun k hk => hk⟩
      · cases job with
        | makeOrPlug w =>
          simp only [Job.refused]
          split <;> rfl
        | _ => rfl
      · cases job with
        | make w => exact Or.inr rfl
        | plug => exact Or.inl rfl
        | makeOrPlug w =>
          simp only [Job.refused]
          split
          · exact Or.inl rfl
          · exact Or.inr rfl
    | releaseOwnership =>
      cases h
      exact Or.inl ⟨by simp, rfl, Or.inl rfl, fun k hk => by cases hk⟩
    | delOsFile =>
      cases h
      exact Or.inl ⟨by simp, hdel.1, hdel.2, fun k hk => hk⟩
    | destroy =>
      cases ownr <;> cases h
      · exact Or.inl ⟨by simp, rfl, Or.inl rfl, fun k hk => by cases hk⟩
      · exact Or.inl ⟨by simp, hdel.1, hdel.2, fun k hk => by cases hk⟩
  | gone => cases h

/-! ## Owners -/

/-- No segment is created in the course of `es`. -/
def NoneMade (es : List (Hid × Deed)) : Prop := ∀ h k, (h, Deed.call (some k)) ∉ es

omit [DecidableEq Hid] in
theorem NoneMade.snoc {es : List (Hid × Deed)} {q : Hid} {d : Deed} :
    NoneMade (es ++ [(q, d)]) ↔ NoneMade es ∧ ∀ k, d ≠ .call (some k) := by
  constructor
  · intro h
    refine ⟨fun r k hmem => h r k (List.mem_append_left _ hmem), ?_⟩
    rintro k rfl
    exact h q k (List.mem_append_right _ (List.mem_singleton_self _))
  · rintro ⟨h, hd⟩ r k hmem
    rcases List.mem_append.mp hmem with hmem | hmem
    · exact h r k hmem
    · exact hd k (Prod.mk.inj (List.mem_singleton.mp hmem)).2.symm

/-- Handle `h` has created segment `fd`, and if the name denotes anything, it denotes that one or
another according to whether a segment has been created since. -/
def Owns (es : List (Hid × Deed)) (os : Os) (h : Hid) (fd : ℕ) : Prop :=
  fd < os.next ∧ ∃ es₁ es₂, es = es₁ ++ (h, .call (some fd)) :: es₂ ∧
    ∀ k, os.name = some k → (k = fd ↔ NoneMade es₂)

section Owner

variable {es : List (Hid × Deed)} {os os' : Os} {h q : Hid} {fd : ℕ} {d : Deed}

omit [DecidableEq Hid] in
/-- A step that creates no segment. -/
theorem Owns.keep (hown : Owns es os h fd) (hnext : os'.next = os.next)
    (hname : os'.name = os.name ∨ os'.name = none) (hd : ∀ k, d ≠ .call (some k)) :
    Owns (es ++ [(q, d)]) os' h fd := by
  obtain ⟨hlt, es₁, es₂, rfl, hes⟩ := hown
  refine ⟨by omega, es₁, es₂ ++ [(q, d)], by simp, ?_⟩
  intro k hk
  rw [NoneMade.snoc, and_iff_left hd]
  rcases hname with hname | hname
  · exact hes k (hname.symm.trans hk)
  · cases hname.symm.trans hk

omit [DecidableEq Hid] in
/-- A step that creates a segment after the owner's own. -/
theorem Owns.outlived (hown : Owns es os h fd) (hnext : os'.next = os.next + 1)
    (hname : os'.name = some os.next) :
    Owns (es ++ [(q, .call (some os.next))]) os' h fd := by
  obtain ⟨hlt, es₁, es₂, rfl, -⟩ := hown
  refine ⟨by omega, es₁, es₂ ++ [(q, .call (some os.next))], by simp, ?_⟩
  intro k hk
  obtain rfl := Option.some.inj (hname.symm.trans hk)
  refine iff_of_false (by omega) ?_
  rw [NoneMade.snoc]
  exact fun hno => hno.2 _ rfl

omit [DecidableEq Hid] in
/-- The step that creates the owner's segment. -/
theorem Owns.born (hnext : os'.next = fd + 1) (hname : os'.name = some fd) :
    Owns (es ++ [(h, .call (some fd))]) os' h fd := by
  refine ⟨by omega, es, [], rfl, ?_⟩
  intro k hk
  obtain rfl := Option.some.inj (hname.symm.trans hk)
  exact iff_of_true rfl fun _ _ hmem => by cases hmem

end Owner

variable {W W' : Handles Hid} {π : List ((Hid × Deed) × Handles Hid)} {h : Hid}

theorem owns_of_run (hrun : (handles Hid).Run π W) {fd : ℕ} (hown : W.obj h = .attached fd true) :
    Owns (System.events π) W.os h fd := by
  revert h fd
  refine System.Run.induction (P := fun π W => ∀ {h fd}, W.obj h = .attached fd true →
    Owns (System.events π) W.os h fd) ?_ ?_ hrun
  · intro W hinit h fd hown
    cases (hinit h).symm.trans hown
  · rintro π W e W' - ih ⟨⟨q, ask⟩, hstep⟩ h fd hown
    simp only [Handles.step] at hstep
    split at hstep
    · cases hstep
    rename_i d os o hobj
    cases hstep
    rw [System.events_append, System.events_singleton]
    rcases Obj.step_cases hobj with ⟨hd, hnext, hname, hkeep⟩ | ⟨rfl, hnext, hname, hnew⟩
    · refine Owns.keep ?_ hnext hname hd
      by_cases hq : h = q
      · subst hq
        exact ih (hkeep fd (by simpa using hown))
      · exact ih (by simpa [hq] using hown)
    · by_cases hq : h = q
      · subst hq
        obtain rfl := hnew fd (by simpa using hown)
        exact .born hnext hname
      · have hown' : W.obj h = .attached fd true := by simpa [hq] using hown
        exact (ih hown').outlived hnext hname

/-- **What a destructor does to the name.** An owner's removes it, whatever it denotes; and what
it denotes, if anything, is the segment this very handle created exactly when no segment has been
created under the name since. Any other destructor leaves the name alone. -/
theorem destroy_name (hrun : (handles Hid).Run π W) {r : Option ℕ}
    (hnext : (handles Hid).next W (h, .destroy r) W') :
    (∀ fd, W.obj h = .attached fd true → r = W.os.name ∧ W'.os.name = none ∧
      ∃ es₁ es₂, System.events π = es₁ ++ (h, .call (some fd)) :: es₂ ∧
        ∀ k, W.os.name = some k → (k = fd ↔ NoneMade es₂)) ∧
    ((∀ fd, W.obj h ≠ .attached fd true) → r = none ∧ W'.os = W.os) := by
  obtain ⟨⟨q, ask⟩, hstep⟩ := hnext
  simp only [Handles.step] at hstep
  split at hstep
  · cases hstep
  rename_i d os o hobj
  cases hstep
  constructor
  · intro fd hown
    rw [hown] at hobj
    cases ask with
    | destroy =>
      cases hobj
      refine ⟨rfl, ?_, (owns_of_run hrun hown).2⟩
      cases hname : W.os.name <;> simp [Os.delOsFile, Os.unlink, hname]
    | _ => cases hobj
  · intro hother
    cases hpos : W.obj h with
    | fresh =>
      rw [hpos] at hobj
      cases ask with
      | destroy =>
        cases hobj
        exact ⟨rfl, rfl⟩
      | call job fails =>
        obtain ⟨obj, -, heq⟩ := Option.map_eq_some_iff.mp hobj
        cases heq
      | _ => cases hobj
    | attached fd ownr =>
      rw [hpos] at hobj
      cases ownr with
      | true => exact absurd hpos (hother fd)
      | false =>
        cases ask with
        | destroy =>
          cases hobj
          exact ⟨rfl, rfl⟩
        | _ => cases hobj
    | gone =>
      rw [hpos] at hobj
      cases hobj

/-- No segment and no name yet, and two handles. -/
def untouched : Handles Bool := ⟨⟨none, fun _ => ⟨0, zeroed⟩, 0⟩, fun _ => .fresh⟩

/-- `make` without a failure. -/
def making : Ask := .call (.make 32) (List.replicate 76 false)

/-- `plug` without a failure. -/
def plugging : Ask := .call .plug (List.replicate 7 false)

theorem handles_run (asks : List (Hid × Ask)) {W : Handles Hid} (hW : ∀ h, W.obj h = .fresh) :
    (handles Hid).Run (System.trace Handles.step W asks) (System.after Handles.step W asks) :=
  ⟨W, hW, System.Steps.trace (M := handles Hid) (P := fun _ => True)
    (fun _ c _ _ _ hstep => ⟨c, hstep⟩) W asks fun _ _ => trivial⟩

theorem destroy_name_own : ∃ π W W' es₁ es₂, (handles Bool).Run π W ∧
    (handles Bool).next W (false, .destroy (some 0)) W' ∧ W.obj true = .attached 0 false ∧
    W'.os.name = none ∧ System.events π = es₁ ++ (false, .call (some 0)) :: es₂ ∧
    NoneMade es₂ := by
  have hrun := handles_run [(false, making), (true, plugging)] (W := untouched) fun _ => rfl
  have hnext : (handles Bool).next
      (System.after Handles.step untouched [(false, making), (true, plugging)])
      (false, .destroy (some 0))
      (System.after Handles.step untouched
        [(false, making), (true, plugging), (false, .destroy)]) := ⟨(false, .destroy), by rfl⟩
  obtain ⟨-, hname, es₁, es₂, hes, hown⟩ := (destroy_name hrun hnext).1 0 (by rfl)
  exact ⟨_, _, _, es₁, es₂, hrun, hnext, by rfl, hname, hes, (hown 0 (by rfl)).mp rfl⟩

/-- **An owner that removes the name of a queue made later.** -/
theorem destroy_takes_name : ∃ π W W', (handles Bool).Run π W ∧
    (handles Bool).next W (false, .destroy (some 1)) W' ∧ W.obj false = .attached 0 true ∧
    W.obj true = .attached 1 true ∧ W.os.name = some 1 ∧ W'.os.name = none := by
  have hrun := handles_run [(false, making), (true, making)] (W := untouched) fun _ => rfl
  refine ⟨_, _, _, hrun, ⟨(false, .destroy), rfl⟩, ?_, ?_, ?_, ?_⟩
  · rfl
  · rfl
  · rfl
  · rfl

/-! ## A `plug` that throws -/

theorem Pos.Dead.alone {pos : Pos} (h : pos.Dead) (os : Os) (fails : List Bool) :
    System.after callStep (os, pos) fails = (os, pos) := by
  induction fails with
  | nil => rfl
  | cons f fails ih =>
    rw [System.after, callStep, h.step]
    exact ih

theorem callStep_cons {os os' : Os} {pos pos' : Pos} {f : Bool} {e : Touch}
    (h : pos.step os f = some (e, os', pos')) (fails : List Bool) :
    System.after callStep (os, pos) (f :: fails) = System.after callStep (os', pos') fails := by
  simp only [System.after, callStep, h]

/-- A `plug` that has compared the sizes does not throw any more. -/
def Pos.Checked : Pos → Prop
  | .plCapa _ | .plMask _ _ | .done _ _ _ | .crashed => True
  | _ => False

theorem Pos.Checked.alone {pos : Pos} (h : pos.Checked) (os : Os) (fails : List Bool) :
    (System.after callStep (os, pos) fails).2.Checked := by
  refine System.after_preserve (P := fun x : Os × Pos => x.2.Checked) ?_ (os, pos) fails h
  rintro ⟨os₁, pos₁⟩ f e ⟨os₂, pos₂⟩ hpos hstep
  simp only [callStep] at hstep
  split at hstep
  · cases hstep
  rename_i e' os' pos' hcode
  cases hstep
  cases pos₁ with
  | plCapa fd =>
    simp only [Pos.step] at hcode
    split at hcode <;> cases hcode <;> trivial
  | plMask fd capa =>
    simp only [Pos.step] at hcode
    split at hcode <;> cases hcode <;> trivial
  | done fd hd ownr => cases hcode
  | crashed => cases hcode
  | _ => exact hpos.elim

/-- A call that has thrown stays as it is. -/
theorem threw_alone {os : Os} {what what' : String} {left left' : Option ℕ} {fails : List Bool}
    (h : (System.after callStep (os, .threw what' left') fails).2 = .threw what left) :
    left' = left := by
  have hthrew : (Pos.threw what' left').Dead := trivial
  rw [hthrew.alone] at h
  exact (Pos.threw.inj h).2

/-- From the comparison of the sizes on, a `plug` that throws leaves the mapping behind. -/
theorem plCheck_alone {os : Os} {fd : ℕ} {fails : List Bool} {what : String} {left : Option ℕ}
    (h : (System.after callStep (os, .plCheck (os.segs fd).bytes fd) fails).2 = .threw what left) :
    left = some fd := by
  rcases fails with _ | ⟨f, fails⟩
  · cases h
  by_cases hmapped : (os.segs fd).Mapped Init.loadCapa.offset
  · by_cases hwant : (os.segs fd).bytes ≠ wantBytes (os.segs fd).shm.capa
    · have hstep : (Pos.plCheck (os.segs fd).bytes fd).step os f =
          some (.other, os, .threw ":实际尺寸与期望尺寸不符!" (some fd)) := by
        rw [Pos.step, if_pos hmapped, if_pos hwant]
      rw [callStep_cons hstep] at h
      exact (threw_alone h).symm
    · have hstep : (Pos.plCheck (os.segs fd).bytes fd).step os f =
          some (.other, os, .plCapa fd) := by
        rw [Pos.step, if_pos hmapped, if_neg hwant]
      rw [callStep_cons hstep] at h
      have hchecked : (Pos.plCapa fd).Checked := trivial
      exact (h ▸ hchecked.alone os fails : (Pos.threw what left).Checked).elim
  · have hstep : (Pos.plCheck (os.segs fd).bytes fd).step os f = some (.other, os, .crashed) := by
      rw [Pos.step, if_neg hmapped]
    rw [callStep_cons hstep] at h
    have hchecked : Pos.crashed.Checked := trivial
    exact (h ▸ hchecked.alone os fails : (Pos.threw what left).Checked).elim

/-- **How a `plug` alone can throw**: without a segment mapped, because there is none to be mapped
or a system call has failed; or with one mapped, of another size than its capacity asks for. -/
theorem plug_threw {os : Os} {fails : List Bool} {what : String} {left : Option ℕ}
    (h : (Job.plug.alone os fails).2 = .threw what left) :
    (left = none ∧ (os.name = none ∨ (∃ fd, os.name = some fd ∧ (os.segs fd).bytes = 0) ∨
        fails[2]? = some true ∨ fails[3]? = some true)) ∨
      ∃ fd, os.name = some fd ∧ left = some fd ∧ (os.segs fd).bytes ≠ 0 ∧
        fails[2]? = some false ∧ fails[3]? = some false := by
  rw [Job.alone, Job.start] at h
  rcases fails with _ | ⟨f₀, fails⟩
  · cases h
  rcases hname : os.name with _ | fd
  · have hstep : Pos.plExists.step os f₀ = some (.other, os, .threw ":shm不存在?" none) := by
      simp [Pos.step, hname]
    rw [callStep_cons hstep] at h
    exact Or.inl ⟨(threw_alone h).symm, Or.inl rfl⟩
  have hstep : Pos.plExists.step os f₀ = some (.other, os, .plSize) := by simp [Pos.step, hname]
  rw [callStep_cons hstep] at h
  rcases fails with _ | ⟨f₁, fails⟩
  · cases h
  have hstep : Pos.plSize.step os f₁ = some (.other, os, .plOpen (os.segs fd).bytes) := by
    simp [Pos.step, hname]
  rw [callStep_cons hstep] at h
  rcases fails with _ | ⟨f₂, fails⟩
  · cases h
  rcases Bool.eq_false_or_eq_true f₂ with rfl | rfl
  · have hstep : (Pos.plOpen (os.segs fd).bytes).step os true =
        some (.other, os, .threw "shm_open错误:" none) := by
      simp [Pos.step]
    rw [callStep_cons hstep] at h
    exact Or.inl ⟨(threw_alone h).symm, by simp⟩
  have hstep : (Pos.plOpen (os.segs fd).bytes).step os false =
      some (.other, os, .plMap (os.segs fd).bytes fd) := by
    simp [Pos.step, hname]
  rw [callStep_cons hstep] at h
  rcases fails with _ | ⟨f₃, fails⟩
  · cases h
  by_cases hmap : (os.segs fd).bytes = 0 ∨ f₃ = true
  · have hstep : (Pos.plMap (os.segs fd).bytes fd).step os f₃ =
        some (.other, os, .threw "mmap错误:" none) := if_pos hmap
    rw [callStep_cons hstep] at h
    refine Or.inl ⟨(threw_alone h).symm, Or.inr ?_⟩
    rcases hmap with hmap | rfl
    · exact Or.inl ⟨fd, rfl, hmap⟩
    · exact Or.inr (Or.inr rfl)
  · obtain ⟨hbytes, hf₃⟩ := not_or.mp hmap
    have hstep : (Pos.plMap (os.segs fd).bytes fd).step os f₃ =
        some (.other, os, .plCheck (os.segs fd).bytes fd) := if_neg hmap
    rw [callStep_cons hstep] at h
    exact Or.inr ⟨fd, rfl, plCheck_alone h, hbytes, rfl, by simpa using hf₃⟩

/-- **When a `plug` that throws leaves the handle as it was**: a later call does what it does on a
fresh handle unless a segment of the wrong size has been mapped. -/
theorem plug_retry_iff {os : Os} {fails : List Bool} {what : String} {left : Option ℕ} {obj : Obj}
    (h : (Job.plug.alone os fails).2 = .threw what left)
    (hobj : (Pos.threw what left).outcome = some obj) :
    (∀ os' job fails' r, Obj.fresh.step os' (.call job fails') = some r →
        obj.step os' (.call job fails') = some r) ↔
      os.name = none ∨ (∃ fd, os.name = some fd ∧ (os.segs fd).bytes = 0) ∨
        fails[2]? = some true ∨ fails[3]? = some true := by
  rcases plug_threw h with ⟨rfl, hfail⟩ | ⟨fd, hname, rfl, hbytes, hopen, hmap⟩
  · cases hobj
    exact iff_of_true (fun _ _ _ _ hr => hr) hfail
  · cases hobj
    refine iff_of_false (fun hall => ?_) ?_
    · -- with the name gone, a fresh handle finds nothing to plug into, and stays as it is
      have hblank := hall .blank .plug [false] (.call none, .blank, .fresh) rfl
      cases hblank
    · simp [hname, hopen, hmap, hbytes]

/-- A queue that is being made: the segment has its size, and no capacity yet. -/
def unfinished : Os := ⟨some 0, fun _ => ⟨4224, zeroed⟩, 1⟩

/-- **A visitor that comes too early cannot come again.** -/
theorem plug_no_retry :
    (Job.plug.alone unfinished (List.replicate 5 false)).2 =
        .threw ":实际尺寸与期望尺寸不符!" (some 0) ∧
      ∃ obj, (Pos.threw ":实际尺寸与期望尺寸不符!" (some 0)).outcome = some obj ∧
        ¬ ∀ os' job fails' r, Obj.fresh.step os' (.call job fails') = some r →
          obj.step os' (.call job fails') = some r := by
  refine ⟨rfl, _, rfl, fun hall => ?_⟩
  cases hall .blank .plug [false] (.call none, .blank, .fresh) rfl

theorem plug_retry_iff_sample :
    (∀ os' job fails' r, Obj.fresh.step os' (.call job fails') = some r →
        Obj.fresh.step os' (.call job fails') = some r) ↔
      Os.blank.name = none ∨ (∃ fd, Os.blank.name = some fd ∧ (Os.blank.segs fd).bytes = 0) ∨
        [false][2]? = some true ∨ [false][3]? = some true :=
  plug_retry_iff (rfl : (Job.plug.alone Os.blank [false]).2 = .threw ":shm不存在?" none) rfl

end ShmAtmRQ

end LeonUtils
