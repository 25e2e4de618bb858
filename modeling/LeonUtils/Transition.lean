import Mathlib.Logic.Basic
import Mathlib.Data.List.Basic
import Mathlib.Data.Int.Notation

/-!
# Transition systems and their runs

A program that several parties execute at once is read here as a set of initial states and one
relation saying what a single step may do. Everything later in the development that speaks of
"any interleaving" speaks of `System.Run`.

## Steps carry their states

A run is recorded as the list of its steps, each with its event *and* the state it led to. The
event list alone would not do: statements such as "at some instant between the call and its
return" range over the states in between, and an event list does not determine those.

## Main definitions

* `System.Steps` — a finite stretch of steps between two states
* `System.Run` — the same, from an initial state
* `System.Sees` — a predicate held at one of the instants of a stretch
* `System.Makes` — a predicate held of one of the steps of a stretch
* `System.Throughout` — a relation held of every step of a stretch
* `System.Counts` — a counter that moves with the events bearing its number
* `System.after`, `System.trace` — following a list of choices
* `System.Refinement` — each step of one system is a step of another, or invisible to it

## Main results

* `Run.induction`, `Steps.preserve` — the invariant rules
* `Steps.append`, `Steps.split` — cutting and joining
* `Steps.numbers`, `Steps.counter` — the numbers a counter passes in a stretch
* `Refinement.run` — a refinement carries runs to runs
-/

namespace Transition

/-- Where a system may start, and what one step may do. -/
structure System (σ ε : Type*) where
  /-- The initial states. -/
  init : σ → Prop
  /-- `next s e t`: in state `s` the event `e` may happen, leading to `t`. -/
  next : σ → ε → σ → Prop

namespace System

variable {σ ε τ η : Type*} {M : System σ ε}

/-- `M.Steps s π t` takes `s` to `t`; `π` lists the events with the states they led to. -/
inductive Steps (M : System σ ε) (s : σ) : List (ε × σ) → σ → Prop
  | refl : Steps M s [] s
  | snoc {π : List (ε × σ)} {t u : σ} {e : ε} :
      Steps M s π t → M.next t e u → Steps M s (π ++ [(e, u)]) u

/-- `M.Run π s`: the steps `π` lead from some initial state to `s`. -/
def Run (M : System σ ε) (π : List (ε × σ)) (s : σ) : Prop := ∃ s₀, M.init s₀ ∧ M.Steps s₀ π s

/-- The events of a stretch, in order. -/
def events (π : List (ε × σ)) : List ε := π.map Prod.fst

@[simp] theorem events_nil : events ([] : List (ε × σ)) = [] := rfl

@[simp] theorem events_append (π ρ : List (ε × σ)) : events (π ++ ρ) = events π ++ events ρ :=
  List.map_append

@[simp] theorem events_singleton (e : ε) (s : σ) : events [(e, s)] = [e] := rfl

/-- `P` held at some instant of the stretch `π` that starts in `s`: in `s` itself, or right
after one of the steps. -/
def Sees (s : σ) (π : List (ε × σ)) (P : σ → Prop) : Prop := P s ∨ ∃ x ∈ π, P x.2

instance {s : σ} {π : List (ε × σ)} {P : σ → Prop} [DecidablePred P] : Decidable (Sees s π P) :=
  inferInstanceAs (Decidable (_ ∨ _))

/-- Some step of the stretch `π` that starts in `s` had `P`, which speaks of the state it was made
in and of its event. -/
def Makes (P : σ → ε → Prop) (s : σ) : List (ε × σ) → Prop
  | [] => False
  | (e, t) :: π => P s e ∨ Makes P t π

instance decidableMakes {P : σ → ε → Prop} [∀ s e, Decidable (P s e)] :
    (s : σ) → (π : List (ε × σ)) → Decidable (Makes P s π)
  | _, [] => .isFalse id
  | s, (e, t) :: π =>
    have := decidableMakes (P := P) t π
    inferInstanceAs (Decidable (P s e ∨ Makes P t π))

/-- Every step of the stretch `π` that starts in `s` had `P`, which speaks of its event and of the
states before and after. -/
def Throughout (P : σ → ε → σ → Prop) (s : σ) : List (ε × σ) → Prop
  | [] => True
  | (e, t) :: π => P s e t ∧ Throughout P t π

/-! ## Stretches of steps -/

theorem Steps.single {s t : σ} {e : ε} (h : M.next s e t) : M.Steps s [(e, t)] t :=
  Steps.snoc (π := []) .refl h

theorem Steps.append {s t u : σ} {π ρ : List (ε × σ)} (h₁ : M.Steps s π t)
    (h₂ : M.Steps t ρ u) : M.Steps s (π ++ ρ) u := by
  induction h₂ with
  | refl => simpa using h₁
  | snoc _ hstep ih => simpa [List.append_assoc] using ih.snoc hstep

theorem Steps.cons {s t u : σ} {e : ε} {π : List (ε × σ)} (h₁ : M.next s e t)
    (h₂ : M.Steps t π u) : M.Steps s ((e, t) :: π) u :=
  (Steps.single h₁).append h₂

/-- A stretch passes through the state at the point where its list of steps is cut. -/
theorem Steps.split {s u : σ} {π ρ : List (ε × σ)} (h : M.Steps s (π ++ ρ) u) :
    ∃ t, M.Steps s π t ∧ M.Steps t ρ u := by
  generalize hω : π ++ ρ = ω at h
  induction h generalizing ρ with
  | refl =>
    obtain ⟨rfl, rfl⟩ := List.append_eq_nil_iff.mp hω
    exact ⟨s, .refl, .refl⟩
  | @snoc ω t u e hsteps hstep ih =>
    rcases List.eq_nil_or_concat ρ with rfl | ⟨ρ', x, rfl⟩
    · rw [List.append_nil] at hω
      exact ⟨u, hω ▸ hsteps.snoc hstep, .refl⟩
    · rw [List.concat_eq_append, ← List.append_assoc] at hω
      obtain ⟨hπ, hx⟩ := List.append_inj' hω rfl
      obtain ⟨m, hm, hrest⟩ := ih hπ
      obtain rfl : x = (e, u) := by simpa using hx
      exact ⟨m, hm, by simpa using hrest.snoc hstep⟩

/-- A stretch ends in the state of its last step, if it has one. -/
theorem Steps.last {s t : σ} {π : List (ε × σ)} (h : M.Steps s π t) :
    (π.getLast?.map Prod.snd).getD s = t := by
  cases h with
  | refl => rfl
  | snoc _ _ => simp

/-- What every step preserves, a stretch preserves. -/
theorem Steps.preserve {P : σ → Prop} (hP : ∀ s e t, P s → M.next s e t → P t) {s t : σ}
    {π : List (ε × σ)} (h : M.Steps s π t) (hs : P s) : P t := by
  induction h with
  | refl => exact hs
  | snoc _ hstep ih => exact hP _ _ _ ih hstep

/-! ## Runs -/

theorem Run.nil {s : σ} (h : M.init s) : M.Run [] s := ⟨s, h, .refl⟩

theorem Run.steps {π ρ : List (ε × σ)} {s t : σ} (h : M.Run π s) (h' : M.Steps s ρ t) :
    M.Run (π ++ ρ) t := by
  obtain ⟨s₀, h₀, hπ⟩ := h
  exact ⟨s₀, h₀, hπ.append h'⟩

theorem Run.snoc {π : List (ε × σ)} {s t : σ} {e : ε} (h : M.Run π s) (h' : M.next s e t) :
    M.Run (π ++ [(e, t)]) t :=
  h.steps (.single h')

/-- The invariant rule, for properties of a state together with the history that led to it. -/
theorem Run.induction {P : List (ε × σ) → σ → Prop} (hinit : ∀ s, M.init s → P [] s)
    (hstep : ∀ π s e t, M.Run π s → P π s → M.next s e t → P (π ++ [(e, t)]) t)
    {π : List (ε × σ)} {s : σ} (h : M.Run π s) : P π s := by
  obtain ⟨s₀, h₀, hsteps⟩ := h
  induction hsteps with
  | refl => exact hinit _ h₀
  | snoc hprev hlast ih => exact hstep _ _ _ _ ⟨s₀, h₀, hprev⟩ ih hlast

/-! ## Instants -/

theorem Sees.start {s : σ} {π : List (ε × σ)} {P : σ → Prop} (h : P s) : Sees s π P := Or.inl h

theorem Sees.append {s : σ} {π : List (ε × σ)} {P : σ → Prop} (h : Sees s π P)
    (ρ : List (ε × σ)) : Sees s (π ++ ρ) P := by
  rcases h with h | ⟨x, hx, h⟩
  · exact Or.inl h
  · exact Or.inr ⟨x, List.mem_append_left _ hx, h⟩

/-- The last state of a stretch is one of its instants. -/
theorem Steps.sees_last {s t : σ} {π : List (ε × σ)} {P : σ → Prop} (h : M.Steps s π t)
    (ht : P t) : Sees s π P := by
  cases h with
  | refl => exact Or.inl ht
  | snoc _ _ => exact Or.inr ⟨_, List.mem_append_right _ (List.mem_singleton_self _), ht⟩

theorem Sees.imp {s : σ} {π : List (ε × σ)} {P Q : σ → Prop} (hPQ : ∀ s, P s → Q s)
    (h : Sees s π P) : Sees s π Q := by
  rcases h with h | ⟨x, hx, h⟩
  · exact Or.inl (hPQ _ h)
  · exact Or.inr ⟨x, hx, hPQ _ h⟩

/-- A stretch makes what its last step makes, and what the others do. -/
theorem Steps.makes_snoc {s t u : σ} {e : ε} {π : List (ε × σ)} {P : σ → ε → Prop}
    (h : M.Steps s π t) : Makes P s (π ++ [(e, u)]) ↔ Makes P s π ∨ P t e := by
  induction π generalizing s with
  | nil =>
    obtain rfl : s = t := h.last
    simp [Makes]
  | cons x π ih =>
    obtain ⟨m, hm, hrest⟩ := Steps.split (π := [x]) h
    obtain rfl : x.2 = m := hm.last
    simp only [List.cons_append, Makes, ih hrest, or_assoc]

/-- The same of what every step has. -/
theorem Steps.throughout_snoc {s t u : σ} {e : ε} {π : List (ε × σ)} {P : σ → ε → σ → Prop}
    (h : M.Steps s π t) : Throughout P s (π ++ [(e, u)]) ↔ Throughout P s π ∧ P t e u := by
  induction π generalizing s with
  | nil =>
    obtain rfl : s = t := h.last
    simp [Throughout]
  | cons x π ih =>
    obtain ⟨m, hm, hrest⟩ := Steps.split (π := [x]) h
    obtain rfl : x.2 = m := hm.last
    simp only [List.cons_append, Throughout, ih hrest, and_assoc]

/-- An instant of a stretch cuts it in two. -/
theorem Steps.instant {s t : σ} {π : List (ε × σ)} {P : σ → Prop} (h : M.Steps s π t)
    (hP : Sees s π P) : ∃ π₁ π₂ m, π = π₁ ++ π₂ ∧ M.Steps s π₁ m ∧ P m := by
  rcases hP with hs | ⟨x, hx, hP⟩
  · exact ⟨[], π, s, rfl, .refl, hs⟩
  · obtain ⟨π₁, π₂, rfl⟩ := List.append_of_mem hx
    rw [List.append_cons] at h
    obtain ⟨m, hm, -⟩ := h.split
    obtain ⟨u, -, hlast⟩ := hm.split
    obtain rfl : x.2 = m := hlast.last
    exact ⟨π₁ ++ [x], π₂, x.2, by simp, hm, hP⟩

/-! ## Counters -/

/-- A counter of the state moves with the events that bear a number, and with no others: by one, and
the number is what it was before. -/
def Counts (M : System σ ε) (c : σ → ℤ) (number : ε → Option ℤ) : Prop :=
  ∀ s e t, M.next s e t →
    (number e = some (c s) ∧ c t = c s + 1) ∨ (number e = none ∧ c t = c s)

/-- The numbers borne in a stretch are those the counter passes, in order. -/
theorem Steps.numbers {c : σ → ℤ} {number : ε → Option ℤ} (hc : M.Counts c number) {s t : σ}
    {π : List (ε × σ)} (h : M.Steps s π t) :
    c s ≤ c t ∧ (events π).filterMap number =
      (List.range (c t - c s).toNat).map fun i : ℕ => c s + i := by
  induction h with
  | refl => simp
  | @snoc π t u e _ hnext ih =>
    obtain ⟨hle, hnumbers⟩ := ih
    rw [events_append, List.filterMap_append, hnumbers]
    rcases hc t e u hnext with ⟨he, hu⟩ | ⟨he, hu⟩
    · have hmore : (c u - c s).toNat = (c t - c s).toNat + 1 := by omega
      have hlast : c s + (c t - c s).toNat = c t := by omega
      rw [hmore, List.range_succ, List.map_append, List.map_singleton, hlast]
      exact ⟨by omega, by simp [he]⟩
    · rw [hu]
      exact ⟨hle, by simp [he]⟩

/-- A counter has moved by as much as there are numbers borne. -/
theorem Steps.counter {c : σ → ℤ} {number : ε → Option ℤ} (hc : M.Counts c number) {s t : σ}
    {π : List (ε × σ)} (h : M.Steps s π t) :
    c t = c s + ((events π).filterMap number).length := by
  obtain ⟨hle, hnumbers⟩ := h.numbers hc
  rw [hnumbers, List.length_map, List.length_range]
  omega

/-! ## Following a schedule

A system is often given by a function: a choice of the scheduler is carried out, or makes no sense
in the present state. Then a list of choices is a stretch of steps, found by evaluation. -/

section Following

variable {κ : Type*} (step : σ → κ → Option (ε × σ))

/-- The state after a list of choices. Those that make no sense are skipped. -/
def after (s : σ) : List κ → σ
  | [] => s
  | c :: cs =>
    match step s c with
    | none => after s cs
    | some (_, t) => after t cs

/-- The steps made in following a list of choices. -/
def trace (s : σ) : List κ → List (ε × σ)
  | [] => []
  | c :: cs =>
    match step s c with
    | none => trace s cs
    | some (e, t) => (e, t) :: trace t cs

variable {step}

theorem after_cons {s t : σ} {c : κ} {e : ε} (h : step s c = some (e, t)) (cs : List κ) :
    after step s (c :: cs) = after step t cs := by
  simp [after, h]

theorem trace_cons {s t : σ} {c : κ} {e : ε} (h : step s c = some (e, t)) (cs : List κ) :
    trace step s (c :: cs) = (e, t) :: trace step t cs := by
  simp [trace, h]

theorem after_append (s : σ) (cs ds : List κ) :
    after step s (cs ++ ds) = after step (after step s cs) ds := by
  induction cs generalizing s with
  | nil => rfl
  | cons c cs ih => cases hstep : step s c <;> simp [after, hstep, ih]

theorem trace_append (s : σ) (cs ds : List κ) :
    trace step s (cs ++ ds) = trace step s cs ++ trace step (after step s cs) ds := by
  induction cs generalizing s with
  | nil => rfl
  | cons c cs ih => cases hstep : step s c <;> simp [trace, after, hstep, ih]

/-- What every choice preserves, a list of choices preserves. -/
theorem after_preserve {P : σ → Prop} (hP : ∀ s c e t, P s → step s c = some (e, t) → P t) (s : σ)
    (cs : List κ) (hs : P s) : P (after step s cs) := by
  induction cs generalizing s with
  | nil => exact hs
  | cons c cs ih =>
    simp only [after]
    split
    · exact ih s hs
    · exact ih _ (hP _ _ _ _ hs ‹_›)

/-- Following allowed choices is a stretch of steps. -/
theorem Steps.trace {P : κ → Prop}
    (hnext : ∀ s c e t, P c → step s c = some (e, t) → M.next s e t) (s : σ) (cs : List κ)
    (hcs : ∀ c ∈ cs, P c) : M.Steps s (trace step s cs) (after step s cs) := by
  induction cs generalizing s with
  | nil => exact .refl
  | cons c cs ih =>
    have htail := fun s => ih s fun c hc => hcs c (List.mem_cons_of_mem _ hc)
    cases hstep : step s c with
    | none =>
      simp only [System.trace, after, hstep]
      exact htail s
    | some x =>
      simp only [System.trace, after, hstep]
      exact .cons (hnext s c _ _ (hcs c List.mem_cons_self) hstep) (htail x.2)

/-! ### Going on until an answer

A party that runs alone makes the same choice over and over, until one of its events answers it. -/

variable {α : Type*}

/-- Make the choice `c` until an event answers, at most so many times. -/
def runOn (step : σ → κ → Option (ε × σ)) (answer : ε → Option α) (c : κ) (s : σ) :
    ℕ → Option (α × σ)
  | 0 => none
  | n + 1 =>
    match step s c with
    | none => none
    | some (e, t) =>
      match answer e with
      | some a => some (a, t)
      | none => runOn step answer c t n

variable {answer : ε → Option α}

theorem runOn_next {c : κ} {s t : σ} {e : ε} (h : step s c = some (e, t)) (he : answer e = none)
    (n : ℕ) : runOn step answer c s (n + 1) = runOn step answer c t n := by
  simp [runOn, h, he]

theorem runOn_answer {c : κ} {s t : σ} {e : ε} {a : α} (h : step s c = some (e, t))
    (he : answer e = some a) (n : ℕ) : runOn step answer c s (n + 1) = some (a, t) := by
  simp [runOn, h, he]

end Following

/-! ## Refinement -/

/-- `M` refines `N` under `f`, which may use the history: every step of `M` is a step of `N` or
leaves the image unchanged. `I` is what has to be known about `M`'s own states to see this; it is
established together with the runs of `N`, so that each side may use the other. -/
structure Refinement (M : System σ ε) (N : System τ η) (f : List (ε × σ) → σ → τ)
    (I : List (ε × σ) → σ → Prop) : Prop where
  init : ∀ s, M.init s → N.init (f [] s) ∧ I [] s
  step : ∀ π s e t, (∃ ρ, N.Run ρ (f π s)) → I π s → M.next s e t →
    (f (π ++ [(e, t)]) t = f π s ∨ ∃ η, N.next (f π s) η (f (π ++ [(e, t)]) t)) ∧
      I (π ++ [(e, t)]) t

/-- A refinement carries every run of `M` to one of `N`. -/
theorem Refinement.run {N : System τ η} {f : List (ε × σ) → σ → τ}
    {I : List (ε × σ) → σ → Prop} (hf : Refinement M N f I) {π : List (ε × σ)} {s : σ}
    (h : M.Run π s) : (∃ ρ, N.Run ρ (f π s)) ∧ I π s := by
  refine Run.induction (P := fun π s => (∃ ρ, N.Run ρ (f π s)) ∧ I π s) (fun s hs => ?_) ?_ h
  · exact ⟨⟨[], .nil (hf.init s hs).1⟩, (hf.init s hs).2⟩
  · intro π s e t _ ⟨hρ, hI⟩ hnext
    obtain ⟨hsim, hI'⟩ := hf.step π s e t hρ hI hnext
    refine ⟨?_, hI'⟩
    rcases hsim with heq | ⟨η, hη⟩
    · rwa [heq]
    · obtain ⟨ρ, hρ⟩ := hρ
      exact ⟨_, hρ.snoc hη⟩

end System

end Transition
