import LeonUtils.CallStack

/-!
# Jumps over tracers

`longjmp` resumes an outer frame without destroying the tracers of the frames it skips. The stack
does not notice. Their names stay where they are, and since a tracer that is destroyed takes a name
away only if it is its own, the names of the frames that are still active stay below them: what is
printed from then on is where the jump came from, until `ClearCallStack` (`CallStack.Clear`).

`Frames` is what can be seen of this: the frames that are active, and the names that are printed.

## Main definitions

* `Move`, `Thread.move`, `runMoves` — the runs of a thread, jumps included
* `Frames`, `Frames.move` — active frames and printed names

## Main results

* `Good.leave_shown` — a tracer takes its own name away, and no other
* `good_of_moves` — the printed names after every run with jumps
* `leave_prints` — a jump, and the destruction of the tracer of the frame it leads to
* `jumps_print` — what is printed
-/

namespace LeonUtils

namespace CallStack

variable {P : Type}

/-! ## Runs with jumps -/

/-- What a thread does: it makes a step, or it jumps over the tracers of so many frames. -/
inductive Move (P : Type)
  | op (op : Op P)
  | jump (skipped : ℕ)

/-- The frames that are active, and the names that are printed; both the innermost one last. -/
structure Frames (P : Type) where
  live : List P
  shown : List P

variable [DecidableEq P]

/-- One move of a thread. A jump leaves the stack alone. -/
def Thread.move (t : Thread P) : Move P → Option (Thread P)
  | .op op => t.step op
  | .jump skipped =>
    if skipped ≤ t.live.length then some { t with live := t.live.take (t.live.length - skipped) }
    else none

/-- A run in which frames are entered and left, and jumped over. -/
def runMoves (t : Thread P) (ms : List (Move P)) : Option (Thread P) := ms.foldlM Thread.move t

/-- What is left of the printed names once the tracer of the innermost active frame has been
destroyed. -/
def Frames.left (f : Frames P) : List P :=
  if f.shown.getLast? = f.live.getLast? then f.shown.dropLast else f.shown

/-- What a move does to the frames. -/
def Frames.move (f : Frames P) : Move P → Frames P
  | .op (.enter fn) => ⟨f.live ++ [fn], bounded f.shown (.enter fn)⟩
  | .op .leave => ⟨f.live.dropLast, f.left⟩
  | .jump skipped => { f with live := f.live.take (f.live.length - skipped) }

/-- The frames after a run. -/
def framesAfter (ms : List (Move P)) : Frames P := ms.foldl Frames.move ⟨[], []⟩

theorem runMoves_concat (t : Thread P) (ms : List (Move P)) (m : Move P) :
    runMoves t (ms ++ [m]) = (runMoves t ms).bind fun u => u.move m := by
  simp [runMoves, List.foldlM_append]

/-! ## What is printed -/

variable {s : Stack P} {live names : List P}

omit [DecidableEq P] in
/-- The invariant without the frames. -/
theorem Good.self (h : Good s live names) : Good s names names :=
  { h with live := List.suffix_rfl }

/-- A tracer takes its own name away, and no other. -/
theorem Good.leave_shown (h : Good s names names) (name : P) :
    Good (s.leave name) (if names.getLast? = some name then names.dropLast else names)
      (if names.getLast? = some name then names.dropLast else names) := by
  split
  · rename_i hown
    exact h.leave hown
  · rename_i hother
    rcases List.eq_nil_or_concat names with rfl | ⟨front, last, rfl⟩
    · have hlive : Good s [name] [] := { h with live := List.nil_suffix }
      exact hlive.leave rfl
    · rw [List.concat_eq_append] at h hother ⊢
      rw [List.getLast?_concat, Option.some.injEq] at hother
      rw [Stack.leave, if_pos (Or.inr (h.last.trans_ne hother))]
      exact h

/-- The active frames and the printed names after every run in which `s_top` has stayed below the
maximum of `int`. -/
theorem good_of_moves (null : P) {ms : List (Move P)} {t : Thread P}
    (h : runMoves (.start null) ms = some t)
    (hlow : ∀ pre u, pre <+: ms → runMoves (.start null) pre = some u →
      u.stack.top ≠ 2 ^ 31 - 1) :
    t.live = (framesAfter ms).live ∧
      Good t.stack (framesAfter ms).shown (framesAfter ms).shown := by
  induction ms using List.reverseRecOn generalizing t with
  | nil =>
    cases h
    exact ⟨rfl, ⟨le_rfl, rfl, by norm_num [Thread.start], by simp [framesAfter],
      by simp [framesAfter], List.nil_suffix⟩⟩
  | append_singleton ms m ih =>
    have hlast : t.stack.top ≠ 2 ^ 31 - 1 := hlow _ t List.prefix_rfl h
    rw [runMoves_concat] at h
    obtain ⟨u, hu, hm⟩ := Option.bind_eq_some_iff.mp h
    obtain ⟨hlive, hgood⟩ := ih hu fun pre v hpre hv =>
      hlow pre v (hpre.trans (List.prefix_append _ _)) hv
    rw [framesAfter, List.foldl_concat, ← framesAfter]
    generalize framesAfter ms = f at hlive hgood
    cases m with
    | jump skipped =>
      obtain ⟨-, rfl⟩ : skipped ≤ u.live.length ∧
          { u with live := u.live.take (u.live.length - skipped) } = t := by
        simpa [Thread.move, Option.ite_none_right_eq_some] using hm
      exact ⟨by simp only [Frames.move, hlive], hgood⟩
    | op op =>
      cases op with
      | enter fn =>
        cases hm
        exact ⟨by simp only [Frames.move, hlive], (hgood.enter fn (hgood.top_lt fn hlast)).self⟩
      | leave =>
        obtain ⟨name, hname, rfl⟩ := Option.map_eq_some_iff.mp hm
        refine ⟨by simp only [Frames.move, hlive], ?_⟩
        simp only [Frames.move, Frames.left, ← hlive, hname]
        exact hgood.leave_shown name

/-! ## One jump -/

omit [DecidableEq P] in
/-- A stack is printed in one way. -/
theorem prints_unique {text : P → String} {out out' : String} (h : s.Prints text out)
    (h' : s.Prints text out') : out = out' := by
  obtain ⟨N, hN⟩ := h
  obtain ⟨N', hN'⟩ := h'
  exact Option.some.inj
    ((hN (max N N') (le_max_left ..)).symm.trans (hN' (max N N') (le_max_right ..)))

omit [DecidableEq P] in
/-- More names are a longer text. -/
theorem length_render_lt (text : P → String) (tabs : String) (front : List P) {rest : List P}
    (hrest : rest ≠ []) :
    (render text tabs front).length < (render text tabs (front ++ rest)).length := by
  induction front generalizing tabs with
  | nil =>
    obtain ⟨name, rest, rfl⟩ := List.exists_cons_of_ne_nil hrest
    have hend : 0 < "()\n".length := by decide
    simp only [List.nil_append, render, String.length_append, String.length_empty]
    omega
  | cons name front ih =>
    simp only [List.cons_append, render, String.length_append]
    exact Nat.add_lt_add_left (ih _) _

/-- As long as no frame is more than `63` deep, what is printed are the active frames. -/
theorem good_of_shallow (null : P) {ops : List (Op P)} {t : Thread P}
    (h : run (.start null) ops = some t)
    (hdepth : ∀ pre u, pre <+: ops → run (.start null) pre = some u → u.live.length ≤ 63) :
    Good t.stack t.live t.live ∧ t.stack.btm = 0 := by
  induction ops using List.reverseRecOn generalizing t with
  | nil =>
    cases h
    exact ⟨⟨le_rfl, rfl, by norm_num [Thread.start], by simp [Thread.start],
      by simp [Thread.start], List.suffix_rfl⟩, rfl⟩
  | append_singleton ops op ih =>
    have hlast := hdepth _ t List.prefix_rfl h
    rw [run_append] at h
    obtain ⟨u, hu, hop⟩ := Option.bind_eq_some_iff.mp h
    obtain ⟨hgood, hbtm⟩ := ih hu fun pre v hpre hv =>
      hdepth pre v (hpre.trans (List.prefix_append _ _)) hv
    rw [run_singleton] at hop
    have htop := hgood.top
    cases op with
    | enter fn =>
      cases hop
      simp only [List.length_append, List.length_singleton] at hlast
      have hnames : bounded u.live (.enter fn) = u.live ++ [fn] := by
        rw [bounded, Nat.sub_eq_zero_of_le hlast, List.drop_zero]
      have henter := Stack.enter_eq u.stack.slots u.stack.btm fn (show 0 ≤ u.stack.top by omega)
        (by omega)
      have hgood' := hgood.enter fn (by omega)
      rw [hnames] at hgood'
      refine ⟨hgood', ?_⟩
      rw [henter, hbtm]
      exact max_eq_left (by omega)
    | leave =>
      obtain ⟨name, hname, rfl⟩ := Option.map_eq_some_iff.mp hop
      refine ⟨hgood.leave hname, ?_⟩
      have hlt := hgood.lt
      rcases u.stack.leave_cases name (by omega) with ⟨-, heq⟩ | ⟨hpos, -, heq⟩
      · rw [heq]
        exact hbtm
      · rw [heq, hbtm]
        exact min_eq_left (by omega)

/-- **After a jump.** When all active frames are printed, control resumes in a frame, and that
frame's tracer is destroyed, then all of them are still printed, less the innermost one if it has
the name of that frame. These are the active frames just when no frame has been skipped. -/
theorem leave_prints (text : P → String) {t : Thread P} (h : Good t.stack t.live t.live)
    {skipped : ℕ} (hskip : skipped < t.live.length) :
    ∃ u, runMoves t [.jump skipped, .op .leave] = some u ∧
      u.live = t.live.take (t.live.length - skipped - 1) ∧
      u.stack.Prints text (render text ""
        (Frames.left ⟨t.live.take (t.live.length - skipped), t.live⟩)) ∧
      (u.stack.Prints text (render text "" u.live) ↔ skipped = 0) := by
  have hframes : t.live.take (t.live.length - skipped) ≠ [] := by
    rw [ne_eq, List.take_eq_nil_iff, not_or, ← List.length_eq_zero_iff]
    omega
  obtain ⟨name, hname⟩ := Option.isSome_iff_exists.mp (List.getLast?_isSome.mpr hframes)
  have hmoves : runMoves t [.jump skipped, .op .leave] =
      some ⟨t.stack.leave name, t.live.take (t.live.length - skipped - 1)⟩ := by
    simp [runMoves, Thread.move, Thread.step, hskip.le, hname, List.dropLast_eq_take,
      List.take_take]
  have hprints := (h.leave_shown name).prints text
  have hleft : Frames.left ⟨t.live.take (t.live.length - skipped), t.live⟩ =
      if t.live.getLast? = some name then t.live.dropLast else t.live := by
    simp only [Frames.left, hname]
  refine ⟨_, hmoves, rfl, by rw [hleft]; exact hprints, ?_⟩
  constructor
  · intro hactive
    by_contra hne
    -- something is left of the frames that have been skipped
    obtain ⟨rest, hrest, heq⟩ : ∃ rest, rest ≠ [] ∧
        (if t.live.getLast? = some name then t.live.dropLast else t.live) =
          t.live.take (t.live.length - skipped - 1) ++ rest := by
      have hlen : (t.live.length - skipped - 1) < t.live.length - 1 := by omega
      split
      · refine ⟨t.live.dropLast.drop (t.live.length - skipped - 1), ?_, ?_⟩
        · rw [ne_eq, List.drop_eq_nil_iff, List.length_dropLast]
          omega
        · rw [List.dropLast_eq_take, ← min_eq_left hlen.le, ← List.take_take,
            min_eq_left hlen.le, List.take_append_drop]
      · refine ⟨t.live.drop (t.live.length - skipped - 1), ?_, (List.take_append_drop _ _).symm⟩
        rw [ne_eq, List.drop_eq_nil_iff]
        omega
    have htext := congrArg String.length (prints_unique hactive hprints)
    rw [heq] at htext
    exact (length_render_lt text "" _ hrest).ne htext
  · rintro rfl
    have hown : t.live.getLast? = some name := by simpa using hname
    rw [if_pos hown, List.dropLast_eq_take] at hprints
    exact hprints

/-- **What is printed in runs with jumps.** In every run, at every instant `PrintCallStack` returns
and prints the names that `Frames` tells, if and only if at no instant `s_top` is at the maximum of
`int`. If in a run without a jump no frame has been more than `63` deep, a jump leads to one of the
active frames, and that frame's tracer is destroyed, then all names of before the jump are printed,
less the innermost one if it is the frame's own; these are the frames that are still active just
when the jump has skipped none. -/
theorem jumps_print (null : P) (text : P → String) :
    (∀ ms : List (Move P),
      (∀ pre u, pre <+: ms → runMoves (.start null) pre = some u →
        u.live = (framesAfter pre).live ∧
          u.stack.Prints text (render text "" (framesAfter pre).shown)) ↔
      ∀ pre u, pre <+: ms → runMoves (.start null) pre = some u → u.stack.top ≠ 2 ^ 31 - 1) ∧
    ∀ (ops : List (Op P)) (t : Thread P) (skipped : ℕ), run (.start null) ops = some t →
      (∀ pre u, pre <+: ops → run (.start null) pre = some u → u.live.length ≤ 63) →
      skipped < t.live.length →
      ∃ u, runMoves t [.jump skipped, .op .leave] = some u ∧
        u.live = t.live.take (t.live.length - skipped - 1) ∧
        u.stack.Prints text (render text ""
          (Frames.left ⟨t.live.take (t.live.length - skipped), t.live⟩)) ∧
        (u.stack.Prints text (render text "" u.live) ↔ skipped = 0) := by
  refine ⟨fun ms => ⟨?_, ?_⟩, ?_⟩
  · intro hprints pre u hpre hu htop
    exact not_prints_max htop _ (hprints pre u hpre hu).2
  · intro hlow pre u hpre hu
    obtain ⟨hlive, hgood⟩ := good_of_moves null hu fun pre' v hpre' hv =>
      hlow pre' v (hpre'.trans hpre) hv
    exact ⟨hlive, hgood.prints text⟩
  · intro ops t skipped hrun hdepth hskip
    exact leave_prints text (good_of_shallow null hrun hdepth).1 hskip

/-- Two calls, one inside the other. -/
def twoCalls : List (Op String) := [.enter "call_noreturn", .enter "no_return"]

/-- A thread that has made them. -/
theorem run_twoCalls : ∃ t : Thread String, run (.start "") twoCalls = some t ∧
    t.live = ["call_noreturn", "no_return"] := ⟨_, rfl, rfl⟩

/-- No more frames are active than steps have been made. -/
theorem length_live_le (null : P) {ops : List (Op P)} {t : Thread P}
    (h : run (.start null) ops = some t) : t.live.length ≤ ops.length := by
  induction ops using List.reverseRecOn generalizing t with
  | nil =>
    cases h
    exact le_rfl
  | append_singleton ops op ih =>
    rw [run_append] at h
    obtain ⟨u, hu, hop⟩ := Option.bind_eq_some_iff.mp h
    rw [run_singleton] at hop
    have hle := ih hu
    cases op with
    | enter fn =>
      cases hop
      simpa using hle
    | leave =>
      obtain ⟨name, -, rfl⟩ := Option.map_eq_some_iff.mp hop
      simp only [List.length_dropLast, List.length_append, List.length_singleton]
      omega

theorem depth_twoCalls : ∀ pre u, pre <+: twoCalls → run (.start "") pre = some u →
    u.live.length ≤ 63 := by
  intro pre u hpre hu
  calc u.live.length ≤ pre.length := length_live_le "" hu
    _ ≤ twoCalls.length := hpre.length_le
    _ ≤ 63 := by decide

/-- The jump skips the inner call. -/
theorem jumps_print_twoCalls : ∃ (t u : Thread String), run (.start "") twoCalls = some t ∧
    runMoves t [.jump 1, .op .leave] = some u ∧ u.live = [] ∧
    u.stack.Prints id (render id "" ["call_noreturn", "no_return"]) := by
  obtain ⟨t, hrun, hlive⟩ := run_twoCalls
  obtain ⟨u, hmoves, hactive, hprints, -⟩ :=
    (jumps_print "" id).2 twoCalls t 1 hrun depth_twoCalls (by rw [hlive]; decide)
  refine ⟨t, u, hrun, hmoves, ?_, ?_⟩
  · simpa [hlive] using hactive
  · simpa [hlive, Frames.left] using hprints

/-- The frame at depth `1` has returned, and its name is printed all the same. -/
theorem not_prints_active : ∃ (t u : Thread String), run (.start "") twoCalls = some t ∧
    runMoves t [.jump 1, .op .leave] = some u ∧ u.live = [] ∧
    ¬ u.stack.Prints id (render id "" u.live) := by
  obtain ⟨t, hrun, hlive⟩ := run_twoCalls
  obtain ⟨u, hmoves, hactive, -, hiff⟩ := leave_prints id
    (good_of_shallow "" hrun depth_twoCalls).1 (show 1 < t.live.length by rw [hlive]; decide)
  refine ⟨t, u, hrun, hmoves, ?_, fun h => absurd (hiff.mp h) one_ne_zero⟩
  simpa [hlive] using hactive

end CallStack

end LeonUtils
