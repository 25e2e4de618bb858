import LeonUtils.Shm.AttachRace
import LeonUtils.Shm.Atomic

/-!
# From attaching to use

One process makes a queue, and another one plugs into it. Each of the two goes through its system
calls and its accesses to the segment, and the two may come in any order, or fail. Where the second
reads the mask after the first has stored the last tag, what both have then is a queue that has just
been made: one state of `Shm.Machine`, with a handle in either process. From there on the threads of
the two processes are the threads of the queue.

## Main definitions

* `joined` — the queue that the two processes share

## Main results

* `attached_start` — it has just been made
* `attached_atomic` — what all threads do from there on is what a bounded FIFO does
-/

namespace LeonUtils

namespace ShmAtmRQ

open Transition AtomicObject

/-- The queue that two processes share from here on: the segment, and a handle in either of them. -/
def joined (Tid : Type) (W : World) (fd : ℕ) (hd hd' : Handle) : State Tid Bool :=
  ⟨(W.os.segs fd).shm, fun p => if p then hd else hd', fun _ => none⟩

section Attached

variable {os₀ : Os} {w : ℤ} {job : Bool → Job} {W W' : World} {π : List ((Bool × Touch) × World)}
  {e : Touch} {fd₀ fd : ℕ} {capa : ℤ} {hd hd' : Handle} {ownr ownr' : Bool}

/-- **A `plug` after the end of `make` is where the queue starts.** The segment and the two handles
are an initial state of the queue. -/
theorem attached_start (Tid : Type) (hset : Settled os₀) (hmake : job false = .make w)
    (hplug : job true = .plug ∨ ∃ v, job true = .makeOrPlug v) (h : (attaching os₀ job).Run π W)
    (hnext : (attaching os₀ job).next W (true, e) W') (hat : W.prc true = .plMask fd₀ capa)
    (hdone : W'.prc true = .done fd hd ownr) (hmade : W.prc false = .done fd hd' ownr') :
    joined Tid W' fd hd hd' = State.start Tid Bool w := by
  obtain ⟨fails, hstep, -⟩ := hnext
  rcases race_of_run hset hmake hplug h with ⟨-, hm, hv⟩ | haway
  · simp only [hat, hdone] at hstep
    obtain ⟨hos, rfl, hhd⟩ := step_plMask hstep
    rw [hat] at hv
    obtain ⟨-, -, hcopy⟩ := hv
    obtain rfl : fd = os₀.next := hm.held (by rw [hmade]; rfl)
    rw [hmade] at hm
    cases hm with
    | sized _ _ hpos => rcases hpos with hpos | hpos | hpos <;> cases hpos
    | @running _ todo _ _ _ hpart hpos =>
      cases todo with
      | cons x todo => cases hpos
      | nil =>
        cases hpos
        have hmk := hpart.made
        have hshm : (W.os.segs os₀.next).shm = (make w).1 := congrArg Prod.fst hmk
        have hhd' : hd' = (make w).2 := congrArg Prod.snd hmk
        have hhd₂ : hd = (make w).2 := by
          rw [hhd, ← hcopy, hshm, make_shm, make_handle]
        rw [joined, State.start, hos, hshm, hhd', hhd₂]
        simp
  · rw [hat] at haway
    exact haway.elim

variable {Tid : Type} [DecidableEq Tid] {weak : Bool} {s : State Tid Bool}
  {ρ : List (Event Tid Bool × State Tid Bool)}

/-- **Two processes share one FIFO**, if the second is done with attaching after the first is done
with `make`: however they have come there, the calls and returns of all their threads, on either
handle, are those of a bounded FIFO whose capacity is that of `make`. It then holds as many elements
as the counters say. -/
theorem attached_atomic (hset : Settled os₀) (hmake : job false = .make w)
    (hplug : job true = .plug ∨ ∃ v, job true = .makeOrPlug v) (h : (attaching os₀ job).Run π W)
    (hnext : (attaching os₀ job).next W (true, e) W') (hat : W.prc true = .plMask fd₀ capa)
    (hdone : W'.prc true = .done fd hd ownr) (hmade : W.prc false = .done fd hd' ownr')
    (hρ : (queue Tid Bool w weak).Steps (joined Tid W' fd hd hd') ρ s) :
    ∃ a₀ σ a, (object Tid (fifo (alignCapa w))).init a₀ ∧
      (object Tid (fifo (alignCapa w))).Steps a₀ σ a ∧
      System.visible seen a₀ σ = System.visible shown (joined Tid W' fd hd hd') ρ ∧
      (a.val.length : ℤ) = s.shm.tail - s.shm.head := by
  have hstart := attached_start Tid hset hmake hplug h hnext hat hdone hmade
  rw [hstart] at hρ ⊢
  obtain ⟨a₀, σ, a, h₀, hσ, hvis, hf⟩ := (queue_simulation w weak).run rfl hρ trivial
  exact ⟨a₀, σ, a, h₀, hσ, hvis, hf.length ⟨_, rfl, hρ⟩⟩

end Attached

/-- What one process puts in, by the handle of `make`, the other takes out, by that of `plug`. -/
theorem attached_atomic_patient :
    ∃ (ρ : List (Event (Fin 2) Bool × State (Fin 2) Bool)) (s : State (Fin 2) Bool),
      ((1, .ret (.deque true sample) (some 0)), s) ∈ ρ ∧
      ∃ a₀ σ a, (object (Fin 2) (fifo (alignCapa 32))).init a₀ ∧
        (object (Fin 2) (fifo (alignCapa 32))).Steps a₀ σ a ∧
        System.visible seen a₀ σ =
          System.visible shown (joined (Fin 2) afterMask 0 ⟨32, 31, 0⟩ ⟨32, 31, 0⟩) ρ ∧
        (a.val.length : ℤ) = s.shm.tail - s.shm.head := by
  have hset : Settled .blank := fun _ hname => by cases hname
  have hrun := World.run_trace .blank makeAndPlug patient
  have hat : beforeMask.prc true = .plMask 0 32 := by rfl
  have hdone : afterMask.prc true = .done 0 ⟨32, 31, 0⟩ false := by rfl
  have hmade : beforeMask.prc false = .done 0 ⟨32, 31, 0⟩ true := by rfl
  obtain ⟨ρ, s, ⟨s₀, rfl, hsteps⟩, -⟩ :=
    exists_roundTrip 32 true (0 : Fin 2) 1 false true sample fun _ => 0
  rw [← attached_start (Fin 2) hset rfl (Or.inl rfl) hrun next_afterMask hat hdone hmade] at hsteps
  exact ⟨_, s, List.mem_append_right _ (List.mem_singleton_self _),
    attached_atomic hset rfl (Or.inl rfl) hrun next_afterMask hat hdone hmade hsteps⟩

end ShmAtmRQ

end LeonUtils
