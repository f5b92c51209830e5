import Spinet.Lifecycle.Overwritten

/-!
# One event loop per Runtime

`run` guards the loop with two things: `running_`, which it sets and which the thread clears with
its last store in `exec`, and `thread_mtx_`, in which it joins the thread before and starts the
next. That a thread is past its last store does not say that it has been joined, and the mutex is
free while the thread runs, so neither is enough alone.

`oneLoop_always` puts the two together. The sessions of `Overwritten` say that no two threads are
before their last store, and that `running_` is set while one is. `Fresh` is what the mutex adds: a
`run` that is about to start its thread has joined the thread before.
-/

namespace Spinet.StopRequest

open Transition Stacks

variable {T : Type*} [DecidableEq T]

/-- A `run` that is about to assign to `runtime_thread_` finds it not joinable. -/
def Fresh (s : State T) : Prop :=
  ∀ t, s.caller t = some (.run .start) → s.runtime.runtimeThread = none

/-- What is to hold of the threads of a runtime. -/
structure OneLoop (s : State T) : Prop where
  /-- At most one thread is inside `exec` before its last store, `running_ = false`. -/
  unique : ∀ (i j : ℕ) (pc q : LoopPc),
    s.runtime.loops[i]? = some pc → s.runtime.loops[j]? = some q →
    pc ≠ .done → q ≠ .done → i = j
  /-- While a thread is there, `running_` is set. -/
  running : ∀ pc ∈ s.runtime.loops, pc ≠ .done → s.runtime.running = true
  /-- `run` never assigns to a `runtime_thread_` that is joinable. -/
  assign : Fresh s

variable {s : State T} {t : T} {r : Runtime T} {returned : Bool} {f : Option Frame}

/-- A step of a call that leaves `runtime_thread_` alone, or finds or makes it not joinable. -/
theorem Fresh.after (h : Fresh s)
    (hthread : r.runtimeThread = s.runtime.runtimeThread ∨ r.runtimeThread = none)
    (hf : f = some (.run .start) → r.runtimeThread = none) : Fresh (s.after t r returned f) := by
  intro u hu
  rw [State.after_caller] at hu
  rw [State.after_runtime]
  split at hu
  · exact hf hu
  · rcases hthread with heq | hnone
    · exact heq.trans (h u hu)
    · exact hnone

/-- The `run` that starts its thread is the only one that was about to. -/
theorem Fresh.start (hguarded : Guarded Frame.holds s.runtime.threadMtx s.stack)
    (hpc : s.caller t = some (.run .start)) :
    Fresh (s.after t r returned (some (.run .unlock))) := by
  intro u hu
  rw [State.after_caller] at hu
  split at hu
  · cases hu
  · rename_i hne
    -- Both would be in a section of `thread_mtx_`.
    have hmem : ∀ {v}, s.caller v = some (.run .start) → Frame.run .start ∈ s.stack v := by
      intro v hv
      simp [State.stack, hv]
    exact absurd (hguarded.unique (hmem hu) (hmem hpc) rfl rfl) hne

/-- A step of `run` keeps `runtime_thread_` free for those about to assign to it. -/
theorem Fresh.goRun {weak : Bool} {pc : RunPc} {s' : State T} {es : List Event} (h : Fresh s)
    (hguarded : Guarded Frame.holds s.runtime.threadMtx s.stack)
    (hpc : s.caller t = some (.run pc)) (hs : goRun s t weak pc = some (s', es)) : Fresh s' := by
  obtain ⟨⟨r, nx⟩, hr, hres⟩ := Option.map_eq_some_iff.1 hs
  cases Runtime.runStep_cases hr with
  | notJoinable hnone =>
    obtain ⟨rfl, -⟩ := Prod.mk.inj hres
    exact h.after (.inl rfl) fun _ => hnone
  | join =>
    obtain ⟨rfl, -⟩ := Prod.mk.inj hres
    exact h.after (.inr rfl) fun _ => rfl
  | start =>
    obtain ⟨rfl, -⟩ := Prod.mk.inj hres
    exact Fresh.start hguarded hpc
  | _ =>
    obtain ⟨rfl, -⟩ := Prod.mk.inj hres
    exact h.after (.inl rfl) (by simp)

/-- A step of `stop` keeps it free as well: all that `stop` does to it is to join. -/
theorem Fresh.goStop {armed : Bool} {pc : StopPc} {s' : State T} {es : List Event} (h : Fresh s)
    (hs : goStop s t armed pc = some (s', es)) : Fresh s' := by
  obtain ⟨⟨r, nx⟩, hr, hres⟩ := Option.map_eq_some_iff.1 hs
  cases Runtime.stopStep_cases hr with
  | join =>
    obtain ⟨rfl, -⟩ := Prod.mk.inj hres
    exact h.after (.inr rfl) (by simp)
  | _ =>
    obtain ⟨rfl, -⟩ := Prod.mk.inj hres
    exact h.after (.inl rfl) (by simp)

/-- Every step of a sound runtime keeps `runtime_thread_` free for those about to assign to it. -/
theorem Fresh.step {a : Action T} {s' : State T} {es : List Event} (h : Fresh s) (hsound : Sound s)
    (hs : (machine T).step s a = some (s', es)) : Fresh s' := by
  cases a with
  | run u | stop u =>
    simp only [machine, StopRequest.step, Option.ite_none_right_eq_some, Option.some.injEq,
      Prod.mk.injEq] at hs
    obtain ⟨-, rfl, -⟩ := hs
    have hafter : ∀ g : Frame, g ≠ .run .start →
        Fresh (s.after u s.runtime s.returned (some g)) := fun g hg =>
      h.after (.inl rfl) fun heq => absurd (Option.some.inj heq) hg
    exact hafter _ (by simp)
  | go u weak =>
    simp only [machine, StopRequest.step] at hs
    split at hs
    · exact h.goRun hsound.guarded ‹_› hs
    · exact h.goStop hs
    · cases hs
  | loop i =>
    obtain ⟨⟨r, read⟩, hr, hres⟩ := Option.map_eq_some_iff.1 hs
    obtain ⟨rfl, -⟩ := Prod.mk.inj hres
    have hthread : r.runtimeThread = s.runtime.runtimeThread := by
      cases Runtime.loopStep_cases hr <;> rfl
    exact fun t ht => hthread.trans (h t ht)

omit [DecidableEq T] in
/-- A runtime with at most one session has at most one loop. -/
theorem oneLoop_of_session (h : Session s) (hfresh : Fresh s) : OneLoop s := by
  refine ⟨fun i j pc q hi hj hpc hq => ?_, fun pc hmem hpc => ?_, hfresh⟩
  · by_contra hne
    exact hq ((h.alone hi hpc).2.2 j q hj fun e => hne e.symm)
  · obtain ⟨i, hi⟩ := List.mem_iff_getElem?.1 hmem
    exact (h.alone hi hpc).2.1

/-- Whoever calls `run` and `stop`, and however often: at most one thread is inside `exec` before
its last store, `running_` is set while one is, and `run` never assigns to a `runtime_thread_` that
is joinable. -/
theorem oneLoop_always (as : List (Action T)) :
    Always (machine T) (fun c => OneLoop c.state) (init T) as := by
  have hone : ∀ c, Reachable (machine T) (init T) c → OneLoop c.state := by
    intro c hc
    have hfresh : Sound c.state ∧ Fresh c.state := by
      refine hc.invariant_step (I := fun s _ => Sound s ∧ Fresh s)
        ⟨sound_of_reachable .refl, fun t ht => by cases ht⟩ ?_
      exact fun s tr a s' es hI _ hs => ⟨hI.1.step hs, hI.2.step hI.1 hs⟩
    exact oneLoop_of_session hfresh.1.session hfresh.2
  exact always_of_reachable hone .refl

/-- A runtime that is started, stopped, and started again. -/
example : ∃ c, run (machine (Fin 1)) (init (Fin 1)) (stopAfterPrologue ++ [.go 0 false, .go 0 false,
      .loop 0, .loop 0, .go 0 false, .go 0 false, .run 0, .go 0 false, .go 0 false, .go 0 false,
      .go 0 false]) = some c ∧ c.state.runtime.loops = [.done, .prologue] := by
  exact ⟨_, rfl, by decide⟩

end Spinet.StopRequest
