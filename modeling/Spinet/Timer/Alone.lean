import Spinet.Lifecycle.Alone
import Spinet.Timer.LifeCycle

/-!
# A run of a timer by the only caller

A `Timer::run` on a timer that is in no other call of `run` or `stop`, while its threads take their
steps and other threads register waits. The thread of the run before may still be about to release
`waiter_mtx_`, so the call may have to wait for it. What it does is followed in the view of the
timer as a runtime.
-/

namespace Spinet.Timer

open Calls

variable {T : Type*} {κ : Type} {P : Waiters (Ticket κ)} {tm tm' : Timer T κ P} {t : T}
  {weak : Bool}

/-- A call of `run`. -/
def runCall (t : T) (weak : Bool) (tm : Timer T κ P) (pc : RunPc) :
    Option (Timer T κ P × (RunPc ⊕ Unit)) :=
  (tm.runStep t weak pc).map fun (tm', nx) => (tm', nx.toSum)

/-- A step of a thread of the timer, or of a call of `async_wait_until`. -/
inductive Around (tm tm' : Timer T κ P) : Prop
  | exec {t : T} {i : ℕ} {now : ℤ} {es : List (Event κ)} :
    tm.execStep t i now = some (tm', es) → Around tm tm'
  | wait {t : T} {pick : ℕ} {w : Wait κ} {pc : WaitPc} {nx : Next WaitPc Unit} :
    tm.waitStep t pick w pc = some (tm', nx) → Around tm tm'

/-- A timer that is in no call of `run` or `stop`. -/
structure AtRest (tm : Timer T κ P) : Prop where
  /-- `thread_mtx_` is free. -/
  threadMtx : tm.threadMtx = none
  /-- While it is not running, every thread is past its last store. -/
  ended : tm.running = false → ∀ pc ∈ tm.execs, pc = .unlockEnd ∨ pc = .done
  /-- `timer_thread_` stands for a thread that has been started. -/
  thread : ∀ i ∈ tm.timerThread, i < tm.execs.length

/-- In every state that can be reached, a timer that is in no call of `run` or `stop` is at rest. -/
theorem atRest_of_reachable [DecidableEq T] {clock : ℤ}
    {c : Transition.Config (State T κ P) (Event κ)}
    (h : Transition.Reachable (machine T P) (init T P clock) c)
    (hno : ∀ t, ∀ call ∈ c.state.call t, call.view = none) : c.state.timer.AtRest := by
  have hrest : c.state.timer.view.AtRest := by
    refine Runtime.atRest_of_sound (sound_of_reachable h) fun t => ?_
    rw [State.view, Option.bind_eq_none_iff]
    exact fun call hcall => hno t call hcall
  refine ⟨hrest.threadMtx, fun hoff pc hpc => ?_, fun i hi => ?_⟩
  · exact ExecPc.of_view_done (hrest.ended hoff pc.view (List.mem_map_of_mem hpc))
  · simpa [view] using hrest.thread i hi

/-- A timer at rest is a runtime at rest. -/
theorem AtRest.view (h : tm.AtRest) : tm.view.AtRest := by
  refine ⟨h.threadMtx, fun hoff pc hpc => ?_, fun i hi => ?_⟩
  · obtain ⟨pc₀, hpc₀, rfl⟩ := List.mem_map.1 hpc
    rcases h.ended hoff pc₀ hpc₀ with rfl | rfl <;> rfl
  · simpa [Timer.view] using h.thread i hi

/-- What happens around the call is what the threads of a runtime do. -/
theorem Around.inAlone {n : ℕ} {pc : RunPc} (h : Around tm tm')
    (hin : Runtime.InAlone t n pc tm.view) : Runtime.InAlone t n pc tm'.view := by
  cases h with
  | exec hs =>
    obtain ⟨pc, tm₁, pc', hi, hexec, rfl⟩ := execStep_cases hs
    cases hexec.shows hi with
    | still hview => exact hview ▸ hin
    | one hb => exact hin.loops ⟨_, _, hb⟩
    | two hfirst hsecond => exact (hin.loops ⟨_, _, hfirst⟩).loops ⟨_, _, hsecond⟩
  | wait hs => exact (waitStep_cases hs).view ▸ hin

/-- How many steps the call, or the thread that it waits for, have before them at most. -/
def rank (pc : RunPc) (tm : Timer T κ P) : ℕ := 2 * pc.rank + if tm.ended then 0 else 1

/-- The call is never stuck: it can take a step, or the thread that it waits for can end. -/
theorem progress {n : ℕ} {pc : RunPc} (h : Runtime.InAlone t n pc tm.view) (weak : Bool) :
    (∃ tm', Around tm tm' ∧ rank pc tm' < rank pc tm) ∨
      ∃ tm' nx, tm.runStep t weak pc = some (tm', nx) := by
  cases pc with
  | cas =>
    right
    simp only [runStep]
    split <;> exact ⟨_, _, rfl⟩
  | lock =>
    have hmtx : tm.threadMtx = none := h.1
    exact .inr ⟨_, _, by rw [runStep, hmtx, Option.isNone_none, if_pos rfl]⟩
  | join =>
    obtain ⟨-, hthread, hended, -⟩ := h
    obtain ⟨i, hi⟩ := Option.ne_none_iff_exists'.1 hthread
    have hi : tm.timerThread = some i := hi
    have hlt : i < tm.execs.length := by simpa [view] using hended.thread i hi
    have hpc := List.getElem?_eq_getElem hlt
    have hview : (tm.execs[i]).view = .done :=
      hended.ended _ (List.mem_map_of_mem (List.getElem_mem hlt))
    by_cases hdone : tm.ended = true
    · exact .inr ⟨_, _, by rw [runStep, if_pos hdone]⟩
    · -- The thread is about to release `waiter_mtx_`.
      have hlast : tm.execs[i]? = some .unlockEnd := by
        rcases ExecPc.of_view_done hview with hcase | hcase
        · rw [hpc, hcase]
        · simp [Timer.ended, hi, hpc, hcase] at hdone
      refine .inl ⟨{ tm with waiterMtx := none }.moveExec i .done, ?_, ?_⟩
      · have hs : tm.execStep t i 0 =
            some ({ tm with waiterMtx := none }.moveExec i .done, []) := by
          rw [execStep, hlast]
        exact .exec hs
      · have hended' : ({ tm with waiterMtx := none }.moveExec i .done).ended = true := by
          simp [Timer.ended, moveExec, hi, List.getElem?_set_self hlt]
        simp [rank, hended', hdone]
  | test | start | unlock => exact .inr ⟨_, _, rfl⟩

/-- The only call of `run` on a timer that is not running always ends with a thread started, exactly
when its exchange does not fail on equality. -/
theorem run_starts_iff (h : tm.AtRest) (hoff : tm.running = false) (t : T) (weak : Bool) :
    Ends (runCall t weak) Around tm .cas (fun _ tm' => tm'.execs.length = tm.execs.length + 1) ↔
      weak = false := by
  have hlength : ∀ tm : Timer T κ P, tm.view.loops.length = tm.execs.length := by simp [view]
  constructor
  · intro hends
    by_contra hweak
    have hfail : (tm.running || weak) = true := by simpa [hoff] using hweak
    have hexec : Exec (runCall t weak) Around tm .cas tm (.inr ()) := by
      refine .step .refl ?_
      rw [runCall, runStep, if_pos hfail]
      rfl
    have := hends.post _ _ hexec
    omega
  · rintro rfl
    refine Ends.of_rank (I := fun pc tm' => Runtime.InAlone t tm.execs.length pc tm'.view)
      (m := rank) (fun pc s s' hI he => he.inAlone hI) ?_ ?_ ?_
    · intro pc s s' o hI hs
      obtain ⟨⟨tm', nx⟩, hr, hres⟩ := Option.map_eq_some_iff.1 hs
      obtain ⟨rfl, rfl⟩ := Prod.mk.inj hres
      obtain ⟨nx', hr', rfl⟩ := view_runStep hr
      have hafter := hI.step (fun _ => rfl) (Runtime.runStep_cases hr')
      cases nx' with
      | goto pc' => exact hafter
      | ret err => exact (hlength tm').symm.trans hafter.2
    · intro pc s hI
      rcases progress hI false with henv | ⟨tm', nx, hr⟩
      · exact .inl henv
      · refine .inr ⟨tm', nx.toSum, by rw [runCall, hr]; rfl, fun pc' hpc' => ?_⟩
        obtain ⟨nx', hr', rfl⟩ := view_runStep hr
        cases nx' with
        | goto q =>
          obtain rfl := Sum.inl.inj hpc'
          have hlt := (Runtime.runStep_cases hr').rank_lt
          have hle : ∀ b : Bool, (if b = true then 0 else 1) ≤ 1 := by decide
          have := hle tm'.ended
          unfold rank
          omega
        | ret err => cases hpc'
    · have hin := h.view.inAlone (t := t) hoff
      rw [hlength] at hin
      exact hin

end Spinet.Timer
