import Mathlib.Data.List.Basic

/-!
# Runtime: run, stop, and the loop thread

The members of `Runtime` that its life cycle uses, and the steps of `run`, of `stop`, and of a
thread inside `exec`, one access to something shared at a time. The loop is taken from its outside
here: an iteration of `exec` is one step, and so is `release_all_handles`.

The steps are functions of the runtime alone, so that an object which owns runtimes and calls their
`run` and `stop` can be put together from them. `RunStep`, `StopStep`, and `LoopStep` say the same
as relations, one constructor for each step of the source.
-/

namespace Spinet

/-- Where a thread inside `exec` stands. -/
inductive LoopPc
  /-- About to store `stopped_ = false`. -/
  | prologue
  /-- About to read `stopped_` in the guard of the loop. -/
  | guard
  /-- In an iteration of the loop. -/
  | body
  /-- Behind the loop, about to release all handles. -/
  | release
  /-- About to store `running_ = false`. -/
  | store
  /-- The thread has ended. -/
  | done
deriving DecidableEq, Repr

/-- Where a call of `run` stands. -/
inductive RunPc
  /-- About to compare and exchange `running_`. -/
  | cas
  /-- About to lock `thread_mtx_`. -/
  | lock
  /-- In the section, about to test whether `runtime_thread_` is joinable. -/
  | test
  /-- In the section, waiting for `runtime_thread_` to end. -/
  | join
  /-- In the section, about to start a thread in `exec`. -/
  | start
  /-- In the section, about to return. -/
  | unlock
deriving DecidableEq, Repr

/-- Where a call of `stop` stands. -/
inductive StopPc
  /-- About to read `running_`. -/
  | read
  /-- About to store `stopped_ = true`. -/
  | store
  /-- About to lock `thread_mtx_`. -/
  | lock
  /-- In the section, about to test whether `runtime_thread_` is joinable. -/
  | test
  /-- In the section, waiting for `runtime_thread_` to end. -/
  | join
  /-- In the section, about to return. -/
  | unlock
deriving DecidableEq, Repr

/-- What a call does after a step: it goes on, or it returns. -/
inductive Next (π ρ : Type)
  | goto (pc : π)
  | ret (value : ρ)
deriving DecidableEq, Repr

/-- The members of `Runtime` that its life cycle uses, for callers `T`. -/
structure Runtime (T : Type*) where
  /-- `running_`. -/
  running : Bool
  /-- `stopped_`. -/
  stopped : Bool
  /-- The owner of `thread_mtx_`. -/
  threadMtx : Option T
  /-- `runtime_thread_`: the thread it stands for while it is joinable. -/
  runtimeThread : Option ℕ
  /-- The threads started so far, by where they stand in `exec`. -/
  loops : List LoopPc

namespace Runtime

variable {T : Type*}

/-- `Runtime::Runtime`. -/
def new : Runtime T :=
  { running := false, stopped := true, threadMtx := none, runtimeThread := none, loops := [] }

/-- Whether `runtime_thread_` stands for a thread that has ended. -/
def ended (r : Runtime T) : Bool :=
  match r.runtimeThread with
  | some i => decide (r.loops[i]? = some .done)
  | none => false

/-- A step of `Runtime::run` by caller `t`. `weak` says that `compare_exchange_weak` fails although
the value is the expected one. -/
def runStep (r : Runtime T) (t : T) (weak : Bool) :
    RunPc → Option (Runtime T × Next RunPc (Option String))
  | .cas =>
    if r.running || weak then some (r, .ret (some "the server is running"))
    else some ({ r with running := true }, .goto .lock)
  | .lock => if r.threadMtx.isNone then some ({ r with threadMtx := some t }, .goto .test) else none
  | .test => some (r, .goto (if r.runtimeThread.isSome then .join else .start))
  | .join => if r.ended then some ({ r with runtimeThread := none }, .goto .start) else none
  | .start =>
    some ({ r with runtimeThread := some r.loops.length, loops := r.loops ++ [.prologue] },
      .goto .unlock)
  | .unlock => some ({ r with threadMtx := none }, .ret none)

/-- A step of `Runtime::stop` by caller `t`. -/
def stopStep (r : Runtime T) (t : T) : StopPc → Option (Runtime T × Next StopPc Unit)
  | .read => some (r, if r.running then .goto .store else .ret ())
  | .store => some ({ r with stopped := true }, .goto .lock)
  | .lock => if r.threadMtx.isNone then some ({ r with threadMtx := some t }, .goto .test) else none
  | .test => some (r, .goto (if r.runtimeThread.isSome then .join else .unlock))
  | .join => if r.ended then some ({ r with runtimeThread := none }, .goto .unlock) else none
  | .unlock => some ({ r with threadMtx := none }, .ret ())

/-- The runtime once thread `i` stands elsewhere. -/
def moveLoop (r : Runtime T) (i : ℕ) (pc : LoopPc) : Runtime T :=
  { r with loops := r.loops.set i pc }

/-- A step of thread `i` inside `Runtime::exec`, with the value read if it evaluates the guard. -/
def loopStep (r : Runtime T) (i : ℕ) : Option (Runtime T × Option Bool) :=
  match r.loops[i]? with
  | some .prologue => some ({ r with stopped := false }.moveLoop i .guard, none)
  | some .guard => some (r.moveLoop i (if r.stopped then .release else .body), some r.stopped)
  | some .body => some (r.moveLoop i .guard, none)
  | some .release => some (r.moveLoop i .store, none)
  | some .store => some ({ r with running := false }.moveLoop i .done, none)
  | some .done => none
  | none => none

@[simp] theorem moveLoop_running (r : Runtime T) (i : ℕ) (pc : LoopPc) :
    (r.moveLoop i pc).running = r.running := rfl

@[simp] theorem moveLoop_stopped (r : Runtime T) (i : ℕ) (pc : LoopPc) :
    (r.moveLoop i pc).stopped = r.stopped := rfl

@[simp] theorem moveLoop_threadMtx (r : Runtime T) (i : ℕ) (pc : LoopPc) :
    (r.moveLoop i pc).threadMtx = r.threadMtx := rfl

@[simp] theorem moveLoop_runtimeThread (r : Runtime T) (i : ℕ) (pc : LoopPc) :
    (r.moveLoop i pc).runtimeThread = r.runtimeThread := rfl

@[simp] theorem moveLoop_loops (r : Runtime T) (i : ℕ) (pc : LoopPc) :
    (r.moveLoop i pc).loops = r.loops.set i pc := rfl

/-! ## The steps as relations -/

/-- The steps of `run`. -/
inductive RunStep (r : Runtime T) (t : T) (weak : Bool) :
    RunPc → Runtime T → Next RunPc (Option String) → Prop
  | refuse : r.running = true ∨ weak = true →
    RunStep r t weak .cas r (.ret (some "the server is running"))
  | cas : r.running = false → RunStep r t weak .cas { r with running := true } (.goto .lock)
  | lock : r.threadMtx = none → RunStep r t weak .lock { r with threadMtx := some t } (.goto .test)
  | joinable : r.runtimeThread ≠ none → RunStep r t weak .test r (.goto .join)
  | notJoinable : r.runtimeThread = none → RunStep r t weak .test r (.goto .start)
  | join {i : ℕ} : r.runtimeThread = some i → r.loops[i]? = some .done →
    RunStep r t weak .join { r with runtimeThread := none } (.goto .start)
  | start : RunStep r t weak .start
    { r with runtimeThread := some r.loops.length, loops := r.loops ++ [.prologue] } (.goto .unlock)
  | unlock : RunStep r t weak .unlock { r with threadMtx := none } (.ret none)

/-- The steps of `stop`. -/
inductive StopStep (r : Runtime T) (t : T) : StopPc → Runtime T → Next StopPc Unit → Prop
  | notRunning : r.running = false → StopStep r t .read r (.ret ())
  | read : r.running = true → StopStep r t .read r (.goto .store)
  | store : StopStep r t .store { r with stopped := true } (.goto .lock)
  | lock : r.threadMtx = none → StopStep r t .lock { r with threadMtx := some t } (.goto .test)
  | joinable : r.runtimeThread ≠ none → StopStep r t .test r (.goto .join)
  | notJoinable : r.runtimeThread = none → StopStep r t .test r (.goto .unlock)
  | join {i : ℕ} : r.runtimeThread = some i → r.loops[i]? = some .done →
    StopStep r t .join { r with runtimeThread := none } (.goto .unlock)
  | unlock : StopStep r t .unlock { r with threadMtx := none } (.ret ())

/-- The steps of a thread inside `exec`. -/
inductive LoopStep (r : Runtime T) (i : ℕ) : Runtime T → Option Bool → Prop
  | prologue : r.loops[i]? = some .prologue →
    LoopStep r i ({ r with stopped := false }.moveLoop i .guard) none
  | goOn : r.loops[i]? = some .guard → r.stopped = false →
    LoopStep r i (r.moveLoop i .body) (some false)
  | leave : r.loops[i]? = some .guard → r.stopped = true →
    LoopStep r i (r.moveLoop i .release) (some true)
  | body : r.loops[i]? = some .body → LoopStep r i (r.moveLoop i .guard) none
  | release : r.loops[i]? = some .release → LoopStep r i (r.moveLoop i .store) none
  | store : r.loops[i]? = some .store →
    LoopStep r i ({ r with running := false }.moveLoop i .done) none

/-- A thread that `runtime_thread_` stands for and that has ended. -/
theorem ended_eq_true {r : Runtime T} (h : r.ended = true) :
    ∃ i, r.runtimeThread = some i ∧ r.loops[i]? = some .done := by
  unfold ended at h
  split at h
  · rename_i i hi
    exact ⟨i, hi, by simpa using h⟩
  · cases h

/-- Every step of `run` is one of these. -/
theorem runStep_cases {r r' : Runtime T} {t : T} {weak : Bool} {pc : RunPc}
    {nx : Next RunPc (Option String)} (h : r.runStep t weak pc = some (r', nx)) :
    RunStep r t weak pc r' nx := by
  cases pc with
  | cas =>
    by_cases hr : r.running = true ∨ weak = true
    · obtain ⟨rfl, rfl⟩ : _ = r' ∧ _ = nx := by simpa [runStep, hr] using h
      exact .refuse hr
    · obtain ⟨rfl, rfl⟩ : _ = r' ∧ _ = nx := by simpa [runStep, hr] using h
      exact .cas (by simpa using fun h => hr (.inl h))
  | lock =>
    simp only [runStep, Option.ite_none_right_eq_some, Option.some.injEq, Prod.mk.injEq] at h
    obtain ⟨hm, rfl, rfl⟩ := h
    exact .lock (by simpa using hm)
  | test =>
    cases hrt : r.runtimeThread <;>
      simp only [runStep, hrt, Option.isSome_some, Option.isSome_none, if_true, Bool.false_eq_true,
        if_false, Option.some.injEq, Prod.mk.injEq] at h <;>
      obtain ⟨rfl, rfl⟩ := h
    · exact .notJoinable hrt
    · exact .joinable (by simp [hrt])
  | join =>
    simp only [runStep, Option.ite_none_right_eq_some, Option.some.injEq, Prod.mk.injEq] at h
    obtain ⟨he, rfl, rfl⟩ := h
    obtain ⟨i, hi, hd⟩ := ended_eq_true he
    exact .join hi hd
  | start =>
    obtain ⟨rfl, rfl⟩ : _ = r' ∧ _ = nx := by simpa [runStep] using h
    exact .start
  | unlock =>
    obtain ⟨rfl, rfl⟩ : _ = r' ∧ _ = nx := by simpa [runStep] using h
    exact .unlock

/-- Every step of `stop` is one of these. -/
theorem stopStep_cases {r r' : Runtime T} {t : T} {pc : StopPc} {nx : Next StopPc Unit}
    (h : r.stopStep t pc = some (r', nx)) : StopStep r t pc r' nx := by
  cases pc with
  | read =>
    cases hr : r.running <;>
      simp only [stopStep, hr, if_true, Bool.false_eq_true, if_false, Option.some.injEq,
        Prod.mk.injEq] at h <;>
      obtain ⟨rfl, rfl⟩ := h
    · exact .notRunning hr
    · exact .read hr
  | store =>
    obtain ⟨rfl, rfl⟩ : _ = r' ∧ _ = nx := by simpa [stopStep] using h
    exact .store
  | lock =>
    simp only [stopStep, Option.ite_none_right_eq_some, Option.some.injEq, Prod.mk.injEq] at h
    obtain ⟨hm, rfl, rfl⟩ := h
    exact .lock (by simpa using hm)
  | test =>
    cases hrt : r.runtimeThread <;>
      simp only [stopStep, hrt, Option.isSome_some, Option.isSome_none, if_true, Bool.false_eq_true,
        if_false, Option.some.injEq, Prod.mk.injEq] at h <;>
      obtain ⟨rfl, rfl⟩ := h
    · exact .notJoinable hrt
    · exact .joinable (by simp [hrt])
  | join =>
    simp only [stopStep, Option.ite_none_right_eq_some, Option.some.injEq, Prod.mk.injEq] at h
    obtain ⟨he, rfl, rfl⟩ := h
    obtain ⟨i, hi, hd⟩ := ended_eq_true he
    exact .join hi hd
  | unlock =>
    obtain ⟨rfl, rfl⟩ : _ = r' ∧ _ = nx := by simpa [stopStep] using h
    exact .unlock

/-- Every step of a thread inside `exec` is one of these. -/
theorem loopStep_cases {r r' : Runtime T} {i : ℕ} {read : Option Bool}
    (h : r.loopStep i = some (r', read)) : LoopStep r i r' read := by
  unfold loopStep at h
  split at h
  · rename_i hpc
    obtain ⟨rfl, rfl⟩ : _ = r' ∧ _ = read := by simpa using h
    exact .prologue hpc
  · rename_i hpc
    cases hs : r.stopped <;>
      simp only [hs, if_true, Bool.false_eq_true, if_false, Option.some.injEq,
        Prod.mk.injEq] at h <;>
      obtain ⟨rfl, rfl⟩ := h
    · exact .goOn hpc hs
    · exact .leave hpc hs
  · rename_i hpc
    obtain ⟨rfl, rfl⟩ : _ = r' ∧ _ = read := by simpa using h
    exact .body hpc
  · rename_i hpc
    obtain ⟨rfl, rfl⟩ : _ = r' ∧ _ = read := by simpa using h
    exact .release hpc
  · rename_i hpc
    obtain ⟨rfl, rfl⟩ : _ = r' ∧ _ = read := by simpa using h
    exact .store hpc
  · cases h
  · cases h

end Runtime

end Spinet
