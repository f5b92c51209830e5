import Spinet.Lifecycle.Overwritten
import Spinet.Timer.Steps

/-!
# The life cycle of a timer is that of a runtime

`Timer::run` does what `Runtime::run` does, and `Timer::stop` what `Runtime::stop` does, except that
it first notifies until `running_` is unset. The loops of the two differ in what they do between two
readings of `stopped_`. `view` forgets the difference, and `step_simulated` says that a runtime
follows every step of a timer: with no step, with one, or with two where the thread of the timer
reads `stopped_` behind its wait, for which the loop of a runtime goes back to its guard.

So what holds of the threads of every runtime holds of those of every timer
(`sound_of_reachable`).
-/

namespace Spinet.Timer

open Transition

variable {T : Type*} {κ : Type} {P : Waiters (Ticket κ)}

/-- Where the thread of a runtime stands. -/
def ExecPc.view : ExecPc κ → LoopPc
  | .prologue => .prologue
  | .guard => .guard
  | .lockClear | .clear | .destroy | .unlockWait true => .release
  | .store => .store
  | .unlockEnd | .done => .done
  | _ => .body

/-- Where the `stop` of a runtime stands. -/
def StopPc.view : StopPc → Spinet.StopPc
  | .read => .read
  | .store => .store
  | .spin | .notify | .lock => .lock
  | .test => .test
  | .join => .join
  | .unlock => .unlock

/-- The call of a runtime; registrations are none. -/
def Call.view : Call κ → Option StopRequest.Frame
  | .run pc => some (.run pc)
  | .stop armed pc => some (.stop armed pc.view)
  | .wait _ _ _ => none

/-- The timer as a runtime. -/
def view (tm : Timer T κ P) : Runtime T :=
  { running := tm.running, stopped := tm.stopped, threadMtx := tm.threadMtx,
    runtimeThread := tm.timerThread, loops := tm.execs.map ExecPc.view }

/-- The system of a timer as that of a runtime. -/
def State.view (s : State T κ P) : StopRequest.State (Thread T) :=
  { runtime := s.timer.view, caller := fun t => (s.call t).bind Call.view, returned := s.returned }

/-- What a runtime emits where a timer emits an event, but for what its `run` returns. -/
def Event.view : Event κ → Option StopRequest.Event
  | .runBegan => some .runBegan
  | .stopStored armed => some (.stopStored armed)
  | .stopReturned => some .stopReturned
  | .read stopped => some (.guard stopped)
  | _ => none

/-- Whether an event is other than the return of `run`. -/
def notReturn : StopRequest.Event → Bool
  | .runReturned _ => false
  | _ => true

/-- A configuration of a runtime that shows what one of a timer does. -/
structure Shows (c : Config (State T κ P) (Event κ))
    (d : Config (StopRequest.State (Thread T)) StopRequest.Event) : Prop where
  /-- The state is the view. -/
  state : d.state = c.state.view
  /-- The trace shows the same, returns of `run` aside. -/
  trace : d.trace.filter notReturn = c.trace.filterMap Event.view

@[simp] theorem view_notified (pc : ExecPc κ) : pc.notified.view = pc.view := by
  cases pc with
  | unlockWait leave => cases leave <;> rfl
  | _ => rfl

/-- A thread that has ended in the view is past its last store. -/
theorem ExecPc.of_view_done {pc : ExecPc κ} (h : pc.view = .done) :
    pc = .unlockEnd ∨ pc = .done := by
  cases pc with
  | unlockEnd => exact .inl rfl
  | done => exact .inr rfl
  | unlockWait leave => cases leave <;> cases h
  | _ => cases h

/-- Moving a thread moves it in the view. -/
theorem view_moveExec (tm : Timer T κ P) (i : ℕ) (pc : ExecPc κ) :
    (tm.moveExec i pc).view = tm.view.moveLoop i pc.view := by
  simp [view, moveExec, Runtime.moveLoop, List.map_set]

/-- Notifications do not show. -/
theorem view_notifyAll (tm : Timer T κ P) : tm.notifyAll.view = tm.view := by
  simp [view, notifyAll, Function.comp_def]

/-- A thread that has ended has ended in the view. -/
theorem view_ended {tm : Timer T κ P} (h : tm.ended = true) : tm.view.ended = true := by
  unfold ended at h
  split at h
  · rename_i hdone
    obtain ⟨i, hi, hpc⟩ := Option.bind_eq_some_iff.1 hdone
    simp [Runtime.ended, view, hi, hpc, ExecPc.view]
  · cases h

/-- Where a thread stands in the view. -/
theorem view_getElem {tm : Timer T κ P} {i : ℕ} {pc : ExecPc κ} (h : tm.execs[i]? = some pc) :
    tm.view.loops[i]? = some pc.view := by
  simp [view, h]

/-- Replacing a thread by one that looks the same does not show. -/
theorem view_set {tm : Timer T κ P} {i : ℕ} {pc pc' : ExecPc κ} (h : tm.execs[i]? = some pc)
    (hview : pc'.view = pc.view) :
    (tm.execs.set i pc').map ExecPc.view = tm.execs.map ExecPc.view := by
  rw [List.map_set, hview]
  refine List.ext_getElem? fun j => ?_
  rcases eq_or_ne i j with rfl | hne
  · have hlt : i < (tm.execs.map ExecPc.view).length := by
      simpa using (List.getElem?_eq_some_iff.1 h).1
    rw [List.getElem?_set_self hlt, List.getElem?_map, h]
    rfl
  · rw [List.getElem?_set_ne hne]

/-! ## Following a timer -/

section Follows

variable {U : Type*} [DecidableEq U] {s s₁ s' : StopRequest.State U}
  {es es₁ : List StopRequest.Event}

/-- The runtime gets from one state to another, and emits the events meanwhile, returns of `run`
aside. -/
def Follows (s s' : StopRequest.State U) (es : List StopRequest.Event) : Prop :=
  ∃ es', es'.filter notReturn = es ∧
    ∀ tr, Reachable (StopRequest.machine U) ⟨s, tr⟩ ⟨s', tr ++ es'⟩

/-- The runtime takes no step. -/
theorem Follows.refl (s : StopRequest.State U) : Follows s s [] :=
  ⟨[], rfl, fun tr => by rw [List.append_nil]; exact .refl⟩

/-- The runtime takes one step. -/
theorem Follows.one {a : StopRequest.Action U} (h : StopRequest.step s a = some (s', es₁))
    (hes : es₁.filter notReturn = es) : Follows s s' es := by
  refine ⟨es₁, hes, fun tr => .step .refl (a := a) trivial ?_⟩
  simp only [next, StopRequest.machine, h, Option.map_some]

/-- The runtime takes more steps. -/
theorem Follows.trans (h : Follows s s₁ es) (h' : Follows s₁ s' es₁) :
    Follows s s' (es ++ es₁) := by
  obtain ⟨tr, rfl, hr⟩ := h
  obtain ⟨tr', rfl, hr'⟩ := h'
  refine ⟨tr ++ tr', List.filter_append .., fun past => ?_⟩
  rw [← List.append_assoc]
  exact (hr past).trans (hr' (past ++ tr))

end Follows

variable {tm tm' : Timer T κ P} {t : T}

/-- What `run` does next, whatever it returns. -/
def forget : Next RunPc (Option String) → Next RunPc Unit
  | .goto pc => .goto pc
  | .ret _ => .ret ()

/-- What the `stop` of a runtime does next. -/
def viewNext : Next StopPc Unit → Next Spinet.StopPc Unit
  | .goto pc => .goto pc.view
  | .ret _ => .ret ()

/-- A runtime takes every step of `run` that a timer takes. -/
theorem view_runStep {weak : Bool} {pc : RunPc} {nx : Next RunPc Unit}
    (h : tm.runStep t weak pc = some (tm', nx)) :
    ∃ nx', tm.view.runStep t weak pc = some (tm'.view, nx') ∧ forget nx' = nx := by
  cases pc with
  | cas =>
    by_cases hr : (tm.running || weak) = true
    · rw [runStep, if_pos hr] at h
      obtain ⟨rfl, rfl⟩ := Prod.mk.inj (Option.some.inj h)
      have hview : (tm.view.running || weak) = true := hr
      exact ⟨_, by rw [Runtime.runStep, if_pos hview], rfl⟩
    · rw [runStep, if_neg hr] at h
      obtain ⟨rfl, rfl⟩ := Prod.mk.inj (Option.some.inj h)
      refine ⟨.goto .lock, ?_, rfl⟩
      rw [Runtime.runStep, if_neg (show ¬ (tm.view.running || weak) = true from hr)]
      rfl
  | lock =>
    obtain ⟨hm, h⟩ := Option.ite_none_right_eq_some.1 h
    obtain ⟨rfl, rfl⟩ := Prod.mk.inj (Option.some.inj h)
    refine ⟨.goto .test, ?_, rfl⟩
    rw [Runtime.runStep, if_pos (show tm.view.threadMtx.isNone = true from hm)]
    rfl
  | test =>
    obtain ⟨rfl, rfl⟩ := Prod.mk.inj (Option.some.inj h)
    exact ⟨_, rfl, rfl⟩
  | join =>
    obtain ⟨he, h⟩ := Option.ite_none_right_eq_some.1 h
    obtain ⟨rfl, rfl⟩ := Prod.mk.inj (Option.some.inj h)
    refine ⟨.goto .start, ?_, rfl⟩
    rw [Runtime.runStep, if_pos (view_ended he)]
    rfl
  | start =>
    obtain ⟨rfl, rfl⟩ := Prod.mk.inj (Option.some.inj h)
    exact ⟨.goto .unlock, by simp [Runtime.runStep, view, ExecPc.view], rfl⟩
  | unlock =>
    obtain ⟨rfl, rfl⟩ := Prod.mk.inj (Option.some.inj h)
    exact ⟨.ret none, rfl, rfl⟩

/-- A runtime takes every step of `stop` that a timer takes, but for those of its loop, which do not
show. -/
theorem view_stopStep {pc : StopPc} {nx : Next StopPc Unit}
    (h : tm.stopStep t pc = some (tm', nx)) :
    (tm'.view = tm.view ∧ (pc = .spin ∨ pc = .notify) ∧ viewNext nx = .goto .lock) ∨
      tm.view.stopStep t pc.view = some (tm'.view, viewNext nx) := by
  cases pc with
  | read =>
    obtain ⟨rfl, rfl⟩ := Prod.mk.inj (Option.some.inj h)
    refine .inr ?_
    cases hr : tm.running <;> simp [Runtime.stopStep, StopPc.view, view, viewNext, hr]
  | store =>
    obtain ⟨rfl, rfl⟩ := Prod.mk.inj (Option.some.inj h)
    exact .inr rfl
  | spin =>
    obtain ⟨rfl, rfl⟩ := Prod.mk.inj (Option.some.inj h)
    refine .inl ⟨rfl, .inl rfl, ?_⟩
    split <;> rfl
  | notify =>
    obtain ⟨rfl, rfl⟩ := Prod.mk.inj (Option.some.inj h)
    exact .inl ⟨view_notifyAll tm, .inr rfl, rfl⟩
  | lock =>
    obtain ⟨hm, h⟩ := Option.ite_none_right_eq_some.1 h
    obtain ⟨rfl, rfl⟩ := Prod.mk.inj (Option.some.inj h)
    refine .inr ?_
    rw [StopPc.view, Runtime.stopStep, if_pos (show tm.view.threadMtx.isNone = true from hm)]
    rfl
  | test =>
    obtain ⟨rfl, rfl⟩ := Prod.mk.inj (Option.some.inj h)
    refine .inr ?_
    cases hthread : tm.timerThread <;>
      simp [Runtime.stopStep, StopPc.view, view, viewNext, hthread]
  | join =>
    obtain ⟨he, h⟩ := Option.ite_none_right_eq_some.1 h
    obtain ⟨rfl, rfl⟩ := Prod.mk.inj (Option.some.inj h)
    refine .inr ?_
    rw [StopPc.view, Runtime.stopStep, if_pos (view_ended he)]
    rfl
  | unlock =>
    obtain ⟨rfl, rfl⟩ := Prod.mk.inj (Option.some.inj h)
    exact .inr rfl

/-- A registration does not show. -/
theorem WaitStep.view {w : Wait κ} {pc : WaitPc} {nx : Next WaitPc Unit}
    (h : WaitStep tm t w pc tm' nx) : tm'.view = tm.view := by
  cases h with
  | notify hi =>
    have hview : (ExecPc.waiting true : ExecPc κ).view = (ExecPc.waiting false : ExecPc κ).view :=
      rfl
    simp only [Timer.view, moveExec, view_set hi hview]
  | _ => rfl

/-- What a step of a thread shows: nothing, a step of the thread of the runtime, or, where it reads
`stopped_` behind its wait, its return to the guard and the reading there. -/
inductive ExecShows (tm : Timer T κ P) (i : ℕ) (tm' : Timer T κ P) (es : List (Event κ)) : Prop
  | still : tm'.view = tm.view → es.filterMap Event.view = [] → ExecShows tm i tm' es
  | one {b : Option Bool} : tm.view.loopStep i = some (tm'.view, b) →
    es.filterMap Event.view = b.toList.map .guard → ExecShows tm i tm' es
  | two {r : Runtime T} {b : Bool} : tm.view.loopStep i = some (r, none) →
    r.loopStep i = some (tm'.view, some b) → es.filterMap Event.view = [.guard b] →
    ExecShows tm i tm' es

/-- Every step of a thread shows one of these. -/
theorem ExecStep.shows {i : ℕ} {now : ℤ} {pc pc' : ExecPc κ} {es : List (Event κ)}
    (h : ExecStep tm t now pc tm' pc' es) (hi : tm.execs[i]? = some pc) :
    ExecShows tm i (tm'.moveExec i pc') es := by
  have hview := view_getElem hi
  -- A thread that moves where it looks the same does not show.
  have hstill : ∀ {tm₁ : Timer T κ P} {pc' : ExecPc κ}, tm₁.execs = tm.execs →
      tm₁.running = tm.running → tm₁.stopped = tm.stopped → tm₁.threadMtx = tm.threadMtx →
      tm₁.timerThread = tm.timerThread → pc'.view = pc.view →
      (tm₁.moveExec i pc').view = tm.view := by
    intro tm₁ pc' hexecs hrun hstop hmtx hthread hpc'
    simp only [Timer.view, moveExec, hexecs, hrun, hstop, hmtx, hthread, view_set hi hpc']
  cases h with
  | prologue | pause | destroy | store =>
    exact .one (b := none) (by rw [Runtime.loopStep, hview, view_moveExec]; rfl) rfl
  | goOn hs | leave hs =>
    refine .one (b := some _) ?_ rfl
    rw [Runtime.loopStep, hview, view_moveExec]
    simp [ExecPc.view, Timer.view, hs]
  | woken =>
    refine .two (r := tm.view.moveLoop i .guard) (b := tm.stopped) ?_ ?_ rfl
    · rw [Runtime.loopStep, hview]
      rfl
    · have hlt : i < tm.view.loops.length := (List.getElem?_eq_some_iff.1 hview).1
      rw [Runtime.loopStep, Runtime.moveLoop_loops, List.getElem?_set_self hlt, view_moveExec]
      cases hs : tm.stopped <;> simp [ExecPc.view, Timer.view, Runtime.moveLoop, hs]
  | _ => exact .still (hstill rfl rfl rfl rfl rfl rfl) rfl

variable [DecidableEq T]

/-- A call of a thread in the view. -/
theorem view_setCall (s : State T κ P) (t : Thread T) (f : Option (Call κ)) :
    (s.setCall t f).view = s.view.setCaller t (f.bind Call.view) := by
  simp only [State.view, State.setCall, StopRequest.State.setCaller]
  congr 1
  funext u
  simp only [Function.update_apply]
  split <;> rfl

/-- Setting a call to what it is changes nothing. -/
theorem setCaller_self {U : Type*} [DecidableEq U] {s : StopRequest.State U} {u : U}
    {f : Option StopRequest.Frame} (h : s.caller u = f) : s.setCaller u f = s := by
  rw [StopRequest.State.setCaller, ← h, Function.update_eq_self]

omit [DecidableEq T] in
/-- A thread that can call is in no call. -/
theorem view_caller_of_idle {s : State T κ P} {u : Thread T} (h : s.idle u = true) :
    s.view.caller u = none := by
  simp [State.view, State.call_of_idle h]

variable {s s' : State T κ P} {u : Thread T} {es : List (Event κ)}

/-- A runtime follows a step of `run`. -/
theorem goRun_follows {weak : Bool} {pc : RunPc} (hpc : s.call u = some (.run pc))
    (h : goRun s u weak pc = some (s', es)) :
    Follows s.view s'.view (es.filterMap Event.view) := by
  have hcaller : s.view.caller u = some (.run pc) := by simp [State.view, hpc, Call.view]
  obtain ⟨⟨tm, nx⟩, hr, hres⟩ := Option.map_eq_some_iff.1 h
  obtain ⟨nx', hr', rfl⟩ := view_runStep hr
  cases nx' with
  | goto pc' =>
    obtain ⟨rfl, rfl⟩ := Prod.mk.inj hres
    have hstep : StopRequest.step s.view (.go u weak) =
        some ({ s.view with runtime := tm.view }.setCaller u (some (.run pc')),
          if pc = .cas then [.runBegan] else []) := by
      rw [StopRequest.step, hcaller]
      simp only [StopRequest.goRun, State.view, hr', Option.map_some]
    rw [view_setCall]
    exact .one hstep (by split <;> rfl)
  | ret err =>
    obtain ⟨rfl, rfl⟩ := Prod.mk.inj hres
    have hstep : StopRequest.step s.view (.go u weak) =
        some ({ s.view with runtime := tm.view, returned := true }.setCaller u none,
          [.runReturned err]) := by
      rw [StopRequest.step, hcaller]
      simp only [StopRequest.goRun, State.view, hr', Option.map_some]
    rw [view_setCall]
    exact .one hstep rfl

/-- A runtime follows a step of `stop`. -/
theorem goStop_follows (weak : Bool) {armed : Bool} {pc : StopPc}
    (hpc : s.call u = some (.stop armed pc)) (h : goStop s u armed pc = some (s', es)) :
    Follows s.view s'.view (es.filterMap Event.view) := by
  have hcaller : s.view.caller u = some (.stop armed pc.view) := by
    simp [State.view, hpc, Call.view]
  obtain ⟨⟨tm, nx⟩, hr, hres⟩ := Option.map_eq_some_iff.1 h
  have hread : pc.view = .read ↔ pc = .read := by cases pc <;> simp [StopPc.view]
  have hstore : pc.view = .store ↔ pc = .store := by cases pc <;> simp [StopPc.view]
  rcases view_stopStep hr with ⟨hview, hspin, hnext⟩ | hr'
  · -- A step of the loop does not show.
    cases nx with
    | ret => cases hnext
    | goto pc' =>
      obtain ⟨rfl, rfl⟩ := Prod.mk.inj hres
      have hpc' : pc'.view = .lock := Next.goto.inj hnext
      have hsame : ({ s with timer := tm }.setCall u (some (.stop armed pc'))).view = s.view := by
        have hlock : pc.view = .lock := by rcases hspin with rfl | rfl <;> rfl
        have heq : ({ s with timer := tm } : State T κ P).view = s.view := by
          simp only [State.view, hview]
        rw [view_setCall, heq]
        refine setCaller_self ?_
        rw [hcaller, hlock]
        simp only [Option.bind_some, Call.view, hpc']
      rcases hspin with rfl | rfl <;> exact hsame.symm ▸ .refl _
  · cases nx with
    | goto pc' =>
      obtain ⟨rfl, rfl⟩ := Prod.mk.inj hres
      have hstep : StopRequest.step s.view (.go u weak) =
          some ({ s.view with runtime := tm.view }.setCaller u
              (some (.stop (if pc = StopPc.read then s.returned else armed) pc'.view)),
            if pc = StopPc.store then
              [.stopStored (if pc = StopPc.read then s.returned else armed)]
            else []) := by
        rw [StopRequest.step, hcaller]
        simp only [StopRequest.goStop, State.view, hr', Option.map_some, viewNext, hread, hstore]
      rw [view_setCall]
      exact .one hstep (by split <;> rfl)
    | ret =>
      obtain ⟨rfl, rfl⟩ := Prod.mk.inj hres
      have hstep : StopRequest.step s.view (.go u weak) =
          some ({ s.view with runtime := tm.view }.setCaller u none, [.stopReturned]) := by
        rw [StopRequest.step, hcaller]
        simp only [StopRequest.goStop, State.view, hr', Option.map_some, viewNext]
      rw [view_setCall]
      exact .one hstep rfl

/-- A runtime follows a step of `async_wait_until` by taking none. -/
theorem goWait_follows {pick : ℕ} {timePoint : ℤ} {callback : κ} {pc : WaitPc}
    (hpc : s.call u = some (.wait timePoint callback pc))
    (h : goWait s u pick timePoint callback pc = some (s', es)) :
    Follows s.view s'.view (es.filterMap Event.view) := by
  have hcaller : s.view.caller u = none := by simp [State.view, hpc, Call.view]
  obtain ⟨⟨tm, nx⟩, hr, hres⟩ := Option.map_eq_some_iff.1 h
  have hview := (waitStep_cases hr).view
  have hsame : ∀ {n : ℕ} {f : Option (Call κ)}, f.bind Call.view = none →
      Follows s.view ({ s with timer := tm, registrations := n }.setCall u f).view [] := by
    intro n f hf
    have heq : ({ s with timer := tm, registrations := n } : State T κ P).view = s.view := by
      simp only [State.view, hview]
    rw [view_setCall, hf, heq, setCaller_self hcaller]
    exact .refl _
  cases nx with
  | goto pc' =>
    obtain ⟨rfl, rfl⟩ := Prod.mk.inj hres
    have hnil : (if pc = .push
        then [Event.registered (⟨timePoint, s.registrations, callback⟩ : Wait κ)]
        else []).filterMap Event.view = [] := by
      split <;> rfl
    rw [hnil]
    exact hsame rfl
  | ret =>
    obtain ⟨rfl, rfl⟩ := Prod.mk.inj hres
    exact hsame rfl

/-- A runtime follows every step of a timer. -/
theorem step_follows {a : Action T κ} (h : step s a = some (s', es)) :
    Follows s.view s'.view (es.filterMap Event.view) := by
  cases a with
  | run u =>
    simp only [step, Option.ite_none_right_eq_some, Option.some.injEq, Prod.mk.injEq] at h
    obtain ⟨hidle, rfl, rfl⟩ := h
    have hstep : StopRequest.step s.view (.run u) =
        some (s.view.setCaller u (some (.run .cas)), []) := by
      rw [StopRequest.step, view_caller_of_idle hidle, Option.isNone_none, if_pos rfl]
    rw [view_setCall]
    exact .one hstep rfl
  | stop u =>
    simp only [step, Option.ite_none_right_eq_some, Option.some.injEq, Prod.mk.injEq] at h
    obtain ⟨hidle, rfl, rfl⟩ := h
    have hstep : StopRequest.step s.view (.stop u) =
        some (s.view.setCaller u (some (.stop false .read)), []) := by
      rw [StopRequest.step, view_caller_of_idle hidle, Option.isNone_none, if_pos rfl]
    rw [view_setCall]
    exact .one hstep rfl
  | wait u timePoint callback =>
    simp only [step, Option.ite_none_right_eq_some, Option.some.injEq, Prod.mk.injEq] at h
    obtain ⟨hidle, rfl, rfl⟩ := h
    have hsame : s.view.setCaller u none = s.view := setCaller_self (view_caller_of_idle hidle)
    rw [view_setCall]
    exact hsame.symm ▸ .refl _
  | go u weak pick =>
    simp only [step] at h
    split at h
    · exact goRun_follows ‹_› h
    · exact goStop_follows weak ‹_› h
    · exact goWait_follows ‹_› h
    · cases h
  | exec i now =>
    simp only [step, Option.ite_none_right_eq_some] at h
    obtain ⟨-, h⟩ := h
    obtain ⟨⟨tm, es'⟩, hr, hres⟩ := Option.map_eq_some_iff.1 h
    obtain ⟨rfl, rfl⟩ := Prod.mk.inj hres
    have hloop : ∀ {v : StopRequest.State (Thread T)} {r : Runtime (Thread T)} {b : Option Bool},
        v.runtime.loopStep i = some (r, b) →
        Follows v { v with runtime := r } (b.toList.map .guard) := by
      intro v r b hb
      refine .one (a := .loop i) (by rw [StopRequest.step, hb]; rfl) ?_
      cases b <;> rfl
    obtain ⟨pc, tm₁, pc', hi, hexec, rfl⟩ := execStep_cases hr
    cases hexec.shows hi with
    | still hview hes =>
      rw [hes]
      simp only [State.view, hview]
      exact .refl _
    | one hb hes =>
      rw [hes]
      exact hloop hb
    | two hfirst hsecond hes =>
      rw [hes]
      exact (hloop (v := s.view) hfirst).trans (hloop (b := some _) hsecond)

/-- A runtime that shows what a timer does goes on to show it. -/
theorem Shows.step {c c' : Config (State T κ P) (Event κ)} {a : Action T κ}
    {d : Config (StopRequest.State (Thread T)) StopRequest.Event} (h : Shows c d)
    (hn : next (machine T P) c a = some c') :
    ∃ d', Reachable (StopRequest.machine (Thread T)) d d' ∧ Shows c' d' := by
  obtain ⟨s', es, hs, rfl⟩ := next_eq_some _ hn
  obtain ⟨es', hes, hreach⟩ := step_follows hs
  obtain ⟨v, tr⟩ := d
  obtain rfl : v = c.state.view := h.state
  refine ⟨_, hreach tr, rfl, ?_⟩
  have htrace : tr.filter notReturn = c.trace.filterMap Event.view := h.trace
  rw [List.filter_append, List.filterMap_append, hes, htrace]

/-- Whatever a timer does, there is a run of a runtime that shows it. -/
theorem shown_of_reachable {c : Config (State T κ P) (Event κ)} {clock : ℤ}
    (h : Reachable (machine T P) (init T P clock) c) :
    ∃ d, Reachable (StopRequest.machine (Thread T)) (StopRequest.init (Thread T)) d ∧ Shows c d :=
  Reachable.simulated (fun _ _ _ _ hR hn => hR.step hn) h ⟨rfl, rfl⟩

/-- So a timer is as sound as a runtime. -/
theorem sound_of_reachable {c : Config (State T κ P) (Event κ)} {clock : ℤ}
    (h : Reachable (machine T P) (init T P clock) c) : StopRequest.Sound c.state.view := by
  obtain ⟨d, hd, hshows⟩ := shown_of_reachable h
  rw [← hshows.state]
  exact StopRequest.sound_of_reachable hd

/-- While a thread is before its last store, every other one is past it. -/
theorem others_ended {c : Config (State T κ P) (Event κ)} {clock : ℤ}
    (h : Reachable (machine T P) (init T P clock) c) {i j : ℕ} {pc q : ExecPc κ}
    (hi : c.state.timer.execs[i]? = some pc) (hpc : pc.view ≠ .done)
    (hj : c.state.timer.execs[j]? = some q) (hne : j ≠ i) : q = .unlockEnd ∨ q = .done :=
  ExecPc.of_view_done (((sound_of_reachable h).session.alone (view_getElem hi) hpc).2.2 j q.view
    (view_getElem hj) hne)

end Spinet.Timer
