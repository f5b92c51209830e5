import Spinet.Timer.Machine

/-!
# The steps of a timer as relations

One constructor for each thing that a step of `run`, of `stop`, of `async_wait_until`, of a thread
inside `exec`, and of the system can do. The invariants of a timer are proved from these.
-/

namespace Spinet.Timer

variable {T : Type*} {κ : Type} {P : Waiters (Ticket κ)}

/-- The steps of `run`. -/
inductive RunStep (tm : Timer T κ P) (t : T) (weak : Bool) :
    RunPc → Timer T κ P → Next RunPc Unit → Prop
  | refuse : tm.running = true ∨ weak = true → RunStep tm t weak .cas tm (.ret ())
  | cas : tm.running = false → RunStep tm t weak .cas { tm with running := true } (.goto .lock)
  | lock : tm.threadMtx = none →
    RunStep tm t weak .lock { tm with threadMtx := some t } (.goto .test)
  | joinable : tm.timerThread ≠ none → RunStep tm t weak .test tm (.goto .join)
  | notJoinable : tm.timerThread = none → RunStep tm t weak .test tm (.goto .start)
  | join : tm.ended = true → RunStep tm t weak .join { tm with timerThread := none } (.goto .start)
  | start : RunStep tm t weak .start
    { tm with timerThread := some tm.execs.length, execs := tm.execs ++ [.prologue] }
    (.goto .unlock)
  | unlock : RunStep tm t weak .unlock { tm with threadMtx := none } (.ret ())

/-- The steps of `stop`. -/
inductive StopStep (tm : Timer T κ P) (t : T) : StopPc → Timer T κ P → Next StopPc Unit → Prop
  | notRunning : tm.running = false → StopStep tm t .read tm (.ret ())
  | read : tm.running = true → StopStep tm t .read tm (.goto .store)
  | store : StopStep tm t .store { tm with stopped := true } (.goto .spin)
  | spin : tm.running = true → StopStep tm t .spin tm (.goto .notify)
  | spun : tm.running = false → StopStep tm t .spin tm (.goto .lock)
  | notify : StopStep tm t .notify tm.notifyAll (.goto .spin)
  | lock : tm.threadMtx = none → StopStep tm t .lock { tm with threadMtx := some t } (.goto .test)
  | joinable : tm.timerThread ≠ none → StopStep tm t .test tm (.goto .join)
  | notJoinable : tm.timerThread = none → StopStep tm t .test tm (.goto .unlock)
  | join : tm.ended = true → StopStep tm t .join { tm with timerThread := none } (.goto .unlock)
  | unlock : StopStep tm t .unlock { tm with threadMtx := none } (.ret ())

/-- The steps of `async_wait_until`. -/
inductive WaitStep (tm : Timer T κ P) (t : T) (operation : Wait κ) :
    WaitPc → Timer T κ P → Next WaitPc Unit → Prop
  | lock : tm.waiterMtx = none →
    WaitStep tm t operation .lock { tm with waiterMtx := some t } (.goto .push)
  | pushFirst : tm.isEmpty = true →
    WaitStep tm t operation .push { tm with waiters := P.push tm.waiters operation } (.goto .notify)
  | push : tm.isEmpty = false →
    WaitStep tm t operation .push { tm with waiters := P.push tm.waiters operation } (.goto .unlock)
  | notify {i : ℕ} : tm.execs[i]? = some (.waiting false) →
    WaitStep tm t operation .notify (tm.moveExec i (.waiting true)) (.goto .unlock)
  | notifyNone : (∀ pc ∈ tm.execs, pc.blocked = false) →
    WaitStep tm t operation .notify tm (.goto .unlock)
  | unlock : WaitStep tm t operation .unlock { tm with waiterMtx := none } (.ret ())

/-- The steps of a thread inside `exec`: where it stands before, what it changes, where it stands
afterwards, and what can be seen. -/
inductive ExecStep (tm : Timer T κ P) (t : T) (now : ℤ) :
    ExecPc κ → Timer T κ P → ExecPc κ → List (Event κ) → Prop
  | prologue : ExecStep tm t now .prologue { tm with stopped := false } .guard []
  | goOn : tm.stopped = false → ExecStep tm t now .guard tm .lock [.read false]
  | leave : tm.stopped = true → ExecStep tm t now .guard tm .lockClear [.read true]
  | lock : tm.waiterMtx = none →
    ExecStep tm t now .lock { tm with waiterMtx := some t } .collect []
  | collect : ExecStep tm t now .collect { tm with waiters := (collect P now tm.waiters).2 }
    (.unlock now (collect P now tm.waiters).1) [.ticked now]
  | unlock {timePoint : ℤ} {operations : List (Wait κ)} :
    ExecStep tm t now (.unlock timePoint operations) { tm with waiterMtx := none }
      (.fire timePoint operations) []
  | fire {timePoint : ℤ} {operation : Wait κ} {operations : List (Wait κ)} :
    ExecStep tm t now (.fire timePoint (operation :: operations)) tm
      (.callback timePoint operations) [.fired ⟨operation.callback, operation.timePoint, timePoint⟩]
  | fired {timePoint : ℤ} : ExecStep tm t now (.fire timePoint []) tm .drop []
  | callback {timePoint : ℤ} {operations : List (Wait κ)} :
    ExecStep tm t now (.callback timePoint operations) tm (.fire timePoint operations) []
  | drop : ExecStep tm t now .drop tm .lockWait []
  | lockWait : tm.waiterMtx = none →
    ExecStep tm t now .lockWait { tm with waiterMtx := some t } .test []
  | block : tm.isEmpty = true →
    ExecStep tm t now .test { tm with waiterMtx := none } (.waiting false) []
  | pass : tm.isEmpty = false → ExecStep tm t now .test tm (.unlockWait false) []
  | wake {notified : Bool} : ExecStep tm t now (.waiting notified) tm .relock []
  | relock : tm.waiterMtx = none →
    ExecStep tm t now .relock { tm with waiterMtx := some t } .woken []
  | woken : ExecStep tm t now .woken tm (.unlockWait tm.stopped) [.read tm.stopped]
  | unlockLeave : ExecStep tm t now (.unlockWait true) { tm with waiterMtx := none } .lockClear []
  | unlockWait : ExecStep tm t now (.unlockWait false) { tm with waiterMtx := none } .pause []
  | pause : ExecStep tm t now .pause tm .guard []
  | lockClear : tm.waiterMtx = none →
    ExecStep tm t now .lockClear { tm with waiterMtx := some t } .clear []
  | clear : ExecStep tm t now .clear { tm with waiters := P.empty } .destroy
    [.discarded (P.elems tm.waiters)]
  | destroy : ExecStep tm t now .destroy tm .store []
  | store : ExecStep tm t now .store { tm with running := false } .unlockEnd []
  | unlockEnd : ExecStep tm t now .unlockEnd { tm with waiterMtx := none } .done []

variable {tm tm' : Timer T κ P} {t : T}

/-- Every step of `run` is one of these. -/
theorem runStep_cases {weak : Bool} {pc : RunPc} {nx : Next RunPc Unit}
    (h : tm.runStep t weak pc = some (tm', nx)) : RunStep tm t weak pc tm' nx := by
  cases pc with
  | cas =>
    simp only [runStep] at h
    split at h
    case isTrue hr =>
      obtain ⟨rfl, rfl⟩ := Prod.mk.inj (Option.some.inj h)
      exact .refuse (by simpa using hr)
    case isFalse hr =>
      obtain ⟨rfl, rfl⟩ := Prod.mk.inj (Option.some.inj h)
      simp only [Bool.or_eq_true, not_or, Bool.not_eq_true] at hr
      exact .cas hr.1
  | lock =>
    obtain ⟨hm, h⟩ := Option.ite_none_right_eq_some.1 h
    obtain ⟨rfl, rfl⟩ := Prod.mk.inj (Option.some.inj h)
    exact .lock (by simpa using hm)
  | test =>
    obtain ⟨rfl, rfl⟩ := Prod.mk.inj (Option.some.inj h)
    split
    case isTrue hj => exact .joinable (Option.isSome_iff_ne_none.1 hj)
    case isFalse hj => exact .notJoinable (by simpa using hj)
  | join =>
    obtain ⟨he, h⟩ := Option.ite_none_right_eq_some.1 h
    obtain ⟨rfl, rfl⟩ := Prod.mk.inj (Option.some.inj h)
    exact .join he
  | start | unlock =>
    obtain ⟨rfl, rfl⟩ := Prod.mk.inj (Option.some.inj h)
    constructor

/-- Every step of `stop` is one of these. -/
theorem stopStep_cases {pc : StopPc} {nx : Next StopPc Unit}
    (h : tm.stopStep t pc = some (tm', nx)) : StopStep tm t pc tm' nx := by
  cases pc with
  | read =>
    obtain ⟨rfl, rfl⟩ := Prod.mk.inj (Option.some.inj h)
    split
    case isTrue hr => exact .read hr
    case isFalse hr => exact .notRunning (by simpa using hr)
  | spin =>
    obtain ⟨rfl, rfl⟩ := Prod.mk.inj (Option.some.inj h)
    split
    case isTrue hr => exact .spin hr
    case isFalse hr => exact .spun (by simpa using hr)
  | lock =>
    obtain ⟨hm, h⟩ := Option.ite_none_right_eq_some.1 h
    obtain ⟨rfl, rfl⟩ := Prod.mk.inj (Option.some.inj h)
    exact .lock (by simpa using hm)
  | test =>
    obtain ⟨rfl, rfl⟩ := Prod.mk.inj (Option.some.inj h)
    split
    case isTrue hj => exact .joinable (Option.isSome_iff_ne_none.1 hj)
    case isFalse hj => exact .notJoinable (by simpa using hj)
  | join =>
    obtain ⟨he, h⟩ := Option.ite_none_right_eq_some.1 h
    obtain ⟨rfl, rfl⟩ := Prod.mk.inj (Option.some.inj h)
    exact .join he
  | store | notify | unlock =>
    obtain ⟨rfl, rfl⟩ := Prod.mk.inj (Option.some.inj h)
    constructor

/-- Every step of `async_wait_until` is one of these. -/
theorem waitStep_cases {pick : ℕ} {operation : Wait κ} {pc : WaitPc} {nx : Next WaitPc Unit}
    (h : tm.waitStep t pick operation pc = some (tm', nx)) : WaitStep tm t operation pc tm' nx := by
  cases pc with
  | lock =>
    obtain ⟨hm, h⟩ := Option.ite_none_right_eq_some.1 h
    obtain ⟨rfl, rfl⟩ := Prod.mk.inj (Option.some.inj h)
    exact .lock (by simpa using hm)
  | push =>
    obtain ⟨rfl, rfl⟩ := Prod.mk.inj (Option.some.inj h)
    split
    case isTrue he => exact .pushFirst he
    case isFalse he => exact .push (by simpa using he)
  | notify =>
    obtain ⟨tm₁, hone, hres⟩ := Option.map_eq_some_iff.1 h
    obtain ⟨rfl, rfl⟩ := Prod.mk.inj hres
    unfold notifyOne at hone
    split at hone
    · rename_i hi
      obtain rfl := Option.some.inj hone
      exact .notify hi
    · obtain ⟨hany, hone⟩ := Option.ite_none_left_eq_some.1 hone
      obtain rfl := Option.some.inj hone
      exact .notifyNone (by simpa using hany)
  | unlock =>
    obtain ⟨rfl, rfl⟩ := Prod.mk.inj (Option.some.inj h)
    exact .unlock

/-- Every step of a thread inside `exec` is one of these. -/
theorem execStep_cases {i : ℕ} {now : ℤ} {es : List (Event κ)}
    (h : tm.execStep t i now = some (tm', es)) : ∃ pc tm₁ pc', tm.execs[i]? = some pc ∧
      ExecStep tm t now pc tm₁ pc' es ∧ tm' = tm₁.moveExec i pc' := by
  rcases hi : tm.execs[i]? with _ | pc
  · simp [execStep, hi] at h
  refine ⟨pc, ?_⟩
  simp only [execStep, hi] at h
  cases pc with
  | guard =>
    obtain ⟨rfl, rfl⟩ := Prod.mk.inj (Option.some.inj h)
    cases hs : tm.stopped
    · exact ⟨_, _, rfl, .goOn hs, rfl⟩
    · exact ⟨_, _, rfl, .leave hs, rfl⟩
  | lock | lockWait | relock | lockClear =>
    obtain ⟨hm, h⟩ := Option.ite_none_right_eq_some.1 h
    obtain ⟨rfl, rfl⟩ := Prod.mk.inj (Option.some.inj h)
    refine ⟨_, _, rfl, ?_, rfl⟩
    constructor
    simpa using hm
  | fire timePoint operations =>
    cases operations with
    | nil =>
      obtain ⟨rfl, rfl⟩ := Prod.mk.inj (Option.some.inj h)
      exact ⟨_, _, rfl, .fired, rfl⟩
    | cons operation operations =>
      obtain ⟨rfl, rfl⟩ := Prod.mk.inj (Option.some.inj h)
      exact ⟨_, _, rfl, .fire, rfl⟩
  | test =>
    dsimp only at h
    split at h
    case isTrue he =>
      obtain ⟨rfl, rfl⟩ := Prod.mk.inj (Option.some.inj h)
      exact ⟨_, _, rfl, .block he, rfl⟩
    case isFalse he =>
      obtain ⟨rfl, rfl⟩ := Prod.mk.inj (Option.some.inj h)
      exact ⟨_, _, rfl, .pass (by simpa using he), rfl⟩
  | unlockWait leave =>
    obtain ⟨rfl, rfl⟩ := Prod.mk.inj (Option.some.inj h)
    cases leave
    · exact ⟨_, _, rfl, .unlockWait, rfl⟩
    · exact ⟨_, _, rfl, .unlockLeave, rfl⟩
  | prologue | collect | unlock | callback | drop | waiting | woken | pause | clear | destroy
  | store | unlockEnd =>
    obtain ⟨rfl, rfl⟩ := Prod.mk.inj (Option.some.inj h)
    refine ⟨_, _, rfl, ?_, rfl⟩
    constructor
  | done => cases h

/-- A thread inside `exec` moves no other one. -/
theorem ExecStep.execs {now : ℤ} {pc pc' : ExecPc κ} {es : List (Event κ)}
    (h : ExecStep tm t now pc tm' pc' es) : tm'.execs = tm.execs := by
  cases h <;> rfl

/-- Where a thread stands after one has moved: that one where it has moved to, and another one where
it was. -/
theorem mem_moveExec {i : ℕ} {pc pc' : ExecPc κ} (h : pc ∈ (tm.moveExec i pc').execs) :
    pc = pc' ∨ ∃ j, j ≠ i ∧ tm.execs[j]? = some pc := by
  obtain ⟨j, hj⟩ := List.mem_iff_getElem?.1 h
  simp only [moveExec, List.getElem?_set] at hj
  split at hj
  · split at hj
    · exact .inl (Option.some.inj hj).symm
    · cases hj
  · exact .inr ⟨j, fun he => absurd he.symm ‹_›, hj⟩

/-- A thread that can call is in no call. -/
theorem State.call_of_idle {s : State T κ P} {t : Thread T} (h : s.idle t = true) :
    s.call t = none := by
  simp only [State.idle, Bool.and_eq_true, Option.isNone_iff_eq_none] at h
  exact h.1

variable [DecidableEq T] {s s' : State T κ P}

/-- The steps of the system. -/
inductive Step (s : State T κ P) : Action T κ → State T κ P → List (Event κ) → Prop
  | run {t : Thread T} : s.idle t = true → Step s (.run t) (s.setCall t (some (.run .cas))) []
  | stop {t : Thread T} : s.idle t = true →
    Step s (.stop t) (s.setCall t (some (.stop false .read))) []
  | wait {t : Thread T} {timePoint : ℤ} {callback : κ} : s.idle t = true →
    Step s (.wait t timePoint callback) (s.setCall t (some (.wait timePoint callback .lock))) []
  | runGoto {t : Thread T} {weak : Bool} {pick : ℕ} {pc pc' : RunPc} {tm : Timer (Thread T) κ P} :
    s.call t = some (.run pc) → RunStep s.timer t weak pc tm (.goto pc') →
    Step s (.go t weak pick) ({ s with timer := tm }.setCall t (some (.run pc')))
      (if pc = RunPc.cas then [.runBegan] else [])
  | runRet {t : Thread T} {weak : Bool} {pick : ℕ} {pc : RunPc} {tm : Timer (Thread T) κ P} :
    s.call t = some (.run pc) → RunStep s.timer t weak pc tm (.ret ()) →
    Step s (.go t weak pick) ({ s with timer := tm, returned := true }.setCall t none)
      [.runReturned]
  | stopGoto {t : Thread T} {weak : Bool} {pick : ℕ} {armed : Bool} {pc pc' : StopPc}
      {tm : Timer (Thread T) κ P} :
    s.call t = some (.stop armed pc) → StopStep s.timer t pc tm (.goto pc') →
    Step s (.go t weak pick)
      ({ s with timer := tm }.setCall t
        (some (.stop (if pc = StopPc.read then s.returned else armed) pc')))
      (if pc = StopPc.store then
        [.stopStored (if pc = StopPc.read then s.returned else armed)]
      else [])
  | stopRet {t : Thread T} {weak : Bool} {pick : ℕ} {armed : Bool} {pc : StopPc}
      {tm : Timer (Thread T) κ P} :
    s.call t = some (.stop armed pc) → StopStep s.timer t pc tm (.ret ()) →
    Step s (.go t weak pick) ({ s with timer := tm }.setCall t none) [.stopReturned]
  | waitGoto {t : Thread T} {weak : Bool} {pick : ℕ} {timePoint : ℤ} {callback : κ}
      {pc pc' : WaitPc} {tm : Timer (Thread T) κ P} :
    s.call t = some (.wait timePoint callback pc) →
    WaitStep s.timer t ⟨timePoint, s.registrations, callback⟩ pc tm (.goto pc') →
    Step s (.go t weak pick)
      ({ s with
        timer := tm
        registrations := s.registrations + if pc = WaitPc.push then 1 else 0 }.setCall t
          (some (.wait timePoint callback pc')))
      (if pc = WaitPc.push then [.registered ⟨timePoint, s.registrations, callback⟩] else [])
  | waitRet {t : Thread T} {weak : Bool} {pick : ℕ} {timePoint : ℤ} {callback : κ} {pc : WaitPc}
      {tm : Timer (Thread T) κ P} :
    s.call t = some (.wait timePoint callback pc) →
    WaitStep s.timer t ⟨timePoint, s.registrations, callback⟩ pc tm (.ret ()) →
    Step s (.go t weak pick)
      ({ s with
        timer := tm
        registrations := s.registrations + if pc = WaitPc.push then 1 else 0 }.setCall t none) []
  | exec {i : ℕ} {now : ℤ} {pc pc' : ExecPc κ} {tm : Timer (Thread T) κ P} {es : List (Event κ)} :
    s.call (.timer i) = none → s.clock ≤ now → s.timer.execs[i]? = some pc →
    ExecStep s.timer (.timer i) now pc tm pc' es →
    Step s (.exec i now) { s with timer := tm.moveExec i pc', clock := now } es

/-- Every step of the system is one of these. -/
theorem step_cases {a : Action T κ} {es : List (Event κ)} (h : step s a = some (s', es)) :
    Step s a s' es := by
  cases a with
  | run t =>
    obtain ⟨hidle, h⟩ := Option.ite_none_right_eq_some.1 h
    obtain ⟨rfl, rfl⟩ := Prod.mk.inj (Option.some.inj h)
    exact .run hidle
  | stop t =>
    obtain ⟨hidle, h⟩ := Option.ite_none_right_eq_some.1 h
    obtain ⟨rfl, rfl⟩ := Prod.mk.inj (Option.some.inj h)
    exact .stop hidle
  | wait t timePoint callback =>
    obtain ⟨hidle, h⟩ := Option.ite_none_right_eq_some.1 h
    obtain ⟨rfl, rfl⟩ := Prod.mk.inj (Option.some.inj h)
    exact .wait hidle
  | go t weak pick =>
    simp only [step] at h
    split at h
    · rename_i pc hcall
      obtain ⟨⟨tm, nx⟩, hr, hres⟩ := Option.map_eq_some_iff.1 h
      cases nx with
      | goto pc' =>
        obtain ⟨rfl, rfl⟩ := Prod.mk.inj hres
        exact .runGoto hcall (runStep_cases hr)
      | ret =>
        obtain ⟨rfl, rfl⟩ := Prod.mk.inj hres
        exact .runRet hcall (runStep_cases hr)
    · rename_i armed pc hcall
      obtain ⟨⟨tm, nx⟩, hr, hres⟩ := Option.map_eq_some_iff.1 h
      cases nx with
      | goto pc' =>
        obtain ⟨rfl, rfl⟩ := Prod.mk.inj hres
        exact .stopGoto hcall (stopStep_cases hr)
      | ret =>
        obtain ⟨rfl, rfl⟩ := Prod.mk.inj hres
        exact .stopRet hcall (stopStep_cases hr)
    · rename_i timePoint callback pc hcall
      obtain ⟨⟨tm, nx⟩, hr, hres⟩ := Option.map_eq_some_iff.1 h
      cases nx with
      | goto pc' =>
        obtain ⟨rfl, rfl⟩ := Prod.mk.inj hres
        exact .waitGoto hcall (waitStep_cases hr)
      | ret =>
        obtain ⟨rfl, rfl⟩ := Prod.mk.inj hres
        exact .waitRet hcall (waitStep_cases hr)
    · cases h
  | exec i now =>
    obtain ⟨hidle, h⟩ := Option.ite_none_right_eq_some.1 h
    obtain ⟨⟨tm, es'⟩, hr, hres⟩ := Option.map_eq_some_iff.1 h
    obtain ⟨rfl, rfl⟩ := Prod.mk.inj hres
    obtain ⟨pc, tm₁, pc', hi, hstep, rfl⟩ := execStep_cases hr
    rw [Bool.and_eq_true, Option.isNone_iff_eq_none, decide_eq_true_eq] at hidle
    exact .exec hidle.1 hidle.2 hi hstep

end Spinet.Timer
