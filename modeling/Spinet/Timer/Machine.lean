import Spinet.Library.Machine
import Spinet.Lifecycle.Runtime
import Spinet.Timer.Tick

/-!
# Timer: its calls and its thread

The members of `Timer`, and the steps of `run`, `stop`, `async_wait_until`, and of a thread inside
`exec`, one access to something shared at a time; what `waiter_mtx_` guards is read and written in
one step of its section. `async_wait_for` reads the clock and calls `async_wait_until`, so it is a
call of that with some time point.

Any number of threads call in any order. A thread inside `exec` may call as well while it runs code
of the user: in a callback, and while it destroys callbacks, which may destroy what they captured.

`waiter_cv_.wait` may return whenever it likes, which covers its spurious wake-ups, and a
notification marks the thread that it unblocks. `std::priority_queue` is any implementation of a
priority queue, and `precision_`, which only makes the thread sleep, is left out.
-/

namespace Spinet

namespace Timer

/-- A callback, with the number of the call that registered it. The code has no such number. -/
structure Ticket (κ : Type) where
  /-- How many waits were registered before. -/
  number : ℕ
  /-- The callback. -/
  callback : κ
deriving DecidableEq, Repr

/-- A registered wait. -/
abbrev Wait (κ : Type) := WaitOperation (Ticket κ)

/-- Where a thread inside `exec` stands. -/
inductive ExecPc (κ : Type)
  /-- About to store `stopped_ = false`. -/
  | prologue
  /-- About to read `stopped_` in the guard of the loop. -/
  | guard
  /-- About to lock `waiter_mtx_` for the tick. -/
  | lock
  /-- In the section, about to read the clock and to collect operations. -/
  | collect
  /-- In the section, about to leave it. -/
  | unlock (timePoint : ℤ) (operations : List (Wait κ))
  /-- Going through the operations collected; those before have been invoked. -/
  | fire (timePoint : ℤ) (operations : List (Wait κ))
  /-- In a callback; the operations are those after it. -/
  | callback (timePoint : ℤ) (operations : List (Wait κ))
  /-- Destroying the operations collected, all of them invoked. -/
  | drop
  /-- About to lock `waiter_mtx_` behind the tick. -/
  | lockWait
  /-- In the section, about to test whether `waiters_` is empty. -/
  | test
  /-- In `waiter_cv_.wait`; whether a notification has unblocked it. -/
  | waiting (notified : Bool)
  /-- Unblocked, about to lock `waiter_mtx_` again. -/
  | relock
  /-- In the section again, about to read `stopped_`. -/
  | woken
  /-- In the section, about to leave it; whether it leaves the loop as well. -/
  | unlockWait (leave : Bool)
  /-- About to sleep for what is left of `precision_`. -/
  | pause
  /-- Behind the loop, about to lock `waiter_mtx_`. -/
  | lockClear
  /-- In the section, about to swap `waiters_` with an empty queue. -/
  | clear
  /-- In the section, destroying what was in `waiters_`. -/
  | destroy
  /-- In the section, about to store `running_ = false`. -/
  | store
  /-- In the section, about to leave it. -/
  | unlockEnd
  /-- The thread has ended. -/
  | done
deriving DecidableEq, Repr

/-- Where a call of `stop` stands. -/
inductive StopPc
  /-- About to read `running_`. -/
  | read
  /-- About to store `stopped_ = true`. -/
  | store
  /-- About to read `running_` in the guard of its loop. -/
  | spin
  /-- In its loop, about to notify. -/
  | notify
  /-- About to lock `thread_mtx_`. -/
  | lock
  /-- In the section, about to test whether `timer_thread_` is joinable. -/
  | test
  /-- In the section, waiting for `timer_thread_` to end. -/
  | join
  /-- In the section, about to return. -/
  | unlock
deriving DecidableEq, Repr

/-- Where a call of `async_wait_until` stands. -/
inductive WaitPc
  /-- About to lock `waiter_mtx_`. -/
  | lock
  /-- In the section, about to test whether `waiters_` is empty, and to push. -/
  | push
  /-- In the section, about to notify. -/
  | notify
  /-- In the section, about to return. -/
  | unlock
deriving DecidableEq, Repr

/-- What can be seen of a run. -/
inductive Event (κ : Type)
  /-- A call of `run` got past its compare and exchange. -/
  | runBegan
  /-- A call of `run` returned. -/
  | runReturned
  /-- A call of `stop` stored `stopped_ = true`. -/
  | stopStored (armed : Bool)
  /-- A call of `stop` returned. -/
  | stopReturned
  /-- A call of `async_wait_until` put a wait into `waiters_`. -/
  | registered (operation : Wait κ)
  /-- A thread inside `exec` read `stopped_`. -/
  | read (stopped : Bool)
  /-- A tick read the clock. -/
  | ticked (timePoint : ℤ)
  /-- A tick invoked a callback. -/
  | fired (callback : Fired (Ticket κ))
  /-- The end of `exec` cleared `waiters_`. -/
  | discarded (operations : Multiset (Wait κ))

namespace ExecPc

variable {κ : Type}

/-- The operations that a tick has collected and not invoked yet. -/
def operations : ExecPc κ → List (Wait κ)
  | .unlock _ operations => operations
  | .fire _ operations => operations
  | .callback _ operations => operations
  | _ => []

/-- Whether the thread runs code of the user. -/
def inUser : ExecPc κ → Bool
  | .callback _ _ | .drop | .destroy => true
  | _ => false

/-- Whether the thread is blocked in `waiter_cv_.wait`. -/
def blocked : ExecPc κ → Bool
  | .waiting false => true
  | _ => false

/-- Where the thread stands once it has been notified. -/
def notified : ExecPc κ → ExecPc κ
  | .waiting _ => .waiting true
  | pc => pc

end ExecPc

end Timer

/-- The members of `Timer`, for threads `T`, callbacks `κ`, and an implementation of `waiters_`. -/
structure Timer (T : Type*) (κ : Type) (P : Waiters (Timer.Ticket κ)) where
  /-- `running_`. -/
  running : Bool
  /-- `stopped_`. -/
  stopped : Bool
  /-- The owner of `thread_mtx_`. -/
  threadMtx : Option T
  /-- `timer_thread_`: the thread it stands for while it is joinable. -/
  timerThread : Option ℕ
  /-- The owner of `waiter_mtx_`. -/
  waiterMtx : Option T
  /-- `waiters_`. -/
  waiters : P.Q
  /-- The threads started so far, by where they stand in `exec`. -/
  execs : List (Timer.ExecPc κ)

namespace Timer

variable {T : Type*} {κ : Type} {P : Waiters (Ticket κ)}

/-- `Timer::Timer`. -/
def new (T : Type*) (P : Waiters (Ticket κ)) : Timer T κ P :=
  { running := false, stopped := true, threadMtx := none, timerThread := none, waiterMtx := none,
    waiters := P.empty, execs := [] }

/-- Whether `timer_thread_` stands for a thread that has ended. -/
def ended (tm : Timer T κ P) : Bool :=
  match tm.timerThread.bind fun i => tm.execs[i]? with
  | some .done => true
  | _ => false

/-- `waiters_.empty()`. -/
def isEmpty (tm : Timer T κ P) : Bool := (P.top tm.waiters).isNone

/-- The timer once thread `i` stands elsewhere. -/
def moveExec (tm : Timer T κ P) (i : ℕ) (pc : ExecPc κ) : Timer T κ P :=
  { tm with execs := tm.execs.set i pc }

/-- `waiter_cv_.notify_all()`. -/
def notifyAll (tm : Timer T κ P) : Timer T κ P :=
  { tm with execs := tm.execs.map ExecPc.notified }

/-- `waiter_cv_.notify_one()`, where `i` is the thread unblocked, if any is blocked. -/
def notifyOne (tm : Timer T κ P) (i : ℕ) : Option (Timer T κ P) :=
  match tm.execs[i]? with
  | some (.waiting false) => some (tm.moveExec i (.waiting true))
  | _ => if tm.execs.any ExecPc.blocked then none else some tm

/-- A step of `Timer::run` by thread `t`. `weak` says that `compare_exchange_weak` fails although
the value is the expected one. -/
def runStep (tm : Timer T κ P) (t : T) (weak : Bool) :
    RunPc → Option (Timer T κ P × Next RunPc Unit)
  | .cas =>
    if tm.running || weak then some (tm, .ret ())
    else some ({ tm with running := true }, .goto .lock)
  | .lock =>
    if tm.threadMtx.isNone then some ({ tm with threadMtx := some t }, .goto .test) else none
  | .test => some (tm, .goto (if tm.timerThread.isSome then .join else .start))
  | .join => if tm.ended then some ({ tm with timerThread := none }, .goto .start) else none
  | .start =>
    some ({ tm with timerThread := some tm.execs.length, execs := tm.execs ++ [.prologue] },
      .goto .unlock)
  | .unlock => some ({ tm with threadMtx := none }, .ret ())

/-- A step of `Timer::stop` by thread `t`. -/
def stopStep (tm : Timer T κ P) (t : T) : StopPc → Option (Timer T κ P × Next StopPc Unit)
  | .read => some (tm, if tm.running then .goto .store else .ret ())
  | .store => some ({ tm with stopped := true }, .goto .spin)
  | .spin => some (tm, .goto (if tm.running then .notify else .lock))
  | .notify => some (tm.notifyAll, .goto .spin)
  | .lock =>
    if tm.threadMtx.isNone then some ({ tm with threadMtx := some t }, .goto .test) else none
  | .test => some (tm, .goto (if tm.timerThread.isSome then .join else .unlock))
  | .join => if tm.ended then some ({ tm with timerThread := none }, .goto .unlock) else none
  | .unlock => some ({ tm with threadMtx := none }, .ret ())

/-- A step of `Timer::async_wait_until` by thread `t`. -/
def waitStep (tm : Timer T κ P) (t : T) (pick : ℕ) (operation : Wait κ) :
    WaitPc → Option (Timer T κ P × Next WaitPc Unit)
  | .lock =>
    if tm.waiterMtx.isNone then some ({ tm with waiterMtx := some t }, .goto .push) else none
  | .push =>
    some ({ tm with waiters := P.push tm.waiters operation },
      .goto (if tm.isEmpty then .notify else .unlock))
  | .notify => (tm.notifyOne pick).map fun tm => (tm, .goto .unlock)
  | .unlock => some ({ tm with waiterMtx := none }, .ret ())

/-- A step of thread `i`, known as `t`, inside `Timer::exec`, with what can be seen of it. `now` is
what the clock reads. -/
def execStep (tm : Timer T κ P) (t : T) (i : ℕ) (now : ℤ) : Option (Timer T κ P × List (Event κ)) :=
  match tm.execs[i]? with
  | some .prologue => some ({ tm with stopped := false }.moveExec i .guard, [])
  | some .guard =>
    some (tm.moveExec i (if tm.stopped then .lockClear else .lock), [.read tm.stopped])
  | some .lock =>
    if tm.waiterMtx.isNone then some ({ tm with waiterMtx := some t }.moveExec i .collect, [])
    else none
  | some .collect =>
    let (operations, waiters) := collect P now tm.waiters
    some ({ tm with waiters := waiters }.moveExec i (.unlock now operations), [.ticked now])
  | some (.unlock timePoint operations) =>
    some ({ tm with waiterMtx := none }.moveExec i (.fire timePoint operations), [])
  | some (.fire timePoint (operation :: operations)) =>
    some (tm.moveExec i (.callback timePoint operations),
      [.fired ⟨operation.callback, operation.timePoint, timePoint⟩])
  | some (.fire _ []) => some (tm.moveExec i .drop, [])
  | some (.callback timePoint operations) => some (tm.moveExec i (.fire timePoint operations), [])
  | some .drop => some (tm.moveExec i .lockWait, [])
  | some .lockWait =>
    if tm.waiterMtx.isNone then some ({ tm with waiterMtx := some t }.moveExec i .test, [])
    else none
  | some .test =>
    if tm.isEmpty then some ({ tm with waiterMtx := none }.moveExec i (.waiting false), [])
    else some (tm.moveExec i (.unlockWait false), [])
  | some (.waiting _) => some (tm.moveExec i .relock, [])
  | some .relock =>
    if tm.waiterMtx.isNone then some ({ tm with waiterMtx := some t }.moveExec i .woken, [])
    else none
  | some .woken => some (tm.moveExec i (.unlockWait tm.stopped), [.read tm.stopped])
  | some (.unlockWait leave) =>
    some ({ tm with waiterMtx := none }.moveExec i (if leave then .lockClear else .pause), [])
  | some .pause => some (tm.moveExec i .guard, [])
  | some .lockClear =>
    if tm.waiterMtx.isNone then some ({ tm with waiterMtx := some t }.moveExec i .clear, [])
    else none
  | some .clear =>
    some ({ tm with waiters := P.empty }.moveExec i .destroy, [.discarded (P.elems tm.waiters)])
  | some .destroy => some (tm.moveExec i .store, [])
  | some .store => some ({ tm with running := false }.moveExec i .unlockEnd, [])
  | some .unlockEnd => some ({ tm with waiterMtx := none }.moveExec i .done, [])
  | some .done => none
  | none => none

/-! ## The system -/

/-- A thread of the user, or one that a `run` has started in `exec`. -/
inductive Thread (T : Type*)
  | user (t : T)
  | timer (i : ℕ)
deriving DecidableEq, Repr

/-- A call in progress. -/
inductive Call (κ : Type)
  /-- `run`. -/
  | run (pc : RunPc)
  /-- `stop`; `armed` says that a `run` had returned when it began. The code has no such flag. -/
  | stop (armed : Bool) (pc : StopPc)
  /-- `async_wait_until`. -/
  | wait (timePoint : ℤ) (callback : κ) (pc : WaitPc)
deriving DecidableEq, Repr

/-- The timer, and the call of every thread. -/
structure State (T : Type*) (κ : Type) (P : Waiters (Ticket κ)) where
  /-- The timer. -/
  timer : Timer (Thread T) κ P
  /-- The call that each thread is in. -/
  call : Thread T → Option (Call κ)
  /-- What the clock reads. -/
  clock : ℤ
  /-- The number of waits registered so far. The code has no such counter. -/
  registrations : ℕ
  /-- Whether a call of `run` has returned. The code has no such flag. -/
  returned : Bool

/-- A step of the system. -/
inductive Action (T : Type*) (κ : Type)
  /-- A thread calls `run`. -/
  | run (t : Thread T)
  /-- A thread calls `stop`. -/
  | stop (t : Thread T)
  /-- A thread calls `async_wait_until`. -/
  | wait (t : Thread T) (timePoint : ℤ) (callback : κ)
  /-- The call of a thread takes a step; `pick` is the thread that `notify_one` unblocks. -/
  | go (t : Thread T) (weak : Bool) (pick : ℕ)
  /-- A thread inside `exec` takes a step at the time `now`. -/
  | exec (i : ℕ) (now : ℤ)
deriving DecidableEq, Repr

/-- Whether a thread can call: it is in no call, and runs code of the user. -/
def State.idle (s : State T κ P) (t : Thread T) : Bool :=
  (s.call t).isNone &&
    match t with
    | .user _ => true
    | .timer i => (s.timer.execs[i]?).any ExecPc.inUser

variable [DecidableEq T]

/-- The state once a thread is in another call, or in none. -/
def State.setCall (s : State T κ P) (t : Thread T) (f : Option (Call κ)) : State T κ P :=
  { s with call := Function.update s.call t f }

@[simp] theorem State.setCall_timer (s : State T κ P) (t : Thread T) (f : Option (Call κ)) :
    (s.setCall t f).timer = s.timer := rfl

@[simp] theorem State.setCall_registrations (s : State T κ P) (t : Thread T)
    (f : Option (Call κ)) : (s.setCall t f).registrations = s.registrations := rfl

/-- A step of a call of `run`. -/
def goRun (s : State T κ P) (t : Thread T) (weak : Bool) (pc : RunPc) :
    Option (State T κ P × List (Event κ)) :=
  (s.timer.runStep t weak pc).map fun (tm, nx) =>
    match nx with
    | .goto pc' =>
      ({ s with timer := tm }.setCall t (some (.run pc')), if pc = .cas then [.runBegan] else [])
    | .ret _ => ({ s with timer := tm, returned := true }.setCall t none, [.runReturned])

/-- A step of a call of `stop`. -/
def goStop (s : State T κ P) (t : Thread T) (armed : Bool) (pc : StopPc) :
    Option (State T κ P × List (Event κ)) :=
  (s.timer.stopStep t pc).map fun (tm, nx) =>
    let armed := if pc = .read then s.returned else armed
    match nx with
    | .goto pc' =>
      ({ s with timer := tm }.setCall t (some (.stop armed pc')),
        if pc = .store then [.stopStored armed] else [])
    | .ret _ => ({ s with timer := tm }.setCall t none, [.stopReturned])

/-- A step of a call of `async_wait_until`. -/
def goWait (s : State T κ P) (t : Thread T) (pick : ℕ) (timePoint : ℤ) (callback : κ)
    (pc : WaitPc) : Option (State T κ P × List (Event κ)) :=
  let operation : Wait κ := ⟨timePoint, s.registrations, callback⟩
  (s.timer.waitStep t pick operation pc).map fun (tm, nx) =>
    let registered := pc = .push
    let s := { s with timer := tm, registrations := s.registrations + if registered then 1 else 0 }
    match nx with
    | .goto pc' =>
      (s.setCall t (some (.wait timePoint callback pc')),
        if registered then [.registered operation] else [])
    | .ret _ => (s.setCall t none, [])

/-- The step of an action. -/
def step (s : State T κ P) : Action T κ → Option (State T κ P × List (Event κ))
  | .run t => if s.idle t then some (s.setCall t (some (.run .cas)), []) else none
  | .stop t => if s.idle t then some (s.setCall t (some (.stop false .read)), []) else none
  | .wait t timePoint callback =>
    if s.idle t then some (s.setCall t (some (.wait timePoint callback .lock)), []) else none
  | .go t weak pick =>
    match s.call t with
    | some (.run pc) => goRun s t weak pc
    | some (.stop armed pc) => goStop s t armed pc
    | some (.wait timePoint callback pc) => goWait s t pick timePoint callback pc
    | none => none
  | .exec i now =>
    if (s.call (.timer i)).isNone && decide (s.clock ≤ now) then
      (s.timer.execStep (.timer i) i now).map fun (tm, es) =>
        ({ s with timer := tm, clock := now }, es)
    else none

/-- The machine of one timer. -/
def machine (T : Type*) [DecidableEq T] (P : Waiters (Ticket κ)) :
    Transition.Machine (State T κ P) (Action T κ) (Event κ) := ⟨step⟩

/-- A new timer, with no call in progress, at some time. -/
def init (T : Type*) (P : Waiters (Ticket κ)) (clock : ℤ) :
    Transition.Config (State T κ P) (Event κ) :=
  { state := { timer := .new _ P, call := fun _ => none, clock := clock, registrations := 0,
               returned := false },
    trace := [] }

/-- An implementation of `waiters_` that can be run. -/
def ticketWaiters : Waiters (Ticket ℕ) := PriorityQueue.listQueue strictWeak_lt

/-- A call of `run` that starts a thread and returns. -/
def startUp (user : T) : List (Action T ℕ) :=
  .run (.user user) :: List.replicate 5 (.go (.user user) false 0)

end Timer

end Spinet
