import Mathlib.Logic.Function.Basic
import Spinet.Core.TcpSocket
import Spinet.Library.Machine
import Spinet.Registry.Machine
import Spinet.Timer.Tick

/-!
# Where user code runs

Any number of sockets, acceptors, runtimes, and timers, with the four kinds of mutexes of theirs and
with the places where user code runs: callbacks are invoked, and what callbacks and handles have
captured is destroyed. Each thread has a stack of frames. User code is a frame (`user`) which may
make calls and returns at some time; what it has captured is destroyed by user code as well, if that
has destructors to run or a last reference to drop. A `shared_ptr` that is not the last one does
nothing when it goes, so only the last ones show, and the machine is not asked which these are.

A callback may also have captured objects by value. Every copy of such a callback has objects of its
own, so that copying it and destroying a copy run user code wherever they happen, and a copy that
goes without having been invoked takes objects with it that no invocation has seen. `byValue` says
which callbacks these are; it is a parameter, so nothing is assumed of them, and where it is true of
all callbacks every copy counts. A copy of another callback shares what it refers to with the
others, and shows only when the last one goes.

What a system call returns, which handles the loop of a runtime attends to, and when `stopped_` is
set are choices. A section that runs no user code is one step between its locking and its unlocking;
one frame of user code stands for all the copies that a section makes and destroys.
-/

namespace Spinet.UserCode

open Transition
open Registry (Handles)

/-- The mutexes. -/
inductive Mutex (H R K : Type)
  /-- `read_mtx_` or `write_mtx_` of a socket. -/
  | queue (h : H) (d : Dir)
  /-- `handles_mtx_` of a runtime. -/
  | handles (r : R)
  /-- `waiter_mtx_` of a timer. -/
  | waiter (k : K)
deriving DecidableEq, Repr

/-- The callbacks. -/
inductive Callback (H K : Type)
  /-- Of an operation of a socket. -/
  | operation (h : H) (d : Dir) (op : ℕ)
  /-- `accept_callback_` of an acceptor. -/
  | accept (h : H)
  /-- Of a wait. -/
  | wait (k : K) (name : ℕ)
  /-- Of all waits that are left. -/
  | waits (k : K)
deriving DecidableEq, Repr

/-- Where a call of `async_read` or one of its siblings stands. -/
inductive SubmitPc
  /-- About to lock the mutex. -/
  | lock
  /-- In the section. -/
  | push
  /-- In the section, with the callback copied into the queue. -/
  | pushed
deriving DecidableEq, Repr

/-- Where a call of `cancel` stands. -/
inductive CancelPc
  /-- About to lock both mutexes. -/
  | lock
  /-- In the section, about to clear both queues. -/
  | clear
  /-- In the section, with the callbacks destroyed. -/
  | unlock
deriving DecidableEq, Repr

/-- Where a drain loop of `close` stands. -/
inductive DrainPc
  /-- About to lock the mutex for the first time. -/
  | lock
  /-- In the section, at the loop's test. -/
  | test
  /-- In the section, with an operation copied and taken off the queue. -/
  | popped (op : ℕ)
  /-- The mutex is released, and the callback of an operation is about to be invoked. -/
  | call (op : ℕ)
  /-- The callback has returned, and the mutex is to be locked again. -/
  | relock
  /-- In the section again, about to destroy the copy of the callback. -/
  | dropCopy
deriving DecidableEq, Repr

/-- Where a call of `close` stands. -/
inductive ClosePc (R : Type)
  /-- `TcpSocket::close`, about to compare and exchange `closed_`. -/
  | cas
  /-- `Handle::close`, about to lock `runtime_`. -/
  | lockRuntime
  /-- In `deregister_handle`, about to lock `handles_mtx_`. -/
  | lockHandles (r : R)
  /-- In the section of `deregister_handle`. -/
  | deregister (r : R)
  /-- About to call `::close(fd_)`. -/
  | sysClose
  /-- In the drain loop of a side. -/
  | drain (d : Dir) (pc : DrainPc)
deriving DecidableEq, Repr

/-- Where a call of `register_handle` stands. -/
inductive RegisterPc (H : Type)
  /-- About to lock `handles_mtx_`. -/
  | lock
  /-- In the section, about to look up the descriptor. -/
  | find
  /-- In the section, with an older handle closed. -/
  | replace (prev : H)
deriving DecidableEq, Repr

/-- Where a call of `do_read` or `do_write` stands. -/
inductive IoPc
  /-- About to lock the mutex. -/
  | lock
  /-- In the section. -/
  | exec
  /-- In the section, with an operation copied that stays in the queue, and the copy destroyed. -/
  | dropped
  /-- In the section, with an operation copied and taken off the queue. -/
  | popped (op : ℕ)
  /-- The mutex is released, and the callback of an operation is about to be invoked. -/
  | call (op : ℕ)
  /-- The callback has returned, and its copy is about to be destroyed. -/
  | dropCopy
deriving DecidableEq, Repr

/-- Where a call of `do_accept` stands. -/
inductive AcceptPc (R : Type)
  /-- About to lock `runtime_`. -/
  | lockRuntime
  /-- In the loop, about to call `accept`. -/
  | accept (r : R)
  /-- About to invoke `accept_callback_`. -/
  | call (r : R)
deriving DecidableEq, Repr

/-- Where the thread inside `Runtime::exec` stands. -/
inductive ExecPc
  /-- In its loop, outside the sections. -/
  | loop
  /-- About to lock `handles_mtx_` for the copy of `all_sockets_`. -/
  | copyLock
  /-- In the section. -/
  | copy
  /-- About to lock `handles_mtx_` for the clearing. -/
  | clearLock
  /-- In the section, about to clear `removable_handles_`. -/
  | clear
  /-- In the section, with the handles destroyed. -/
  | cleared
  /-- Behind the loop, about to lock `handles_mtx_`. -/
  | releaseLock
  /-- In the section, about to reset every `runtime_`. -/
  | releaseReset
  /-- About to swap out `all_handles_`. -/
  | releaseHandles
  /-- About to swap out `removable_handles_`. -/
  | releaseRemovable
  /-- In the section, with all handles destroyed. -/
  | released
deriving DecidableEq, Repr

/-- Where a call of `async_wait_until` stands. -/
inductive WaitPc
  /-- About to lock `waiter_mtx_`. -/
  | lock
  /-- In the section. -/
  | push
  /-- In the section, with the callback copied into `waiters_`. -/
  | pushed
deriving DecidableEq, Repr

/-- Where the thread inside `Timer::exec` stands. -/
inductive TimerPc
  /-- About to read `stopped_`. -/
  | guard
  /-- About to lock `waiter_mtx_` for the tick. -/
  | lock
  /-- In the section, about to collect operations. -/
  | collect
  /-- In the section, with these operations copied and taken off `waiters_`. -/
  | popped (operations : List ℕ)
  /-- Going through the operations collected. -/
  | fire (operations : List ℕ)
  /-- About to lock `waiter_mtx_` behind the tick. -/
  | lockWait
  /-- In the section, about to test whether `waiters_` is empty. -/
  | test
  /-- In `waiter_cv_.wait`, which locks again when it returns. -/
  | waiting
  /-- In the section again, about to read `stopped_`. -/
  | woken
  /-- Behind the loop, about to lock `waiter_mtx_`. -/
  | lockClear
  /-- In the section, about to swap out `waiters_`. -/
  | clear
  /-- In the section, with the callbacks destroyed. -/
  | cleared
deriving DecidableEq, Repr

/-- A call in progress, or user code. -/
inductive Frame (H R K : Type)
  /-- A callback, or the destructors of what one has captured. -/
  | user
  /-- A submission on side `d` of a socket. -/
  | submit (h : H) (d : Dir) (pc : SubmitPc)
  /-- `cancel`. -/
  | cancel (h : H) (pc : CancelPc)
  /-- `close`. -/
  | close (h : H) (pc : ClosePc R)
  /-- `register_handle`. -/
  | register (h : H) (r : R) (pc : RegisterPc H)
  /-- The destructors of these handles, where nothing else refers to them. -/
  | destroy (hs : List H)
  /-- `~TcpSocket` behind `close`: the members of the socket are destroyed. -/
  | members (h : H)
  /-- `do_read` or `do_write`. -/
  | doIo (h : H) (d : Dir) (pc : IoPc)
  /-- `do_accept`. -/
  | doAccept (h : H) (pc : AcceptPc R)
  /-- `Runtime::exec`. -/
  | exec (r : R) (pc : ExecPc)
  /-- `async_wait_until`. -/
  | asyncWait (k : K) (timePoint : ℤ) (name : ℕ) (pc : WaitPc)
  /-- `Timer::exec`. -/
  | timer (k : K) (pc : TimerPc)
deriving DecidableEq, Repr

/-- What the threads share; `P` is an implementation of `waiters_`. -/
structure Shared (H R K T : Type) (P : Waiters ℕ) where
  /-- The queues of the sockets. -/
  queue : H → Dir → List ℕ
  /-- `closed_` of the sockets. -/
  closed : H → Bool
  /-- Whether a handle has been made. The code has no such flag. -/
  made : H → Bool
  /-- `runtime_` of the handles. -/
  runtimeRef : H → Option R
  /-- Whether a callback of an acceptor has been invoked. The code has no such flag. -/
  accepted : H → Bool
  /-- `all_handles_` of the runtimes. -/
  allHandles : R → List H
  /-- `removable_handles_` of the runtimes. -/
  removable : R → List H
  /-- `waiters_` of the timers. -/
  waiters : K → P.Q
  /-- The owners of the mutexes. -/
  owner : Mutex H R K → Option T
  /-- The name of the next operation or wait. -/
  nextName : ℕ

/-- The state: what is shared, and the stack of every thread, innermost frame first. -/
structure State (H R K T : Type) (P : Waiters ℕ) where
  /-- What is shared. -/
  shared : Shared H R K T P
  /-- The stacks. -/
  stack : T → List (Frame H R K)

/-- What is done with a callback. -/
inductive Fate
  /-- It is invoked. -/
  | invoked
  /-- It is destroyed, and has never been invoked; or a copy of it is, with objects of its own. -/
  | destroyed
deriving DecidableEq, Repr

/-- What is recorded: a callback, and the mutexes that the thread holds then. -/
structure Event (H R K : Type) where
  /-- What is done with it. -/
  fate : Fate
  /-- The callback. -/
  callback : Callback H K
  /-- The mutexes. -/
  held : List (Mutex H R K)
deriving DecidableEq, Repr

/-- A call by user code. -/
inductive Call (H K : Type)
  /-- `async_read` or one of its siblings. -/
  | submit (h : H) (d : Dir)
  /-- `cancel`. -/
  | cancel (h : H)
  /-- `close` of a socket. -/
  | close (h : H)
  /-- `async_wait_until`. -/
  | asyncWait (k : K) (timePoint : ℤ)
  /-- The last reference to a handle goes. -/
  | destroy (h : H)
deriving DecidableEq, Repr

/-- What the loop of a runtime does next. -/
inductive Move (H : Type)
  /-- `do_read` or `do_write`. -/
  | doIo (h : H) (d : Dir)
  /-- `do_accept`. -/
  | doAccept (h : H)
  /-- `close`. -/
  | close (h : H)
  /-- It copies `all_sockets_`. -/
  | copy
  /-- It clears `removable_handles_`. -/
  | clear
  /-- It ends. -/
  | leave
deriving DecidableEq, Repr

/-- What a thread does next. -/
inductive Choice (H R K : Type)
  /-- User code makes a call. -/
  | call (c : Call H K)
  /-- User code calls `tcp_connect` or `listen_tcp_endpoint`, where a handle is made. -/
  | connect (h : H) (r : R)
  /-- User code returns. -/
  | ret
  /-- The thread becomes that of a runtime. -/
  | run (r : R)
  /-- The thread becomes that of a timer. -/
  | runTimer (k : K)
  /-- The loop of a runtime goes on. -/
  | move (m : Move H)
  /-- `accept` returns a connection, for which a socket is made. -/
  | accept (h : H)
  /-- The innermost frame takes a step: `yes` decides what is left open, which is whether a system
  call succeeds, whether a reference is the last one, or whether `stopped_` is set; `now` is what
  the clock reads. -/
  | go (yes : Bool) (now : ℤ)
deriving DecidableEq, Repr

namespace Frame

variable {H R K : Type}

/-- The mutexes that a frame holds. -/
def holds : Frame H R K → List (Mutex H R K)
  | .submit h d .push | .submit h d .pushed => [.queue h d]
  | .cancel h .clear | .cancel h .unlock => [.queue h .read, .queue h .write]
  | .close _ (.deregister r) => [.handles r]
  | .close h (.drain d .test) | .close h (.drain d (.popped _)) => [.queue h d]
  | .close h (.drain d .dropCopy) => [.queue h d]
  | .register _ r .find | .register _ r (.replace _) => [.handles r]
  | .doIo h d .exec | .doIo h d .dropped | .doIo h d (.popped _) => [.queue h d]
  | .exec r .copy | .exec r .clear | .exec r .cleared => [.handles r]
  | .exec r .releaseReset | .exec r .releaseHandles | .exec r .releaseRemovable
  | .exec r .released => [.handles r]
  | .asyncWait k _ _ .push | .asyncWait k _ _ .pushed => [.waiter k]
  | .timer k .collect | .timer k (.popped _) | .timer k .test | .timer k .woken
  | .timer k .clear | .timer k .cleared => [.waiter k]
  | _ => []

/-- The mutexes that a frame is about to lock. -/
def wants : Frame H R K → List (Mutex H R K)
  | .submit h d .lock => [.queue h d]
  | .cancel h .lock => [.queue h .read, .queue h .write]
  | .close _ (.lockHandles r) => [.handles r]
  | .close h (.drain d .lock) | .close h (.drain d .relock) => [.queue h d]
  | .register _ r .lock => [.handles r]
  | .doIo h d .lock => [.queue h d]
  | .exec r .copyLock | .exec r .clearLock | .exec r .releaseLock => [.handles r]
  | .asyncWait k _ _ .lock => [.waiter k]
  | .timer k .lock | .timer k .lockWait | .timer k .waiting | .timer k .lockClear => [.waiter k]
  | _ => []

end Frame

/-- The mutexes that a thread holds. -/
def held {H R K : Type} (stack : List (Frame H R K)) : List (Mutex H R K) :=
  stack.flatMap Frame.holds

variable {H R K T : Type} {P : Waiters ℕ} [DecidableEq H] [DecidableEq R] [DecidableEq K]

namespace Shared

/-- The mutexes get another owner. -/
def setOwner (sh : Shared H R K T P) (ms : List (Mutex H R K)) (o : Option T) :
    Shared H R K T P :=
  { sh with owner := fun m => if m ∈ ms then o else sh.owner m }

/-- The queue of side `d` of a socket is replaced. -/
def setQueue (sh : Shared H R K T P) (h : H) (d : Dir) (ops : List ℕ) : Shared H R K T P :=
  { sh with queue := Function.update sh.queue h (Function.update (sh.queue h) d ops) }

/-- The callbacks of the operations that a socket has queued. -/
def pending (sh : Shared H R K T P) (h : H) : List (Callback H K) :=
  (sh.queue h .read).map (.operation h .read) ++ (sh.queue h .write).map (.operation h .write)

/-- A handle is made, and `register_handle` sets its `runtime_`; no other thread knows it yet. -/
def make (sh : Shared H R K T P) (h : H) (r : R) : Shared H R K T P :=
  { sh with
    made := Function.update sh.made h true
    runtimeRef := Function.update sh.runtimeRef h (some r) }

/-- Both queues of a socket are emptied. -/
def clearQueues (sh : Shared H R K T P) (h : H) : Shared H R K T P :=
  (sh.setQueue h .read []).setQueue h .write []

/-- `waiters_` of a timer is replaced. -/
def setWaiters (sh : Shared H R K T P) (k : K) (waiters : P.Q) : Shared H R K T P :=
  { sh with waiters := Function.update sh.waiters k waiters }

/-- The section of `deregister_handle`. -/
def deregisterHandle (sh : Shared H R K T P) (r : R) (h : H) : Shared H R K T P :=
  if h ∈ sh.allHandles r then
    { sh with
      runtimeRef := Function.update sh.runtimeRef h none
      removable := Function.update sh.removable r (sh.removable r ++ [h])
      allHandles := Function.update sh.allHandles r ((sh.allHandles r).erase h) }
  else sh

/-- A handle is registered. -/
def insertHandle (sh : Shared H R K T P) (r : R) (h : H) : Shared H R K T P :=
  { sh with allHandles := Function.update sh.allHandles r (sh.allHandles r ++ [h]) }

/-- A handle is put into `removable_handles_`, and its `runtime_` is reset. -/
def putAside (sh : Shared H R K T P) (r : R) (prev : H) : Shared H R K T P :=
  { sh with
    removable := Function.update sh.removable r (sh.removable r ++ [prev])
    runtimeRef := Function.update sh.runtimeRef prev none }

/-- A handle takes the place of an older one. -/
def replaceHandle (sh : Shared H R K T P) (r : R) (prev h : H) : Shared H R K T P :=
  let handles := (sh.allHandles r).map fun g => if g = prev then h else g
  { sh with allHandles := Function.update sh.allHandles r handles }

/-- `removable_handles_` is swapped out. -/
def clearRemovable (sh : Shared H R K T P) (r : R) : Shared H R K T P :=
  { sh with removable := Function.update sh.removable r [] }

/-- `all_handles_` is swapped out. -/
def clearHandles (sh : Shared H R K T P) (r : R) : Shared H R K T P :=
  { sh with allHandles := Function.update sh.allHandles r [] }

/-- The `runtime_` of every handle that is registered is reset. -/
def resetRuntimes (sh : Shared H R K T P) (r : R) : Shared H R K T P :=
  { sh with runtimeRef := fun h => if h ∈ sh.allHandles r then none else sh.runtimeRef h }

/-- The handle that is registered under the number of another one. -/
def findHandle (W : Handles H) (sh : Shared H R K T P) (r : R) (h : H) : Option H :=
  (sh.allHandles r).find? fun g => W.fd g = W.fd h

end Shared

/-- Where `close` of a handle begins: `TcpSocket` overrides it. -/
def closeFrame (W : Handles H) (h : H) : Frame H R K :=
  .close h (if W.isSocket h then .cas else .lockRuntime)

/-- The first frame of a call, where an operation or a wait is given the name `name`. -/
def Call.frame (name : ℕ) : Call H K → Frame H R K
  | .submit h d => .submit h d .lock
  | .cancel h => .cancel h .lock
  | .close h => .close h .cas
  | .asyncWait k timePoint => .asyncWait k timePoint name .lock
  | .destroy h => .destroy [h]

/-- The frame of what the loop of a runtime calls, or where it goes on. -/
def Move.frames (W : Handles H) (r : R) : Move H → List (Frame H R K)
  | .doIo h d => [.doIo h d .lock, .exec r .loop]
  | .doAccept h => [.doAccept h .lockRuntime, .exec r .loop]
  | .close h => [closeFrame W h, .exec r .loop]
  | .copy => [.exec r .copyLock]
  | .clear => [.exec r .clearLock]
  | .leave => [.exec r .releaseLock]

/-- What a step of a frame leads to: the frames that replace it, what is shared then, and what is
done with callbacks. -/
abbrev Outcome (H R K T : Type) (P : Waiters ℕ) : Type :=
  List (Frame H R K) × Shared H R K T P × List (Fate × Callback H K)

/-- A frame locks the mutexes that it wants, if they are free, and becomes another one. -/
def lockInto (sh : Shared H R K T P) (t : T) (f : Frame H R K) (f' : Frame H R K) :
    Option (Outcome H R K T P) :=
  if f.wants.all fun m => (sh.owner m).isNone then
    some ([f'], sh.setOwner f.wants (some t), [])
  else none

/-- A frame unlocks what it holds, and becomes others. -/
def unlockInto (sh : Shared H R K T P) (f : Frame H R K) (fs : List (Frame H R K)) :
    Option (Outcome H R K T P) :=
  some (fs, sh.setOwner f.holds none, [])

/-- User code runs if callbacks are destroyed. -/
def userFor : List (Callback H K) → List (Frame H R K)
  | [] => []
  | _ :: _ => [.user]

/-- A frame that has copied callbacks into a queue in its section unlocks, and becomes others. If
one of them has captured objects by value, user code has copied these, and the frame is `f'`
then. -/
def copyInto (byValue : Callback H K → Bool) (sh : Shared H R K T P) (f f' : Frame H R K)
    (callbacks : List (Callback H K)) (fs : List (Frame H R K)) : Option (Outcome H R K T P) :=
  if callbacks.any byValue then some ([.user, f'], sh, []) else unlockInto sh f fs

/-- The same for a frame that has copied callbacks and has destroyed one copy of each, which nobody
has invoked. -/
def dropInto (byValue : Callback H K → Bool) (sh : Shared H R K T P) (f f' : Frame H R K)
    (callbacks : List (Callback H K)) (fs : List (Frame H R K)) : Option (Outcome H R K T P) :=
  if callbacks.any byValue then
    some ([.user, f'], sh, (callbacks.filter byValue).map (Fate.destroyed, ·))
  else unlockInto sh f fs

/-- A step of a call of `close`. -/
def advanceClose (byValue : Callback H K → Bool) (sh : Shared H R K T P) (t : T) (W : Handles H)
    (h : H) :
    ClosePc R → Option (Outcome H R K T P)
  | .cas =>
    if sh.closed h then some ([], sh, [])
    else some ([.close h .lockRuntime], { sh with closed := Function.update sh.closed h true }, [])
  | .lockRuntime =>
    match sh.runtimeRef h with
    | some r => some ([.close h (.lockHandles r)], sh, [])
    | none => some ([.close h .sysClose], sh, [])
  | .lockHandles r => lockInto sh t (.close h (.lockHandles r)) (.close h (.deregister r))
  | .deregister r =>
    unlockInto (sh.deregisterHandle r h) (.close h (.deregister r)) [.close h .sysClose]
  | .sysClose => some (if W.isSocket h then [.close h (.drain .read .lock)] else [], sh, [])
  | .drain d .lock => lockInto sh t (.close h (.drain d .lock)) (.close h (.drain d .test))
  | .drain d .test =>
    match sh.queue h d with
    | [] =>
      -- The reads are drained first, then the writes.
      unlockInto sh (.close h (.drain d .test))
        (match d with | .read => [.close h (.drain .write .lock)] | .write => [])
    | op :: ops =>
      -- `pop_front` destroys the callback that was queued; the copy is still to be invoked.
      dropInto byValue (sh.setQueue h d ops) (.close h (.drain d .test))
        (.close h (.drain d (.popped op))) [.operation h d op] [.close h (.drain d (.call op))]
  | .drain d (.popped op) =>
    unlockInto sh (.close h (.drain d (.popped op))) [.close h (.drain d (.call op))]
  | .drain d (.call op) =>
    some ([.user, .close h (.drain d .relock)], sh, [(.invoked, .operation h d op)])
  | .drain d .relock => lockInto sh t (.close h (.drain d .relock)) (.close h (.drain d .dropCopy))
  | .drain d .dropCopy => some ([.user, .close h (.drain d .test)], sh, [])

/-- A step of a call of `register_handle`. -/
def advanceRegister (sh : Shared H R K T P) (t : T) (W : Handles H) (h : H) (r : R) :
    RegisterPc H → Option (Outcome H R K T P)
  | .lock => lockInto sh t (.register h r .lock) (.register h r .find)
  | .find =>
    match sh.findHandle W r h with
    | none =>
      unlockInto (sh.insertHandle r h) (.register h r .find) []
    | some prev =>
      -- The older handle is closed inside the section.
      some ([closeFrame W prev, .register h r (.replace prev)], sh.putAside r prev, [])
  | .replace prev =>
    unlockInto (sh.replaceHandle r prev h) (.register h r (.replace prev)) []

/-- A step of a call of `do_read` or `do_write`; `done` says that the task has finished or
failed. -/
def advanceIo (byValue : Callback H K → Bool) (sh : Shared H R K T P) (t : T) (h : H) (d : Dir)
    (done : Bool) : IoPc → Option (Outcome H R K T P)
  | .lock => lockInto sh t (.doIo h d .lock) (.doIo h d .exec)
  | .exec =>
    if sh.closed h then unlockInto sh (.doIo h d .exec) []
    else
      match sh.queue h d with
      | [] => unlockInto sh (.doIo h d .exec) []
      | op :: ops =>
        if done then
          -- `pop_front` destroys the callback that was queued; the copy is still to be invoked.
          dropInto byValue (sh.setQueue h d ops) (.doIo h d .exec) (.doIo h d (.popped op))
            [.operation h d op] [.doIo h d (.call op)]
        else
          -- The function returns, and its copy is destroyed before `lck`.
          dropInto byValue sh (.doIo h d .exec) (.doIo h d .dropped) [.operation h d op] []
  | .dropped => unlockInto sh (.doIo h d .dropped) []
  | .popped op => unlockInto sh (.doIo h d (.popped op)) [.doIo h d (.call op)]
  | .call op => some ([.user, .doIo h d .dropCopy], sh, [(.invoked, .operation h d op)])
  | .dropCopy => some ([.user], sh, [])

/-- A step of a thread inside `Runtime::exec` in one of its sections. -/
def advanceExec (sh : Shared H R K T P) (t : T) (r : R) : ExecPc → Option (Outcome H R K T P)
  | .loop => none
  | .copyLock => lockInto sh t (.exec r .copyLock) (.exec r .copy)
  | .copy => unlockInto sh (.exec r .copy) [.exec r .loop]
  | .clearLock => lockInto sh t (.exec r .clearLock) (.exec r .clear)
  | .clear =>
    some ([.destroy (sh.removable r), .exec r .cleared], sh.clearRemovable r, [])
  | .cleared => unlockInto sh (.exec r .cleared) [.exec r .loop]
  | .releaseLock => lockInto sh t (.exec r .releaseLock) (.exec r .releaseReset)
  | .releaseReset =>
    some ([.exec r .releaseHandles], sh.resetRuntimes r, [])
  | .releaseHandles =>
    some ([.destroy (sh.allHandles r), .exec r .releaseRemovable], sh.clearHandles r, [])
  | .releaseRemovable =>
    some ([.destroy (sh.removable r), .exec r .released], sh.clearRemovable r, [])
  | .released => unlockInto sh (.exec r .released) []

/-- A step of a thread inside `Timer::exec`. -/
def advanceTimer (byValue : Callback H K → Bool) (sh : Shared H R K T P) (t : T) (k : K)
    (stopped : Bool) (now : ℤ) : TimerPc → Option (Outcome H R K T P)
  | .guard => some ([.timer k (if stopped then .lockClear else .lock)], sh, [])
  | .lock => lockInto sh t (.timer k .lock) (.timer k .collect)
  | .collect =>
    let (operations, waiters) := Timer.collect P now (sh.waiters k)
    let names := operations.map WaitOperation.callback
    -- `pop` destroys the callbacks that were in `waiters_`; the copies are still to be invoked.
    dropInto byValue (sh.setWaiters k waiters) (.timer k .collect) (.timer k (.popped names))
      (names.map (.wait k)) [.timer k (.fire names)]
  | .popped names => unlockInto sh (.timer k (.popped names)) [.timer k (.fire names)]
  | .fire (operation :: operations) =>
    some ([.user, .timer k (.fire operations)], sh, [(.invoked, .wait k operation)])
  | .fire [] => some ([.user, .timer k .lockWait], sh, [])
  | .lockWait => lockInto sh t (.timer k .lockWait) (.timer k .test)
  | .test =>
    unlockInto sh (.timer k .test)
      [.timer k (if (P.top (sh.waiters k)).isNone then .waiting else .guard)]
  | .waiting => lockInto sh t (.timer k .waiting) (.timer k .woken)
  | .woken => unlockInto sh (.timer k .woken) [.timer k (if stopped then .lockClear else .guard)]
  | .lockClear => lockInto sh t (.timer k .lockClear) (.timer k .clear)
  | .clear =>
    if (P.top (sh.waiters k)).isNone then some ([.timer k .cleared], sh, [])
    else
      some ([.user, .timer k .cleared], sh.setWaiters k P.empty, [(.destroyed, .waits k)])
  | .cleared => unlockInto sh (.timer k .cleared) []

/-- What the innermost frame of a thread does next. `none` if it has to wait for a mutex, or is
user code, or the loop of a runtime, or is about to call `accept`. -/
def advance (W : Handles H) (byValue : Callback H K → Bool) (sh : Shared H R K T P) (t : T)
    (yes : Bool) (now : ℤ) : Frame H R K → Option (Outcome H R K T P)
  | .user => none
  | .submit h d .lock => lockInto sh t (.submit h d .lock) (.submit h d .push)
  | .submit h d .push =>
    if sh.closed h then unlockInto sh (.submit h d .push) []
    else
      copyInto byValue { sh.setQueue h d (sh.queue h d ++ [sh.nextName]) with
        nextName := sh.nextName + 1 } (.submit h d .push) (.submit h d .pushed)
        [.operation h d sh.nextName] []
  | .submit h d .pushed => unlockInto sh (.submit h d .pushed) []
  | .cancel h .lock => lockInto sh t (.cancel h .lock) (.cancel h .clear)
  | .cancel h .clear =>
    some (userFor (sh.pending h) ++ [.cancel h .unlock], sh.clearQueues h,
      (sh.pending h).map (Fate.destroyed, ·))
  | .cancel h .unlock => unlockInto sh (.cancel h .unlock) []
  | .close h pc => advanceClose byValue sh t W h pc
  | .register h r pc => advanceRegister sh t W h r pc
  | .destroy [] => some ([], sh, [])
  | .destroy (h :: hs) =>
    if !yes then some ([.destroy hs], sh, [])
    else if W.isSocket h then some ([.close h .cas, .members h, .destroy hs], sh, [])
    else
      -- `~TcpAcceptor` destroys `accept_callback_`.
      some ([.user, .destroy hs], sh, if sh.accepted h then [] else [(.destroyed, .accept h)])
  | .members h =>
    some (userFor (sh.pending h), sh.clearQueues h, (sh.pending h).map (Fate.destroyed, ·))
  | .doIo h d pc => advanceIo byValue sh t h d yes pc
  | .doAccept h .lockRuntime =>
    match sh.runtimeRef h with
    | some r => some ([.doAccept h (.accept r)], sh, [])
    | none => some ([], sh, [])
  | .doAccept _ (.accept _) => if yes then none else some ([], sh, [])
  | .doAccept h (.call r) =>
    some ([.user, .doAccept h (.accept r)],
      { sh with accepted := Function.update sh.accepted h true }, [(.invoked, .accept h)])
  | .exec r pc => advanceExec sh t r pc
  | .asyncWait k timePoint name .lock =>
    lockInto sh t (.asyncWait k timePoint name .lock) (.asyncWait k timePoint name .push)
  | .asyncWait k timePoint name .push =>
    copyInto byValue (sh.setWaiters k (Timer.asyncWaitUntil P (sh.waiters k) timePoint name))
      (.asyncWait k timePoint name .push) (.asyncWait k timePoint name .pushed) [.wait k name] []
  | .asyncWait k timePoint name .pushed =>
    unlockInto sh (.asyncWait k timePoint name .pushed) []
  | .timer k pc => advanceTimer byValue sh t k yes now pc

/-- Whether user code may make a call on a thread with this stack. -/
def mayCall (stack : List (Frame H R K)) : Bool :=
  match stack with
  | [] | .user :: _ => true
  | _ => false

/-- The step of a thread, with its stack then. -/
def stepThread (W : Handles H) (byValue : Callback H K → Bool) (sh : Shared H R K T P) (t : T)
    (stack : List (Frame H R K)) : Choice H R K → Option (Outcome H R K T P)
  | .call c =>
    if mayCall stack then
      some (c.frame sh.nextName :: stack, { sh with nextName := sh.nextName + 1 }, [])
    else none
  | .connect h r =>
    if mayCall stack && !sh.made h then some (.register h r .lock :: stack, sh.make h r, [])
    else none
  | .ret =>
    match stack with
    | .user :: rest => some (rest, sh, [])
    | _ => none
  | .run r => if stack = [] then some ([.exec r .loop], sh, []) else none
  | .runTimer k => if stack = [] then some ([.timer k .guard], sh, []) else none
  | .move m =>
    match stack with
    | .exec r .loop :: rest => some (m.frames W r ++ rest, sh, [])
    | _ => none
  | .accept h =>
    match stack with
    | .doAccept a (.accept r) :: rest =>
      if sh.made h then none
      else some (.register h r .lock :: .doAccept a (.call r) :: rest, sh.make h r, [])
    | _ => none
  | .go yes now =>
    match stack with
    | f :: rest =>
      (advance W byValue sh t yes now f).map fun (fs, sh, es) => (fs ++ rest, sh, es)
    | [] => none

/-- The step of an action: a thread, and what it does. -/
def step [DecidableEq T] (W : Handles H) (byValue : Callback H K → Bool) (s : State H R K T P)
    (a : T × Choice H R K) : Option (State H R K T P × List (Event H R K)) :=
  (stepThread W byValue s.shared a.1 (s.stack a.1) a.2).map fun (stack, sh, es) =>
    (⟨sh, Function.update s.stack a.1 stack⟩,
      es.map fun (fate, callback) => ⟨fate, callback, held (s.stack a.1)⟩)

/-- The machine. -/
def machine [DecidableEq T] (W : Handles H) (byValue : Callback H K → Bool) :
    Machine (State H R K T P) (T × Choice H R K) (Event H R K) := ⟨step W byValue⟩

/-- Before anything has happened. -/
def init (H R K T : Type) (P : Waiters ℕ) : Config (State H R K T P) (Event H R K) :=
  { state :=
      { shared :=
          { queue := fun _ _ => [], closed := fun _ => false, made := fun _ => false
            runtimeRef := fun _ => none, accepted := fun _ => false, allHandles := fun _ => []
            removable := fun _ => [], waiters := fun _ => P.empty, owner := fun _ => none
            nextName := 0 }
        stack := fun _ => [] }
    trace := [] }

end Spinet.UserCode
