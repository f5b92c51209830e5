import Mathlib.Data.List.Basic
import Spinet.Library.Machine
import Spinet.Library.Stacks

/-!
# The registry of a Runtime and its event loop

`register_handle`, `deregister_handle`, `close`, and `exec` on one `Runtime`, one access to
something shared at a time: each operation on `all_handles_`, `all_sockets_`, `removable_handles_`,
the epoll interest list, and the members of a handle is a step. Each thread has a stack of frames.
The thread `rt` runs `exec`; any other thread, and user code that `exec` or `close` calls (callbacks
and destructors), may call `register_handle`, `deregister_handle`, and `close` on any handle.

The kernel keeps one entry for each descriptor number in the interest list. `EPOLL_CTL_ADD` fails on
a number that has one, and may fail otherwise; `EPOLL_CTL_MOD` and `EPOLL_CTL_DEL` fail on a number
that has none; `::close` removes it. `epoll_wait` is a call in progress to which the kernel adds
events one at a time, each for an entry that is in the list at that moment.

A handle is a name `H`. Its descriptor and its class never change (`Handles`).
-/

namespace Spinet.Registry

open Transition

/-- What never changes about the handles. -/
structure Handles (H : Type) where
  /-- `fd_`. -/
  fd : H → ℕ
  /-- Whether the handle is a `BaseSocket`; else it is a `BaseAcceptor`. -/
  isSocket : H → Bool

/-- What `exec` calls on a handle. -/
inductive Service
  | doAccept
  | doRead
  | doWrite
  | close
deriving DecidableEq, Repr

/-- An event of `epoll_wait`. -/
structure EpollEvent (H : Type) where
  /-- `data.ptr`. -/
  handle : H
  /-- Whether `EPOLLIN` is set, or `EPOLLPRI`. -/
  input : Bool
  /-- Whether `EPOLLOUT` is set. -/
  output : Bool
deriving DecidableEq, Repr

/-- Where a call of `register_handle` stands. -/
inductive RegisterPc (H : Type)
  /-- About to set `runtime_`. -/
  | setRuntime
  /-- About to lock `handles_mtx_`. -/
  | lock
  /-- In the section, about to look up the descriptor. -/
  | find
  /-- The descriptor is new: about to insert into `all_sockets_`. -/
  | insertSocket
  /-- About to call `EPOLL_CTL_ADD`. -/
  | add
  /-- About to insert into `all_handles_`. -/
  | insert
  /-- The descriptor has a handle: about to push that to `removable_handles_`. -/
  | pushPrev (prev : H)
  /-- About to reset its `runtime_`. -/
  | resetPrev (prev : H)
  /-- About to call its `close`. -/
  | closePrev (prev : H)
  /-- About to erase it from `all_sockets_`. -/
  | erasePrev (prev : H)
  /-- About to insert the new handle into `all_sockets_`. -/
  | updateSocket
  /-- About to call `EPOLL_CTL_MOD`. -/
  | modify
  /-- About to replace the handle in `all_handles_`. -/
  | assign
  /-- About to return. -/
  | unlock
deriving DecidableEq, Repr

/-- Where a call of `deregister_handle` stands. -/
inductive DeregisterPc
  /-- About to lock `handles_mtx_`. -/
  | lock
  /-- In the section, about to look up the descriptor. -/
  | find
  /-- About to reset `runtime_`. -/
  | reset
  /-- About to erase the handle from `all_sockets_`. -/
  | eraseSocket
  /-- About to call `EPOLL_CTL_DEL`. -/
  | delete
  /-- About to push the handle to `removable_handles_`. -/
  | push
  /-- About to erase it from `all_handles_`. -/
  | erase
  /-- About to return. -/
  | unlock
deriving DecidableEq, Repr

/-- Where a call of `close` stands. -/
inductive ClosePc
  /-- `TcpSocket::close`, about to compare and exchange `closed_`. -/
  | cas
  /-- `Handle::close`, about to lock `runtime_`. -/
  | lockRuntime
  /-- `Handle::close`, about to call `::close(fd_)`. -/
  | sysClose
  /-- `TcpSocket::close`, invoking callbacks. -/
  | drain
deriving DecidableEq, Repr

/-- Where the thread inside `exec` stands. -/
inductive ExecPc (H : Type)
  /-- About to read `stopped_`. -/
  | guard
  /-- In `epoll_wait`, which has found these events so far. -/
  | waiting (events : List (EpollEvent H))
  /-- About to handle the next of the events. -/
  | dispatch (events : List (EpollEvent H))
  /-- About to lock `handles_mtx_` for the copy. -/
  | copyLock
  /-- In the section, about to copy `all_sockets_`. -/
  | copy
  /-- About to call `do_read` of the next socket of the copy. -/
  | sweepRead (sockets : List H)
  /-- About to call `do_write` of a socket of the copy. -/
  | sweepWrite (socket : H) (sockets : List H)
  /-- About to lock `handles_mtx_` for the clearing. -/
  | clearLock
  /-- In the section, about to clear `removable_handles_`. -/
  | clear
  /-- In the section, with destructors running. -/
  | clearing
  /-- Behind the loop, about to lock `handles_mtx_`. -/
  | releaseLock
  /-- In the section, about to reset every `runtime_` and to call `EPOLL_CTL_DEL` for each. -/
  | releaseReset
  /-- About to swap out `all_handles_`. -/
  | releaseHandles
  /-- With destructors running. -/
  | droppingHandles
  /-- About to swap out `all_sockets_`. -/
  | releaseSockets
  /-- About to swap out `removable_handles_`. -/
  | releaseRemovable
  /-- With destructors running. -/
  | droppingRemovable
deriving DecidableEq, Repr

/-- A call in progress. -/
inductive Frame (H : Type)
  /-- `register_handle`. -/
  | register (h : H) (pc : RegisterPc H)
  /-- `deregister_handle`. -/
  | deregister (h : H) (pc : DeregisterPc)
  /-- `close`. -/
  | close (h : H) (pc : ClosePc)
  /-- What `exec` calls on a handle. -/
  | serve (h : H) (service : Service)
  /-- `exec`. -/
  | exec (pc : ExecPc H)
deriving DecidableEq, Repr

/-- What the threads share. -/
structure Shared (H T : Type*) where
  /-- `all_handles_`. -/
  allHandles : ℕ → Option H
  /-- `all_sockets_`. -/
  allSockets : List H
  /-- `removable_handles_`. -/
  removable : List H
  /-- The epoll interest list: the pointer registered for a descriptor. -/
  interest : ℕ → Option H
  /-- Whether `runtime_` of a handle refers to this runtime. -/
  runtimeRef : H → Bool
  /-- `closed_` of a socket. -/
  closed : H → Bool
  /-- The owner of `handles_mtx_`. -/
  mtx : Option T

/-- The state: what is shared, and the stack of every thread, innermost frame first. -/
structure State (H : Type) (T : Type*) extends Shared H T where
  /-- The stacks. -/
  stack : T → List (Frame H)

/-- A call that a thread may make. -/
inductive Call (H : Type)
  | register (h : H)
  | deregister (h : H)
  | close (h : H)
  | exec
deriving DecidableEq, Repr

/-- What a thread does next. -/
inductive Choice (H : Type)
  /-- It makes a call. -/
  | call (c : Call H)
  /-- The user code that its innermost frame runs returns. -/
  | ret
  /-- Its innermost frame takes a step. `ok` is what `EPOLL_CTL_ADD` or the guard of the loop makes
  of it. -/
  | go (ok : Bool)
deriving DecidableEq, Repr

/-- A step of the system. -/
inductive Action (H : Type) (T : Type*)
  /-- A step of a thread. -/
  | thread (t : T) (ch : Choice H)
  /-- The kernel adds an event to the `epoll_wait` of a thread. -/
  | report (t : T) (event : EpollEvent H)
  /-- Another runtime registers the handle, and so sets its `runtime_`. -/
  | elsewhere (h : H)
deriving DecidableEq, Repr

/-- `EPOLL_WAIT_SIZE`. -/
def epollWaitSize : ℕ := 128

variable {H : Type} {T : Type*} [DecidableEq H]

/-- The first frame of a call. `TcpSocket` overrides `close`, and the acceptors do not. -/
def Call.frame (W : Handles H) : Call H → Frame H
  | .register h => .register h .setRuntime
  | .deregister h => .deregister h .lock
  | .close h => .close h (if W.isSocket h then .cas else .lockRuntime)
  | .exec => .exec .guard

/-- What `exec` calls for an event. -/
def service (W : Handles H) (event : EpollEvent H) : Service :=
  if W.isSocket event.handle then
    if event.input then .doRead else if event.output then .doWrite else .close
  else if event.input then .doAccept else .close

/-- The frames of a call that `exec` makes on a handle. -/
def serveFrames (W : Handles H) (h : H) (service : Service) : List (Frame H) :=
  match service with
  | .close => [(Call.close h).frame W, .serve h .close]
  | service => [.serve h service]

namespace Shared

/-- Inserts into `all_sockets_` if the handle is a socket. -/
def insertSocket (sh : Shared H T) (W : Handles H) (h : H) : Shared H T :=
  if W.isSocket h then { sh with allSockets := sh.allSockets.insert h } else sh

/-- Erases from `all_sockets_` if the handle is a socket. -/
def eraseSocket (sh : Shared H T) (W : Handles H) (h : H) : Shared H T :=
  if W.isSocket h then { sh with allSockets := sh.allSockets.filter (· ≠ h) } else sh

/-- Puts a handle under a descriptor of `all_handles_`, or removes it. -/
def setHandle (sh : Shared H T) (fd : ℕ) (h : Option H) : Shared H T :=
  { sh with allHandles := Function.update sh.allHandles fd h }

/-- Puts a pointer under a descriptor of the interest list, or removes it. -/
def setInterest (sh : Shared H T) (fd : ℕ) (h : Option H) : Shared H T :=
  { sh with interest := Function.update sh.interest fd h }

/-- Sets or resets `runtime_` of a handle. -/
def setRuntimeRef (sh : Shared H T) (h : H) (b : Bool) : Shared H T :=
  { sh with runtimeRef := Function.update sh.runtimeRef h b }

/-- `EPOLL_CTL_ADD`, which may fail for reasons of its own. -/
def epollAdd (sh : Shared H T) (fd : ℕ) (h : H) (ok : Bool) : Shared H T :=
  if ok && (sh.interest fd).isNone then sh.setInterest fd (some h) else sh

/-- `EPOLL_CTL_MOD`. -/
def epollMod (sh : Shared H T) (fd : ℕ) (h : H) : Shared H T :=
  if (sh.interest fd).isSome then sh.setInterest fd (some h) else sh

/-- The first loop of `release_all_handles`: every registered handle forgets its runtime and leaves
the interest list. -/
def releaseReset (sh : Shared H T) (W : Handles H) : Shared H T :=
  { sh with
    runtimeRef := fun h => if sh.allHandles (W.fd h) = some h then false else sh.runtimeRef h
    interest := fun fd => if (sh.allHandles fd).isSome then none else sh.interest fd }

end Shared

/-- What a call of `register_handle` by thread `t` does next. -/
def advanceRegister (W : Handles H) (sh : Shared H T) (t : T) (ok : Bool) (h : H) :
    RegisterPc H → Option (List (Frame H) × Shared H T)
  | .setRuntime => some ([.register h .lock], sh.setRuntimeRef h true)
  | .lock => if sh.mtx.isNone then some ([.register h .find], { sh with mtx := some t }) else none
  | .find =>
    match sh.allHandles (W.fd h) with
    | none => some ([.register h .insertSocket], sh)
    | some prev => some ([.register h (.pushPrev prev)], sh)
  -- The branch that inserts.
  | .insertSocket => some ([.register h .add], sh.insertSocket W h)
  | .add => some ([.register h .insert], sh.epollAdd (W.fd h) h ok)
  | .insert => some ([.register h .unlock], sh.setHandle (W.fd h) (some h))
  -- The branch that takes the place of the handle under the same descriptor.
  | .pushPrev prev =>
    some ([.register h (.resetPrev prev)], { sh with removable := sh.removable ++ [prev] })
  | .resetPrev prev => some ([.register h (.closePrev prev)], sh.setRuntimeRef prev false)
  -- The call is made in the section: `close` runs on top of it.
  | .closePrev prev => some ([(Call.close prev).frame W, .register h (.erasePrev prev)], sh)
  | .erasePrev prev => some ([.register h .updateSocket], sh.eraseSocket W prev)
  | .updateSocket => some ([.register h .modify], sh.insertSocket W h)
  | .modify => some ([.register h .assign], sh.epollMod (W.fd h) h)
  | .assign => some ([.register h .unlock], sh.setHandle (W.fd h) (some h))
  | .unlock => some ([], { sh with mtx := none })

/-- What a call of `deregister_handle` by thread `t` does next. -/
def advanceDeregister (W : Handles H) (sh : Shared H T) (t : T) (h : H) :
    DeregisterPc → Option (List (Frame H) × Shared H T)
  | .lock => if sh.mtx.isNone then some ([.deregister h .find], { sh with mtx := some t }) else none
  | .find =>
    if sh.allHandles (W.fd h) = some h then some ([.deregister h .reset], sh)
    else some ([.deregister h .unlock], sh)
  | .reset => some ([.deregister h .eraseSocket], sh.setRuntimeRef h false)
  | .eraseSocket => some ([.deregister h .delete], sh.eraseSocket W h)
  | .delete => some ([.deregister h .push], sh.setInterest (W.fd h) none)
  | .push => some ([.deregister h .erase], { sh with removable := sh.removable ++ [h] })
  | .erase => some ([.deregister h .unlock], sh.setHandle (W.fd h) none)
  | .unlock => some ([], { sh with mtx := none })

/-- What a call of `close` does next. -/
def advanceClose (W : Handles H) (sh : Shared H T) (h : H) :
    ClosePc → Option (List (Frame H) × Shared H T)
  | .cas =>
    if sh.closed h then some ([], sh)
    else some ([.close h .lockRuntime], { sh with closed := Function.update sh.closed h true })
  | .lockRuntime =>
    if sh.runtimeRef h then some ([.deregister h .lock, .close h .sysClose], sh)
    -- Also where `runtime_` refers to another runtime: that one's registry is not this one.
    else some ([.close h .sysClose], sh)
  | .sysClose =>
    some (if W.isSocket h then [.close h .drain] else [], sh.setInterest (W.fd h) none)
  | .drain => none

/-- What `exec` on thread `t` does next. `ok` says whether the guard finds `stopped_` unset. -/
def advanceExec (W : Handles H) (sh : Shared H T) (t : T) (ok : Bool) :
    ExecPc H → Option (List (Frame H) × Shared H T)
  | .guard => some ([.exec (if ok then .waiting [] else .releaseLock)], sh)
  | .waiting events => some ([.exec (.dispatch events)], sh)
  | .dispatch [] => some ([.exec .copyLock], sh)
  -- `dynamic_cast` reads the handle here: this is the first access to what `data.ptr` points to.
  | .dispatch (event :: events) =>
    some (serveFrames W event.handle (service W event) ++ [.exec (.dispatch events)], sh)
  | .copyLock => if sh.mtx.isNone then some ([.exec .copy], { sh with mtx := some t }) else none
  | .copy => some ([.exec (.sweepRead sh.allSockets)], { sh with mtx := none })
  | .sweepRead [] => some ([.exec .clearLock], sh)
  | .sweepRead (h :: sockets) =>
    some (serveFrames W h .doRead ++ [.exec (.sweepWrite h sockets)], sh)
  | .sweepWrite h sockets =>
    some (serveFrames W h .doWrite ++ [.exec (.sweepRead sockets)], sh)
  | .clearLock => if sh.mtx.isNone then some ([.exec .clear], { sh with mtx := some t }) else none
  | .clear => some ([.exec .clearing], { sh with removable := [] })
  | .clearing => some ([.exec .guard], { sh with mtx := none })
  | .releaseLock =>
    if sh.mtx.isNone then some ([.exec .releaseReset], { sh with mtx := some t }) else none
  | .releaseReset => some ([.exec .releaseHandles], sh.releaseReset W)
  | .releaseHandles => some ([.exec .droppingHandles], { sh with allHandles := fun _ => none })
  | .droppingHandles => some ([.exec .releaseSockets], sh)
  | .releaseSockets => some ([.exec .releaseRemovable], { sh with allSockets := [] })
  | .releaseRemovable => some ([.exec .droppingRemovable], { sh with removable := [] })
  | .droppingRemovable => some ([], { sh with mtx := none })

/-- What the innermost frame of thread `t` does next. -/
def advance (W : Handles H) (sh : Shared H T) (t : T) (ok : Bool) :
    Frame H → Option (List (Frame H) × Shared H T)
  | .register h pc => advanceRegister W sh t ok h pc
  | .deregister h pc => advanceDeregister W sh t h pc
  | .close h pc => advanceClose W sh h pc
  | .serve _ _ => none
  | .exec pc => advanceExec W sh t ok pc

/-- Whether the frame runs user code: a callback or a destructor. -/
def Frame.isUser : Frame H → Bool
  | .serve _ .close => false
  | .serve _ _ => true
  | .close _ .drain => true
  | .exec .clearing | .exec .droppingHandles | .exec .droppingRemovable => true
  | _ => false

/-- Whether the frame ends when the user code that it runs returns. -/
def Frame.returns : Frame H → Bool
  | .serve _ _ => true
  | .close _ .drain => true
  | _ => false

variable [DecidableEq T]

/-- Whether a thread with a given stack may make a call: the runtime's thread enters `exec`, every
other thread calls what it likes, and so does user code. -/
def mayCall (rt t : T) (stack : List (Frame H)) (c : Call H) : Bool :=
  match stack with
  -- The thread of the runtime does nothing outside of `exec`.
  | [] => if c = .exec then decide (t = rt) else decide (t ≠ rt)
  | f :: _ => f.isUser && decide (c ≠ .exec)

/-- The step of an action. -/
def step (W : Handles H) (rt : T) (s : State H T) : Action H T → Option (State H T × List Empty)
  | .thread t (.call c) =>
    if mayCall rt t (s.stack t) c then
      some ({ s with stack := Function.update s.stack t (c.frame W :: s.stack t) }, [])
    else none
  | .thread t .ret =>
    match s.stack t with
    | f :: rest =>
      if f.returns then some ({ s with stack := Function.update s.stack t rest }, []) else none
    | [] => none
  | .thread t (.go ok) =>
    match s.stack t with
    | f :: rest =>
      (advance W s.toShared t ok f).map fun r =>
        ({ s with toShared := r.2, stack := Function.update s.stack t (r.1 ++ rest) }, [])
    | [] => none
  | .report t event =>
    match s.stack t with
    | .exec (.waiting events) :: rest =>
      -- What the kernel reports is in the interest list at that moment.
      if s.interest (W.fd event.handle) = some event.handle ∧ events.length < epollWaitSize then
        some ({ s with stack :=
          Function.update s.stack t (.exec (.waiting (events ++ [event])) :: rest) }, [])
      else none
    | _ => none
  | .elsewhere h => some ({ s with toShared := s.toShared.setRuntimeRef h false }, [])

/-- The machine of one runtime, whose loop is on thread `rt`. -/
def machine (W : Handles H) (rt : T) : Machine (State H T) (Action H T) Empty := ⟨step W rt⟩

/-- A new runtime, with no call in progress. -/
def init (H : Type) (T : Type*) : Config (State H T) Empty :=
  { state :=
      { allHandles := fun _ => none, allSockets := [], removable := [], interest := fun _ => none,
        runtimeRef := fun _ => false, closed := fun _ => false, mtx := none,
        stack := fun _ => [] },
    trace := [] }

/-! ## The steps as a relation -/

/-- The steps of `advance`, one constructor each. -/
inductive Advance (W : Handles H) (sh : Shared H T) (t : T) :
    Frame H → List (Frame H) → Shared H T → Prop
  | registerSet {h} :
    Advance W sh t (.register h .setRuntime) [.register h .lock] (sh.setRuntimeRef h true)
  | registerLock {h} : sh.mtx = none →
    Advance W sh t (.register h .lock) [.register h .find] { sh with mtx := some t }
  | registerNew {h} : sh.allHandles (W.fd h) = none →
    Advance W sh t (.register h .find) [.register h .insertSocket] sh
  | registerInsertSocket {h} :
    Advance W sh t (.register h .insertSocket) [.register h .add] (sh.insertSocket W h)
  | registerAdd {h} (ok : Bool) :
    Advance W sh t (.register h .add) [.register h .insert] (sh.epollAdd (W.fd h) h ok)
  | registerInsert {h} :
    Advance W sh t (.register h .insert) [.register h .unlock] (sh.setHandle (W.fd h) (some h))
  | registerPrev {h prev} : sh.allHandles (W.fd h) = some prev →
    Advance W sh t (.register h .find) [.register h (.pushPrev prev)] sh
  | registerPushPrev {h prev} :
    Advance W sh t (.register h (.pushPrev prev)) [.register h (.resetPrev prev)]
      { sh with removable := sh.removable ++ [prev] }
  | registerResetPrev {h prev} :
    Advance W sh t (.register h (.resetPrev prev)) [.register h (.closePrev prev)]
      (sh.setRuntimeRef prev false)
  | registerClosePrev {h prev} :
    Advance W sh t (.register h (.closePrev prev))
      [(Call.close prev).frame W, .register h (.erasePrev prev)] sh
  | registerErasePrev {h prev} :
    Advance W sh t (.register h (.erasePrev prev)) [.register h .updateSocket]
      (sh.eraseSocket W prev)
  | registerUpdateSocket {h} :
    Advance W sh t (.register h .updateSocket) [.register h .modify] (sh.insertSocket W h)
  | registerModify {h} :
    Advance W sh t (.register h .modify) [.register h .assign] (sh.epollMod (W.fd h) h)
  | registerAssign {h} :
    Advance W sh t (.register h .assign) [.register h .unlock] (sh.setHandle (W.fd h) (some h))
  | registerUnlock {h} : Advance W sh t (.register h .unlock) [] { sh with mtx := none }
  | deregisterLock {h} : sh.mtx = none →
    Advance W sh t (.deregister h .lock) [.deregister h .find] { sh with mtx := some t }
  | deregisterFound {h} : sh.allHandles (W.fd h) = some h →
    Advance W sh t (.deregister h .find) [.deregister h .reset] sh
  | deregisterOther {h} : Advance W sh t (.deregister h .find) [.deregister h .unlock] sh
  | deregisterReset {h} :
    Advance W sh t (.deregister h .reset) [.deregister h .eraseSocket] (sh.setRuntimeRef h false)
  | deregisterEraseSocket {h} :
    Advance W sh t (.deregister h .eraseSocket) [.deregister h .delete] (sh.eraseSocket W h)
  | deregisterDelete {h} :
    Advance W sh t (.deregister h .delete) [.deregister h .push] (sh.setInterest (W.fd h) none)
  | deregisterPush {h} :
    Advance W sh t (.deregister h .push) [.deregister h .erase]
      { sh with removable := sh.removable ++ [h] }
  | deregisterErase {h} :
    Advance W sh t (.deregister h .erase) [.deregister h .unlock] (sh.setHandle (W.fd h) none)
  | deregisterUnlock {h} : Advance W sh t (.deregister h .unlock) [] { sh with mtx := none }
  | closeLost {h} : sh.closed h = true → Advance W sh t (.close h .cas) [] sh
  | closeWon {h} : sh.closed h = false →
    Advance W sh t (.close h .cas) [.close h .lockRuntime]
      { sh with closed := Function.update sh.closed h true }
  | closeDeregister {h} : sh.runtimeRef h = true →
    Advance W sh t (.close h .lockRuntime) [.deregister h .lock, .close h .sysClose] sh
  | closeAlone {h} : sh.runtimeRef h = false →
    Advance W sh t (.close h .lockRuntime) [.close h .sysClose] sh
  | closeSocket {h} : W.isSocket h = true →
    Advance W sh t (.close h .sysClose) [.close h .drain] (sh.setInterest (W.fd h) none)
  | closeAcceptor {h} : W.isSocket h = false →
    Advance W sh t (.close h .sysClose) [] (sh.setInterest (W.fd h) none)
  | execWait : Advance W sh t (.exec .guard) [.exec (.waiting [])] sh
  | execLeave : Advance W sh t (.exec .guard) [.exec .releaseLock] sh
  | execReturn {events} :
    Advance W sh t (.exec (.waiting events)) [.exec (.dispatch events)] sh
  | execDispatched : Advance W sh t (.exec (.dispatch [])) [.exec .copyLock] sh
  | execDispatch {event events} :
    Advance W sh t (.exec (.dispatch (event :: events)))
      (serveFrames W event.handle (service W event) ++ [.exec (.dispatch events)]) sh
  | execCopyLock : sh.mtx = none →
    Advance W sh t (.exec .copyLock) [.exec .copy] { sh with mtx := some t }
  | execCopy :
    Advance W sh t (.exec .copy) [.exec (.sweepRead sh.allSockets)] { sh with mtx := none }
  | execSwept : Advance W sh t (.exec (.sweepRead [])) [.exec .clearLock] sh
  | execRead {h sockets} :
    Advance W sh t (.exec (.sweepRead (h :: sockets)))
      (serveFrames W h .doRead ++ [.exec (.sweepWrite h sockets)]) sh
  | execWrite {h sockets} :
    Advance W sh t (.exec (.sweepWrite h sockets))
      (serveFrames W h .doWrite ++ [.exec (.sweepRead sockets)]) sh
  | execClearLock : sh.mtx = none →
    Advance W sh t (.exec .clearLock) [.exec .clear] { sh with mtx := some t }
  | execClear : Advance W sh t (.exec .clear) [.exec .clearing] { sh with removable := [] }
  | execCleared : Advance W sh t (.exec .clearing) [.exec .guard] { sh with mtx := none }
  | execReleaseLock : sh.mtx = none →
    Advance W sh t (.exec .releaseLock) [.exec .releaseReset] { sh with mtx := some t }
  | execReleaseReset :
    Advance W sh t (.exec .releaseReset) [.exec .releaseHandles] (sh.releaseReset W)
  | execReleaseHandles :
    Advance W sh t (.exec .releaseHandles) [.exec .droppingHandles]
      { sh with allHandles := fun _ => none }
  | execHandlesDropped : Advance W sh t (.exec .droppingHandles) [.exec .releaseSockets] sh
  | execReleaseSockets :
    Advance W sh t (.exec .releaseSockets) [.exec .releaseRemovable] { sh with allSockets := [] }
  | execReleaseRemovable :
    Advance W sh t (.exec .releaseRemovable) [.exec .droppingRemovable] { sh with removable := [] }
  | execRemovableDropped : Advance W sh t (.exec .droppingRemovable) [] { sh with mtx := none }

omit [DecidableEq T] in
/-- Every step of `advance` is one of these. -/
theorem advance_cases {W : Handles H} {sh sh' : Shared H T} {t : T} {ok : Bool} {f : Frame H}
    {fs : List (Frame H)} (h : advance W sh t ok f = some (fs, sh')) : Advance W sh t f fs sh' := by
  cases f with
  | register x pc =>
    cases pc with
    | lock =>
      obtain ⟨hm, rfl, rfl⟩ : sh.mtx = none ∧ _ = fs ∧ _ = sh' := by
        simpa [advance, advanceRegister] using h
      exact .registerLock hm
    | find =>
      cases hf : sh.allHandles (W.fd x) <;>
        obtain ⟨rfl, rfl⟩ : _ = fs ∧ _ = sh' := by simpa [advance, advanceRegister, hf] using h
      · exact .registerNew hf
      · exact .registerPrev hf
    | setRuntime | insertSocket | add | insert | pushPrev | resetPrev | closePrev | erasePrev
    | updateSocket | modify | assign | unlock =>
      simp only [advance, advanceRegister, Option.some.injEq, Prod.mk.injEq] at h
      obtain ⟨rfl, rfl⟩ := h
      constructor
  | deregister x pc =>
    cases pc with
    | lock =>
      obtain ⟨hm, rfl, rfl⟩ : sh.mtx = none ∧ _ = fs ∧ _ = sh' := by
        simpa [advance, advanceDeregister] using h
      exact .deregisterLock hm
    | find =>
      by_cases hf : sh.allHandles (W.fd x) = some x
      · obtain ⟨rfl, rfl⟩ : _ = fs ∧ _ = sh' := by simpa [advance, advanceDeregister, hf] using h
        exact .deregisterFound hf
      · obtain ⟨rfl, rfl⟩ : _ = fs ∧ _ = sh' := by simpa [advance, advanceDeregister, hf] using h
        exact .deregisterOther
    | reset | eraseSocket | delete | push | erase | unlock =>
      simp only [advance, advanceDeregister, Option.some.injEq, Prod.mk.injEq] at h
      obtain ⟨rfl, rfl⟩ := h
      constructor
  | close x pc =>
    cases pc with
    | cas =>
      cases hc : sh.closed x <;>
        simp only [advance, advanceClose, hc, if_true, if_false, Bool.false_eq_true,
          Option.some.injEq, Prod.mk.injEq] at h <;>
        obtain ⟨rfl, rfl⟩ := h
      · exact .closeWon hc
      · exact .closeLost hc
    | lockRuntime =>
      cases hr : sh.runtimeRef x <;>
        obtain ⟨rfl, rfl⟩ : _ = fs ∧ _ = sh' := by simpa [advance, advanceClose, hr] using h
      · exact .closeAlone hr
      · exact .closeDeregister hr
    | sysClose =>
      cases hs : W.isSocket x <;>
        simp only [advance, advanceClose, hs, if_true, if_false, Bool.false_eq_true,
          Option.some.injEq, Prod.mk.injEq] at h <;>
        obtain ⟨rfl, rfl⟩ := h
      · exact .closeAcceptor hs
      · exact .closeSocket hs
    | drain => cases h
  | serve x service => cases h
  | exec pc =>
    cases pc with
    | guard =>
      cases ok <;>
        obtain ⟨rfl, rfl⟩ : _ = fs ∧ _ = sh' := by simpa [advance, advanceExec] using h
      · exact .execLeave
      · exact .execWait
    | dispatch events =>
      cases events <;>
        obtain ⟨rfl, rfl⟩ : _ = fs ∧ _ = sh' := by simpa [advance, advanceExec] using h
      · exact .execDispatched
      · exact .execDispatch
    | sweepRead sockets =>
      cases sockets <;>
        obtain ⟨rfl, rfl⟩ : _ = fs ∧ _ = sh' := by simpa [advance, advanceExec] using h
      · exact .execSwept
      · exact .execRead
    | copyLock | clearLock | releaseLock =>
      obtain ⟨hm, rfl, rfl⟩ : sh.mtx = none ∧ _ = fs ∧ _ = sh' := by
        simpa [advance, advanceExec] using h
      constructor
      exact hm
    | waiting | copy | sweepWrite | clear | clearing | releaseReset | releaseHandles
    | droppingHandles | releaseSockets | releaseRemovable | droppingRemovable =>
      simp only [advance, advanceExec, Option.some.injEq, Prod.mk.injEq] at h
      obtain ⟨rfl, rfl⟩ := h
      constructor

/-- The steps of the machine: a call, the return of user code, a step of the innermost frame of a
thread, an event that the kernel reports, or what another runtime does to `runtime_`. -/
inductive Step (W : Handles H) (rt : T) (s : State H T) : State H T → Prop
  | call {t : T} (c : Call H) : mayCall rt t (s.stack t) c = true →
    Step W rt s { s with stack := Function.update s.stack t (c.frame W :: s.stack t) }
  | ret {t : T} {f : Frame H} {rest : List (Frame H)} : s.stack t = f :: rest → f.returns = true →
    Step W rt s { s with stack := Function.update s.stack t rest }
  | go {t : T} {f : Frame H} {rest fs : List (Frame H)} {sh : Shared H T} :
    s.stack t = f :: rest → Advance W s.toShared t f fs sh →
    Step W rt s { s with toShared := sh, stack := Function.update s.stack t (fs ++ rest) }
  | report {t : T} {event : EpollEvent H} {events : List (EpollEvent H)} {rest : List (Frame H)} :
    s.stack t = .exec (.waiting events) :: rest →
    s.interest (W.fd event.handle) = some event.handle →
    Step W rt s { s with
      stack := Function.update s.stack t (.exec (.waiting (events ++ [event])) :: rest) }
  | elsewhere (h : H) : Step W rt s { s with toShared := s.toShared.setRuntimeRef h false }

/-- Every step of the machine is one of these. -/
theorem step_cases {W : Handles H} {rt : T} {s s' : State H T} {a : Action H T} {es : List Empty}
    (h : (machine W rt).step s a = some (s', es)) : Step W rt s s' := by
  cases a with
  | thread t ch =>
    cases ch with
    | call c =>
      simp only [machine, step, Option.ite_none_right_eq_some, Option.some.injEq,
        Prod.mk.injEq] at h
      obtain ⟨hm, rfl, -⟩ := h
      exact .call c hm
    | ret =>
      simp only [machine, step] at h
      split at h
      case h_2 => cases h
      rename_i f rest hst
      simp only [Option.ite_none_right_eq_some, Option.some.injEq, Prod.mk.injEq] at h
      obtain ⟨hr, rfl, -⟩ := h
      exact .ret hst hr
    | go ok =>
      simp only [machine, step] at h
      split at h
      case h_2 => cases h
      rename_i f rest hst
      simp only [Option.map_eq_some_iff, Prod.mk.injEq] at h
      obtain ⟨⟨fs, sh⟩, hadv, rfl, -⟩ := h
      exact .go hst (advance_cases hadv)
  | report t event =>
    simp only [machine, step] at h
    split at h
    case h_2 => cases h
    rename_i events rest hst
    simp only [Option.ite_none_right_eq_some, Option.some.injEq, Prod.mk.injEq] at h
    obtain ⟨⟨hi, -⟩, rfl, -⟩ := h
    exact .report hst hi
  | elsewhere x =>
    simp only [machine, step, Option.some.injEq, Prod.mk.injEq] at h
    obtain ⟨rfl, -⟩ := h
    exact .elsewhere x

end Spinet.Registry
