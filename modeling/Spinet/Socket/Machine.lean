import Mathlib.Data.Fintype.Basic
import Spinet.Core.TcpSocket
import Spinet.Library.Machine
import Spinet.Library.Stacks

/-!
# TcpSocket under concurrent calls

The calls on one `TcpSocket` from any number of threads, one atomic step at a time: acquiring a
mutex, an access to `closed_`, a system call, and the rest of a section up to the release of its
mutex. Each thread has a stack of frames, since a callback runs inside the call that invokes it and
may itself make calls. `do_read` and `do_write` are made by the runtime's thread `rt`, from its
loop; every other call may be made by any thread, from its own code or from a callback.

`advance` is the code: what the innermost frame of a thread does next, on what the threads share.
The invocation of a callback replaces or covers the frame that makes it, and the callback's end is a
step of its own. `Advance` says the same as a relation, one constructor for each step of the source,
and `step_cases` gives every step of the machine in its terms. A section that is not interrupted
does what `TcpSocket.submit` and `TcpSocket.serve` say (`submit_section`, `serve_section`).

`compare_exchange_weak` is taken to fail only on inequality.
-/

namespace Spinet.Socket

open Transition

/-- An operation, named when its submission is called. -/
abbrev OpId := ℕ

/-- Where a call of `async_read` or one of its siblings stands. -/
inductive SubmitPc
  /-- About to lock the mutex. -/
  | lock
  /-- In the section, about to read `closed_`. -/
  | test
  /-- In the section, about to append to the queue and to return `true`. -/
  | push
deriving DecidableEq, Repr

/-- Where a call of `cancel` stands. -/
inductive CancelPc
  /-- About to lock both mutexes. -/
  | lock
  /-- In the section, about to clear both queues and to return. -/
  | clear
deriving DecidableEq, Repr

/-- Where a drain loop of `close` stands. `iters` counts the iterations begun, and `bound` is the
length of the queue when the loop first had the mutex; the code has neither. -/
inductive DrainPc
  /-- About to lock the mutex for the first time. -/
  | lock
  /-- In the section, at the loop's test. -/
  | test (iters bound : ℕ)
  /-- The mutex is released, and the callback of an operation is about to be invoked. -/
  | call (op : OpId) (size iters bound : ℕ)
  /-- The callback is running or has returned, and the mutex is to be locked again. -/
  | relock (iters bound : ℕ)
deriving DecidableEq, Repr

/-- Where a call of `close` stands. -/
inductive ClosePc
  /-- About to compare and exchange `closed_`. -/
  | cas
  /-- In `Handle::close`, about to deregister the handle. -/
  | deregister
  /-- In `Handle::close`, about to call `::close(fd_)`. -/
  | sysClose
  /-- In the drain loop of a side. -/
  | drain (d : Dir) (pc : DrainPc)
deriving DecidableEq, Repr

/-- Where a call of `do_read` or `do_write` stands. -/
inductive IoPc
  /-- About to lock the mutex. -/
  | lock
  /-- In the section, about to read `closed_`. -/
  | test
  /-- In the section, about to look at the queue and to make the system call. -/
  | exec
  /-- In the section, after `exec` on a copy of the front task of operation `op`. -/
  | finish (task : Task) (ec : Option Errno) (op : OpId)
  /-- The mutex is released, and the callback of an operation is about to be invoked. -/
  | call (op : OpId) (res : Result) (size : ℕ)
deriving DecidableEq, Repr

/-- A call in progress, or a callback. -/
inductive Frame
  /-- A submission of operation `op` on side `d`. -/
  | submit (d : Dir) (op : OpId) (buf size : ℕ) (strategy : TaskStrategy) (pc : SubmitPc)
  /-- `cancel`. -/
  | cancel (pc : CancelPc)
  /-- `close`. -/
  | close (pc : ClosePc)
  /-- `do_read` or `do_write`. -/
  | doIo (d : Dir) (pc : IoPc)
  /-- The callback of operation `op`. -/
  | callback (op : OpId)
deriving DecidableEq, Repr

/-- What the kernel has under the number `fd_`. -/
inductive Desc
  /-- The connection that the socket was made for. -/
  | own
  /-- Nothing: the number is free. -/
  | free
  /-- A connection made after the number became free. -/
  | other (conn : ℕ)
deriving DecidableEq, Repr

/-- How an operation left its queue. -/
inductive Exit
  /-- `do_read`, `do_write`, or `close` took it, to invoke its callback. -/
  | taken
  /-- `cancel` removed it. -/
  | cancelled
deriving DecidableEq, Repr

/-- What can be seen of a run. -/
inductive Event
  /-- A submission was accepted. -/
  | accepted (d : Dir) (op : OpId)
  /-- A submission was refused. -/
  | rejected (d : Dir) (op : OpId)
  /-- `recv` or `send` was executed on the buffer of `op`, when `desc` was under `fd_`. -/
  | io (d : Dir) (op : OpId) (desc : Desc)
  /-- An operation left its queue. -/
  | left (d : Dir) (op : OpId) (how : Exit)
  /-- A callback was invoked. -/
  | invoked (op : OpId) (res : Result) (size : ℕ)
  /-- `::close(fd_)` was executed. -/
  | sysClose
  /-- A drain loop ended after `iters` iterations, having found `bound` operations at first. -/
  | drained (d : Dir) (iters bound : ℕ)
  /-- The call of `close` that set `closed_` returned. -/
  | closeReturned
deriving DecidableEq, Repr

/-- What the threads share: the socket, the descriptor, and the owner of each mutex. -/
structure Shared (T : Type*) where
  /-- The socket. -/
  sock : TcpSocket OpId
  /-- What the kernel has under `fd_`. -/
  desc : Desc
  /-- The owners of `read_mtx_` and `write_mtx_`. -/
  owner : Dir → Option T

/-- The state: what is shared, and the stack of every thread. -/
structure State (T : Type*) extends Shared T where
  /-- The stacks, innermost frame first. -/
  stack : T → List Frame
  /-- The name of the next operation. -/
  nextOp : OpId

/-- A call that a thread may make. -/
inductive Call
  | asyncRead (buf size : ℕ)
  | asyncReadSome (buf size : ℕ)
  | asyncWrite (buf size : ℕ)
  | asyncWriteSome (buf size : ℕ)
  | cancel
  | close
  | doRead
  | doWrite
deriving DecidableEq, Repr

/-- The first frame of a call, where a submission is given the name `op`. -/
def Call.frame (op : OpId) : Call → Frame
  | .asyncRead buf size => .submit .read op buf size .UNTIL_FINISHED .lock
  | .asyncReadSome buf size => .submit .read op buf size .TRY .lock
  | .asyncWrite buf size => .submit .write op buf size .UNTIL_FINISHED .lock
  | .asyncWriteSome buf size => .submit .write op buf size .TRY .lock
  | .cancel => .cancel .lock
  | .close => .close .cas
  | .doRead => .doIo .read .lock
  | .doWrite => .doIo .write .lock

/-- Whether the call belongs to the runtime's loop. -/
def Call.isLoop : Call → Bool
  | .doRead | .doWrite => true
  | _ => false

/-- What a thread does next. -/
inductive Choice
  /-- It makes a call. -/
  | call (c : Call)
  /-- Its innermost callback returns. -/
  | ret
  /-- Its innermost call takes a step; `reply` is what the system call returns if the step makes
  one. -/
  | go (reply : IoRet)
deriving DecidableEq, Repr

/-- A step of the system. -/
inductive Action (T : Type*)
  /-- A step of a thread. -/
  | thread (t : T) (ch : Choice)
  /-- A thread elsewhere in the process gets the free number from `accept` or `socket`. -/
  | reuse (conn : ℕ)
deriving DecidableEq, Repr

variable {T : Type*}

/-- A system call returns at most as many bytes as it was given room for. -/
def replyFits (reply : IoRet) (task : Task) : Bool :=
  match reply with
  | .bytes n => decide (n ≤ task.size - task.pos)
  | .fail _ => true

/-- The system call of `exec`, with a given reply: it leaves an event. -/
def logIo (d : Dir) (op : OpId) (desc : Desc) (reply : IoRet) (_ : IoCall) (log : List Event) :
    IoRet × List Event :=
  (reply, log ++ [.io d op desc])

/-- The events of clearing a queue. -/
def clearEvents (d : Dir) (q : List (Task × OpId)) : List Event :=
  q.map fun e => .left d e.2 .cancelled

namespace Shared

/-- The mutex of side `d` gets another owner. -/
def setOwner (sh : Shared T) (d : Dir) (o : Option T) : Shared T :=
  { sh with owner := Function.update sh.owner d o }

/-- The queue of side `d` is replaced, and its mutex is released. -/
def leave (sh : Shared T) (d : Dir) (q : List (Task × OpId)) : Shared T :=
  { sh with sock := sh.sock.setQueue d q, owner := Function.update sh.owner d none }

@[simp] theorem setOwner_sock (sh : Shared T) (d : Dir) (o : Option T) :
    (sh.setOwner d o).sock = sh.sock := rfl

@[simp] theorem setOwner_desc (sh : Shared T) (d : Dir) (o : Option T) :
    (sh.setOwner d o).desc = sh.desc := rfl

@[simp] theorem setOwner_owner (sh : Shared T) (d d' : Dir) (o : Option T) :
    (sh.setOwner d o).owner d' = if d' = d then o else sh.owner d' := by
  simp [setOwner, Function.update_apply]

@[simp] theorem leave_closed (sh : Shared T) (d : Dir) (q : List (Task × OpId)) :
    (sh.leave d q).sock.closed = sh.sock.closed := rfl

@[simp] theorem leave_desc (sh : Shared T) (d : Dir) (q : List (Task × OpId)) :
    (sh.leave d q).desc = sh.desc := rfl

@[simp] theorem leave_queue (sh : Shared T) (d d' : Dir) (q : List (Task × OpId)) :
    (sh.leave d q).sock.queue d' = if d' = d then q else sh.sock.queue d' := by
  simp [leave, TcpSocket.setQueue, Function.update_apply]

@[simp] theorem leave_owner (sh : Shared T) (d d' : Dir) (q : List (Task × OpId)) :
    (sh.leave d q).owner d' = if d' = d then none else sh.owner d' := by
  simp [leave, Function.update_apply]

end Shared

/-- What the innermost frame of thread `t` does next: the frames that replace it, what is shared
then, and the events. `none` if it has to wait for a mutex, or is a callback. -/
def advance (sh : Shared T) (t : T) (reply : IoRet) :
    Frame → Option (List Frame × Shared T × List Event)
  | .submit d op buf size strategy .lock =>
    if sh.owner d = none then
      some ([.submit d op buf size strategy .test], sh.setOwner d (some t), [])
    else none
  | .submit d op buf size strategy .test =>
    if sh.sock.closed then some ([], sh.setOwner d none, [.rejected d op])
    else some ([.submit d op buf size strategy .push], sh, [])
  | .submit d op buf size strategy .push =>
    some ([], sh.leave d (sh.sock.queue d ++ [(Task.new buf size strategy, op)]), [.accepted d op])
  | .cancel .lock =>
    if sh.owner .read = none ∧ sh.owner .write = none then
      some ([.cancel .clear], { sh with owner := fun _ => some t }, [])
    else none
  | .cancel .clear =>
    some ([], { sh with sock := sh.sock.cancel, owner := fun _ => none },
      clearEvents .read (sh.sock.queue .read) ++ clearEvents .write (sh.sock.queue .write))
  | .close .cas =>
    if sh.sock.closed then some ([], sh, [])
    else some ([.close .deregister], { sh with sock := { sh.sock with closed := true } }, [])
  -- `deregister_handle` changes nothing of the socket itself.
  | .close .deregister => some ([.close .sysClose], sh, [])
  | .close .sysClose => some ([.close (.drain .read .lock)], { sh with desc := .free }, [.sysClose])
  | .close (.drain d .lock) =>
    if sh.owner d = none then
      some ([.close (.drain d (.test 0 (sh.sock.queue d).length))], sh.setOwner d (some t), [])
    else none
  | .close (.drain d (.test iters bound)) =>
    match sh.sock.queue d with
    | [] =>
      -- The reads are drained first, then the writes.
      match d with
      | .read =>
        some ([.close (.drain .write .lock)], sh.setOwner .read none, [.drained .read iters bound])
      | .write => some ([], sh.setOwner .write none, [.drained .write iters bound, .closeReturned])
    | (task, op) :: rest =>
      some ([.close (.drain d (.call op task.finishedSize (iters + 1) bound))], sh.leave d rest,
        [.left d op .taken])
  | .close (.drain d (.call op size iters bound)) =>
    some ([.callback op, .close (.drain d (.relock iters bound))], sh,
      [.invoked op (.systemError .EBADF) size])
  | .close (.drain d (.relock iters bound)) =>
    if sh.owner d = none then
      some ([.close (.drain d (.test iters bound))], sh.setOwner d (some t), [])
    else none
  | .doIo d .lock =>
    if sh.owner d = none then some ([.doIo d .test], sh.setOwner d (some t), []) else none
  | .doIo d .test =>
    if sh.sock.closed then some ([], sh.setOwner d none, []) else some ([.doIo d .exec], sh, [])
  | .doIo d .exec =>
    match sh.sock.queue d with
    | [] => some ([], sh.setOwner d none, [])
    | (task, op) :: _ =>
      if replyFits reply task then
        -- `exec` runs on a copy of the front task: the queue keeps the task as it is.
        let r := task.exec (logIo d op sh.desc reply) sh.sock.fd []
        some ([.doIo d (.finish r.task r.ec op)], sh, r.world)
      else none
  | .doIo d (.finish task ec op) =>
    match task.verdict ec with
    | some (res, size) =>
      some ([.doIo d (.call op res size)], sh.leave d (sh.sock.queue d).tail, [.left d op .taken])
    | none => some ([], sh.setOwner d none, [])
  | .doIo _ (.call op res size) => some ([.callback op], sh, [.invoked op res size])
  | .callback _ => none

variable [DecidableEq T]

/-- Whether a thread with a given stack may make a call: from its own code, which for the runtime's
thread is its loop, or from a callback. -/
def mayCall (rt t : T) (stack : List Frame) (c : Call) : Bool :=
  match stack with
  | [] => !c.isLoop || decide (t = rt)
  -- Only the loop calls `do_read` and `do_write`, so no callback does.
  | .callback _ :: _ => !c.isLoop
  | _ => false

/-- The step of an action. -/
def step (rt : T) (s : State T) : Action T → Option (State T × List Event)
  | .thread t (.call c) =>
    if mayCall rt t (s.stack t) c then
      some ({ s with stack := Function.update s.stack t (c.frame s.nextOp :: s.stack t),
                     nextOp := s.nextOp + 1 }, [])
    else none
  | .thread t .ret =>
    match s.stack t with
    | .callback _ :: rest => some ({ s with stack := Function.update s.stack t rest }, [])
    | _ => none
  | .thread t (.go reply) =>
    match s.stack t with
    | f :: rest =>
      (advance s.toShared t reply f).map fun r =>
        ({ s with toShared := r.2.1, stack := Function.update s.stack t (r.1 ++ rest) }, r.2.2)
    | [] => none
  | .reuse conn =>
    if s.desc = .free then some ({ s with desc := .other conn }, []) else none

/-- The machine of one socket, where `rt` is its runtime's thread. -/
def machine (rt : T) : Machine (State T) (Action T) Event := ⟨step rt⟩

/-- A new socket, with no call in progress. -/
def init (T : Type*) (fd : ℕ) : Config (State T) Event :=
  { state :=
      { sock := .new fd, desc := .own, owner := fun _ => none, stack := fun _ => [], nextOp := 0 },
    trace := [] }

/-! ## The steps as a relation -/

/-- The steps of `advance`, one constructor each. -/
inductive Advance (sh : Shared T) (t : T) : Frame → List Frame → Shared T → List Event → Prop
  | submitLock {d op buf size strategy} : sh.owner d = none →
    Advance sh t (.submit d op buf size strategy .lock) [.submit d op buf size strategy .test]
      (sh.setOwner d (some t)) []
  | submitReject {d op buf size strategy} : sh.sock.closed = true →
    Advance sh t (.submit d op buf size strategy .test) [] (sh.setOwner d none) [.rejected d op]
  | submitTest {d op buf size strategy} : sh.sock.closed = false →
    Advance sh t (.submit d op buf size strategy .test) [.submit d op buf size strategy .push] sh []
  | submitPush {d op buf size strategy} :
    Advance sh t (.submit d op buf size strategy .push) []
      (sh.leave d (sh.sock.queue d ++ [(Task.new buf size strategy, op)])) [.accepted d op]
  | cancelLock : (∀ d, sh.owner d = none) →
    Advance sh t (.cancel .lock) [.cancel .clear] { sh with owner := fun _ => some t } []
  | cancelClear :
    Advance sh t (.cancel .clear) [] { sh with sock := sh.sock.cancel, owner := fun _ => none }
      (clearEvents .read (sh.sock.queue .read) ++ clearEvents .write (sh.sock.queue .write))
  | closeLost : sh.sock.closed = true → Advance sh t (.close .cas) [] sh []
  | closeWon : sh.sock.closed = false →
    Advance sh t (.close .cas) [.close .deregister]
      { sh with sock := { sh.sock with closed := true } } []
  | closeDeregister : Advance sh t (.close .deregister) [.close .sysClose] sh []
  | closeSys :
    Advance sh t (.close .sysClose) [.close (.drain .read .lock)] { sh with desc := .free }
      [.sysClose]
  | drainLock {d} : sh.owner d = none →
    Advance sh t (.close (.drain d .lock))
      [.close (.drain d (.test 0 (sh.sock.queue d).length))] (sh.setOwner d (some t)) []
  | drainRead {iters bound} : sh.sock.queue .read = [] →
    Advance sh t (.close (.drain .read (.test iters bound))) [.close (.drain .write .lock)]
      (sh.setOwner .read none) [.drained .read iters bound]
  | drainWrite {iters bound} : sh.sock.queue .write = [] →
    Advance sh t (.close (.drain .write (.test iters bound))) [] (sh.setOwner .write none)
      [.drained .write iters bound, .closeReturned]
  | drainPop {d iters bound task op rest} : sh.sock.queue d = (task, op) :: rest →
    Advance sh t (.close (.drain d (.test iters bound)))
      [.close (.drain d (.call op task.finishedSize (iters + 1) bound))] (sh.leave d rest)
      [.left d op .taken]
  | drainCall {d op size iters bound} :
    Advance sh t (.close (.drain d (.call op size iters bound)))
      [.callback op, .close (.drain d (.relock iters bound))] sh
      [.invoked op (.systemError .EBADF) size]
  | drainRelock {d iters bound} : sh.owner d = none →
    Advance sh t (.close (.drain d (.relock iters bound))) [.close (.drain d (.test iters bound))]
      (sh.setOwner d (some t)) []
  | ioLock {d} : sh.owner d = none →
    Advance sh t (.doIo d .lock) [.doIo d .test] (sh.setOwner d (some t)) []
  | ioClosed {d} : sh.sock.closed = true → Advance sh t (.doIo d .test) [] (sh.setOwner d none) []
  | ioTest {d} : sh.sock.closed = false → Advance sh t (.doIo d .test) [.doIo d .exec] sh []
  | ioEmpty {d} : sh.sock.queue d = [] → Advance sh t (.doIo d .exec) [] (sh.setOwner d none) []
  | ioExec {d task op rest} (reply : IoRet) :
    sh.sock.queue d = (task, op) :: rest → replyFits reply task = true →
    Advance sh t (.doIo d .exec)
      [.doIo d (.finish (task.exec (logIo d op sh.desc reply) sh.sock.fd []).task
        (task.exec (logIo d op sh.desc reply) sh.sock.fd []).ec op)] sh
      (task.exec (logIo d op sh.desc reply) sh.sock.fd []).world
  | ioKeep {d task ec op} : task.verdict ec = none →
    Advance sh t (.doIo d (.finish task ec op)) [] (sh.setOwner d none) []
  | ioPop {d task ec op res size} : task.verdict ec = some (res, size) →
    Advance sh t (.doIo d (.finish task ec op)) [.doIo d (.call op res size)]
      (sh.leave d (sh.sock.queue d).tail) [.left d op .taken]
  | ioCall {d op res size} :
    Advance sh t (.doIo d (.call op res size)) [.callback op] sh [.invoked op res size]

/-- The system call of `exec` leaves its event, if `exec` makes it. -/
theorem exec_logIo (task : Task) (d : Dir) (op : OpId) (desc : Desc) (reply : IoRet) (fd : ℕ) :
    (task.exec (logIo d op desc reply) fd []).world = [] ∨
      (task.exec (logIo d op desc reply) fd []).world = [.io d op desc] := by
  unfold Task.exec
  split
  · exact .inl rfl
  · rcases reply with (_ | n) | e <;> exact .inr rfl

omit [DecidableEq T] in
/-- Every step of `advance` is one of these. -/
theorem advance_cases {sh sh' : Shared T} {t : T} {reply : IoRet} {f : Frame} {fs : List Frame}
    {es : List Event} (h : advance sh t reply f = some (fs, sh', es)) :
    Advance sh t f fs sh' es := by
  cases f with
  | submit d op buf size strategy pc =>
    cases pc with
    | lock =>
      simp only [advance, Option.ite_none_right_eq_some, Option.some.injEq, Prod.mk.injEq] at h
      obtain ⟨ho, rfl, rfl, rfl⟩ := h
      exact .submitLock ho
    | test =>
      cases hc : sh.sock.closed <;>
        simp only [advance, hc, Bool.false_eq_true, if_true, if_false, Option.some.injEq,
          Prod.mk.injEq] at h <;>
        obtain ⟨rfl, rfl, rfl⟩ := h
      · exact .submitTest hc
      · exact .submitReject hc
    | push =>
      simp only [advance, Option.some.injEq, Prod.mk.injEq] at h
      obtain ⟨rfl, rfl, rfl⟩ := h
      exact .submitPush
  | cancel pc =>
    cases pc with
    | lock =>
      simp only [advance, Option.ite_none_right_eq_some, Option.some.injEq, Prod.mk.injEq] at h
      obtain ⟨⟨hr, hw⟩, rfl, rfl, rfl⟩ := h
      exact .cancelLock fun d => by cases d <;> assumption
    | clear =>
      simp only [advance, Option.some.injEq, Prod.mk.injEq] at h
      obtain ⟨rfl, rfl, rfl⟩ := h
      exact .cancelClear
  | close pc =>
    cases pc with
    | cas =>
      -- The exchange fails on a closed socket, and closes an open one.
      cases hc : sh.sock.closed <;>
        simp only [advance, hc, Bool.false_eq_true, if_true, if_false, Option.some.injEq,
          Prod.mk.injEq] at h <;>
        obtain ⟨rfl, rfl, rfl⟩ := h
      · exact .closeWon hc
      · exact .closeLost hc
    | deregister =>
      simp only [advance, Option.some.injEq, Prod.mk.injEq] at h
      obtain ⟨rfl, rfl, rfl⟩ := h
      exact .closeDeregister
    | sysClose =>
      simp only [advance, Option.some.injEq, Prod.mk.injEq] at h
      obtain ⟨rfl, rfl, rfl⟩ := h
      exact .closeSys
    | drain d pc =>
      cases pc with
      | lock =>
        simp only [advance, Option.ite_none_right_eq_some, Option.some.injEq, Prod.mk.injEq] at h
        obtain ⟨ho, rfl, rfl, rfl⟩ := h
        exact .drainLock ho
      | test iters bound =>
        rcases hq : sh.sock.queue d with _ | ⟨⟨task, op⟩, rest⟩
        · cases d <;> simp only [advance, hq, Option.some.injEq, Prod.mk.injEq] at h <;>
            obtain ⟨rfl, rfl, rfl⟩ := h
          · exact .drainRead hq
          · exact .drainWrite hq
        · simp only [advance, hq, Option.some.injEq, Prod.mk.injEq] at h
          obtain ⟨rfl, rfl, rfl⟩ := h
          exact .drainPop hq
      | call op size iters bound =>
        simp only [advance, Option.some.injEq, Prod.mk.injEq] at h
        obtain ⟨rfl, rfl, rfl⟩ := h
        exact .drainCall
      | relock iters bound =>
        simp only [advance, Option.ite_none_right_eq_some, Option.some.injEq, Prod.mk.injEq] at h
        obtain ⟨ho, rfl, rfl, rfl⟩ := h
        exact .drainRelock ho
  | doIo d pc =>
    cases pc with
    | lock =>
      simp only [advance, Option.ite_none_right_eq_some, Option.some.injEq, Prod.mk.injEq] at h
      obtain ⟨ho, rfl, rfl, rfl⟩ := h
      exact .ioLock ho
    | test =>
      cases hc : sh.sock.closed <;>
        simp only [advance, hc, Bool.false_eq_true, if_true, if_false, Option.some.injEq,
          Prod.mk.injEq] at h <;>
        obtain ⟨rfl, rfl, rfl⟩ := h
      · exact .ioTest hc
      · exact .ioClosed hc
    | exec =>
      rcases hq : sh.sock.queue d with _ | ⟨⟨task, op⟩, rest⟩
      · simp only [advance, hq, Option.some.injEq, Prod.mk.injEq] at h
        obtain ⟨rfl, rfl, rfl⟩ := h
        exact .ioEmpty hq
      · simp only [advance, hq, Option.ite_none_right_eq_some, Option.some.injEq,
          Prod.mk.injEq] at h
        obtain ⟨hfits, rfl, rfl, rfl⟩ := h
        exact .ioExec reply hq hfits
    | finish task ec op =>
      cases hv : task.verdict ec <;>
        simp only [advance, hv, Option.some.injEq, Prod.mk.injEq] at h <;>
        obtain ⟨rfl, rfl, rfl⟩ := h
      · exact .ioKeep hv
      · exact .ioPop hv
    | call op res size =>
      simp only [advance, Option.some.injEq, Prod.mk.injEq] at h
      obtain ⟨rfl, rfl, rfl⟩ := h
      exact .ioCall
  | callback op => simp [advance] at h

/-! ## The sections, uninterrupted -/

omit [DecidableEq T] in
/-- A submission whose section is not interrupted does what `submit` says. -/
theorem submit_section (sh : Shared T) (t : T) (d : Dir) (op : OpId) (buf size : ℕ)
    (strategy : TaskStrategy) (reply : IoRet) :
    match sh.sock.submit d buf size strategy op with
    | (true, sock) =>
      advance sh t reply (.submit d op buf size strategy .test) =
          some ([.submit d op buf size strategy .push], sh, []) ∧
        ∃ sh', sh'.sock = sock ∧ advance sh t reply (.submit d op buf size strategy .push) =
          some ([], sh', [.accepted d op])
    | (false, sock) => ∃ sh', sh'.sock = sock ∧
        advance sh t reply (.submit d op buf size strategy .test) =
          some ([], sh', [.rejected d op]) := by
  cases hc : sh.sock.closed with
  | false =>
    rw [TcpSocket.submit_open hc]
    exact ⟨by simp [advance, hc], _, rfl, rfl⟩
  | true =>
    rw [TcpSocket.submit, if_pos hc]
    exact ⟨sh.setOwner d none, rfl, by simp [advance, hc]⟩

omit [DecidableEq T] in
/-- A section of `do_read` or `do_write` that finds the socket open, and an operation, and is not
interrupted does what `serve` says: it makes the system call, and then goes on to the callback that
`serve` gives, or returns. -/
theorem serve_section {sh : Shared T} {t : T} {d : Dir} {task : Task} {op : OpId}
    {rest : List (Task × OpId)} {reply : IoRet} (hopen : sh.sock.closed = false)
    (hq : sh.sock.queue d = (task, op) :: rest) (hfits : replyFits reply task = true) :
    let served := sh.sock.serve (logIo d op sh.desc reply) d []
    ∃ f sh' es, advance sh t reply (.doIo d .exec) = some ([f], sh, served.world) ∧
      sh'.sock = served.sock ∧
      advance sh t reply f = some (match served.call with
        | some (op, res, size) => [.doIo d (.call op res size)]
        | none => [], sh', es) := by
  intro served
  let r := task.exec (logIo d op sh.desc reply) sh.sock.fd []
  have hexec : advance sh t reply (.doIo d .exec) =
      some ([.doIo d (.finish r.task r.ec op)], sh, r.world) := by
    simp only [advance, hq, hfits, if_true, r]
  cases hv : r.task.verdict r.ec with
  | none =>
    have hserved : served = ⟨sh.sock, none, r.world⟩ := by
      simp only [served, TcpSocket.serve, hopen, Bool.false_eq_true, if_false, hq]
      rw [hv]
    rw [hserved]
    exact ⟨_, sh.setOwner d none, [], hexec, rfl, by simp only [advance, hv]⟩
  | some verdict =>
    have hserved : served = ⟨sh.sock.setQueue d rest, some (op, verdict), r.world⟩ := by
      simp only [served, TcpSocket.serve, hopen, Bool.false_eq_true, if_false, hq]
      rw [hv]
    rw [hserved]
    refine ⟨_, sh.leave d rest, [.left d op .taken], hexec, rfl, ?_⟩
    simp only [advance, hv, hq, List.tail_cons]

/-- The steps of the machine: a call, the return of a callback, a step of the innermost frame of a
thread, or the reuse of the descriptor number. -/
inductive Step (rt : T) (s : State T) : State T → List Event → Prop
  | call {t : T} (c : Call) : mayCall rt t (s.stack t) c = true →
    Step rt s { s with stack := Function.update s.stack t (c.frame s.nextOp :: s.stack t),
                       nextOp := s.nextOp + 1 } []
  | ret {t : T} {op : OpId} {rest : List Frame} : s.stack t = .callback op :: rest →
    Step rt s { s with stack := Function.update s.stack t rest } []
  | go {t : T} {f : Frame} {rest fs : List Frame} {sh : Shared T} {es : List Event} :
    s.stack t = f :: rest → Advance s.toShared t f fs sh es →
    Step rt s { s with toShared := sh, stack := Function.update s.stack t (fs ++ rest) } es
  | reuse (conn : ℕ) : s.desc = .free → Step rt s { s with desc := .other conn } []

/-- Every step of the machine is one of these. -/
theorem step_cases {rt : T} {s s' : State T} {a : Action T} {es : List Event}
    (h : (machine rt).step s a = some (s', es)) : Step rt s s' es := by
  cases a with
  | thread t ch =>
    cases ch with
    | call c =>
      simp only [machine, step, Option.ite_none_right_eq_some, Option.some.injEq,
        Prod.mk.injEq] at h
      obtain ⟨hm, rfl, rfl⟩ := h
      exact .call c hm
    | ret =>
      simp only [machine, step] at h
      split at h
      case h_2 => simp at h
      rename_i op rest hst
      simp only [Option.some.injEq, Prod.mk.injEq] at h
      obtain ⟨rfl, rfl⟩ := h
      exact .ret hst
    | go reply =>
      simp only [machine, step] at h
      split at h
      case h_2 => simp at h
      rename_i f rest hst
      simp only [Option.map_eq_some_iff, Prod.mk.injEq] at h
      obtain ⟨⟨fs, sh, es'⟩, hadv, rfl, rfl⟩ := h
      exact .go hst (advance_cases hadv)
  | reuse conn =>
    simp only [machine, step, Option.ite_none_right_eq_some, Option.some.injEq, Prod.mk.injEq] at h
    obtain ⟨hd, rfl, rfl⟩ := h
    exact .reuse conn hd

end Spinet.Socket
