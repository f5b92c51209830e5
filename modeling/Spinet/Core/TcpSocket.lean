import Mathlib.Data.List.Basic
import Spinet.Core.Task

/-!
# TcpSocket: the queues and what the runtime's thread does with them

The members of `TcpSocket` that its operations share, and the operations that are one section of a
mutex each: the four `async_*` submissions, `cancel`, and the sections of `do_read` and `do_write`.
The read and the write side are twins in the source; `Dir` picks one of them, and the functions that
exist once for each side are one definition applied to it.

The front of a queue is copied out before `exec` runs on it
(`auto [task, callback] = read_task_queue_.front()`), so a task that stays in its queue stays as it
was submitted: `serve` gives back the queue it was given.
-/

namespace Spinet

/-- The side of a socket: reads or writes. -/
inductive Dir
  | read
  | write
deriving DecidableEq, Repr

/-- `TcpSocket`, with callbacks of type `κ`. -/
structure TcpSocket (κ : Type*) where
  /-- `fd_`. -/
  fd : ℕ
  /-- `closed_`. -/
  closed : Bool
  /-- `read_task_queue_` and `write_task_queue_`. -/
  queue : Dir → List (Task × κ)

namespace TcpSocket

variable {κ σ : Type*}

/-- A socket as its constructor leaves it. -/
def new (fd : ℕ) : TcpSocket κ := { fd := fd, closed := false, queue := fun _ => [] }

/-- The socket with another queue on side `d`. -/
def setQueue (s : TcpSocket κ) (d : Dir) (q : List (Task × κ)) : TcpSocket κ :=
  { s with queue := Function.update s.queue d q }

/-- The body of the four submissions: refused on a closed socket, else appended. -/
def submit (s : TcpSocket κ) (d : Dir) (buf size : ℕ) (strategy : TaskStrategy) (callback : κ) :
    Bool × TcpSocket κ :=
  if s.closed then (false, s)
  else (true, s.setQueue d (s.queue d ++ [(Task.new buf size strategy, callback)]))

/-- `TcpSocket::async_read`. -/
def asyncRead (s : TcpSocket κ) (buf size : ℕ) (callback : κ) : Bool × TcpSocket κ :=
  s.submit .read buf size .UNTIL_FINISHED callback

/-- `TcpSocket::async_read_some`. -/
def asyncReadSome (s : TcpSocket κ) (buf size : ℕ) (callback : κ) : Bool × TcpSocket κ :=
  s.submit .read buf size .TRY callback

/-- `TcpSocket::async_write`. -/
def asyncWrite (s : TcpSocket κ) (buf size : ℕ) (callback : κ) : Bool × TcpSocket κ :=
  s.submit .write buf size .UNTIL_FINISHED callback

/-- `TcpSocket::async_write_some`. -/
def asyncWriteSome (s : TcpSocket κ) (buf size : ℕ) (callback : κ) : Bool × TcpSocket κ :=
  s.submit .write buf size .TRY callback

/-- `TcpSocket::cancel`. -/
def cancel (s : TcpSocket κ) : TcpSocket κ := { s with queue := fun _ => [] }

/-- What the section of `do_read` or `do_write` leaves: the socket, the callback to invoke after the
mutex is released with its arguments, and the outside. -/
structure Served (κ σ : Type*) where
  /-- The socket after the section. -/
  sock : TcpSocket κ
  /-- The callback to invoke. -/
  call : Option (κ × Result × ℕ)
  /-- The outside after the section. -/
  world : σ

/-- The common body of `do_read` and `do_write`: one `exec` on a copy of the front task. -/
def serve (io : IoCall → σ → IoRet × σ) (d : Dir) (s : TcpSocket κ) (w : σ) : Served κ σ :=
  if s.closed then ⟨s, none, w⟩
  else
    match s.queue d with
    | [] => ⟨s, none, w⟩
    | (task, callback) :: rest =>
      let r := task.exec io s.fd w
      match r.task.verdict r.ec with
      | some (res, size) => ⟨s.setQueue d rest, some (callback, res, size), r.world⟩
      -- The copy, and the progress it made, goes out of scope here.
      | none => ⟨s, none, r.world⟩

/-- `TcpSocket::do_read`. -/
def doRead (recv : IoCall → σ → IoRet × σ) (s : TcpSocket κ) (w : σ) : Served κ σ :=
  s.serve recv .read w

/-- `TcpSocket::do_write`. -/
def doWrite (send : IoCall → σ → IoRet × σ) (s : TcpSocket κ) (w : σ) : Served κ σ :=
  s.serve send .write w

@[simp] theorem setQueue_fd (s : TcpSocket κ) (d : Dir) (q : List (Task × κ)) :
    (s.setQueue d q).fd = s.fd := rfl

@[simp] theorem setQueue_closed (s : TcpSocket κ) (d : Dir) (q : List (Task × κ)) :
    (s.setQueue d q).closed = s.closed := rfl

@[simp] theorem setQueue_queue_self (s : TcpSocket κ) (d : Dir) (q : List (Task × κ)) :
    (s.setQueue d q).queue d = q := by simp [setQueue]

@[simp] theorem cancel_queue (s : TcpSocket κ) (d : Dir) : s.cancel.queue d = [] := rfl

@[simp] theorem cancel_closed (s : TcpSocket κ) : s.cancel.closed = s.closed := rfl

@[simp] theorem cancel_fd (s : TcpSocket κ) : s.cancel.fd = s.fd := rfl

/-- A submission on an open socket. -/
theorem submit_open {s : TcpSocket κ} (h : s.closed = false) (d : Dir) (buf size : ℕ)
    (strategy : TaskStrategy) (callback : κ) : s.submit d buf size strategy callback =
      (true, s.setQueue d (s.queue d ++ [(Task.new buf size strategy, callback)])) := by
  simp [submit, h]

/-- The section of `do_read` or `do_write` on an open socket whose front task has made no progress,
by the reply that the system call gives. -/
theorem serve_fresh {io : IoCall → σ → IoRet × σ} {d : Dir} {s : TcpSocket κ} {w : σ} {task : Task}
    {callback : κ} {rest : List (Task × κ)} (hopen : s.closed = false)
    (hq : s.queue d = (task, callback) :: rest) (hfresh : task.Fresh) : s.serve io d w =
      match io ⟨s.fd, task.buf, task.size⟩ w with
      | (.fail e, w') =>
        if e = .EAGAIN then ⟨s, none, w'⟩
        else ⟨s.setQueue d rest, some (callback, .systemError e, 0), w'⟩
      | (.bytes 0, w') => ⟨s.setQueue d rest, some (callback, .systemError .EBADF, 0), w'⟩
      | (.bytes (n + 1), w') =>
        if task.strategy = .TRY ∨ n + 1 = task.size then
          ⟨s.setQueue d rest, some (callback, .ok, n + 1), w'⟩
        else ⟨s, none, w'⟩ := by
  have hpos := hfresh.2
  unfold serve
  rw [hopen, if_neg (by simp), hq]
  dsimp only
  rw [Task.exec_fresh hfresh]
  -- By the reply: bytes, of which there may be none, or an error number.
  rcases hio : io ⟨s.fd, task.buf, task.size⟩ w with ⟨(n | e), w'⟩
  · cases n with
    | zero => simp [Task.verdict_error hfresh.1, hpos]
    | succ n =>
      by_cases hdone : task.strategy = .TRY ∨ n + 1 = task.size
      · simp [Task.verdict_finished ((Task.advance_finished hfresh (n + 1)).2 hdone), hdone, hpos]
      · have hunfinished : (task.advance (n + 1)).finished = false := by
          simpa using mt (Task.advance_finished hfresh (n + 1)).1 hdone
        simp [Task.verdict_none hunfinished, hdone]
  · by_cases he : e = .EAGAIN
    · subst he; simp [Task.verdict_again hfresh.1]
    · simp [Task.verdict_error hfresh.1 he, he, hpos]

end TcpSocket

end Spinet
