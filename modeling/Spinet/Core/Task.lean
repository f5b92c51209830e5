import Spinet.Core.Result

/-!
# The read and write tasks

`TcpReadTask` and `TcpWriteTask` of `src/core/tcp_socket.cpp` have the same members and the same
body of `exec`, which differs only in the system call it makes. Both are `Task` here, and the system
call is an argument of `exec`: a function from the call's arguments and the state `σ` of whatever is
outside the process to the reply and the state after it.

`exec_fresh` says what one `exec` does with a task that has made no progress, which is what every
task in a queue is (see `Spinet.Core.TcpSocket`).
-/

namespace Spinet

/-- `TaskStrategy`. -/
inductive TaskStrategy
  | TRY
  | UNTIL_FINISHED
deriving DecidableEq, Repr

/-- The members of `TcpReadTask` and of `TcpWriteTask`. A buffer is its address. -/
structure Task where
  /-- `finished_`. -/
  finished : Bool
  /-- `buf_`. -/
  buf : ℕ
  /-- `size_`. -/
  size : ℕ
  /-- `pos_`, the number of bytes already moved. -/
  pos : ℕ
  /-- `strategy_`. -/
  strategy : TaskStrategy
deriving DecidableEq, Repr

/-- The arguments of `::recv(fd, addr, len, MSG_NOSIGNAL)` and of `::send`. -/
structure IoCall where
  /-- The descriptor number. -/
  fd : ℕ
  /-- The address of the first byte. -/
  addr : ℕ
  /-- The number of bytes asked for, or offered. -/
  len : ℕ
deriving DecidableEq, Repr

namespace Task

/-- The constructor of the task classes. -/
def new (buf size : ℕ) (strategy : TaskStrategy) : Task :=
  { finished := false, buf := buf, size := size, pos := 0, strategy := strategy }

/-- What `exec` leaves: its return value, the task, and the outside. -/
structure Executed (σ : Type*) where
  /-- The optional error number returned. -/
  ec : Option Errno
  /-- The task after the call. -/
  task : Task
  /-- The outside after the call. -/
  world : σ

/-- The task once `n` more bytes have been moved. -/
def advance (task : Task) (n : ℕ) : Task :=
  let task := { task with pos := task.pos + n }
  match task.strategy with
  | .TRY => { task with finished := true }
  | .UNTIL_FINISHED => if task.pos = task.size then { task with finished := true } else task

/-- `TcpReadTask::exec` and `TcpWriteTask::exec`, where `io` is `::recv` or `::send`. A reply of
zero bytes is reported as `EBADF`, whatever the length asked for was. -/
def exec {σ : Type*} (io : IoCall → σ → IoRet × σ) (fd : ℕ) (task : Task) (w : σ) : Executed σ :=
  if task.finished then ⟨none, task, w⟩
  else
    match io ⟨fd, task.buf + task.pos, task.size - task.pos⟩ w with
    | (.fail e, w') => ⟨some e, task, w'⟩
    -- The end of the stream, as `recv` reports it, and also a request for no bytes.
    | (.bytes 0, w') => ⟨some .EBADF, task, w'⟩
    | (.bytes (n + 1), w') => ⟨none, task.advance (n + 1), w'⟩

/-- `finished_size`. -/
def finishedSize (task : Task) : ℕ := task.pos

/-- What `do_read` and `do_write` make of the task and the error number after `exec`: the arguments
of the callback if the operation is over, `none` if it stays in its queue. -/
def verdict (task : Task) (ec : Option Errno) : Option (Result × ℕ) :=
  if task.finished then some (.ok, task.finishedSize)
  else
    match ec with
    | some e => if e = .EAGAIN then none else some (.systemError e, task.finishedSize)
    -- A short transfer of an `UNTIL_FINISHED` task: neither branch of the source is taken.
    | none => none

/-- A task that has made no progress, as the constructor leaves it. -/
def Fresh (task : Task) : Prop := task.finished = false ∧ task.pos = 0

@[simp] theorem new_fresh (buf size : ℕ) (strategy : TaskStrategy) :
    (new buf size strategy).Fresh :=
  ⟨rfl, rfl⟩

@[simp] theorem advance_buf (task : Task) (n : ℕ) : (task.advance n).buf = task.buf := by
  unfold advance
  cases task.strategy
  · rfl
  · dsimp only; split <;> rfl

@[simp] theorem advance_pos (task : Task) (n : ℕ) : (task.advance n).pos = task.pos + n := by
  unfold advance
  cases task.strategy
  · rfl
  · dsimp only; split <;> rfl

/-- After `n` bytes a task with no progress is over if it tries once, or if `n` is all it asked
for. -/
theorem advance_finished {task : Task} (h : task.Fresh) (n : ℕ) :
    (task.advance n).finished = true ↔ task.strategy = .TRY ∨ n = task.size := by
  obtain ⟨hf, hp⟩ := h
  unfold advance
  rw [hp, Nat.zero_add]
  cases hs : task.strategy with
  | TRY => simp
  | UNTIL_FINISHED =>
    by_cases hn : n = task.size
    · simp [hn]
    · simp [hn, hf]

/-- The call that `exec` makes for a task with no progress asks for its whole buffer. -/
theorem exec_fresh {σ : Type*} {task : Task} (h : task.Fresh) (io : IoCall → σ → IoRet × σ) (fd : ℕ)
    (w : σ) : task.exec io fd w =
      match io ⟨fd, task.buf, task.size⟩ w with
      | (.fail e, w') => ⟨some e, task, w'⟩
      | (.bytes 0, w') => ⟨some .EBADF, task, w'⟩
      | (.bytes (n + 1), w') => ⟨none, task.advance (n + 1), w'⟩ := by
  obtain ⟨hf, hp⟩ := h
  unfold exec
  rw [hf, hp]
  simp only [Bool.false_eq_true, if_false, Nat.add_zero, Nat.sub_zero]

/-- A task that is not over and met `EAGAIN` stays. -/
theorem verdict_again {task : Task} (h : task.finished = false) :
    task.verdict (some .EAGAIN) = none := by
  simp [verdict, h]

/-- A task that is not over and met another error is reported with it. -/
theorem verdict_error {task : Task} (h : task.finished = false) {e : Errno} (he : e ≠ .EAGAIN) :
    task.verdict (some e) = some (.systemError e, task.pos) := by
  simp [verdict, h, he, finishedSize]

/-- A task that is over is reported as such, with its size. -/
theorem verdict_finished {task : Task} (h : task.finished = true) (ec : Option Errno) :
    task.verdict ec = some (.ok, task.pos) := by
  simp [verdict, h, finishedSize]

/-- A task that is not over and met no error stays. -/
theorem verdict_none {task : Task} (h : task.finished = false) : task.verdict none = none := by
  simp [verdict, h]

end Task

end Spinet
