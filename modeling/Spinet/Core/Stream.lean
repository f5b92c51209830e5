import Mathlib.Algebra.GroupWithZero.Nat
import Mathlib.Data.List.GetD
import Spinet.Core.TcpSocket
import Spinet.Library.Machine

/-!
# One side of a socket as a byte stream

The runs of one side of a `TcpSocket` on an open socket: submissions, and steps of `do_read` or
`do_write`, in any order, with any replies that the kernel may give. Memory is a function from
addresses to bytes; the user may write to it wherever no pending operation has its buffer.

Both sides are one machine, `machine`, over a `Kernel`: the system call as a function of its
outcome, with what is known about it. `recvKernel` puts bytes from the stream into memory, and
`sendKernel` takes them from there. An operation is named by the order of its submission.
-/

namespace Spinet.Stream

open Transition

/-! ## Memory -/

/-- The bytes at all addresses. -/
abbrev Memory := ℕ → UInt8

/-- `len` bytes from an address on. -/
def Memory.read (m : Memory) (addr len : ℕ) : List UInt8 :=
  (List.range len).map fun i => m (addr + i)

/-- Memory with some bytes written from an address on. -/
def Memory.write (m : Memory) (addr : ℕ) (bytes : List UInt8) : Memory := fun a =>
  if addr ≤ a ∧ a < addr + bytes.length then bytes.getD (a - addr) 0 else m a

@[simp] theorem Memory.length_read (m : Memory) (addr len : ℕ) :
    (m.read addr len).length = len := by
  simp [Memory.read]

@[simp] theorem Memory.read_zero (m : Memory) (addr : ℕ) : m.read addr 0 = [] := rfl

/-- What was written is read back. -/
theorem Memory.read_write (m : Memory) (addr : ℕ) (bytes : List UInt8) :
    (m.write addr bytes).read addr bytes.length = bytes := by
  apply List.ext_getElem (by simp)
  intro i h₁ h₂
  simp only [Memory.read, Memory.write, List.getElem_map, List.getElem_range]
  rw [if_pos ⟨Nat.le_add_right _ _, by omega⟩, Nat.add_sub_cancel_left, List.getD_eq_getElem _ _ h₂]

/-- A byte written outside a range does not change what is read there. -/
theorem Memory.read_write_outside (m : Memory) {addr len a : ℕ} {byte : UInt8}
    (h : a < addr ∨ addr + len ≤ a) : (m.write a [byte]).read addr len = m.read addr len := by
  apply List.map_congr_left
  intro i hi
  have hlen : i < len := List.mem_range.1 hi
  simp only [Memory.write, List.length_singleton]
  rw [if_neg (by omega)]

/-! ## The kernel -/

/-- What a system call may change: memory, and the transfers made so far, each with the address of
its first byte. -/
structure World where
  /-- Memory. -/
  mem : Memory
  /-- The transfers made. -/
  moved : List (ℕ × List UInt8)

/-- A system call that moves bytes, `::recv` or `::send`, with outcomes `O`. -/
structure Kernel (O : Type) where
  /-- The call with a given outcome. -/
  io : O → IoCall → World → IoRet × World
  /-- Whether the outcome is possible when `len` bytes are asked for or offered. -/
  fits : O → ℕ → Bool
  /-- Whether the outcome is `EAGAIN`. -/
  again : O → Bool
  /-- `EAGAIN` changes nothing. -/
  io_again : ∀ o call w, again o = true → io o call w = (.fail .EAGAIN, w)
  /-- Every other outcome is an error, the end of the stream, or a transfer of some bytes, at most
  as many as asked for, between the address given and the stream. -/
  io_other : ∀ o call w, fits o call.len = true → again o = false →
    (∃ e, e ≠ .EAGAIN ∧ io o call w = (.fail e, w)) ∨ io o call w = (.bytes 0, w) ∨
      ∃ n bs mem, bs.length = n + 1 ∧ n + 1 ≤ call.len ∧ mem.read call.addr (n + 1) = bs ∧
        io o call w = (.bytes (n + 1), ⟨mem, w.moved ++ [(call.addr, bs)]⟩)

/-- The outcomes of `::recv`: bytes, `EAGAIN`, the end of the stream, or another error. -/
inductive RecvOutcome
  | data (bytes : List UInt8)
  | again
  | eof
  | error (code : ℕ)
deriving DecidableEq, Repr

/-- `::recv` with a given outcome: the bytes go to memory. -/
def recv : RecvOutcome → IoCall → World → IoRet × World
  | .data bytes, call, w =>
    (.bytes bytes.length, ⟨w.mem.write call.addr bytes, w.moved ++ [(call.addr, bytes)]⟩)
  | .again, _, w => (.fail .EAGAIN, w)
  | .eof, _, w => (.bytes 0, w)
  | .error code, _, w => (.fail (.other code), w)

/-- `::recv` gives at least one byte and at most as many as asked for, if it gives bytes. -/
def RecvOutcome.fits : RecvOutcome → ℕ → Bool
  | .data bytes, len => decide (1 ≤ bytes.length ∧ bytes.length ≤ len)
  | _, _ => true

/-- `::recv` as a `Kernel`. -/
def recvKernel : Kernel RecvOutcome where
  io := recv
  fits := RecvOutcome.fits
  again o := decide (o = .again)
  io_again o call w h := by
    rw [decide_eq_true_eq] at h
    subst h
    rfl
  io_other o call w hfits hagain := by
    cases o with
    | again => simp at hagain
    | eof => exact .inr (.inl rfl)
    | error code => exact .inl ⟨.other code, by simp, rfl⟩
    | data bytes =>
      simp only [RecvOutcome.fits, decide_eq_true_eq] at hfits
      obtain ⟨n, hn⟩ : ∃ n, bytes.length = n + 1 := ⟨bytes.length - 1, by omega⟩
      -- The bytes received are those at the start of the buffer afterwards.
      refine .inr (.inr ⟨n, bytes, w.mem.write call.addr bytes, hn, by omega, ?_, ?_⟩)
      · rw [← hn]
        exact w.mem.read_write _ _
      · simp [recv, hn]

/-- The outcomes of `::send`: a number of bytes accepted, `EAGAIN`, a return value of zero, or
another error. -/
inductive SendOutcome
  | accepted (n : ℕ)
  | again
  | zero
  | error (code : ℕ)
deriving DecidableEq, Repr

/-- `::send` with a given outcome: the bytes accepted are those in memory. -/
def send : SendOutcome → IoCall → World → IoRet × World
  | .accepted n, call, w => (.bytes n, ⟨w.mem, w.moved ++ [(call.addr, w.mem.read call.addr n)]⟩)
  | .again, _, w => (.fail .EAGAIN, w)
  | .zero, _, w => (.bytes 0, w)
  | .error code, _, w => (.fail (.other code), w)

/-- `::send` accepts at least one byte and at most as many as offered, if it accepts any. -/
def SendOutcome.fits : SendOutcome → ℕ → Bool
  | .accepted n, len => decide (1 ≤ n ∧ n ≤ len)
  | _, _ => true

/-- `::send` as a `Kernel`. -/
def sendKernel : Kernel SendOutcome where
  io := send
  fits := SendOutcome.fits
  again o := decide (o = .again)
  io_again o call w h := by
    rw [decide_eq_true_eq] at h
    subst h
    rfl
  io_other o call w hfits hagain := by
    cases o with
    | again => simp at hagain
    | zero => exact .inr (.inl rfl)
    | error code => exact .inl ⟨.other code, by simp, rfl⟩
    | accepted k =>
      simp only [SendOutcome.fits, decide_eq_true_eq] at hfits
      obtain ⟨n, rfl⟩ : ∃ n, k = n + 1 := ⟨k - 1, by omega⟩
      exact .inr (.inr ⟨n, w.mem.read call.addr (n + 1), w.mem, by simp, by omega, rfl, rfl⟩)

/-! ## The machine -/

/-- An operation, named by the number of submissions before it. -/
abbrev OpId := ℕ

/-- What can be seen of a run. -/
inductive Event
  /-- A submission was accepted. -/
  | submitted (op : OpId)
  /-- A system call for the operation moved bytes between `addr` and the stream. -/
  | moved (op : OpId) (task : Task) (addr : ℕ) (bytes : List UInt8)
  /-- The operation was called back; `bytes` are then the first `size` bytes of its buffer. -/
  | completed (op : OpId) (task : Task) (res : Result) (size : ℕ) (bytes : List UInt8)

/-- A socket whose callbacks are the operations, memory, and the next operation. -/
structure State where
  /-- The socket. -/
  sock : TcpSocket OpId
  /-- Memory. -/
  mem : Memory
  /-- The name of the next operation. -/
  nextOp : OpId

/-- What the user, the runtime's thread, and the kernel do. -/
inductive Action (O : Type)
  /-- A call of `async_read` or `async_write` (`UNTIL_FINISHED`), or its `_some` variant (`TRY`). -/
  | submit (buf size : ℕ) (strategy : TaskStrategy)
  /-- The user writes a byte to memory. -/
  | userWrite (addr : ℕ) (byte : UInt8)
  /-- A call of `do_read` or `do_write`, with the outcome of the system call if it makes one. -/
  | serve (out : O)

variable {O : Type}

/-- Whether an address belongs to the buffer of a pending operation of side `d`. -/
def pending (d : Dir) (s : State) (addr : ℕ) : Bool :=
  (s.sock.queue d).any fun e => decide (e.1.buf ≤ addr ∧ addr < e.1.buf + e.1.size)

/-- The events of a call of `do_read` or `do_write` whose front entry was `task` of operation
`op`. -/
def serveEvents (op : OpId) (task : Task) (r : TcpSocket.Served OpId World) : List Event :=
  r.world.moved.map (fun m => .moved op task m.1 m.2) ++
    match r.call with
    | some (op, res, size) => [.completed op task res size (r.world.mem.read task.buf size)]
    | none => []

/-- The step of an action on side `d`. -/
def step (K : Kernel O) (d : Dir) (s : State) : Action O → Option (State × List Event)
  | .submit buf size strategy =>
    let r := s.sock.submit d buf size strategy s.nextOp
    some ({ s with sock := r.2, nextOp := s.nextOp + 1 }, if r.1 then [.submitted s.nextOp] else [])
  | .userWrite addr byte =>
    if pending d s addr then none else some ({ s with mem := s.mem.write addr [byte] }, [])
  | .serve out =>
    match s.sock.queue d with
    | [] => some (s, [])
    | (task, op) :: _ =>
      -- Only outcomes that the kernel can give for the length asked are steps.
      if K.fits out (task.size - task.pos) then
        let r := s.sock.serve (K.io out) d ⟨s.mem, []⟩
        some ({ s with sock := r.sock, mem := r.world.mem }, serveEvents op task r)
      else none

/-- The machine of side `d`. -/
def machine (K : Kernel O) (d : Dir) : Machine State (Action O) Event := ⟨step K d⟩

/-- A new socket, with any memory. -/
def init (fd : ℕ) (mem : Memory) : Config State Event :=
  { state := { sock := .new fd, mem := mem, nextOp := 0 }, trace := [] }

/-! ## What a trace says -/

/-- The bytes that the event moved. -/
def Event.bytesMoved : Event → List UInt8
  | .moved _ _ _ bytes => bytes
  | _ => []

/-- The bytes that the event reported to the user. -/
def Event.bytesCompleted : Event → List UInt8
  | .completed _ _ _ _ bytes => bytes
  | _ => []

/-- The number of bytes that the event moved for an operation. -/
def Event.movedFor (op : OpId) : Event → ℕ
  | .moved op' _ _ bytes => if op' = op then bytes.length else 0
  | _ => 0

/-- The operation that the event submitted. -/
def Event.submission : Event → Option OpId
  | .submitted op => some op
  | _ => none

/-- The operation that the event completed. -/
def Event.completion : Event → Option OpId
  | .completed op _ _ _ _ => some op
  | _ => none

/-- All bytes moved, in order: what `recv` has consumed, or what `send` has had accepted. -/
def bytesMoved (tr : List Event) : List UInt8 := tr.flatMap Event.bytesMoved

/-- The bytes of the completed operations, in completion order. -/
def bytesCompleted (tr : List Event) : List UInt8 := tr.flatMap Event.bytesCompleted

/-- The number of bytes moved for one operation. -/
def movedFor (op : OpId) (tr : List Event) : ℕ := (tr.map (Event.movedFor op)).sum

/-- The operations submitted, in order. -/
def submissions (tr : List Event) : List OpId := tr.filterMap Event.submission

/-- The operations completed, in order. -/
def completions (tr : List Event) : List OpId := tr.filterMap Event.completion

attribute [simp] Event.bytesMoved Event.bytesCompleted Event.movedFor Event.submission
  Event.completion

section Trace

variable (e : Event) (tr tr' : List Event)

@[simp] theorem bytesMoved_nil : bytesMoved [] = [] := rfl

@[simp] theorem bytesMoved_cons : bytesMoved (e :: tr) = e.bytesMoved ++ bytesMoved tr := rfl

@[simp] theorem bytesCompleted_nil : bytesCompleted [] = [] := rfl

@[simp] theorem bytesCompleted_cons :
    bytesCompleted (e :: tr) = e.bytesCompleted ++ bytesCompleted tr := rfl

@[simp] theorem movedFor_nil (op : OpId) : movedFor op [] = 0 := rfl

@[simp] theorem movedFor_cons (op : OpId) :
    movedFor op (e :: tr) = e.movedFor op + movedFor op tr := rfl

@[simp] theorem submissions_nil : submissions [] = [] := rfl

@[simp] theorem submissions_cons :
    submissions (e :: tr) = e.submission.toList ++ submissions tr := by
  cases e <;> rfl

@[simp] theorem completions_nil : completions [] = [] := rfl

@[simp] theorem completions_cons :
    completions (e :: tr) = e.completion.toList ++ completions tr := by
  cases e <;> rfl

@[simp] theorem bytesMoved_append : bytesMoved (tr ++ tr') = bytesMoved tr ++ bytesMoved tr' := by
  simp [bytesMoved]

@[simp] theorem bytesCompleted_append :
    bytesCompleted (tr ++ tr') = bytesCompleted tr ++ bytesCompleted tr' := by
  simp [bytesCompleted]

@[simp] theorem movedFor_append (op : OpId) :
    movedFor op (tr ++ tr') = movedFor op tr + movedFor op tr' := by
  simp [movedFor]

@[simp] theorem submissions_append :
    submissions (tr ++ tr') = submissions tr ++ submissions tr' := by
  simp [submissions]

@[simp] theorem completions_append :
    completions (tr ++ tr') = completions tr ++ completions tr' := by
  simp [completions]

end Trace

/-! ## One step of serving -/

/-- What a step of `do_read` or `do_write` does on an open socket whose tasks have made no
progress. -/
inductive Turn (d : Dir) (s : State) (again : Bool) : State → List Event → Prop
  /-- The queue is empty. -/
  | idle : s.sock.queue d = [] → Turn d s again s []
  /-- The system call gave `EAGAIN`. -/
  | again {task op rest} : s.sock.queue d = (task, op) :: rest → again = true → Turn d s again s []
  /-- It gave an error or the end of the stream: the operation is over, and the size reported is
  zero. -/
  | failed {task op rest} (e : Errno) : s.sock.queue d = (task, op) :: rest → again = false →
    Turn d s again { s with sock := s.sock.setQueue d rest }
      [.completed op task (.systemError e) 0 []]
  /-- It moved a part of what an `UNTIL_FINISHED` operation asked for: the operation stays as it
  was. -/
  | short {task op rest} (bs : List UInt8) (mem : Memory) :
    s.sock.queue d = (task, op) :: rest → again = false → bs ≠ [] → bs.length < task.size →
    mem.read task.buf bs.length = bs →
    Turn d s again { s with mem := mem } [.moved op task task.buf bs]
  /-- It moved bytes and the operation is over. -/
  | finished {task op rest} (bs : List UInt8) (mem : Memory) :
    s.sock.queue d = (task, op) :: rest → again = false → bs ≠ [] → bs.length ≤ task.size →
    (task.strategy = .UNTIL_FINISHED → bs.length = task.size) → mem.read task.buf bs.length = bs →
    Turn d s again { s with sock := s.sock.setQueue d rest, mem := mem }
      [.moved op task task.buf bs, .completed op task .ok bs.length bs]

/-- Every step of `do_read` or `do_write` is such a turn. -/
theorem step_serve {K : Kernel O} {d : Dir} {s s' : State} {out : O} {es : List Event}
    (hopen : s.sock.closed = false) (hfresh : ∀ e ∈ s.sock.queue d, e.1.Fresh)
    (h : step K d s (.serve out) = some (s', es)) : Turn d s (K.again out) s' es := by
  rcases hq : s.sock.queue d with _ | ⟨⟨task, op⟩, rest⟩
  · simp only [step, hq, Option.some.injEq, Prod.mk.injEq] at h
    obtain ⟨rfl, rfl⟩ := h
    exact .idle hq
  -- The task has made no progress, so the call is for its whole buffer.
  have hf : task.Fresh := hfresh (task, op) (by rw [hq]; simp)
  have hpos := hf.2
  simp only [step, hq, hpos, Nat.sub_zero, TcpSocket.serve_fresh hopen hq hf] at h
  split at h
  case isFalse => simp at h
  rename_i hfits
  simp only [Option.some.injEq, Prod.mk.injEq] at h
  obtain ⟨rfl, rfl⟩ := h
  cases hagain : K.again out with
  | true =>
    rw [K.io_again _ _ _ hagain]
    exact .again hq rfl
  | false =>
    rcases K.io_other out ⟨s.sock.fd, task.buf, task.size⟩ ⟨s.mem, []⟩ hfits hagain with
      ⟨e, he, hio⟩ | hio | ⟨n, bs, mem, hlen, hle, hread, hio⟩
    · simp only [hio, if_neg he]
      exact .failed e hq rfl
    · simp only [hio]
      exact .failed .EBADF hq rfl
    · simp only [hio, List.nil_append]
      rw [← hlen] at hread hle
      change bs.length ≤ task.size at hle
      have hne : bs ≠ [] := by
        rw [← List.length_pos_iff]
        omega
      -- The bytes finish the operation, or it stays in the queue as it was.
      by_cases hdone : task.strategy = .TRY ∨ n + 1 = task.size
      · simp only [if_pos hdone, serveEvents, List.map_cons, List.map_nil, List.singleton_append]
        rw [← hlen, hread]
        refine .finished bs mem hq rfl hne hle (fun hs => ?_) hread
        rw [hs] at hdone
        simpa [hlen] using hdone
      · rw [if_neg hdone]
        push Not at hdone
        exact .short bs mem hq rfl hne (by omega) hread

/-- What a step does on an open socket whose tasks have made no progress: a submission is appended,
the user writes outside the buffers of the queue, or the front is served. -/
theorem step_cases {K : Kernel O} {d : Dir} {s s' : State} {a : Action O} {es : List Event}
    (hopen : s.sock.closed = false) (hfresh : ∀ e ∈ s.sock.queue d, e.1.Fresh)
    (h : step K d s a = some (s', es)) :
    (∃ buf size strategy, a = .submit buf size strategy ∧ es = [.submitted s.nextOp] ∧
      s' = { s with
        sock := s.sock.setQueue d (s.sock.queue d ++ [(Task.new buf size strategy, s.nextOp)])
        nextOp := s.nextOp + 1 }) ∨
    (∃ addr byte, a = .userWrite addr byte ∧ pending d s addr = false ∧ es = [] ∧
      s' = { s with mem := s.mem.write addr [byte] }) ∨
    ∃ out, a = .serve out ∧ Turn d s (K.again out) s' es := by
  cases a with
  | submit buf size strategy =>
    simp only [step, TcpSocket.submit_open hopen, if_true, Option.some.injEq, Prod.mk.injEq] at h
    exact .inl ⟨buf, size, strategy, rfl, h.2.symm, h.1.symm⟩
  | userWrite addr byte =>
    simp only [step] at h
    split at h
    case isTrue => cases h
    rename_i hpending
    simp only [Option.some.injEq, Prod.mk.injEq] at h
    exact .inr (.inl ⟨addr, byte, rfl, by simpa using hpending, h.2.symm, h.1.symm⟩)
  | serve out => exact .inr (.inr ⟨out, rfl, step_serve hopen hfresh h⟩)

end Spinet.Stream
