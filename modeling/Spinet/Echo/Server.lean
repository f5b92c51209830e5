import Spinet.Core.Stream

/-!
# The echo server

`example/echo/async/server.cpp` on a `TcpSocket`: the callback of a read submits a write of what has
been read, and the callback of a write submits a read of as many bytes as have been written, both
with the `_some` operations, which end with the first bytes that they move. The environment is the
kernel: it calls `do_read` and `do_write` when it likes, and chooses what the system calls give.

A write that moves fewer bytes than it was given loses the others, and the reads after it ask for no
more than it has moved. `echo_iff` says that this is the only way in which the echo differs from
what has been received. -/

namespace Spinet.Echo

open Transition
open Spinet.Stream (Memory World RecvOutcome SendOutcome recv send)

/-! ## The server -/

/-- The callbacks, with the socket and the buffer bound. -/
inductive Callback
  /-- `read_callback`. -/
  | read
  /-- `write_callback`. -/
  | write
deriving DecidableEq, Repr

/-- What can be seen of a connection. -/
inductive Event
  /-- Bytes have been received. -/
  | received (bytes : List UInt8)
  /-- Bytes have been sent. -/
  | sent (bytes : List UInt8)
  /-- The socket has been closed. -/
  | closed
deriving DecidableEq, Repr

/-- A connection: its socket, and the memory in which its buffer is. -/
structure Connection where
  /-- The socket. -/
  sock : TcpSocket Callback
  /-- Memory. -/
  mem : Memory

/-- `TcpSocket::close`. The callbacks of the operations that are left are invoked with an error, and
close the socket once more, which does nothing. -/
def close (s : Connection) : Connection × List Event :=
  if s.sock.closed then (s, [])
  else ({ s with sock := { s.sock.cancel with closed := true } }, [.closed])

section
variable (buf : ℕ)

/-- `read_callback`. -/
def readCallback (res : Result) (size : ℕ) (s : Connection) : Connection × List Event :=
  if !res.isOk then close s
  else ({ s with sock := (s.sock.asyncWriteSome buf size .write).2 }, [])

/-- `write_callback`. -/
def writeCallback (res : Result) (size : ℕ) (s : Connection) : Connection × List Event :=
  if !res.isOk then close s
  else ({ s with sock := (s.sock.asyncReadSome buf size .read).2 }, [])

/-- Invokes a callback. -/
def invoke : Callback → Result → ℕ → Connection → Connection × List Event
  | .read => readCallback buf
  | .write => writeCallback buf

/-- What is left of a call of `do_read` or `do_write`, after its section: the callback, if there is
one to invoke. -/
def afterSection (event : List UInt8 → Event) (r : TcpSocket.Served Callback World) :
    Connection × List Event :=
  let s : Connection := ⟨r.sock, r.world.mem⟩
  let moved := r.world.moved.map fun m => event m.2
  match r.call with
  | none => (s, moved)
  | some (callback, res, size) =>
    ((invoke buf callback res size s).1, moved ++ (invoke buf callback res size s).2)

/-- What the kernel does. -/
inductive Action
  /-- `do_read` is called, with the outcome of `::recv`. -/
  | doRead (out : RecvOutcome)
  /-- `do_write` is called, with the outcome of `::send`. -/
  | doWrite (out : SendOutcome)

/-- Whether the outcome of the system call is an error or the end of the stream. -/
def Action.fails : Action → Bool
  | .doRead .eof | .doRead (.error _) | .doWrite .zero | .doWrite (.error _) => true
  | _ => false

/-- A step of a connection. Only outcomes that the kernel can give for the length asked are
steps. -/
def step (s : Connection) : Action → Option (Connection × List Event)
  | .doRead out =>
    match s.sock.queue .read with
    | [] => some (s, [])
    | (task, _) :: _ =>
      if out.fits (task.size - task.pos) then
        some (afterSection buf .received (s.sock.doRead (recv out) ⟨s.mem, []⟩))
      else none
  | .doWrite out =>
    match s.sock.queue .write with
    | [] => some (s, [])
    | (task, _) :: _ =>
      if out.fits (task.size - task.pos) then
        some (afterSection buf .sent (s.sock.doWrite (send out) ⟨s.mem, []⟩))
      else none

/-- The server's side of a connection. -/
def server : Machine Connection Action Event := ⟨step buf⟩

/-- A connection that has been accepted: the first read is submitted. -/
def accepted (fd payloadSize : ℕ) (mem : Memory) : Config Connection Event where
  state := ⟨((TcpSocket.new fd).asyncReadSome buf payloadSize .read).2, mem⟩
  trace := []

end

/-! ## What a step does -/

variable {buf : ℕ} {s s' : Connection} {n : ℕ} {tr es : List Event} {a : Action}

/-- A read of `n` bytes is the only operation. -/
structure Reading (buf : ℕ) (s : Connection) (n : ℕ) : Prop where
  /-- The socket is open. -/
  isOpen : s.sock.closed = false
  /-- The read. -/
  read : s.sock.queue .read = [(Task.new buf n .TRY, .read)]
  /-- There is no write. -/
  write : s.sock.queue .write = []

/-- A write of `n` bytes is the only operation. -/
structure Writing (buf : ℕ) (s : Connection) (n : ℕ) : Prop where
  /-- The socket is open. -/
  isOpen : s.sock.closed = false
  /-- There is no read. -/
  read : s.sock.queue .read = []
  /-- The write. -/
  write : s.sock.queue .write = [(Task.new buf n .TRY, .write)]

/-- The socket is closed, and no operation is left. -/
structure Closed (s : Connection) : Prop where
  /-- The socket is closed. -/
  isClosed : s.sock.closed = true
  /-- There is no read. -/
  read : s.sock.queue .read = []
  /-- There is no write. -/
  write : s.sock.queue .write = []

/-- An accepted connection reads. -/
theorem reading_accepted (buf fd payloadSize : ℕ) (mem : Memory) :
    Reading buf (accepted buf fd payloadSize mem).state payloadSize :=
  ⟨rfl, rfl, rfl⟩

/-- A connection that reads does not write. -/
theorem Reading.not_writing {m : ℕ} (h : Reading buf s n) : ¬ Writing buf s m := by
  intro hwriting
  have hempty := hwriting.write
  rw [h.write] at hempty
  cases hempty

/-- There is one write at most. -/
theorem Writing.unique {m : ℕ} (h : Writing buf s n) (h' : Writing buf s m) : n = m := by
  have hqueue := h.write
  rw [h'.write] at hqueue
  cases hqueue
  rfl

/-- Closing an open socket leaves it closed, with no operation. -/
theorem closed_close (hopen : s.sock.closed = false) :
    (close s).2 = [.closed] ∧ Closed (close s).1 := by
  rw [close, hopen, if_neg Bool.false_ne_true]
  exact ⟨rfl, rfl, rfl, rfl⟩

/-- The queue of the other side is not changed. -/
theorem setQueue_queue_ne (sock : TcpSocket Callback) {d d' : Dir} (h : d' ≠ d)
    (q : List (Task × Callback)) : (sock.setQueue d q).queue d' = sock.queue d' :=
  Function.update_of_ne h ..

/-- The operation that is submitted when the other one has ended is the only one. -/
theorem queue_submit (buf n : ℕ) {sock : TcpSocket Callback} (hopen : sock.closed = false)
    {d d' : Dir} (hne : d' ≠ d) (hqueue : sock.queue d' = []) (callback : Callback) :
    let sock' := ((sock.setQueue d []).submit d' buf n .TRY callback).2
    sock'.closed = false ∧ sock'.queue d = [] ∧
      sock'.queue d' = [(Task.new buf n .TRY, callback)] := by
  dsimp only
  rw [TcpSocket.submit_open (s := sock.setQueue d []) hopen]
  refine ⟨hopen, ?_, ?_⟩
  · rw [setQueue_queue_ne _ hne.symm, TcpSocket.setQueue_queue_self]
  · rw [TcpSocket.setQueue_queue_self, setQueue_queue_ne _ hne, hqueue, List.nil_append]

/-- A read moves some bytes, and these are to be written; or it is tried again; or it fails, and the
socket is closed. -/
theorem step_reading (h : Reading buf s n) (hstep : step buf s a = some (s', es)) :
    (∃ bytes, a = .doRead (.data bytes) ∧ bytes ≠ [] ∧ bytes.length ≤ n ∧ es = [.received bytes] ∧
      Writing buf s' bytes.length ∧ s'.mem.read buf bytes.length = bytes) ∨
    ((∀ bytes, a ≠ .doRead (.data bytes)) ∧
      ((es = [] ∧ s' = s) ∨ (a.fails = true ∧ es = [.closed] ∧ Closed s'))) := by
  cases a with
  | doWrite out =>
    rw [step, h.write] at hstep
    cases hstep
    exact .inr ⟨by simp, .inl ⟨rfl, rfl⟩⟩
  | doRead out =>
    rw [step, h.read] at hstep
    dsimp only at hstep
    split at hstep
    · rename_i hfits
      rw [Option.some.injEq, TcpSocket.doRead,
        TcpSocket.serve_fresh h.isOpen h.read (Task.new_fresh ..)] at hstep
      have hclosed := closed_close (s := ⟨s.sock.setQueue .read [], s.mem⟩) h.isOpen
      cases out with
      | data bytes =>
        obtain ⟨hpos, hle⟩ : 1 ≤ bytes.length ∧ bytes.length ≤ n := of_decide_eq_true hfits
        obtain ⟨k, hk⟩ : ∃ k, bytes.length = k + 1 := ⟨bytes.length - 1, by omega⟩
        simp only [recv, hk, Task.new, true_or, if_true, afterSection, invoke, readCallback,
          Result.isOk_ok, Bool.not_true, Bool.false_eq_true, if_false, List.nil_append,
          List.map_cons, List.map_nil, List.append_nil, Prod.mk.injEq] at hstep
        obtain ⟨rfl, rfl⟩ := hstep
        obtain ⟨hopen, hread, hwrite⟩ := queue_submit buf (k + 1) h.isOpen
          (show Dir.write ≠ .read by decide) h.write .write
        refine .inl ⟨bytes, rfl, List.length_pos_iff.1 hpos, hle, rfl, ?_,
          s.mem.read_write buf bytes⟩
        rw [hk]
        exact ⟨hopen, hread, hwrite⟩
      | again =>
        simp only [recv, if_true, afterSection, List.map_nil, Prod.mk.injEq] at hstep
        exact .inr ⟨by simp, .inl ⟨hstep.2.symm, hstep.1.symm⟩⟩
      | eof =>
        simp only [recv, afterSection, invoke, readCallback, Result.isOk_systemError,
          Bool.not_false, if_true, List.map_nil, List.nil_append, Prod.mk.injEq] at hstep
        obtain ⟨rfl, rfl⟩ := hstep
        exact .inr ⟨by simp, .inr ⟨rfl, hclosed⟩⟩
      | error code =>
        simp only [recv, reduceCtorEq, if_false, afterSection, invoke, readCallback,
          Result.isOk_systemError, Bool.not_false, if_true, List.map_nil, List.nil_append,
          Prod.mk.injEq] at hstep
        obtain ⟨rfl, rfl⟩ := hstep
        exact .inr ⟨by simp, .inr ⟨rfl, hclosed⟩⟩
    · cases hstep

/-- A write moves some of its bytes, and as many are to be read; or it is tried again; or it fails,
and the socket is closed. -/
theorem step_writing (h : Writing buf s n) (hstep : step buf s a = some (s', es)) :
    (∃ k, a = .doWrite (.accepted k) ∧ 0 < k ∧ k ≤ n ∧ es = [.sent (s.mem.read buf k)] ∧
      Reading buf s' k) ∨
    ((∀ k, a ≠ .doWrite (.accepted k)) ∧
      ((es = [] ∧ s' = s) ∨ (a.fails = true ∧ es = [.closed] ∧ Closed s'))) := by
  cases a with
  | doRead out =>
    rw [step, h.read] at hstep
    cases hstep
    exact .inr ⟨by simp, .inl ⟨rfl, rfl⟩⟩
  | doWrite out =>
    rw [step, h.write] at hstep
    dsimp only at hstep
    split at hstep
    · rename_i hfits
      rw [Option.some.injEq, TcpSocket.doWrite,
        TcpSocket.serve_fresh h.isOpen h.write (Task.new_fresh ..)] at hstep
      have hclosed := closed_close (s := ⟨s.sock.setQueue .write [], s.mem⟩) h.isOpen
      cases out with
      | accepted m =>
        obtain ⟨hpos, hle⟩ : 1 ≤ m ∧ m ≤ n := of_decide_eq_true hfits
        obtain ⟨k, rfl⟩ : ∃ k, m = k + 1 := ⟨m - 1, by omega⟩
        simp only [send, Task.new, true_or, if_true, afterSection, invoke, writeCallback,
          Result.isOk_ok, Bool.not_true, Bool.false_eq_true, if_false, List.nil_append,
          List.map_cons, List.map_nil, List.append_nil, Prod.mk.injEq] at hstep
        obtain ⟨rfl, rfl⟩ := hstep
        obtain ⟨hopen, hwrite, hread⟩ := queue_submit buf (k + 1) h.isOpen
          (show Dir.read ≠ .write by decide) h.read .read
        exact .inl ⟨k + 1, rfl, hpos, hle, rfl, hopen, hread, hwrite⟩
      | again =>
        simp only [send, if_true, afterSection, List.map_nil, Prod.mk.injEq] at hstep
        exact .inr ⟨by simp, .inl ⟨hstep.2.symm, hstep.1.symm⟩⟩
      | zero =>
        simp only [send, afterSection, invoke, writeCallback, Result.isOk_systemError,
          Bool.not_false, if_true, List.map_nil, List.nil_append, Prod.mk.injEq] at hstep
        obtain ⟨rfl, rfl⟩ := hstep
        exact .inr ⟨by simp, .inr ⟨rfl, hclosed⟩⟩
      | error code =>
        simp only [send, reduceCtorEq, if_false, afterSection, invoke, writeCallback,
          Result.isOk_systemError, Bool.not_false, if_true, List.map_nil, List.nil_append,
          Prod.mk.injEq] at hstep
        obtain ⟨rfl, rfl⟩ := hstep
        exact .inr ⟨by simp, .inr ⟨rfl, hclosed⟩⟩
    · cases hstep

/-- A closed connection does nothing. -/
theorem step_closed (h : Closed s) (hstep : step buf s a = some (s', es)) : es = [] ∧ s' = s := by
  cases a with
  | doRead out =>
    rw [step, h.read] at hstep
    cases hstep
    exact ⟨rfl, rfl⟩
  | doWrite out =>
    rw [step, h.write] at hstep
    cases hstep
    exact ⟨rfl, rfl⟩

/-! ## What is sent -/

/-- The bytes received in a trace. -/
def receivedBytes (tr : List Event) : List UInt8 :=
  tr.flatMap fun
    | .received bytes => bytes
    | _ => []

/-- The bytes sent in a trace. -/
def sentBytes (tr : List Event) : List UInt8 :=
  tr.flatMap fun
    | .sent bytes => bytes
    | _ => []

/-- The bytes that are to be written. -/
def unsent (buf : ℕ) (s : Connection) : List UInt8 :=
  match s.sock.queue .write with
  | [] => []
  | (task, _) :: _ => s.mem.read buf task.size

/-- The length of the operation under way, if there is one. -/
def pendingSize (s : Connection) : ℕ :=
  ((s.sock.queue .read ++ s.sock.queue .write).map fun e => e.1.size).sum

/-- What has been sent and what is to be sent is what has been received, as long as the socket is
open. -/
def Faithful (buf : ℕ) (c : Config Connection Event) : Prop :=
  c.state.sock.closed = false →
    sentBytes c.trace ++ unsent buf c.state = receivedBytes c.trace

/-- A write moves all that it is given, if it moves anything. -/
def Full (c : Config Connection Event) (a : Action) : Prop :=
  ∀ k, a = .doWrite (.accepted k) → ∀ e ∈ (c.state.sock.queue .write).head?, k = e.1.size

/-- A connection has one operation under way, or is closed. -/
def Alternates (buf : ℕ) (s : Connection) : Prop :=
  (∃ n, Reading buf s n ∨ Writing buf s n) ∨ Closed s

variable {c c' : Config Connection Event}

theorem receivedBytes_append (tr es : List Event) :
    receivedBytes (tr ++ es) = receivedBytes tr ++ receivedBytes es := List.flatMap_append

theorem sentBytes_append (tr es : List Event) :
    sentBytes (tr ++ es) = sentBytes tr ++ sentBytes es := List.flatMap_append

/-- While a connection reads, nothing is to be written. -/
theorem Reading.unsent (h : Reading buf s n) : unsent buf s = [] := by
  rw [Echo.unsent, h.write]

/-- While it writes, what is in the buffer is to be written. -/
theorem Writing.unsent (h : Writing buf s n) : unsent buf s = s.mem.read buf n := by
  rw [Echo.unsent, h.write]
  rfl

/-- On a closed connection nothing is to be written. -/
theorem Closed.unsent (h : Closed s) : Echo.unsent buf s = [] := by
  rw [Echo.unsent, h.write]

/-- The beginning of a buffer is the beginning of what is in it. -/
theorem read_prefix (mem : Memory) (buf : ℕ) {k n : ℕ} (h : k ≤ n) :
    mem.read buf k <+: mem.read buf n := by
  have htake : mem.read buf k = (mem.read buf n).take k := by
    rw [Memory.read, Memory.read, ← List.map_take, List.take_range, Nat.min_eq_left h]
  rw [htake]
  exact List.take_prefix ..

/-- A write moves fewer bytes than it was given. -/
def Short (buf : ℕ) (s : Connection) (a : Action) (s' : Connection) (es : List Event) : Prop :=
  ∃ k n, a = .doWrite (.accepted k) ∧ k < n ∧ Writing buf s n ∧ Reading buf s' k ∧
    es = [.sent (s.mem.read buf k)]

/-- A step closes the connection, or loses the end of a write, or only moves bytes on, from what is
received to what is to be sent and from there to what is sent. -/
theorem step_cases (h : Alternates buf s) (hstep : step buf s a = some (s', es)) :
    Alternates buf s' ∧ pendingSize s' ≤ pendingSize s ∧
      ((Closed s' ∧ receivedBytes es = [] ∧ sentBytes es = []) ∨ Short buf s a s' es ∨
        (s'.sock.closed = s.sock.closed ∧
          sentBytes es ++ unsent buf s' = unsent buf s ++ receivedBytes es)) := by
  rcases h with ⟨n, hreading | hwriting⟩ | hclosed
  · have hsize : pendingSize s = n := by simp [pendingSize, hreading.read, hreading.write, Task.new]
    rcases step_reading hreading hstep with
      ⟨bytes, rfl, -, hle, rfl, hwriting, hmem⟩ | ⟨-, ⟨rfl, rfl⟩ | ⟨-, rfl, hclosed⟩⟩
    · have hsize' : pendingSize s' = bytes.length := by
        simp [pendingSize, hwriting.read, hwriting.write, Task.new]
      refine ⟨.inl ⟨_, .inr hwriting⟩, by omega, .inr (.inr ⟨?_, ?_⟩)⟩
      · rw [hwriting.isOpen, hreading.isOpen]
      · rw [hwriting.unsent, hmem, hreading.unsent]
        simp [sentBytes, receivedBytes]
    · exact ⟨.inl ⟨n, .inl hreading⟩, Nat.le_refl _,
        .inr (.inr ⟨rfl, by simp [sentBytes, receivedBytes]⟩)⟩
    · have hsize' : pendingSize s' = 0 := by simp [pendingSize, hclosed.read, hclosed.write]
      exact ⟨.inr hclosed, by omega, .inl ⟨hclosed, rfl, rfl⟩⟩
  · have hsize : pendingSize s = n := by simp [pendingSize, hwriting.read, hwriting.write, Task.new]
    rcases step_writing hwriting hstep with
      ⟨k, rfl, -, hle, rfl, hreading⟩ | ⟨-, ⟨rfl, rfl⟩ | ⟨-, rfl, hclosed⟩⟩
    · have hsize' : pendingSize s' = k := by
        simp [pendingSize, hreading.read, hreading.write, Task.new]
      refine ⟨.inl ⟨k, .inl hreading⟩, by omega, .inr ?_⟩
      rcases Nat.lt_or_eq_of_le hle with hlt | rfl
      · exact .inl ⟨k, n, rfl, hlt, hwriting, hreading, rfl⟩
      · refine .inr ⟨by rw [hreading.isOpen, hwriting.isOpen], ?_⟩
        rw [hreading.unsent, hwriting.unsent]
        simp [sentBytes, receivedBytes]
    · exact ⟨.inl ⟨n, .inr hwriting⟩, Nat.le_refl _,
        .inr (.inr ⟨rfl, by simp [sentBytes, receivedBytes]⟩)⟩
    · have hsize' : pendingSize s' = 0 := by simp [pendingSize, hclosed.read, hclosed.write]
      exact ⟨.inr hclosed, by omega, .inl ⟨hclosed, rfl, rfl⟩⟩
  · obtain ⟨rfl, rfl⟩ := step_closed hclosed hstep
    exact ⟨.inr hclosed, Nat.le_refl _, .inr (.inr ⟨rfl, by simp [sentBytes, receivedBytes]⟩)⟩

/-- Whatever a step does, what has been sent and what is to be sent come from what has been
received, in the same order and nothing twice, if they did before. -/
theorem sublist_step (h : Alternates buf s) (hstep : step buf s a = some (s', es))
    {sent received : List UInt8} (hsub : (sent ++ unsent buf s).Sublist received) :
    (sent ++ sentBytes es ++ unsent buf s').Sublist (received ++ receivedBytes es) := by
  obtain ⟨-, -, hcases⟩ := step_cases h hstep
  rw [List.append_assoc]
  rcases hcases with ⟨hclosed, hreceived, hsent⟩ | ⟨k, n, -, hlt, hwriting, hreading, rfl⟩ |
    ⟨-, hmoved⟩
  · rw [hreceived, hsent, hclosed.unsent, List.nil_append, List.append_nil, List.append_nil]
    exact (List.sublist_append_left ..).trans hsub
  · rw [hreading.unsent, List.append_nil]
    rw [hwriting.unsent] at hsub
    have hprefix := read_prefix s.mem buf (Nat.le_of_lt hlt)
    have hshort : (sent ++ s.mem.read buf k).Sublist received :=
      ((List.Sublist.refl _).append hprefix.sublist).trans hsub
    simpa [sentBytes, receivedBytes] using hshort
  · rw [hmoved, ← List.append_assoc]
    exact hsub.append (List.Sublist.refl _)

/-! ## Runs -/

/-- In every run, what is sent comes from what is received, in the same order and nothing twice, and
no operation asks for more than an earlier one. -/
theorem echo_sublist (fd payloadSize : ℕ) (mem : Memory)
    (h : Reachable (server buf) (accepted buf fd payloadSize mem) c) :
    (sentBytes c.trace).Sublist (receivedBytes c.trace) ∧
      ∀ c', Reachable (server buf) c c' → pendingSize c'.state ≤ pendingSize c.state := by
  have hinv : Alternates buf c.state ∧
      (sentBytes c.trace ++ unsent buf c.state).Sublist (receivedBytes c.trace) := by
    refine h.invariant_step (I := fun s tr => Alternates buf s ∧
      (sentBytes tr ++ unsent buf s).Sublist (receivedBytes tr)) ?_ ?_
    · have hreading := reading_accepted buf fd payloadSize mem
      refine ⟨.inl ⟨_, .inl hreading⟩, ?_⟩
      rw [hreading.unsent]
      exact List.Sublist.refl _
    · rintro s tr a s' es ⟨hshape, hsub⟩ - hstep
      rw [receivedBytes_append, sentBytes_append]
      exact ⟨(step_cases hshape hstep).1, sublist_step hshape hstep hsub⟩
  refine ⟨(List.sublist_append_left ..).trans hinv.2, fun c' h' => ?_⟩
  have hboth : Alternates buf c'.state ∧ pendingSize c'.state ≤ pendingSize c.state := by
    refine h'.invariant_step (I := fun s _ => Alternates buf s ∧
      pendingSize s ≤ pendingSize c.state) ⟨hinv.1, Nat.le_refl _⟩ ?_
    rintro s tr a s' es ⟨hshape, hle⟩ - hstep
    obtain ⟨hshape', hle', -⟩ := step_cases hshape hstep
    exact ⟨hshape', Nat.le_trans hle' hle⟩
  exact hboth.2

/-- `echo_sublist`, where a write moves two bytes of three. -/
theorem echo_sublist_short : ∃ c, run (server 0) (accepted 0 3 4 fun _ => 0)
      [.doRead (.data [1, 2, 3]), .doWrite (.accepted 2)] = some c ∧
    (sentBytes c.trace).Sublist (receivedBytes c.trace) ∧
      ∀ c', Reachable (server 0) c c' → pendingSize c'.state ≤ pendingSize c.state :=
  ⟨_, rfl, echo_sublist 3 4 (fun _ => 0) (reachable_of_run
    (show run _ _ [.doRead (.data [1, 2, 3]), .doWrite (.accepted 2)] = some _ from rfl))⟩

/-- Along a run, as long as the connection is open, what has been sent and what is to be sent is
what has been received, if and only if every write moves all that it is given. -/
theorem echo_iff (buf fd payloadSize : ℕ) (mem : Memory) (as : List Action) :
    Always (server buf) (Faithful buf) (accepted buf fd payloadSize mem) as ↔
      Steps (server buf) Full (accepted buf fd payloadSize mem) as := by
  have hreading := reading_accepted buf fd payloadSize mem
  refine always_iff_steps (I := fun c => Alternates buf c.state) ?_ ?_
    (.inl ⟨_, .inl hreading⟩) ?_
  · intro c a c' hshape hfaithful hfull hn
    obtain ⟨s', es, hstep, rfl⟩ := next_eq_some _ hn
    obtain ⟨hshape', -, hcases⟩ := step_cases hshape hstep
    refine ⟨hshape', fun hopen => ?_⟩
    rcases hcases with ⟨hclosed, -, -⟩ | ⟨k, n, rfl, hlt, hwriting, -, -⟩ | ⟨hsame, hmoved⟩
    · exact absurd (hclosed.isClosed.symm.trans hopen) Bool.noConfusion
    · have hall := hfull k rfl (Task.new buf n .TRY, .write) (by rw [hwriting.write]; rfl)
      exact absurd hall (Nat.ne_of_lt hlt)
    · rw [sentBytes_append, receivedBytes_append, List.append_assoc, hmoved, ← List.append_assoc,
        hfaithful (hsame ▸ hopen)]
  · intro c a c' hshape hfaithful hfull hn hfaithful'
    obtain ⟨s', es, hmachine, rfl⟩ := next_eq_some _ hn
    have hstep : step buf c.state a = some (s', es) := hmachine
    rw [Full] at hfull
    push Not at hfull
    obtain ⟨k, rfl, e, he, hne⟩ := hfull
    rcases hshape with ⟨n, hreading | hwriting⟩ | hclosed
    · simp [hreading.write] at he
    · rw [hwriting.write] at he
      obtain rfl := Option.some.inj he
      rcases step_writing hwriting hstep with ⟨j, hj, -, -, rfl, hreading⟩ | ⟨hnot, -⟩
      · cases hj
        -- The bytes that are lost are missing in what has been sent.
        have hbefore := congrArg List.length (hfaithful hwriting.isOpen)
        have hafter := congrArg List.length (hfaithful' hreading.isOpen)
        rw [hreading.unsent, sentBytes_append, receivedBytes_append] at hafter
        rw [hwriting.unsent] at hbefore
        simp only [sentBytes, receivedBytes, List.flatMap_cons, List.flatMap_nil,
          List.append_nil, List.length_append, Stream.Memory.length_read] at hafter hbefore
        exact hne (by simp only [Task.new]; omega)
      · exact hnot k rfl
    · simp [hclosed.write] at he
  · intro _
    rw [hreading.unsent]
    rfl

end Spinet.Echo
