import Mathlib.Data.List.Nodup
import Mathlib.Order.Basic
import Spinet.Core.Stream

/-!
# The ledger of a byte stream

What a reader of the stream relies on, as `Ledger`: the bytes moved are those of the completed
operations, in the order of their submission, followed by what has been moved for the operation at
the front; each transfer starts right behind what the operation has had before; and an operation
that asks for its whole buffer is reported as done only with all of it.

A task is copied out of its queue to run, and the copy is dropped if the operation is not over, so
its position is lost: an operation that was given a part of what it asked for starts again at its
first byte. `ledger_always_iff` says what follows from that. The ledger holds along a run exactly
when no operation that already has some of its bytes is served again, other than to meet `EAGAIN`
(`Unresumed`). The reading and the writing side are its two instances.
-/

namespace Spinet.Stream

open Transition

variable {O : Type} {K : Kernel O} {d : Dir}

/-- What has been moved for the operation at the front of the queue, at the start of its buffer. -/
def pendingBytes (d : Dir) (c : Config State Event) : List UInt8 :=
  match c.state.sock.queue d with
  | [] => []
  | (task, op) :: _ => c.state.mem.read task.buf (movedFor op c.trace)

/-- The first `n` bytes of the buffer of the operation at the front of the queue, if any. -/
def frontBytes (d : Dir) (c : Config State Event) (n : ℕ) : List UInt8 :=
  match c.state.sock.queue d with
  | [] => []
  | (task, _) :: _ => c.state.mem.read task.buf n

/-- What an event may say after the events before it. A transfer starts behind the bytes that the
operation has already had. An operation that is to fill or empty its whole buffer is reported as
done only with the size it asked for, when that many bytes have been moved for it. -/
def Proper (past : List Event) : Event → Prop
  | .submitted _ => True
  | .moved op task addr _ => addr = task.buf + movedFor op past
  | .completed op task res size _ => res.isOk = true → task.strategy = .UNTIL_FINISHED →
    size = task.size ∧ movedFor op past = task.size

/-- No byte of the stream is lost, duplicated, overwritten, or reordered, and completions are
honest. -/
structure Ledger (d : Dir) (c : Config State Event) : Prop where
  /-- The bytes moved are those of the completed operations, then those of the one at the front. -/
  bytes : bytesMoved c.trace = bytesCompleted c.trace ++ pendingBytes d c
  /-- Every event is proper. -/
  proper : Allowed Proper c.trace
  /-- Operations complete in the order of their submission. -/
  order : completions c.trace ++ (c.state.sock.queue d).map Prod.snd = submissions c.trace

/-- The condition on a step: if it serves an operation that already has some of its bytes, the
system call gives `EAGAIN`. -/
def Unresumed (K : Kernel O) (d : Dir) (c : Config State Event) : Action O → Prop
  | .serve out => ∀ task op rest, c.state.sock.queue d = (task, op) :: rest →
    movedFor op c.trace = 0 ∨ K.again out = true
  | _ => True

/-- What holds beside the ledger: the socket is open, every task in the queue is as it was
submitted, operations are named in order, and only the one at the front has had any bytes. -/
structure Inv (d : Dir) (c : Config State Event) : Prop where
  /-- The socket is open. -/
  isOpen : c.state.sock.closed = false
  /-- No task in the queue has made any progress. -/
  fresh : ∀ e ∈ c.state.sock.queue d, e.1.Fresh
  /-- The operations in the queue were submitted. -/
  below : ∀ e ∈ c.state.sock.queue d, e.2 < c.state.nextOp
  /-- The operations in the queue are distinct. -/
  nodup : ((c.state.sock.queue d).map Prod.snd).Nodup
  /-- An operation behind the front has had no bytes. -/
  behind : ∀ e ∈ (c.state.sock.queue d).tail, movedFor e.2 c.trace = 0
  /-- An operation that is not yet submitted has had no bytes. -/
  ahead : ∀ op, c.state.nextOp ≤ op → movedFor op c.trace = 0
  /-- The operation at the front has had at most what it asked for. -/
  room : ∀ e ∈ (c.state.sock.queue d).head?, movedFor e.2 c.trace ≤ e.1.size

/-- An empty queue has no front. -/
theorem frontBytes_nil {c : Config State Event} (h : c.state.sock.queue d = []) (n : ℕ) :
    frontBytes d c n = [] := by
  simp [frontBytes, h]

/-- An empty queue has nothing pending. -/
theorem pendingBytes_nil {c : Config State Event} (h : c.state.sock.queue d = []) :
    pendingBytes d c = [] := by
  simp [pendingBytes, h]

/-- What is pending, for a queue with a front. -/
theorem pendingBytes_cons {c : Config State Event} {task : Task} {op : OpId}
    {rest : List (Task × OpId)} (h : c.state.sock.queue d = (task, op) :: rest) :
    pendingBytes d c = c.state.mem.read task.buf (movedFor op c.trace) := by
  simp [pendingBytes, h]

/-- If the operation at the front, if any, has had no bytes, nothing is pending. -/
theorem pendingBytes_eq_nil {c : Config State Event}
    (h : ∀ e ∈ (c.state.sock.queue d).head?, movedFor e.2 c.trace = 0) : pendingBytes d c = [] := by
  rcases hq : c.state.sock.queue d with _ | ⟨⟨task, op⟩, rest⟩
  · exact pendingBytes_nil hq
  · rw [pendingBytes_cons hq, h (task, op) (by simp [hq]), Memory.read_zero]

/-- A new socket. -/
theorem inv_init (fd : ℕ) (mem : Memory) : Inv d (init fd mem) := by
  constructor <;> simp [init, TcpSocket.new]

/-- Nothing has been moved on a new socket. -/
theorem ledger_init (fd : ℕ) (mem : Memory) : Ledger d (init fd mem) where
  bytes := by simp [init, TcpSocket.new, pendingBytes]
  proper := trivial
  order := by simp [init, TcpSocket.new]

/-! ## Submissions and the user's writes -/

/-- A submission keeps the invariant and the ledger: the new operation is the last of the queue and
has had no bytes. -/
theorem submit_keeps {c : Config State Event} (hI : Inv d c) (hL : Ledger d c) (buf size : ℕ)
    (strategy : TaskStrategy) :
    let c' : Config State Event :=
      ⟨{ c.state with
          sock := (c.state.sock.submit d buf size strategy c.state.nextOp).2
          nextOp := c.state.nextOp + 1 }, c.trace ++ [.submitted c.state.nextOp]⟩
    Inv d c' ∧ Ledger d c' := by
  intro c'
  have hmoved : ∀ op, movedFor op c'.trace = movedFor op c.trace := by
    intro op
    simp [c']
  have hq : c'.state.sock.queue d
      = c.state.sock.queue d ++ [(Task.new buf size strategy, c.state.nextOp)] := by
    simp [c', TcpSocket.submit_open hI.isOpen]
  have hnew : movedFor c.state.nextOp c.trace = 0 := hI.ahead _ (Nat.le_refl _)
  have hinv : Inv d c' := by
    constructor
    case isOpen => simp [c', TcpSocket.submit_open hI.isOpen, hI.isOpen]
    case fresh =>
      rw [hq]
      intro e he
      rcases List.mem_append.1 he with he | he
      · exact hI.fresh e he
      · rw [List.mem_singleton.1 he]; exact Task.new_fresh _ _ _
    case below =>
      rw [hq]
      intro e he
      change e.2 < c.state.nextOp + 1
      rcases List.mem_append.1 he with he | he
      · exact Nat.lt_succ_of_lt (hI.below e he)
      · rw [List.mem_singleton.1 he]; exact Nat.lt_succ_self _
    case nodup =>
      rw [hq, List.map_append, List.map_singleton, List.nodup_append]
      refine ⟨hI.nodup, List.nodup_singleton _, ?_⟩
      intro op hop op' hop'
      obtain ⟨e, he, rfl⟩ := List.mem_map.1 hop
      rw [List.mem_singleton.1 hop']
      exact Nat.ne_of_lt (hI.below e he)
    case behind =>
      rw [hq]
      intro e he
      rw [hmoved]
      -- The new operation is behind the front, unless the queue was empty.
      rcases hqs : c.state.sock.queue d with _ | ⟨front, rest⟩
      · simp [hqs] at he
      · rw [hqs, List.cons_append, List.tail_cons] at he
        rcases List.mem_append.1 he with he | he
        · exact hI.behind e (by rw [hqs]; exact he)
        · rw [List.mem_singleton.1 he]; exact hnew
    case ahead =>
      intro op hop
      rw [hmoved]
      exact hI.ahead op (Nat.le_of_succ_le hop)
    case room =>
      rw [hq]
      intro e he
      rw [hmoved]
      rcases hqs : c.state.sock.queue d with _ | ⟨front, rest⟩
      · rw [hqs] at he
        simp only [List.nil_append, List.head?_cons, Option.mem_def, Option.some.injEq] at he
        rw [← he, hnew]
        exact Nat.zero_le _
      · rw [hqs] at he
        exact hI.room e (by rw [hqs]; exact he)
  refine ⟨hinv, ?_, ?_, ?_⟩
  · have hpend : pendingBytes d c' = pendingBytes d c := by
      rcases hqs : c.state.sock.queue d with _ | ⟨⟨task, op⟩, rest⟩
      · rw [pendingBytes_nil hqs]
        refine pendingBytes_eq_nil fun e he => ?_
        rw [hq, hqs] at he
        simp only [List.nil_append, List.head?_cons, Option.mem_def, Option.some.injEq] at he
        rw [hmoved, ← he]
        exact hnew
      · rw [pendingBytes_cons hqs, pendingBytes_cons (by rw [hq, hqs]; rfl), hmoved]
    have hb := hL.bytes
    rw [hpend]
    simpa [c'] using hb
  · exact allowed_append.2 ⟨hL.proper, trivial, trivial⟩
  · rw [hq]
    simp [c', ← hL.order]

/-- A write by the user outside the pending buffers keeps the invariant and the ledger. -/
theorem userWrite_keeps {c : Config State Event} (hI : Inv d c) (hL : Ledger d c) {addr : ℕ}
    (byte : UInt8) (h : pending d c.state addr = false) :
    let c' : Config State Event :=
      ⟨{ c.state with mem := c.state.mem.write addr [byte] }, c.trace ++ []⟩
    Inv d c' ∧ Ledger d c' := by
  intro c'
  have htr : c'.trace = c.trace := List.append_nil _
  have hpend : pendingBytes d c' = pendingBytes d c := by
    rcases hqs : c.state.sock.queue d with _ | ⟨⟨task, op⟩, rest⟩
    · rw [pendingBytes_nil hqs, pendingBytes_nil (d := d) (c := c') hqs]
    · rw [pendingBytes_cons hqs, pendingBytes_cons (d := d) (c := c') hqs, htr]
      apply Memory.read_write_outside
      have hroom := hI.room (task, op) (by simp [hqs])
      have hout : ¬ (task.buf ≤ addr ∧ addr < task.buf + task.size) := by
        simpa only [decide_eq_true_eq] using List.any_eq_false.1 h (task, op) (by simp [hqs])
      dsimp only at hroom
      omega
  refine ⟨⟨hI.isOpen, hI.fresh, hI.below, hI.nodup, ?_, ?_, ?_⟩, ?_, ?_, ?_⟩
  · rw [htr]; exact hI.behind
  · rw [htr]; exact hI.ahead
  · rw [htr]; exact hI.room
  · rw [hpend, htr]; exact hL.bytes
  · rw [htr]; exact hL.proper
  · rw [htr]; exact hL.order

/-! ## Serving -/

/-- The trace of a step that ends the front operation: the operations behind it, and those to come,
have had no bytes still. -/
theorem movedFor_tail {c : Config State Event} {task : Task} {op : OpId} {rest : List (Task × OpId)}
    (hI : Inv d c) (hq : c.state.sock.queue d = (task, op) :: rest) {es : List Event}
    (hes : ∀ op', op' ≠ op → movedFor op' es = 0) :
    (∀ e ∈ rest, movedFor e.2 (c.trace ++ es) = 0) ∧
      ∀ op', c.state.nextOp ≤ op' → movedFor op' (c.trace ++ es) = 0 := by
  have hnodup := hI.nodup
  rw [hq, List.map_cons, List.nodup_cons] at hnodup
  constructor
  · intro e he
    have hne : e.2 ≠ op := fun h => hnodup.1 (List.mem_map.2 ⟨e, he, h⟩)
    rw [movedFor_append, hes _ hne, hI.behind e (by rw [hq]; exact he)]
  · intro op' hop'
    have hlt : op < c.state.nextOp := hI.below (task, op) (by simp [hq])
    have hne : op' ≠ op := Nat.ne_of_gt (Nat.lt_of_lt_of_le hlt hop')
    rw [movedFor_append, hes _ hne, hI.ahead _ hop']

/-- The invariant after a step that ends the front operation. -/
theorem inv_pop {c : Config State Event} {task : Task} {op : OpId} {rest : List (Task × OpId)}
    (hI : Inv d c) (hq : c.state.sock.queue d = (task, op) :: rest) (mem : Memory) {es : List Event}
    (hes : ∀ op', op' ≠ op → movedFor op' es = 0) :
    Inv d ⟨{ c.state with sock := c.state.sock.setQueue d rest, mem := mem }, c.trace ++ es⟩ := by
  obtain ⟨hrest, hahead⟩ := movedFor_tail hI hq hes
  have hmem : ∀ e ∈ rest, e ∈ c.state.sock.queue d := fun e he => by rw [hq]; exact .tail _ he
  have hnodup := hI.nodup
  rw [hq, List.map_cons, List.nodup_cons] at hnodup
  refine ⟨hI.isOpen, ?_, ?_, ?_, ?_, hahead, ?_⟩ <;>
    simp only [TcpSocket.setQueue_queue_self]
  · exact fun e he => hI.fresh e (hmem e he)
  · exact fun e he => hI.below e (hmem e he)
  · exact hnodup.2
  · exact fun e he => hrest e (List.mem_of_mem_tail he)
  · intro e he
    rw [hrest e (List.mem_of_mem_head? he)]
    exact Nat.zero_le _

/-- Nothing is pending after a step that ends the front operation. -/
theorem pendingBytes_pop {c : Config State Event} {task : Task} {op : OpId}
    {rest : List (Task × OpId)} (hI : Inv d c) (hq : c.state.sock.queue d = (task, op) :: rest)
    (mem : Memory) {es : List Event} (hes : ∀ op', op' ≠ op → movedFor op' es = 0) :
    pendingBytes d ⟨{ c.state with sock := c.state.sock.setQueue d rest, mem := mem },
      c.trace ++ es⟩ = [] := by
  refine pendingBytes_eq_nil fun e he => ?_
  rw [TcpSocket.setQueue_queue_self] at he
  exact (movedFor_tail hI hq hes).1 e (List.mem_of_mem_head? he)

/-- A turn under the condition keeps the invariant and the ledger. -/
theorem turn_keeps {c : Config State Event} {again : Bool} {s' : State} {es : List Event}
    (hI : Inv d c) (hL : Ledger d c)
    (hC : ∀ task op rest, c.state.sock.queue d = (task, op) :: rest →
      movedFor op c.trace = 0 ∨ again = true)
    (h : Turn d c.state again s' es) :
    Inv d ⟨s', c.trace ++ es⟩ ∧ Ledger d ⟨s', c.trace ++ es⟩ := by
  cases h with
  | idle hq => rw [List.append_nil]; exact ⟨hI, hL⟩
  | again hq hagain => rw [List.append_nil]; exact ⟨hI, hL⟩
  | @failed task op rest e hq hagain =>
    -- The operation has had no bytes, so none is lost when its error is reported with size 0.
    have hzero : movedFor op c.trace = 0 := by simpa [hagain] using hC task op rest hq
    have hes : ∀ op', op' ≠ op →
        movedFor op' [Event.completed op task (.systemError e) 0 []] = 0 := fun _ _ => rfl
    refine ⟨inv_pop hI hq c.state.mem hes, ?_, ?_, ?_⟩
    · rw [pendingBytes_pop hI hq c.state.mem hes]
      have hb := hL.bytes
      rw [pendingBytes_cons hq, hzero, Memory.read_zero] at hb
      simpa using hb
    · exact allowed_append.2 ⟨hL.proper, fun hok => by simp at hok, trivial⟩
    · have ho := hL.order
      rw [hq] at ho
      simpa using ho
  | @short task op rest bs mem hq hagain hne hlt hread =>
    have hzero : movedFor op c.trace = 0 := by simpa [hagain] using hC task op rest hq
    have hes : ∀ op', op' ≠ op → movedFor op' [Event.moved op task task.buf bs] = 0 := by
      intro op' hop'
      simp [hop'.symm]
    obtain ⟨hrest, hahead⟩ := movedFor_tail hI hq hes
    -- The task in the queue is unchanged, so it is the trace that says how far the operation got.
    have hself : movedFor op (c.trace ++ [Event.moved op task task.buf bs]) = bs.length := by
      simp [hzero]
    refine ⟨⟨hI.isOpen, hI.fresh, hI.below, hI.nodup, ?_, hahead, ?_⟩, ?_, ?_, ?_⟩
    · dsimp only
      rw [hq]
      exact hrest
    · dsimp only
      rw [hq]
      intro e he
      simp only [List.head?_cons, Option.mem_def, Option.some.injEq] at he
      rw [← he, hself]
      exact Nat.le_of_lt hlt
    · have hb := hL.bytes
      rw [pendingBytes_cons hq, hzero, Memory.read_zero, List.append_nil] at hb
      rw [pendingBytes_cons (c := ⟨{ c.state with mem := mem }, _⟩) hq, hself, hread]
      simp [hb]
    · exact allowed_append.2 ⟨hL.proper, by simp [Proper, hzero], trivial⟩
    · have ho := hL.order
      simpa using ho
  | @finished task op rest bs mem hq hagain hne hle hwhole hread =>
    have hzero : movedFor op c.trace = 0 := by simpa [hagain] using hC task op rest hq
    have hes : ∀ op', op' ≠ op → movedFor op'
        [Event.moved op task task.buf bs, .completed op task .ok bs.length bs] = 0 := by
      intro op' hop'
      simp [hop'.symm]
    refine ⟨inv_pop hI hq mem hes, ?_, ?_, ?_⟩
    · have hb := hL.bytes
      rw [pendingBytes_cons hq, hzero, Memory.read_zero, List.append_nil] at hb
      rw [pendingBytes_pop hI hq mem hes]
      simp [hb]
    · refine allowed_append.2 ⟨hL.proper, by simp [Proper, hzero], fun _ hs => ?_, trivial⟩
      simp [hzero, hwhole hs]
    · have ho := hL.order
      rw [hq] at ho
      simpa using ho

/-- A turn against the condition breaks the ledger: either it starts the operation's transfer again
at the first byte, or it reports none of the bytes that the operation has had. -/
theorem turn_breaks {c : Config State Event} {again : Bool} {s' : State} {es : List Event}
    (hI : Inv d c) (hL : Ledger d c) {task : Task} {op : OpId} {rest : List (Task × OpId)}
    (hq : c.state.sock.queue d = (task, op) :: rest) (hmoved : movedFor op c.trace ≠ 0)
    (hagain : again = false) (h : Turn d c.state again s' es) : ¬ Ledger d ⟨s', c.trace ++ es⟩ := by
  intro hL'
  cases h with
  | idle hq' => simp [hq] at hq'
  | again hq' hagain' => simp [hagain] at hagain'
  | @failed task' op' rest' e hq' _ =>
    rw [hq, List.cons.injEq, Prod.mk.injEq] at hq'
    obtain ⟨⟨rfl, rfl⟩, rfl⟩ := hq'
    -- The bytes that were pending are gone from the books, while none has been moved.
    have hb := hL.bytes
    have hb' := hL'.bytes
    rw [pendingBytes_cons hq] at hb
    rw [pendingBytes_pop hI hq c.state.mem (fun _ _ => rfl)] at hb'
    have hlen := congrArg List.length hb
    have hlen' := congrArg List.length hb'
    simp at hlen hlen'
    omega
  | @short task' op' rest' bs mem hq' _ hne hlt hread =>
    rw [hq, List.cons.injEq, Prod.mk.injEq] at hq'
    obtain ⟨⟨rfl, rfl⟩, rfl⟩ := hq'
    -- The transfer starts at the first byte of the buffer, and not behind what was moved before.
    have hp := (allowed_append.1 hL'.proper).2.1
    simp only [Proper] at hp
    omega
  | @finished task' op' rest' bs mem hq' _ hne hle hwhole hread =>
    rw [hq, List.cons.injEq, Prod.mk.injEq] at hq'
    obtain ⟨⟨rfl, rfl⟩, rfl⟩ := hq'
    have hp := (allowed_append.1 hL'.proper).2.1
    simp only [Proper] at hp
    omega

/-- The ledger holds along a run of one side of a socket exactly when every step of the run meets
the condition: no operation that already has some of its bytes is served again, unless the system
call gives `EAGAIN`. -/
theorem ledger_always_iff (K : Kernel O) (d : Dir) (fd : ℕ) (mem : Memory) (as : List (Action O)) :
    Always (machine K d) (Ledger d) (init fd mem) as ↔
      Steps (machine K d) (Unresumed K d) (init fd mem) as := by
  refine always_iff_steps (I := Inv d) ?_ ?_ (inv_init fd mem) (ledger_init fd mem)
  · intro c a c' hI hL hC hn
    obtain ⟨s', es, hs, rfl⟩ := next_eq_some _ hn
    cases a with
    | submit buf size strategy =>
      simp only [machine, step, TcpSocket.submit_open hI.isOpen, if_true, Option.some.injEq,
        Prod.mk.injEq] at hs
      obtain ⟨rfl, rfl⟩ := hs
      simpa only [TcpSocket.submit_open hI.isOpen] using submit_keeps hI hL buf size strategy
    | userWrite addr byte =>
      simp only [machine, step] at hs
      split at hs
      case isTrue => simp at hs
      rename_i hpend
      simp only [Option.some.injEq, Prod.mk.injEq] at hs
      obtain ⟨rfl, rfl⟩ := hs
      exact userWrite_keeps hI hL byte (by simpa using hpend)
    | serve out => exact turn_keeps hI hL hC (step_serve hI.isOpen hI.fresh hs)
  · intro c a c' hI hL hC hn
    obtain ⟨s', es, hs, rfl⟩ := next_eq_some _ hn
    cases a with
    | submit => exact absurd trivial hC
    | userWrite => exact absurd trivial hC
    | serve out =>
      simp only [Unresumed, not_forall, not_or] at hC
      obtain ⟨task, op, rest, hq, hmoved, hagain⟩ := hC
      exact turn_breaks hI hL hq hmoved (by simpa using hagain)
        (step_serve hI.isOpen hI.fresh hs)

/-! ## Reading and writing -/

/-- The reading side. Along a run of `async_read`, `async_read_some`, and `do_read`, the bytes of
the completed operations and those received for the one at the front are always what `recv` has
consumed, and so on (`Ledger`), exactly when an `async_read` that was read short is read again only
to meet `EAGAIN`. -/
theorem readStream_always_iff (fd : ℕ) (mem : Memory) (as : List (Action RecvOutcome)) :
    Always (machine recvKernel .read) (Ledger .read) (init fd mem) as ↔
      Steps (machine recvKernel .read) (Unresumed recvKernel .read) (init fd mem) as :=
  ledger_always_iff recvKernel .read fd mem as

/-- An `async_read` of four bytes that `recv` serves with two, and then with four, is reported as
done with the last four: the first two are lost, however many bytes are counted as pending. -/
theorem readStream_loses_bytes :
    ∃ c, run (machine recvKernel .read) (init 3 fun _ => 0)
        [.submit 100 4 .UNTIL_FINISHED, .serve (.data [1, 2]), .serve (.data [3, 4, 5, 6])]
          = some c ∧
      bytesMoved c.trace = [1, 2, 3, 4, 5, 6] ∧ bytesCompleted c.trace = [3, 4, 5, 6] ∧
      ¬ ∃ n, bytesMoved c.trace = bytesCompleted c.trace ++ frontBytes .read c n := by
  refine ⟨_, rfl, by decide, by decide, ?_⟩
  rintro ⟨n, h⟩
  rw [frontBytes_nil rfl, List.append_nil] at h
  exact absurd h (by decide)

/-- The writing side. Along a run of `async_write`, `async_write_some`, and `do_write`, what the
kernel has accepted is always the bytes of the completed operations in the order of their
submission, followed by the accepted ones of the operation at the front, and so on (`Ledger`),
exactly when an `async_write` that was sent short is sent again only to meet `EAGAIN`. -/
theorem writeStream_always_iff (fd : ℕ) (mem : Memory) (as : List (Action SendOutcome)) :
    Always (machine sendKernel .write) (Ledger .write) (init fd mem) as ↔
      Steps (machine sendKernel .write) (Unresumed sendKernel .write) (init fd mem) as :=
  ledger_always_iff sendKernel .write fd mem as

/-- An `async_write` of four bytes of which `send` accepts two, and then all four, is reported as
done, and its first two bytes were sent twice, however many bytes are counted as pending. -/
theorem writeStream_repeats_bytes :
    ∃ c, run (machine sendKernel .write) (init 3 fun a => UInt8.ofNat (a - 99))
        [.submit 100 4 .UNTIL_FINISHED, .serve (.accepted 2), .serve (.accepted 4)] = some c ∧
      bytesMoved c.trace = [1, 2, 1, 2, 3, 4] ∧ bytesCompleted c.trace = [1, 2, 3, 4] ∧
      ¬ ∃ n, bytesMoved c.trace = bytesCompleted c.trace ++ frontBytes .write c n := by
  refine ⟨_, rfl, by decide, by decide, ?_⟩
  rintro ⟨n, h⟩
  rw [frontBytes_nil rfl, List.append_nil] at h
  exact absurd h (by decide)

end Spinet.Stream
