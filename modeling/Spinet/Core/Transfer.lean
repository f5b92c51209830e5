import Spinet.Core.Ledger
import Spinet.Library.Projection

/-!
# Two sockets and the stream between them

A connection has a socket at either end. Here one of them writes and the other one reads: what
`::send` accepts is on its way until `::recv` gives it, in the order in which it was sent and in any
pieces. Either end is the machine of `Spinet.Core.Stream`, with any submissions, and the environment
interleaves the two.

What the callbacks of the receiver are given is then what those of the sender were told, less what
is on its way: `delivered` says so of the runs in which no operation that was served short is served
again, and `delivered_some` of all runs in which both ends use the `_some` operations only. -/

namespace Spinet.Transfer

open Transition
open Spinet.Stream hiding Event Action step init Unresumed

/-! ## One side that uses the `_some` operations -/

section Side

variable {O : Type} {K : Kernel O} {d : Dir} {c c' : Config State Stream.Event}

/-- An action that submits, if it does, a `_some` operation. -/
def OnlySome : Stream.Action O → Prop
  | .submit _ _ strategy => strategy = .TRY
  | _ => True

/-- Every operation in the queue is a `_some` operation that has had no bytes. -/
structure Untouched (d : Dir) (c : Config State Stream.Event) : Prop where
  /-- What is known of every run that meets the ledger's condition. -/
  inv : Inv d c
  /-- The ledger. -/
  ledger : Ledger d c
  /-- The operations try once. -/
  tries : ∀ e ∈ c.state.sock.queue d, e.1.strategy = .TRY
  /-- They have had no bytes. -/
  unmoved : ∀ e ∈ c.state.sock.queue d, movedFor e.2 c.trace = 0

/-- A `_some` operation that is served, and does not meet `EAGAIN`, leaves its queue. -/
theorem queue_serve_try {s s' : State} {out : O} {es : List Stream.Event} {task : Task} {op : OpId}
    {rest : List (Task × OpId)} (hopen : s.sock.closed = false)
    (hq : s.sock.queue d = (task, op) :: rest) (hfresh : task.Fresh)
    (htry : task.strategy = .TRY) (hagain : K.again out = false)
    (h : Stream.step K d s (.serve out) = some (s', es)) : s'.sock.queue d = rest := by
  simp only [Stream.step, hq, hfresh.2, Nat.sub_zero, TcpSocket.serve_fresh hopen hq hfresh] at h
  split at h
  case isFalse => cases h
  rename_i hfits
  simp only [Option.some.injEq, Prod.mk.injEq] at h
  obtain ⟨rfl, -⟩ := h
  rcases K.io_other out ⟨s.sock.fd, task.buf, task.size⟩ ⟨s.mem, []⟩ hfits hagain with
    ⟨e, he, hio⟩ | hio | ⟨n, bs, mem, hlen, hle, hread, hio⟩
  · simp only [hio, if_neg he, TcpSocket.setQueue_queue_self]
  · simp only [hio, TcpSocket.setQueue_queue_self]
  · simp only [hio, htry, true_or, if_true, TcpSocket.setQueue_queue_self]

/-- A turn of such a side meets the ledger's condition. -/
theorem Untouched.unresumed_front {again : Bool} (h : Untouched d c) (task : Task) (op : OpId)
    (rest : List (Task × OpId)) (hq : c.state.sock.queue d = (task, op) :: rest) :
    movedFor op c.trace = 0 ∨ again = true :=
  .inl (h.unmoved (task, op) (by rw [hq]; exact List.mem_cons_self))

/-- A turn leaves the queue alone, or serves the operation at the front and moves bytes for no
other. -/
theorem queue_of_turn {again : Bool} {s' : State} {es : List Stream.Event}
    (h : Turn d c.state again s' es) :
    (s'.sock.queue d = c.state.sock.queue d ∧ es = []) ∨
      ∃ e rest, c.state.sock.queue d = e :: rest ∧ again = false ∧
        ∀ op, op ≠ e.2 → movedFor op es = 0 := by
  cases h with
  | idle hq => exact .inl ⟨rfl, rfl⟩
  | again hq hagain => exact .inl ⟨rfl, rfl⟩
  | failed e hq hagain => exact .inr ⟨_, _, hq, hagain, fun _ _ => rfl⟩
  | short bs mem hq hagain =>
    exact .inr ⟨_, _, hq, hagain, fun op' hop' => by simp [hop'.symm]⟩
  | finished bs mem hq hagain =>
    exact .inr ⟨_, _, hq, hagain, fun op' hop' => by simp [hop'.symm]⟩

/-- A step of such a side. -/
theorem Untouched.next {a : Stream.Action O} (h : Untouched d c) (ha : OnlySome a)
    (hn : next (machine K d) c a = some c') : Untouched d c' := by
  obtain ⟨s', es, hs, rfl⟩ := next_eq_some _ hn
  rcases step_cases h.inv.isOpen h.inv.fresh hs with
    ⟨buf, size, strategy, rfl, rfl, rfl⟩ | ⟨addr, byte, -, hpending, rfl, rfl⟩ | ⟨out, rfl, hturn⟩
  · obtain rfl : strategy = .TRY := ha
    obtain ⟨hinv, hledger⟩ := submit_keeps h.inv h.ledger buf size .TRY
    simp only [TcpSocket.submit_open h.inv.isOpen] at hinv hledger
    refine ⟨hinv, hledger, ?_, ?_⟩ <;> intro e he <;>
      rw [TcpSocket.setQueue_queue_self, List.mem_append, List.mem_singleton] at he
    · rcases he with he | rfl
      · exact h.tries e he
      · rfl
    · rw [movedFor_append]
      rcases he with he | rfl
      · rw [h.unmoved e he]
        rfl
      · rw [h.inv.ahead _ (Nat.le_refl _)]
        rfl
  · obtain ⟨hinv, hledger⟩ := userWrite_keeps h.inv h.ledger byte hpending
    refine ⟨hinv, hledger, h.tries, fun e he => ?_⟩
    rw [List.append_nil]
    exact h.unmoved e he
  · obtain ⟨hinv, hledger⟩ := turn_keeps h.inv h.ledger h.unresumed_front hturn
    rcases queue_of_turn hturn with ⟨hq, rfl⟩ | ⟨⟨task, op⟩, rest, hq, hagain, hmoved⟩
    · refine ⟨hinv, hledger, ?_, ?_⟩ <;> intro e he <;> rw [hq] at he
      · exact h.tries e he
      · rw [List.append_nil]
        exact h.unmoved e he
    · -- The front was served and has left, and nothing has been moved for the others.
      have hfront : (task, op) ∈ c.state.sock.queue d := by rw [hq]; exact List.mem_cons_self
      have hrest : s'.sock.queue d = rest :=
        queue_serve_try h.inv.isOpen hq (h.inv.fresh _ hfront) (h.tries _ hfront) hagain hs
      have hnodup := h.inv.nodup
      rw [hq, List.map_cons, List.nodup_cons] at hnodup
      refine ⟨hinv, hledger, ?_, ?_⟩ <;> intro e he <;> rw [hrest] at he
      · exact h.tries e (by rw [hq]; exact List.mem_cons_of_mem _ he)
      · have hne : e.2 ≠ op := fun heq => hnodup.1 (List.mem_map.2 ⟨e, he, heq⟩)
        rw [movedFor_append, hmoved e.2 hne,
          h.unmoved e (by rw [hq]; exact List.mem_cons_of_mem _ he)]

/-- A new socket. -/
theorem untouched_init (fd : ℕ) (mem : Memory) : Untouched d (Stream.init fd mem) where
  inv := inv_init fd mem
  ledger := ledger_init fd mem
  tries := by simp [Stream.init, TcpSocket.new]
  unmoved := by simp [Stream.init, TcpSocket.new]

/-- A side that uses the `_some` operations only hands over all bytes that it moves. -/
theorem bytesCompleted_of_some {fd : ℕ} {mem : Memory} {as : List (Stream.Action O)}
    (hsome : ∀ a ∈ as, OnlySome a) (hrun : run (machine K d) (Stream.init fd mem) as = some c) :
    bytesMoved c.trace = bytesCompleted c.trace := by
  have h : Untouched d c := by
    refine run_invariant (I := fun as c => (∀ a ∈ as, OnlySome a) → Untouched d c)
      (fun _ => untouched_init fd mem) ?_ hrun hsome
    intro as c a c' _ hc hn hall
    rw [List.forall_mem_append, List.forall_mem_singleton] at hall
    exact (hc hall.1).next hall.2 hn
  have hpending : pendingBytes d c = [] :=
    pendingBytes_eq_nil fun e he => h.unmoved e (List.mem_of_mem_head? he)
  rw [h.ledger.bytes, hpending, List.append_nil]

end Side

/-! ## The two ends -/

/-- A connection, in one direction. -/
structure Link where
  /-- The end that writes. -/
  sender : State
  /-- The bytes on their way. -/
  way : List UInt8
  /-- The end that reads. -/
  receiver : State

/-- What happens at an end. -/
inductive Action where
  /-- At the end that writes. -/
  | sender (a : Stream.Action SendOutcome)
  /-- At the end that reads. -/
  | receiver (a : Stream.Action RecvOutcome)

/-- What can be seen of a connection. -/
inductive Event where
  /-- At the end that writes. -/
  | sender (e : Stream.Event)
  /-- At the end that reads. -/
  | receiver (e : Stream.Event)

/-- A step at one of the ends. `::recv` gives the bytes that have been on their way the longest. -/
def step (l : Link) : Action → Option (Link × List Event)
  | .sender a =>
    match Stream.step sendKernel .write l.sender a with
    | none => none
    | some (s, es) => some ({ l with sender := s, way := l.way ++ bytesMoved es }, es.map .sender)
  | .receiver a =>
    match Stream.step recvKernel .read l.receiver a with
    | none => none
    | some (s, es) =>
      if bytesMoved es <+: l.way then
        some ({ l with receiver := s, way := l.way.drop (bytesMoved es).length },
          es.map .receiver)
      else none

/-- A connection, driven by its environment. -/
def link : Machine Link Action Event := ⟨step⟩

/-- A connection with a new socket at either end. -/
def start (fd fd' : ℕ) (mem mem' : Memory) : Config Link Event where
  state := ⟨(Stream.init fd mem).state, [], (Stream.init fd' mem').state⟩
  trace := []

/-- What an event is at the end that writes. -/
def Event.ofSender : Event → Option Stream.Event
  | .sender e => some e
  | .receiver _ => none

/-- What an event is at the end that reads. -/
def Event.ofReceiver : Event → Option Stream.Event
  | .sender _ => none
  | .receiver e => some e

/-- What an action is at the end that writes. -/
def Action.ofSender : Action → Option (Stream.Action SendOutcome)
  | .sender a => some a
  | .receiver _ => none

/-- What an action is at the end that reads. -/
def Action.ofReceiver : Action → Option (Stream.Action RecvOutcome)
  | .sender _ => none
  | .receiver a => some a

/-- The events of the end that writes. -/
def sent (tr : List Event) : List Stream.Event := tr.filterMap Event.ofSender

/-- The events of the end that reads. -/
def received (tr : List Event) : List Stream.Event := tr.filterMap Event.ofReceiver

section Events

variable (es : List Stream.Event) (tr tr' : List Event)

@[simp] theorem sent_append : sent (tr ++ tr') = sent tr ++ sent tr' := List.filterMap_append

@[simp] theorem received_append : received (tr ++ tr') = received tr ++ received tr' :=
  List.filterMap_append

@[simp] theorem sent_sender : sent (es.map .sender) = es := by
  rw [sent, List.filterMap_map]
  exact List.filterMap_some

@[simp] theorem sent_receiver : sent (es.map .receiver) = [] := by
  simp [sent, Event.ofSender]

@[simp] theorem received_sender : received (es.map .sender) = [] := by
  simp [received, Event.ofReceiver]

@[simp] theorem received_receiver : received (es.map .receiver) = es := by
  rw [received, List.filterMap_map]
  exact List.filterMap_some

end Events

variable {l l' : Link} {es : List Event} {c : Config Link Event} {as : List Action}

/-- A step at the end that writes. -/
theorem step_sender {a : Stream.Action SendOutcome} (h : step l (.sender a) = some (l', es)) :
    ∃ s ev, Stream.step sendKernel .write l.sender a = some (s, ev) ∧ es = ev.map .sender ∧
      l' = { l with sender := s, way := l.way ++ bytesMoved ev } := by
  simp only [step] at h
  split at h
  · cases h
  · rename_i s ev hs
    cases h
    exact ⟨s, ev, hs, rfl, rfl⟩

/-- A step at the end that reads. -/
theorem step_receiver {a : Stream.Action RecvOutcome} (h : step l (.receiver a) = some (l', es)) :
    ∃ s ev, Stream.step recvKernel .read l.receiver a = some (s, ev) ∧ es = ev.map .receiver ∧
      l.way = bytesMoved ev ++ l'.way ∧ l'.sender = l.sender ∧ l'.receiver = s := by
  simp only [step] at h
  split at h
  · cases h
  · rename_i s ev hs
    split at h
    · rename_i hbegins
      obtain ⟨later, hlater⟩ := hbegins
      cases h
      refine ⟨s, ev, hs, rfl, ?_, rfl, rfl⟩
      rw [← hlater, List.drop_left]
    · cases h

/-- The end that writes. -/
def sender : Projection link (machine sendKernel .write) where
  state := Link.sender
  action := Action.ofSender
  event := Event.ofSender
  step_some := by
    intro l a l' es b h ha
    cases a with
    | receiver a => cases ha
    | sender a =>
      cases ha
      obtain ⟨s, ev, hs, rfl, rfl⟩ := step_sender h
      exact hs.trans (congrArg (fun ev => some (s, ev)) (sent_sender ev).symm)
  step_none := by
    intro l a l' es h ha
    cases a with
    | sender a => cases ha
    | receiver a =>
      obtain ⟨s, ev, hs, rfl, -, hsender, -⟩ := step_receiver h
      exact ⟨hsender, sent_receiver ev⟩

/-- The end that reads. -/
def receiver : Projection link (machine recvKernel .read) where
  state := Link.receiver
  action := Action.ofReceiver
  event := Event.ofReceiver
  step_some := by
    intro l a l' es b h ha
    cases a with
    | sender a => cases ha
    | receiver a =>
      cases ha
      obtain ⟨s, ev, hs, rfl, -, -, rfl⟩ := step_receiver h
      exact hs.trans (congrArg (fun ev => some (l'.receiver, ev)) (received_receiver ev).symm)
  step_none := by
    intro l a l' es h ha
    cases a with
    | receiver a => cases ha
    | sender a =>
      obtain ⟨s, ev, hs, rfl, rfl⟩ := step_sender h
      exact ⟨rfl, received_sender ev⟩

/-- What has been accepted is what has been given, and what is on its way. -/
theorem conserved {fd fd' : ℕ} {mem mem' : Memory} (h : Reachable link (start fd fd' mem mem') c) :
    bytesMoved (sent c.trace) = bytesMoved (received c.trace) ++ c.state.way := by
  refine h.invariant_step
    (I := fun l tr => bytesMoved (sent tr) = bytesMoved (received tr) ++ l.way) rfl ?_
  rintro l tr a l' es hI - hstep
  cases a with
  | sender a =>
    obtain ⟨s, ev, -, rfl, rfl⟩ := step_sender hstep
    simp only [sent_append, received_append, sent_sender, received_sender, List.append_nil,
      bytesMoved_append, hI, List.append_assoc]
  | receiver a =>
    obtain ⟨s, ev, -, rfl, hway, -, -⟩ := step_receiver hstep
    simp only [sent_append, received_append, sent_receiver, received_receiver, List.append_nil,
      bytesMoved_append, hI, hway, List.append_assoc]

/-- Neither end serves an operation again that it has served short, other than to meet `EAGAIN`. -/
def Unresumed (c : Config Link Event) (a : Action) : Prop :=
  sender.Meets (Stream.Unresumed sendKernel .write) c a ∧
    receiver.Meets (Stream.Unresumed recvKernel .read) c a

/-- What the receiver's callbacks have been given and its front operation has had, followed by what
is on its way, is what the sender's callbacks have been told and what its front operation has had
accepted: no byte is lost, repeated, or reordered between the two programs. -/
theorem delivered {fd fd' : ℕ} {mem mem' : Memory}
    (hrun : run link (start fd fd' mem mem') as = some c)
    (hsteps : Steps link Unresumed (start fd fd' mem mem') as) :
    bytesCompleted (received c.trace) ++ pendingBytes .read (receiver.config c) ++ c.state.way =
      bytesCompleted (sent c.trace) ++ pendingBytes .write (sender.config c) := by
  have hsent : Ledger .write (sender.config c) :=
    ((ledger_always_iff sendKernel .write fd mem _).2
      (sender.steps hrun (hsteps.imp fun _ _ h => h.1))).last (sender.run hrun)
  have hreceived : Ledger .read (receiver.config c) :=
    ((ledger_always_iff recvKernel .read fd' mem' _).2
      (receiver.steps hrun (hsteps.imp fun _ _ h => h.2))).last (receiver.run hrun)
  calc bytesCompleted (received c.trace) ++ pendingBytes .read (receiver.config c) ++ c.state.way
      = bytesMoved (received c.trace) ++ c.state.way :=
        congrArg (· ++ c.state.way) hreceived.bytes.symm
    _ = bytesMoved (sent c.trace) := (conserved (reachable_of_run hrun)).symm
    _ = bytesCompleted (sent c.trace) ++ pendingBytes .write (sender.config c) := hsent.bytes

/-- `delivered`, where an `async_write` of four bytes is accepted whole and an `async_read` gets two
of them. -/
theorem delivered_two :
    ∃ c, run link (start 3 4 (fun a => UInt8.ofNat (a - 99)) fun _ => 0)
        [.sender (.submit 100 4 .UNTIL_FINISHED), .receiver (.submit 200 2 .UNTIL_FINISHED),
          .sender (.serve (.accepted 4)), .receiver (.serve (.data [1, 2]))] = some c ∧
      bytesCompleted (received c.trace) ++ pendingBytes .read (receiver.config c) ++ c.state.way =
        bytesCompleted (sent c.trace) ++ pendingBytes .write (sender.config c) := by
  have hrun : ∃ c, run link (start 3 4 (fun a => UInt8.ofNat (a - 99)) fun _ => 0)
      [.sender (.submit 100 4 .UNTIL_FINISHED), .receiver (.submit 200 2 .UNTIL_FINISHED),
        .sender (.serve (.accepted 4)), .receiver (.serve (.data [1, 2]))] = some c := ⟨_, rfl⟩
  obtain ⟨c, hrun⟩ := hrun
  refine ⟨c, hrun, delivered hrun ?_⟩
  -- Every operation is served once.
  refine .cons rfl ⟨fun b hb => ?_, fun b hb => ?_⟩ (.cons rfl ⟨fun b hb => ?_, fun b hb => ?_⟩
    (.cons rfl ⟨fun b hb => ?_, fun b hb => ?_⟩ (.cons rfl ⟨fun b hb => ?_, fun b hb => ?_⟩
      trivial))) <;> cases hb
  · trivial
  · trivial
  · intro task op rest hq
    cases hq
    exact .inl rfl
  · intro task op rest hq
    cases hq
    exact .inl rfl

/-- An action that submits, if it does, a `_some` operation. -/
def Action.OnlySome : Action → Prop
  | .sender a => Transfer.OnlySome a
  | .receiver a => Transfer.OnlySome a

/-- Two programs that use `async_write_some` and `async_read_some` are connected by a reliable
stream: in every run, what the receiver's callbacks have been given, followed by what is on its way,
is what the sender's callbacks have been told. -/
theorem delivered_some {fd fd' : ℕ} {mem mem' : Memory} (hsome : ∀ a ∈ as, a.OnlySome)
    (hrun : run link (start fd fd' mem mem') as = some c) :
    bytesCompleted (received c.trace) ++ c.state.way = bytesCompleted (sent c.trace) := by
  have hsender : ∀ b ∈ as.filterMap Action.ofSender, OnlySome b := by
    intro b hb
    obtain ⟨a, ha, hab⟩ := List.mem_filterMap.1 hb
    cases a with
    | receiver a => cases hab
    | sender a =>
      cases hab
      exact hsome _ ha
  have hreceiver : ∀ b ∈ as.filterMap Action.ofReceiver, OnlySome b := by
    intro b hb
    obtain ⟨a, ha, hab⟩ := List.mem_filterMap.1 hb
    cases a with
    | sender a => cases hab
    | receiver a =>
      cases hab
      exact hsome _ ha
  have hsent : bytesMoved (sent c.trace) = bytesCompleted (sent c.trace) :=
    bytesCompleted_of_some hsender (sender.run hrun)
  have hreceived : bytesMoved (received c.trace) = bytesCompleted (received c.trace) :=
    bytesCompleted_of_some hreceiver (receiver.run hrun)
  rw [← hreceived, ← hsent]
  exact (conserved (reachable_of_run hrun)).symm

/-- `delivered_some`, where two bytes of four are accepted and one of them has been read. -/
theorem delivered_some_one :
    ∃ c, run link (start 3 4 (fun a => UInt8.ofNat (a - 99)) fun _ => 0)
        [.sender (.submit 100 4 .TRY), .receiver (.submit 200 8 .TRY),
          .sender (.serve (.accepted 2)), .receiver (.serve (.data [1]))] = some c ∧
      bytesCompleted (received c.trace) ++ c.state.way = bytesCompleted (sent c.trace) := by
  have hrun : ∃ c, run link (start 3 4 (fun a => UInt8.ofNat (a - 99)) fun _ => 0)
      [.sender (.submit 100 4 .TRY), .receiver (.submit 200 8 .TRY),
        .sender (.serve (.accepted 2)), .receiver (.serve (.data [1]))] = some c := ⟨_, rfl⟩
  obtain ⟨c, hrun⟩ := hrun
  refine ⟨c, hrun, delivered_some ?_ hrun⟩
  intro a ha
  simp only [List.mem_cons, List.not_mem_nil, or_false] at ha
  rcases ha with rfl | rfl | rfl | rfl <;> trivial

end Spinet.Transfer
