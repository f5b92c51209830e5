import Mathlib.Data.List.Range
import Spinet.Core.Ledger

/-!
# An operation that asks for more than the kernel moves at once

`async_read` and `async_write` are to go on until their whole buffer has been moved. What a call of
`exec` has moved is forgotten with the copy of the task, so the operation is over only when one
system call moves all of it, or fails. If none moves that much, the operation stays at the front of
its queue, what arrives is given to nobody, and no callback behind it is invoked (`starved`), for as
long as the socket is neither cancelled nor closed, which the runs here do not do. -/

namespace Spinet.Stream

open Transition

variable {O : Type} {K : Kernel O} {d : Dir} {c c' : Config State Event} {task : Task} {op : OpId}
  {cap : ℕ}

/-- Whether a call that has this outcome moves at most `cap` bytes and does not fail, other than
with `EAGAIN`. -/
def Kernel.AtMost (K : Kernel O) (cap : ℕ) (out : O) : Prop :=
  ∀ call w, K.fits out call.len = true →
    (K.io out call w).1 = .fail .EAGAIN ∨ ∃ n, n < cap ∧ (K.io out call w).1 = .bytes (n + 1)

/-- Whether the system call of an action, if it makes one, moves at most `cap` bytes. -/
def AtMost (K : Kernel O) (cap : ℕ) : Action O → Prop
  | .serve out => K.AtMost cap out
  | _ => True

/-- `::recv` gives at most `cap` bytes. -/
theorem atMost_data {bytes : List UInt8} (h : bytes.length ≤ cap) :
    recvKernel.AtMost cap (.data bytes) := by
  intro call w hfits
  have hlength : 1 ≤ bytes.length ∧ bytes.length ≤ call.len := of_decide_eq_true hfits
  exact .inr ⟨bytes.length - 1, by omega, by
    rw [Nat.sub_add_cancel hlength.1]
    rfl⟩

/-- `::send` accepts at most `cap` bytes. -/
theorem atMost_accepted {n : ℕ} (h : n ≤ cap) : sendKernel.AtMost cap (.accepted n) := by
  intro call w hfits
  have hlength : 1 ≤ n ∧ n ≤ call.len := of_decide_eq_true hfits
  exact .inr ⟨n - 1, by omega, by
    rw [Nat.sub_add_cancel hlength.1]
    rfl⟩

/-- Where the operations of a side are: some have been completed and the others are in the queue, in
the order of their submission. -/
structure Queued (d : Dir) (c : Config State Event) : Prop where
  /-- The socket is open. -/
  isOpen : c.state.sock.closed = false
  /-- No task in the queue has made any progress. -/
  fresh : ∀ e ∈ c.state.sock.queue d, e.1.Fresh
  /-- The operations. -/
  order : completions c.trace ++ (c.state.sock.queue d).map Prod.snd = List.range c.state.nextOp

/-- A turn keeps the operations where they are, or completes the one at the front. -/
theorem Queued.turn {again : Bool} {s' : State} {es : List Event} (h : Queued d c)
    (hturn : Turn d c.state again s' es) : Queued d ⟨s', c.trace ++ es⟩ := by
  have horder := h.order
  cases hturn with
  | idle hq => exact ⟨h.isOpen, h.fresh, by simpa using horder⟩
  | again hq => exact ⟨h.isOpen, h.fresh, by simpa using horder⟩
  | failed e hq | finished bs mem hq =>
    rw [hq] at horder
    refine ⟨h.isOpen, ?_, ?_⟩
    · rw [TcpSocket.setQueue_queue_self]
      exact fun e he => h.fresh e (by rw [hq]; exact List.mem_cons_of_mem _ he)
    · rw [TcpSocket.setQueue_queue_self]
      simpa using horder
  | short bs mem hq => exact ⟨h.isOpen, h.fresh, by simpa using horder⟩

/-- A step keeps the operations in order. -/
theorem Queued.next {a : Action O} (h : Queued d c) (hn : next (machine K d) c a = some c') :
    Queued d c' := by
  obtain ⟨s', es, hs, rfl⟩ := next_eq_some _ hn
  rcases step_cases h.isOpen h.fresh hs with
    ⟨buf, size, strategy, -, rfl, rfl⟩ | ⟨addr, byte, -, -, rfl, rfl⟩ | ⟨out, -, hturn⟩
  · refine ⟨h.isOpen, ?_, ?_⟩
    · rw [TcpSocket.setQueue_queue_self]
      intro e he
      rcases List.mem_append.1 he with he | he
      · exact h.fresh e he
      · rw [List.mem_singleton.1 he]
        exact Task.new_fresh _ _ _
    · rw [TcpSocket.setQueue_queue_self, List.range_succ, ← h.order]
      simp
  · exact ⟨h.isOpen, h.fresh, by simpa using h.order⟩
  · exact h.turn hturn

/-- The operations of every reachable state are in order. -/
theorem queued_of_reachable {fd : ℕ} {mem : Memory}
    (h : Reachable (machine K d) (init fd mem) c) : Queued d c := by
  refine h.invariant (I := Queued d) ?_ fun _ _ _ hc _ hn => hc.next hn
  constructor <;> simp [init, TcpSocket.new]

/-- When an operation is in the queue, neither it nor one that was submitted later has been
completed. -/
theorem Queued.not_completed (h : Queued d c) (hmem : (task, op) ∈ c.state.sock.queue d)
    {op' : OpId} (hop : op ≤ op') : op' ∉ completions c.trace := by
  intro hcompleted
  have hsorted := List.pairwise_lt_range (n := c.state.nextOp)
  rw [← h.order, List.pairwise_append] at hsorted
  exact absurd (hsorted.2.2 op' hcompleted op (List.mem_map.2 ⟨_, hmem, rfl⟩)) (Nat.not_lt.2 hop)

/-- An operation at the front that asks for more than the call moves stays there, and nothing is
completed. -/
theorem step_serve_stays {s s' : State} {out : O} {es : List Event} {rest : List (Task × OpId)}
    (hopen : s.sock.closed = false) (hq : s.sock.queue d = (task, op) :: rest)
    (hfresh : task.Fresh) (huntil : task.strategy = .UNTIL_FINISHED) (hsize : cap < task.size)
    (hcap : K.AtMost cap out) (h : step K d s (.serve out) = some (s', es)) :
    s'.sock.queue d = s.sock.queue d ∧ bytesCompleted es = [] := by
  simp only [step, hq, hfresh.2, Nat.sub_zero, TcpSocket.serve_fresh hopen hq hfresh] at h
  split at h
  case isFalse => cases h
  rename_i hfits
  simp only [Option.some.injEq, Prod.mk.injEq] at h
  obtain ⟨rfl, rfl⟩ := h
  have hreply := hcap ⟨s.sock.fd, task.buf, task.size⟩ ⟨s.mem, []⟩ hfits
  rcases hio : K.io out ⟨s.sock.fd, task.buf, task.size⟩ ⟨s.mem, []⟩ with ⟨reply, w⟩
  rw [hio] at hreply
  have hmoved : bytesCompleted (w.moved.map fun m => Event.moved op task m.1 m.2) = [] := by
    refine List.flatMap_eq_nil_iff.2 fun e he => ?_
    obtain ⟨m, -, rfl⟩ := List.mem_map.1 he
    rfl
  rcases hreply with rfl | ⟨n, hn, rfl⟩
  · simp only [if_true, hq, serveEvents, bytesCompleted_append, hmoved, List.nil_append]
    exact ⟨trivial, rfl⟩
  · have hpart : ¬ (task.strategy = .TRY ∨ n + 1 = task.size) := by
      rw [huntil]
      rintro (h | h)
      · cases h
      · omega
    simp only [if_neg hpart, hq, serveEvents, bytesCompleted_append, hmoved, List.nil_append]
    exact ⟨trivial, rfl⟩

/-- A step does not take an operation off the queue that asks for more than any call moves. -/
theorem stays_next {a : Action O} (h : Queued d c) (huntil : task.strategy = .UNTIL_FINISHED)
    (hsize : cap < task.size) (hmem : (task, op) ∈ c.state.sock.queue d) (ha : AtMost K cap a)
    (hn : next (machine K d) c a = some c') : (task, op) ∈ c'.state.sock.queue d := by
  obtain ⟨s', es, hs, rfl⟩ := next_eq_some _ hn
  rcases step_cases h.isOpen h.fresh hs with
    ⟨buf, size, strategy, -, rfl, rfl⟩ | ⟨addr, byte, -, -, rfl, rfl⟩ | ⟨out, rfl, hturn⟩
  · rw [TcpSocket.setQueue_queue_self]
    exact List.mem_append_left _ hmem
  · exact hmem
  · obtain ⟨front, rest, hq⟩ := List.exists_cons_of_ne_nil (List.ne_nil_of_mem hmem)
    by_cases hfront : front = (task, op)
    · -- It is at the front itself.
      subst hfront
      rw [(step_serve_stays h.isOpen hq (h.fresh _ hmem) huntil hsize ha hs).1]
      exact hmem
    · -- It is behind the front, which is all that a turn takes off.
      have hrest : (task, op) ∈ rest := by
        rw [hq] at hmem
        exact (List.mem_cons.1 hmem).resolve_left (Ne.symm hfront)
      cases hturn with
      | idle hq' => exact hmem
      | again hq' => exact hmem
      | failed e hq' | finished bs mem hq' =>
        rw [hq] at hq'
        cases hq'
        rw [TcpSocket.setQueue_queue_self]
        exact hrest
      | short bs mem hq' => exact hmem

/-- A step with such an operation at the front gives no bytes to any callback. -/
theorem discarded_next {a : Action O} (h : Queued d c) (huntil : task.strategy = .UNTIL_FINISHED)
    (hsize : cap < task.size) (hfront : (c.state.sock.queue d).head? = some (task, op))
    (ha : AtMost K cap a) (hn : next (machine K d) c a = some c') :
    (c'.state.sock.queue d).head? = some (task, op) ∧
      bytesCompleted c'.trace = bytesCompleted c.trace := by
  obtain ⟨s', es, hs, rfl⟩ := next_eq_some _ hn
  obtain ⟨rest, hq⟩ := List.head?_eq_some_iff.1 hfront
  rcases step_cases h.isOpen h.fresh hs with
    ⟨buf, size, strategy, -, rfl, rfl⟩ | ⟨addr, byte, -, -, rfl, rfl⟩ | ⟨out, rfl, -⟩
  · refine ⟨?_, by simp⟩
    rw [TcpSocket.setQueue_queue_self, hq]
    rfl
  · exact ⟨hfront, by simp⟩
  · have hfresh : task.Fresh := h.fresh (task, op) (by rw [hq]; exact List.mem_cons_self)
    obtain ⟨hstay, hnone⟩ := step_serve_stays h.isOpen hq hfresh huntil hsize ha hs
    exact ⟨by rw [hstay, hfront], by rw [bytesCompleted_append, hnone, List.append_nil]⟩

/-- On a socket that is neither cancelled nor closed, an `async_read` or `async_write` that asks for
more than any single call moves is never over, however much is moved in all: from any reachable
state, along every run, it stays in its queue, and neither its callback nor one that was submitted
after it is ever invoked. Once it is at the front, what is moved is given to no callback at all. -/
theorem starved {fd : ℕ} {mem : Memory} (hc : Reachable (machine K d) (init fd mem) c)
    (hmem : (task, op) ∈ c.state.sock.queue d) (huntil : task.strategy = .UNTIL_FINISHED)
    (hsize : cap < task.size) {as : List (Action O)} (hcap : ∀ a ∈ as, AtMost K cap a)
    (hrun : run (machine K d) c as = some c') :
    (task, op) ∈ c'.state.sock.queue d ∧ (∀ op', op ≤ op' → op' ∉ completions c'.trace) ∧
      ((c.state.sock.queue d).head? = some (task, op) →
        bytesCompleted c'.trace = bytesCompleted c.trace) := by
  have hboth : Queued d c' ∧ (task, op) ∈ c'.state.sock.queue d := by
    refine run_invariant
      (I := fun as c => (∀ a ∈ as, AtMost K cap a) → Queued d c ∧ (task, op) ∈ c.state.sock.queue d)
      (fun _ => ⟨queued_of_reachable hc, hmem⟩) ?_ hrun hcap
    intro as c a c' _ hI hn hall
    rw [List.forall_mem_append, List.forall_mem_singleton] at hall
    obtain ⟨hqueued, hstay⟩ := hI hall.1
    exact ⟨hqueued.next hn, stays_next hqueued huntil hsize hstay hall.2 hn⟩
  refine ⟨hboth.2, fun op' hop => hboth.1.not_completed hboth.2 hop, fun hfront => ?_⟩
  have hsame : (c'.state.sock.queue d).head? = some (task, op) ∧
      bytesCompleted c'.trace = bytesCompleted c.trace := by
    refine run_invariant
      (I := fun as c₁ => (∀ a ∈ as, AtMost K cap a) →
        (c₁.state.sock.queue d).head? = some (task, op) ∧
          bytesCompleted c₁.trace = bytesCompleted c.trace)
      (fun _ => ⟨hfront, rfl⟩) ?_ hrun hcap
    intro as c₁ a c₂ hreach hI hn hall
    rw [List.forall_mem_append, List.forall_mem_singleton] at hall
    obtain ⟨hhead, hbytes⟩ := hI hall.1
    obtain ⟨hhead', hbytes'⟩ := discarded_next (queued_of_reachable (hc.trans hreach)) huntil hsize
      hhead hall.2 hn
    exact ⟨hhead', hbytes'.trans hbytes⟩
  exact hsame.2

/-- `starved`, where four bytes are asked for and arrive as two and two. -/
theorem starved_four :
    ∃ c, run (machine recvKernel .read) (init 3 fun _ => 0)
        [.submit 100 4 .UNTIL_FINISHED, .submit 200 1 .TRY, .serve (.data [1, 2]),
          .serve (.data [3, 4])] = some c ∧
      (Task.new 100 4 .UNTIL_FINISHED, 0) ∈ c.state.sock.queue .read ∧
      (∀ op, 0 ≤ op → op ∉ completions c.trace) ∧ bytesCompleted c.trace = [] := by
  have hsubmitted : ∃ c₁, run (machine recvKernel .read) (init 3 fun _ => 0)
      [.submit 100 4 .UNTIL_FINISHED, .submit 200 1 .TRY] = some c₁ := ⟨_, rfl⟩
  obtain ⟨c₁, hc₁⟩ := hsubmitted
  have hserved : ∃ c, run (machine recvKernel .read) c₁
      [.serve (.data [1, 2]), .serve (.data [3, 4])] = some c := by
    cases hc₁
    exact ⟨_, rfl⟩
  obtain ⟨c, hc⟩ := hserved
  have hcap : ∀ a ∈ [Action.serve (.data [1, 2]), .serve (.data [3, 4])],
      AtMost recvKernel 2 a := by
    intro a ha
    simp only [List.mem_cons, List.not_mem_nil, or_false] at ha
    rcases ha with rfl | rfl <;> exact atMost_data (by decide)
  have hfirst : (Task.new 100 4 .UNTIL_FINISHED, 0) ∈ c₁.state.sock.queue .read := by
    cases hc₁
    exact List.mem_cons_self
  obtain ⟨hmem, hnone, hbytes⟩ :=
    starved (reachable_of_run hc₁) hfirst rfl (by decide) hcap hc
  refine ⟨c, ?_, hmem, hnone, ?_⟩
  · cases hc₁
    exact hc
  · cases hc₁
    exact hbytes rfl

end Spinet.Stream
