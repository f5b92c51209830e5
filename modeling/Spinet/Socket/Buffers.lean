import Spinet.Socket.Completion

/-!
# Buffers are handed back

A buffer belongs to the library from the submission of its operation until the callback of the
operation is invoked, `cancel` has removed the operation, or `close` has returned (`HandedBack`).
The system call of `do_read` or `do_write` is on the buffer of the operation at the front of its
queue, and an operation in a queue has not been handed back, so no system call is on a buffer that
has been.

`allowed_io_step` is the rule for any requirement on the system calls: it has to be shown only of a
`recv` or `send` that is about to be executed.
-/

namespace Spinet.Socket

open Transition Stacks

variable {T : Type*}

/-! ## Requirements on the system calls -/

/-- A requirement on every `recv` and `send`, by the events before it. -/
def OfIo (Q : List Event → Dir → OpId → Desc → Prop) (past : List Event) (e : Event) : Prop :=
  ∀ d op desc, e = .io d op desc → Q past d op desc

variable {Q : List Event → Dir → OpId → Desc → Prop}

/-- Events that are no system calls meet every requirement on system calls. -/
theorem allowedFrom_of_no_io : ∀ {es past : List Event}, (∀ d op desc, .io d op desc ∉ es) →
    AllowedFrom (OfIo Q) past es
  | [], _, _ => trivial
  | e :: es, past, hes => by
    refine ⟨fun d op desc he => absurd ?_ (hes d op desc), ?_⟩
    · rw [he]; exact List.mem_cons_self
    · exact allowedFrom_of_no_io fun d op desc hmem => hes d op desc (List.mem_cons_of_mem _ hmem)

/-- A step makes at most one system call. It is on the buffer of the operation at the front of a
queue, and goes to what is under `fd_`. -/
theorem Advance.io {sh sh' : Shared T} {t : T} {f : Frame} {fs : List Frame} {es : List Event}
    {d : Dir} {op : OpId} {desc : Desc} (h : Advance sh t f fs sh' es)
    (he : .io d op desc ∈ es) :
    f = .doIo d .exec ∧ es = [.io d op desc] ∧ desc = sh.desc ∧
      (queued d sh.sock).head? = some op := by
  cases h with
  | cancelClear => simp [clearEvents] at he
  | @ioExec d' task op' _ reply hq =>
    rcases exec_logIo task d' op' sh.desc reply sh.sock.fd with hw | hw
    · simp [hw] at he
    · rw [hw, List.mem_singleton, Event.io.injEq] at he
      obtain ⟨rfl, rfl, rfl⟩ := he
      exact ⟨rfl, hw, rfl, by simp [queued, hq]⟩
  | _ => simp at he

variable [DecidableEq T] {rt : T}

/-- A requirement on the system calls is kept if it holds of one that is about to be executed. -/
theorem allowed_io_step {s s' : State T} {tr es : List Event} (h : Allowed (OfIo Q) tr)
    (hs : Step rt s s' es)
    (hio : ∀ t d op, .doIo d .exec ∈ s.stack t → (queued d s.sock).head? = some op →
      Q tr d op s.desc) : Allowed (OfIo Q) (tr ++ es) := by
  refine allowed_append.2 ⟨h, ?_⟩
  -- If the step makes a system call, that is its only event.
  by_cases hex : ∃ d op desc, .io d op desc ∈ es
  · obtain ⟨d, op, desc, he⟩ := hex
    obtain ⟨t, f, rest, fs, hst, ha⟩ := hs.event_cases he
    obtain ⟨rfl, rfl, rfl, hhead⟩ := ha.io he
    refine ⟨fun d' op' desc' heq => ?_, trivial⟩
    obtain ⟨rfl, rfl, rfl⟩ := Event.io.inj heq
    exact hio t d op (top_mem hst) hhead
  · push Not at hex
    exact allowedFrom_of_no_io hex

/-! ## The buffers -/

/-- After the events `past` the buffer of operation `op` is the user's again. -/
def HandedBack (past : List Event) (op : OpId) : Prop :=
  (∃ res size, .invoked op res size ∈ past) ∨ (∃ d, .left d op .cancelled ∈ past) ∨
    .closeReturned ∈ past

/-- The library uses no buffer that it has handed back. -/
structure BuffersKept (c : Config (State T) Event) : Prop where
  /-- No `recv` or `send` was on a buffer handed back before it. -/
  io : Allowed (OfIo fun past _ op _ => ¬ HandedBack past op) c.trace
  /-- No section of `do_read` or `do_write` that has made its system call is on a buffer that has
  been handed back. -/
  busy : ∀ t d task ec op, .doIo d (.finish task ec op) ∈ c.state.stack t → ¬ HandedBack c.trace op

variable [Fintype T] {fd : ℕ} {c : Config (State T) Event}

omit [DecidableEq T] in
/-- An operation in a queue has not been handed back. -/
theorem not_handedBack_of_queued (h : ExactlyOnce c) {d : Dir} {op : OpId}
    (hop : op ∈ queued d c.state.sock) : ¬ HandedBack c.trace op := by
  have hqueued : HasFate c op .queued := ⟨d, hop⟩
  rintro (⟨res, size, hinvoked⟩ | hcancelled | hreturned)
  · have hpos : 0 < invokedCount op c :=
      List.countP_pos_iff.2 ⟨_, hinvoked, by simp [Event.isInvoked]⟩
    have hzero := (h.queued op hqueued).1
    omega
  · -- It was accepted, so it has only one fate.
    have haccepted : op ∈ acceptedOf d c.trace := by
      rw [h.order d]
      exact List.mem_append_right _ hop
    have hfate := (h.fate d op (mem_acceptedOf haccepted)).unique hqueued
      (show HasFate c op .cancelled from hcancelled)
    simp at hfate
  · simp [queued, h.closed hreturned d] at hop

/-- The buffers of what is served are not handed back in any reachable configuration. -/
theorem buffersKept_of_reachable (h : Reachable (machine rt) (init T fd) c) : BuffersKept c := by
  have hfacts : ∀ c, Reachable (machine rt) (init T fd) c → Inv c.state ∧ ExactlyOnce c :=
    fun c hc => ⟨inv_of_reachable hc,
      (account_of_reachable hc).exactlyOnce (closing_of_reachable hc)⟩
  refine ⟨?_, ?_⟩
  · refine h.invariant_of hfacts (I := fun c => Allowed _ c.trace) trivial ?_
    intro c a c' hJ _ hal _ hn
    obtain ⟨s', es, hs, rfl⟩ := next_eq_some _ hn
    refine allowed_io_step hal (step_cases hs) fun t d op _ hhead => ?_
    exact not_handedBack_of_queued hJ.2 (List.mem_of_mem_head? hhead)
  · intro t d task ec op hf
    obtain ⟨hI, hE⟩ := hfacts c h
    have hfront : (queued d c.state.sock).head? = some op := hI.front t _ hf
    exact not_handedBack_of_queued hE (List.mem_of_mem_head? hfront)

/-- Along every run of calls from any threads, once the callback of an operation has been invoked,
or a `cancel` that removed it has returned, or `close` has returned, no `recv` or `send` uses its
buffer. -/
theorem buffersKept_always (rt : T) (fd : ℕ) (as : List (Action T)) :
    Always (machine rt) BuffersKept (init T fd) as :=
  always_of_reachable (fun _ => buffersKept_of_reachable) .refl

end Spinet.Socket
