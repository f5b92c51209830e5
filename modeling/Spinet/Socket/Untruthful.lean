import Spinet.Socket.Completion
import Spinet.Socket.Truthful

/-!
# A return value of 0 that is no reason

`truthful_always` asks that on a socket that has not been closed a system call returns 0 only if it
is a `recv` that asks for at least one byte. Whenever one returns 0 otherwise an untruthful report
follows (`zero_breaks`): the section reports the operation with `EBADF`, for which there is no
reason.

That there is none is the work here. A system call that is a reason ends its operation, so the
section that has made it takes the operation off its queue (`Ended`). So an operation that is about
to be served has had no reason, but for a close.
-/

namespace Spinet.Socket

open Transition Stacks

variable {T : Type*}

/-- Whether a return value of a system call ends its operation with an error. -/
def fails : IoRet → Bool
  | .bytes n => decide (n = 0)
  | .fail e => decide (e ≠ .EAGAIN)

/-- After a return value that ends its operation with an error, that is reported. -/
theorem verdict_of_fails {task : Task} {d : Dir} {op : OpId} {desc : Desc} {reply : IoRet} {fd : ℕ}
    (hfresh : task.Fresh) (h : fails reply = true) :
    ∃ res, res.isOk = false ∧ (task.exec (logIo d op desc reply) fd []).task.verdict
      (task.exec (logIo d op desc reply) fd []).ec = some (res, 0) := by
  rw [Task.exec_fresh hfresh]
  rcases reply with (_ | n) | e
  · refine ⟨.systemError .EBADF, rfl, ?_⟩
    simp only [logIo]
    rw [Task.verdict_error hfresh.1 (by decide), hfresh.2]
  · simp [fails] at h
  · refine ⟨.systemError e, rfl, ?_⟩
    simp only [logIo]
    rw [Task.verdict_error hfresh.1 (by simpa [fails] using h), hfresh.2]

/-! ## Operations in the books -/

section Books

variable [Fintype T] {c : Config (State T) Event} {op : OpId} {d d' : Dir}

/-- An operation is accepted on one side, and once. -/
theorem Account.count_acceptedOf_le (h : Account c) (op : OpId) :
    (acceptedOf .read c.trace).count op + (acceptedOf .write c.trace).count op ≤ 1 := by
  have hone := h.named_le_one op
  rw [count_acceptedOf]
  omega

/-- A queued operation has been accepted on its side. -/
theorem Account.mem_acceptedOf_of_queued (h : Account c) (hop : op ∈ queued d c.state.sock) :
    op ∈ acceptedOf d c.trace := by
  rw [h.order d]
  exact List.mem_append_right _ hop

/-- An operation is accepted on one side only. -/
theorem Account.side_unique (h : Account c) (hd : op ∈ acceptedOf d c.trace)
    (hd' : op ∈ acceptedOf d' c.trace) : d = d' := by
  have hle := h.count_acceptedOf_le op
  have hpos := List.count_pos_iff.2 hd
  have hpos' := List.count_pos_iff.2 hd'
  cases d <;> cases d' <;> first | rfl | omega

/-- A queued operation has not left its queue. -/
theorem Account.not_left_of_queued (h : Account c) (hop : op ∈ queued d c.state.sock) :
    op ∉ leftOf d c.trace := by
  intro hleft
  have hle := h.count_acceptedOf_le op
  have horder := congrArg (List.count op) (h.order d)
  have hpos := List.count_pos_iff.2 hop
  have hpos' := List.count_pos_iff.2 hleft
  rw [List.count_append] at horder
  cases d <;> omega

end Books

/-! ## A system call -/

variable [DecidableEq T] {rt : T}

/-- A step that makes a system call for operation `op`, and goes on to finish it. -/
structure Serves (s s' : State T) (d : Dir) (op : OpId) (reply : IoRet) (es : List Event) :
    Prop where
  /-- The operation is in the queue. -/
  queued : op ∈ queued d s.sock
  /-- Nothing else has happened. -/
  events : es = [.io d op s.desc]
  /-- The section goes on, and reports an error if the system call ends the operation with one. -/
  finishes : ∃ t rest task ec, s.stack t = .doIo d .exec :: rest ∧
    s'.stack = Function.update s.stack t (.doIo d (.finish task ec op) :: rest) ∧
    (fails reply = true → ∃ res, res.isOk = false ∧ task.verdict ec = some (res, 0))

/-- Every system call is made by such a step. -/
theorem serves_of_mem_replies {s s' : State T} {a : Action T} {es : List Event} {d : Dir}
    {op : OpId} {len : ℕ} {reply : IoRet} (hs : step rt s a = some (s', es)) (hI : Inv s)
    (hmem : .replied d op len reply ∈ a.replies s) :
    a.replies s = [.replied d op len reply] ∧ Serves s s' d op reply es := by
  obtain ⟨t, r, f, rest, rfl, hst⟩ : ∃ t r f rest, a = .thread t (.go r) ∧
      s.stack t = f :: rest := by
    unfold Action.replies at hmem
    split at hmem
    · split at hmem
      · exact ⟨_, _, _, _, rfl, ‹_›⟩
      · cases hmem
    · cases hmem
  simp only [Action.replies, hst] at hmem ⊢
  obtain ⟨d', rfl⟩ : ∃ d', f = .doIo d' .exec := by
    by_contra hexec
    push Not at hexec
    rw [Frame.replies_eq_nil hexec] at hmem
    cases hmem
  rcases hq : s.sock.queue d' with _ | ⟨⟨task, op'⟩, q⟩
  · simp [Frame.replies, hq] at hmem
  have hfresh : task.Fresh := hI.fresh d' (task, op') (by simp [hq])
  have hreplies : (Frame.doIo d' .exec).replies s.toShared r =
      [.replied d' op' (task.size - task.pos) r] := by
    simp only [Frame.replies, hq, hfresh.1, Bool.false_eq_true, if_false]
  rw [hreplies] at hmem ⊢
  cases List.mem_singleton.1 hmem
  simp only [step, hst, advance, hq, Option.map_eq_some_iff, Option.ite_none_right_eq_some,
    Option.some.injEq] at hs
  obtain ⟨_, ⟨-, rfl⟩, hres⟩ := hs
  obtain ⟨rfl, rfl⟩ := Prod.mk.inj hres
  refine ⟨rfl, ⟨?_, ?_, t, rest, _, _, hst, rfl, verdict_of_fails hfresh⟩⟩
  · simp [queued, hq]
  · rw [Task.exec_fresh hfresh]
    rcases reply with (_ | n) | e <;> rfl

/-! ## What ends an operation takes it off its queue -/

/-- An operation that a system call has ended with an error has left its queue, or the section that
has made the call is about to take it off. -/
def Ended (s : State T) (tr : List ReplyEvent) : Prop :=
  ∀ d op len reply, .replied d op len reply ∈ tr → fails reply = true →
    op ∈ leftOf d (baseTrace tr) ∨
      ∃ t task ec, .doIo d (.finish task ec op) ∈ s.stack t ∧ task.verdict ec ≠ none

/-- A section that is about to take its operation off the queue stays, or does so. -/
theorem Step.finish_kept {s s' : State T} {es : List Event} (hs : Step rt s s' es) {u : T} {d : Dir}
    {task : Task} {ec : Option Errno} {op : OpId}
    (h : .doIo d (.finish task ec op) ∈ s.stack u) (hv : task.verdict ec ≠ none) :
    .doIo d (.finish task ec op) ∈ s'.stack u ∨ op ∈ leftOf d es := by
  refine (hs.frame_kept h (by simp)).imp_right ?_
  rintro ⟨fs, sh', ha⟩
  cases ha with
  | ioKeep hnone => exact absurd hnone hv
  | ioPop => simp [leftOf]

variable {c c' : Config (State T) ReplyEvent} {a : Action T} {fd : ℕ}

/-- Every step keeps that. -/
theorem Ended.step (h : Ended c.state c.trace) (hI : Inv c.state)
    (hn : next (replyMachine rt) c a = some c') : Ended c'.state c'.trace := by
  obtain ⟨s', es', hs, rfl⟩ := next_eq_some _ hn
  obtain ⟨⟨s₁, es⟩, hstep, hres⟩ := Option.map_eq_some_iff.1 hs
  obtain ⟨rfl, rfl⟩ := Prod.mk.inj hres
  intro d op len reply hmem hfails
  rw [baseTrace_step, leftOf_append, List.mem_append]
  rcases List.mem_append.1 hmem with hold | hnew
  · rcases h d op len reply hold hfails with hleft | ⟨t, task, ec, hfinish, hv⟩
    · exact .inl (.inl hleft)
    · rcases (step_cases hstep).finish_kept hfinish hv with hkept | hleft
      · exact .inr ⟨t, task, ec, hkept, hv⟩
      · exact .inl (.inr hleft)
  · rcases List.mem_append.1 hnew with hcall | hbase
    · obtain ⟨-, -, -, t, rest, task, ec, -, hstack, hverdict⟩ :=
        serves_of_mem_replies hstep hI hcall
      obtain ⟨res, -, hv⟩ := hverdict hfails
      refine .inr ⟨t, task, ec, ?_, by simp [hv]⟩
      rw [hstack, Function.update_self]
      exact List.mem_cons_self
    · obtain ⟨e, -, he⟩ := List.mem_map.1 hbase
      cases he

/-- It holds in every reachable configuration. -/
theorem ended_of_reachable (h : Reachable (replyMachine rt) (replyInit T fd) c) :
    Ended c.state c.trace := by
  refine h.invariant_of (I := fun c => Ended c.state c.trace) (J := fun c => Inv c.state)
    (fun _ => inv_of_reply) ?_ ?_
  · exact fun d op len reply hmem => absurd hmem List.not_mem_nil
  · exact fun c a c' hI _ hE _ hn => hE.step hI hn

/-- No system call has ended an operation that is about to be served. -/
theorem not_fails_of_exec [Fintype T] (h : Reachable (replyMachine rt) (replyInit T fd) c) {t : T}
    {d : Dir} {rest : List Frame} {op : OpId} (hst : c.state.stack t = .doIo d .exec :: rest)
    (hop : op ∈ queued d c.state.sock) {d' : Dir} {len : ℕ} {reply : IoRet}
    (hmem : .replied d' op len reply ∈ c.trace) : fails reply = false := by
  by_contra hfails
  have hI : Inv c.state := inv_of_reply h
  have hA : Account ⟨c.state, baseTrace c.trace⟩ := account_of_reachable (base_of_reply h)
  have hside : op ∈ acceptedOf d' (baseTrace c.trace) → d' = d := fun haccepted =>
    hA.side_unique haccepted (hA.mem_acceptedOf_of_queued hop)
  rcases ended_of_reachable h d' op len reply hmem (by simpa using hfails) with
    hleft | ⟨u, task, ec, hfinish, -⟩
  · -- It has left the queue that it is in.
    obtain rfl := hside (hA.order d' ▸ List.mem_append_left _ hleft)
    exact hA.not_left_of_queued hop hleft
  · -- Two sections have the mutex of its side.
    have hqueued : op ∈ queued d' c.state.sock :=
      List.mem_of_mem_head? (hI.front u _ hfinish)
    obtain rfl := hside (hA.mem_acceptedOf_of_queued hqueued)
    have hexec := (hI.locked d').only hst hfinish ?_ (by simp [Frame.holds])
    · simp [Frame.holds] at hexec
    · rintro rfl
      rw [hst] at hfinish
      exact (List.mem_cons.1 hfinish).resolve_left (by simp)

/-! ## The report -/

/-- A step of the innermost frame that makes no system call. -/
theorem next_reply (rt : T) {t : T} {f : Frame} {rest fs : List Frame} {sh : Shared T}
    {es : List Event} (reply : IoRet) (hst : c.state.stack t = f :: rest)
    (hadv : advance c.state.toShared t reply f = some (fs, sh, es))
    (hf : ∀ d, f ≠ .doIo d .exec) :
    next (replyMachine rt) c (.thread t (.go reply)) =
      some ⟨{ c.state with toShared := sh, stack := Function.update c.state.stack t (fs ++ rest) },
        c.trace ++ es.map .base⟩ := by
  simp only [next, replyMachine, replyStep, step, hst, hadv, Option.map_some, Action.replies,
    Frame.replies_eq_nil hf, List.nil_append]

/-- A section that has a verdict takes the operation off its queue, and reports it. -/
theorem exists_report (rt : T) {t : T} {d : Dir} {task : Task} {ec : Option Errno} {op : OpId}
    {rest : List Frame} {res : Result} {size : ℕ}
    (hst : c.state.stack t = .doIo d (.finish task ec op) :: rest)
    (hv : task.verdict ec = some (res, size)) :
    ∃ c'', Reachable (replyMachine rt) c c'' ∧
      c''.trace = c.trace ++ [.base (.left d op .taken), .base (.invoked op res size)] := by
  have hleft := next_reply rt (.bytes 0) hst (by simp only [advance, hv]; rfl) (by simp)
  refine ⟨_, .step (.step .refl trivial hleft) trivial
    (next_reply rt (.bytes 0) (Function.update_self ..) rfl (by simp)), ?_⟩
  simp

/-- Whenever a step breaks the condition, the run can go on to an untruthful report. -/
theorem zero_breaks [Fintype T] (h : Reachable (replyMachine rt) (replyInit T fd) c)
    (hn : next (replyMachine rt) c a = some c') (hzero : ¬ ZeroEnds c a) :
    ∃ c'', Reachable (replyMachine rt) c' c'' ∧ ¬ Truthful c'' := by
  obtain ⟨s', es', hs, rfl⟩ := next_eq_some _ hn
  obtain ⟨⟨s₁, es⟩, hstep, hres⟩ := Option.map_eq_some_iff.1 hs
  obtain ⟨rfl, rfl⟩ := Prod.mk.inj hres
  obtain ⟨hopen, hbreaks⟩ := Classical.not_imp.1 hzero
  obtain ⟨d, op, len, hmem, hlen⟩ : ∃ d op len, .replied d op len (.bytes 0) ∈ a.replies c.state ∧
      ¬ (d = .read ∧ 0 < len) := by
    simp only [List.all_eq_true, not_forall] at hbreaks
    obtain ⟨e, he, hnot⟩ := hbreaks
    unfold ReplyEvent.zeroEnds at hnot
    split at hnot
    · exact ⟨_, _, _, he, by simpa using hnot⟩
    · exact absurd rfl hnot
  obtain ⟨hreplies, hop, rfl, t, rest, task, ec, hst, hstack, hverdict⟩ :=
    serves_of_mem_replies hstep (inv_of_reply h) hmem
  obtain ⟨res, hres, hv⟩ := hverdict rfl
  obtain ⟨c'', hreach, htrace⟩ := exists_report rt
    (c := ⟨s₁, c.trace ++ (a.replies c.state ++ [.io d op c.state.desc].map .base)⟩)
    (by rw [hstack, Function.update_self]) hv
  refine ⟨c'', hreach, fun htruthful => ?_⟩
  have hreason : Reason (c.trace ++ [.replied d op len (.bytes 0), .base (.io d op c.state.desc),
      .base (.left d op .taken)]) op := by
    refine Allowed.of_mem htruthful.reported _ (.base (.invoked op res 0)) [] ?_ op res 0 rfl hres
    simp [htrace, hreplies]
  -- What has happened before is no reason, and what has happened now is none.
  have hbefore : ∀ {d' len' reply}, .replied d' op len' reply ∈ c.trace → fails reply = false :=
    fun hmem => not_fails_of_exec h hst hop hmem
  cases hreason with
  | closed hmem =>
    rcases List.mem_append.1 hmem with hmem | hmem
    · exact hopen hmem
    · simp at hmem
  | failed hmem he =>
    rcases List.mem_append.1 hmem with hmem | hmem
    · simpa [fails, he] using hbefore hmem
    · simp at hmem
  | ended hmem hpos =>
    rcases List.mem_append.1 hmem with hmem | hmem
    · simpa [fails] using hbefore hmem
    · obtain ⟨rfl, rfl⟩ : d = .read ∧ _ = len := by simpa [eq_comm] using hmem
      exact hlen ⟨rfl, hpos⟩

end Spinet.Socket
