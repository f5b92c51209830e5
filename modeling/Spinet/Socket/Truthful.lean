import Spinet.Socket.Locks

/-!
# What an error report says

The machine here is that of `Spinet.Socket.Machine`, with what each `recv` and `send` was asked for
and what it returned as events. An error that a callback receives should have a reason among what
has happened before: the socket has been closed, the call for the operation has failed, or `recv`
has reported the end of the stream (`Reason`).

`exec` takes a return value of 0 for the end of the stream, whatever it has asked for. A request for
no bytes is answered by 0 as well. `truthful_always` says that error reports are truthful in every
run in which a system call returns 0 only if it is a `recv` that asks for at least one byte, as long
as the socket has not been closed.
-/

namespace Spinet.Socket

open Transition Stacks

/-- What can be seen of a run. -/
inductive ReplyEvent
  /-- An event of the socket. -/
  | base (e : Event)
  /-- `recv` or `send` was called with `len` bytes for operation `op`, and returned. -/
  | replied (d : Dir) (op : OpId) (len : ℕ) (reply : IoRet)
deriving DecidableEq, Repr

variable {T : Type*}

/-- The system call of a step of the innermost frame, if it makes one. -/
def Frame.replies (sh : Shared T) (reply : IoRet) : Frame → List ReplyEvent
  | .doIo d .exec =>
    match sh.sock.queue d with
    | (task, op) :: _ =>
      if task.finished then [] else [.replied d op (task.size - task.pos) reply]
    | [] => []
  | _ => []

/-- The system call of an action. -/
def Action.replies (s : State T) : Action T → List ReplyEvent
  | .thread t (.go reply) =>
    match s.stack t with
    | f :: _ => f.replies s.toShared reply
    | [] => []
  | _ => []

variable [DecidableEq T]

/-- The step of an action. -/
def replyStep (rt : T) (s : State T) (a : Action T) : Option (State T × List ReplyEvent) :=
  (step rt s a).map fun (s', es) => (s', a.replies s ++ es.map .base)

/-- The machine of one socket, with the system calls. -/
def replyMachine (rt : T) : Machine (State T) (Action T) ReplyEvent := ⟨replyStep rt⟩

/-- A new socket, with no call in progress. -/
def replyInit (T : Type*) (fd : ℕ) : Config (State T) ReplyEvent :=
  { state := (init T fd).state, trace := [] }

/-- Why operation `op` may be reported with an error. -/
inductive Reason (past : List ReplyEvent) (op : OpId) : Prop
  /-- The socket was closed. -/
  | closed : .base .sysClose ∈ past → Reason past op
  /-- `recv` or `send` failed for it. -/
  | failed {d : Dir} {len : ℕ} {e : Errno} : .replied d op len (.fail e) ∈ past → e ≠ .EAGAIN →
    Reason past op
  /-- `recv` returned 0 for it, and at least one byte was being asked for. -/
  | ended {len : ℕ} : .replied .read op len (.bytes 0) ∈ past → 0 < len → Reason past op

/-- An error that a callback receives has a reason. -/
def Reported (past : List ReplyEvent) (e : ReplyEvent) : Prop :=
  ∀ op res size, e = .base (.invoked op res size) → res.isOk = false → Reason past op

/-- An operation that was taken off its queue has been called back without an error, or is about to
be. -/
def TakenOk (s : State T) (tr : List ReplyEvent) (op : OpId) : Prop :=
  (∃ size, .base (.invoked op .ok size) ∈ tr) ∨
    ∃ t d size, .doIo d (.call op .ok size) ∈ s.stack t

/-- Error reports are truthful. -/
structure Truthful (c : Config (State T) ReplyEvent) : Prop where
  /-- Every error has a reason. -/
  reported : Allowed Reported c.trace
  /-- On a connection that gives no reason, every operation that leaves its queue other than by
  `cancel` is called back without an error. -/
  healthy : (∀ op, ¬ Reason c.trace op) →
    ∀ d op, .base (.left d op .taken) ∈ c.trace → TakenOk c.state c.trace op

/-- Whether a return value of 0 stands for the end of the stream. -/
def ReplyEvent.zeroEnds : ReplyEvent → Bool
  | .replied d _ len (.bytes 0) => decide (d = .read ∧ 0 < len)
  | _ => true

/-- The condition on a step: as long as the socket has not been closed, a system call returns 0 only
if it is a `recv` that asks for at least one byte. -/
def ZeroEnds (c : Config (State T) ReplyEvent) (a : Action T) : Prop :=
  .base .sysClose ∉ c.trace → (a.replies c.state).all ReplyEvent.zeroEnds = true

instance (c : Config (State T) ReplyEvent) (a : Action T) : Decidable (ZeroEnds c a) := by
  unfold ZeroEnds
  infer_instance

/-! ## The reasons -/

/-- The error that a frame is about to report has a reason. -/
def Explained (tr : List ReplyEvent) : Frame → Prop
  | .close (.drain _ _) => .base .sysClose ∈ tr
  | .doIo _ (.finish task ec op) =>
    ∀ res size, task.verdict ec = some (res, size) → res ≠ .ok → Reason tr op
  | .doIo _ (.call op res _) => res ≠ .ok → Reason tr op
  | _ => True

section Steps

omit [DecidableEq T]

variable {tr : List ReplyEvent} {op : OpId} {f : Frame}

/-- A reason stays one. -/
theorem Reason.mono (h : Reason tr op) (es : List ReplyEvent) : Reason (tr ++ es) op := by
  cases h with
  | closed hmem => exact .closed (List.mem_append_left es hmem)
  | failed hmem he => exact .failed (List.mem_append_left es hmem) he
  | ended hmem hlen => exact .ended (List.mem_append_left es hmem) hlen

/-- What is explained stays explained. -/
theorem Explained.mono (h : Explained tr f) (es : List ReplyEvent) : Explained (tr ++ es) f := by
  cases f with
  | close pc =>
    cases pc with
    | drain d pc => exact List.mem_append_left es h
    | _ => trivial
  | doIo d pc =>
    cases pc with
    | finish task ec op => exact fun res size hv hne => (h res size hv hne).mono es
    | call op res size => exact fun hne => (h hne).mono es
    | _ => trivial
  | _ => trivial

/-- The first frame of a call has nothing to explain. -/
theorem Call.explained (call : Call) (op : OpId) : Explained tr (call.frame op) := by
  cases call <;> trivial

/-! ## A step -/

variable {sh sh' : Shared T} {t : T} {fs : List Frame} {es : List Event} {reply : IoRet}

/-- After one `exec` an operation is reported with an error only if the system call has failed, or
has returned 0. -/
theorem verdict_exec {task : Task} {d : Dir} {desc : Desc} {fd size : ℕ} {res : Result}
    (hfresh : task.Fresh) (h : (task.exec (logIo d op desc reply) fd []).task.verdict
      (task.exec (logIo d op desc reply) fd []).ec = some (res, size)) (hne : res ≠ .ok) :
    (∃ e, reply = .fail e ∧ e ≠ .EAGAIN) ∨ reply = .bytes 0 := by
  rw [Task.exec_fresh hfresh] at h
  rcases reply with (_ | n) | e
  · exact .inr rfl
  · -- Some bytes have been moved: the operation is over, or stays in its queue.
    simp only [logIo] at h
    cases hfinished : (task.advance (n + 1)).finished with
    | true =>
      rw [Task.verdict_finished hfinished] at h
      exact absurd (Prod.mk.inj (Option.some.inj h)).1.symm hne
    | false =>
      rw [Task.verdict_none hfinished] at h
      cases h
  · refine .inl ⟨e, rfl, ?_⟩
    rintro rfl
    simp only [logIo, Task.verdict_again hfresh.1] at h
    cases h

/-- The section that makes the system call. -/
theorem advance_exec {d : Dir} (h : advance sh t reply (.doIo d .exec) = some (fs, sh', es))
    (hfresh : AllFresh sh.sock) :
    (fs = [] ∧ es = [] ∧ (Frame.doIo d .exec).replies sh reply = []) ∨
      ∃ task ec op len, fs = [.doIo d (.finish task ec op)] ∧ es = [.io d op sh.desc] ∧
        (Frame.doIo d .exec).replies sh reply = [.replied d op len reply] ∧
        ∀ res size, task.verdict ec = some (res, size) → res ≠ .ok →
          (∃ e, reply = .fail e ∧ e ≠ .EAGAIN) ∨ reply = .bytes 0 := by
  rcases hq : sh.sock.queue d with _ | ⟨⟨task, op⟩, rest⟩
  · simp only [advance, hq, Option.some.injEq, Prod.mk.injEq] at h
    obtain ⟨rfl, -, rfl⟩ := h
    exact .inl ⟨rfl, rfl, by simp only [Frame.replies, hq]⟩
  · have htask : task.Fresh := hfresh d (task, op) (by simp [hq])
    simp only [advance, hq, Option.ite_none_right_eq_some, Option.some.injEq, Prod.mk.injEq] at h
    obtain ⟨-, rfl, -, rfl⟩ := h
    refine .inr ⟨_, _, op, task.size - task.pos, rfl, ?_, ?_, fun res size => verdict_exec htask⟩
    · rw [Task.exec_fresh htask]
      rcases reply with (_ | n) | e <;> rfl
    · simp only [Frame.replies, hq, htask.1, Bool.false_eq_true, if_false]

/-- The system call is no event of the socket. -/
theorem Frame.replies_no_base (f : Frame) {e : Event} : .base e ∉ f.replies sh reply := by
  unfold Frame.replies
  split
  · split
    · split
      · exact List.not_mem_nil
      · simp
    · exact List.not_mem_nil
  · exact List.not_mem_nil

/-- Where no system call is made. -/
theorem Frame.replies_eq_nil (hf : ∀ d, f ≠ .doIo d .exec) : f.replies sh reply = [] := by
  unfold Frame.replies
  split
  · exact absurd rfl (hf _)
  · rfl

/-- The frames that replace a frame have what they report explained, if a system call on a socket
that has not been closed returns 0 only at the end of a stream. -/
theorem advance_explained (h : advance sh t reply f = some (fs, sh', es))
    (hfresh : AllFresh sh.sock) (hf : Explained tr f)
    (hzero : .base .sysClose ∉ tr → (f.replies sh reply).all ReplyEvent.zeroEnds = true) :
    ∀ g ∈ fs, Explained (tr ++ (f.replies sh reply ++ es.map .base)) g := by
  intro g hg
  by_cases hexec : ∃ d, f = .doIo d .exec
  · obtain ⟨d, rfl⟩ := hexec
    rcases advance_exec h hfresh with
      ⟨rfl, -, -⟩ | ⟨task, ec, op, len, rfl, rfl, hreplies, hverdict⟩
    · cases hg
    · obtain rfl := List.mem_singleton.1 hg
      rw [hreplies] at hzero ⊢
      intro res size hv hne
      by_cases hclosed : .base .sysClose ∈ tr
      · exact .closed (List.mem_append_left _ hclosed)
      rcases hverdict res size hv hne with ⟨e, rfl, he⟩ | rfl
      · exact @Reason.failed _ _ d len e (by simp) he
      · have hends := hzero hclosed
        simp only [List.all_cons, List.all_nil, Bool.and_true, ReplyEvent.zeroEnds,
          decide_eq_true_eq] at hends
        obtain ⟨rfl, hlen⟩ := hends
        have hended : .replied .read op len (.bytes 0) ∈
            tr ++ ([.replied .read op len (.bytes 0)] ++ [.io .read op sh.desc].map .base) := by
          simp
        exact .ended hended hlen
  · push Not at hexec
    rw [Frame.replies_eq_nil hexec, List.nil_append]
    cases advance_cases h with
    | ioExec | ioEmpty => exact absurd rfl (hexec _)
    | closeSys =>
      obtain rfl := List.mem_singleton.1 hg
      exact List.mem_append_right tr (by simp)
    | drainLock | drainRead | drainPop | drainRelock =>
      obtain rfl := List.mem_singleton.1 hg
      exact List.mem_append_left _ hf
    | drainCall =>
      rcases List.mem_cons.1 hg with rfl | hg
      · trivial
      · obtain rfl := List.mem_singleton.1 hg
        exact List.mem_append_left _ hf
    | ioPop hv =>
      obtain rfl := List.mem_singleton.1 hg
      exact fun hne => (hf _ _ hv hne).mono _
    | submitLock | submitTest | cancelLock | closeWon | closeDeregister | ioLock | ioTest
    | ioCall =>
      obtain rfl := List.mem_singleton.1 hg
      trivial
    | submitReject | submitPush | cancelClear | closeLost | drainWrite | ioClosed | ioKeep =>
      cases hg

/-- An error is reported with its reason. -/
theorem advance_reported (h : advance sh t reply f = some (fs, sh', es)) (hfresh : AllFresh sh.sock)
    (hf : Explained tr f) : AllowedFrom Reported tr (f.replies sh reply ++ es.map .base) := by
  -- Most steps report nothing.
  have hsilent : (∀ op res size, .invoked op res size ∉ es) →
      AllowedFrom Reported tr (f.replies sh reply ++ es.map .base) := by
    intro hnone
    refine allowedFrom_of_forall fun e he past op res size heq _ => ?_
    subst heq
    rcases List.mem_append.1 he with he | he
    · exact absurd he (Frame.replies_no_base f)
    · obtain ⟨e', he', heq⟩ := List.mem_map.1 he
      cases heq
      exact absurd he' (hnone op res size)
  by_cases hexec : ∃ d, f = .doIo d .exec
  · obtain ⟨d, rfl⟩ := hexec
    rcases advance_exec h hfresh with ⟨-, rfl, -⟩ | ⟨_, _, _, _, -, rfl, -⟩ <;>
      exact hsilent (by simp)
  · push Not at hexec
    cases advance_cases h with
    | ioExec | ioEmpty => exact absurd rfl (hexec _)
    | ioCall =>
      refine ⟨fun op res size heq hres => ?_, trivial⟩
      obtain ⟨rfl, rfl, rfl⟩ : _ ∧ _ ∧ _ := by simpa using heq
      exact hf (by rintro rfl; cases hres)
    | drainCall => exact ⟨fun op res size heq hres => .closed hf, trivial⟩
    | cancelClear => exact hsilent (by simp [clearEvents])
    | _ => exact hsilent (by simp)

/-- A frame of a call stays where it is, or takes the step. -/
theorem Step.frame_kept [DecidableEq T] {rt : T} {s s' : State T} (hs : Step rt s s' es) {u : T}
    (h : f ∈ s.stack u) (hf : ∀ op, f ≠ .callback op) :
    f ∈ s'.stack u ∨ ∃ fs sh', Advance s.toShared u f fs sh' es := by
  cases hs with
  | @call t c hm =>
    refine .inl (mem_update.2 ?_)
    rcases eq_or_ne u t with rfl | hne
    · exact .inl ⟨rfl, List.mem_cons_of_mem _ h⟩
    · exact .inr ⟨hne, h⟩
  | @ret t op' rest hst =>
    refine .inl (mem_update.2 ?_)
    rcases eq_or_ne u t with rfl | hne
    · rw [hst] at h
      exact .inl ⟨rfl, (List.mem_cons.1 h).resolve_left (hf op')⟩
    · exact .inr ⟨hne, h⟩
  | @go t g rest fs sh _ hst ha =>
    rcases eq_or_ne u t with rfl | hne
    · rw [hst] at h
      rcases List.mem_cons.1 h with rfl | hrest
      · exact .inr ⟨_, _, ha⟩
      · exact .inl (mem_update.2 (.inl ⟨rfl, List.mem_append_right _ hrest⟩))
    · exact .inl (mem_update.2 (.inr ⟨hne, h⟩))
  | reuse => exact .inl h

/-- A frame that is about to invoke a callback stays, or invokes it. -/
theorem Step.call_kept [DecidableEq T] {rt : T} {s s' : State T} (hs : Step rt s s' es) {u : T}
    {d : Dir} {res : Result} {size : ℕ} (h : .doIo d (.call op res size) ∈ s.stack u) :
    .doIo d (.call op res size) ∈ s'.stack u ∨ .invoked op res size ∈ es := by
  refine (hs.frame_kept h (by simp)).imp_right ?_
  rintro ⟨fs, sh', ha⟩
  cases ha with
  | ioCall => exact List.mem_singleton_self _

/-- An operation that is taken off its queue is about to be called back without an error, or there
is a reason. -/
theorem Advance.taken_ok {d : Dir} (h : Advance sh t f fs sh' es) (hf : Explained tr f)
    (hleft : .left d op .taken ∈ es) :
    (∃ d size, .doIo d (.call op .ok size) ∈ fs) ∨ Reason tr op := by
  cases h with
  | drainPop =>
    exact .inr (.closed hf)
  | @ioPop _ _ _ _ res size hv =>
    obtain ⟨rfl, rfl⟩ : d = _ ∧ op = _ := by simpa using hleft
    by_cases hok : res = .ok
    · subst hok
      exact .inl ⟨_, size, List.mem_singleton_self _⟩
    · exact .inr (hf res size hv hok)
  | cancelClear => simp [clearEvents] at hleft
  | @ioExec d' task op' _ reply =>
    rcases exec_logIo task d' op' sh.desc reply sh.sock.fd with hw | hw <;> simp [hw] at hleft
  | _ => simp at hleft

end Steps

/-! ## Runs -/

variable {rt : T} {c c' : Config (State T) ReplyEvent}

/-- What holds in every configuration that is reached under the condition. -/
structure TruthfulInv (c : Config (State T) ReplyEvent) : Prop where
  explained : ∀ t, ∀ f ∈ c.state.stack t, Explained c.trace f
  truthful : Truthful c

/-- The events of the socket. -/
def baseTrace (tr : List ReplyEvent) : List Event :=
  tr.filterMap fun
    | .base e => some e
    | .replied _ _ _ _ => none

theorem mem_baseTrace {e : Event} {tr : List ReplyEvent} : e ∈ baseTrace tr ↔ .base e ∈ tr := by
  unfold baseTrace
  rw [List.mem_filterMap]
  constructor
  · rintro ⟨e', he', heq⟩
    split at heq
    · obtain rfl := Option.some.inj heq
      exact he'
    · cases heq
  · exact fun he => ⟨.base e, he, rfl⟩

omit [DecidableEq T] in
/-- The events of a step that are the socket's. -/
theorem baseTrace_step (s : State T) (a : Action T) (tr : List ReplyEvent) (es : List Event) :
    baseTrace (tr ++ (a.replies s ++ es.map .base)) = baseTrace tr ++ es := by
  have hreplies : baseTrace (a.replies s) = [] := by
    refine List.eq_nil_iff_forall_not_mem.2 fun e he => ?_
    have hmem := mem_baseTrace.1 he
    unfold Action.replies at hmem
    split at hmem
    · split at hmem
      · exact Frame.replies_no_base _ hmem
      · cases hmem
    · cases hmem
  have hes : baseTrace (es.map .base) = es := by
    simp [baseTrace, List.filterMap_map]
  unfold baseTrace at hreplies hes ⊢
  rw [List.filterMap_append, List.filterMap_append, hreplies, hes, List.nil_append]

/-- The socket of a run with system calls is that of a run without. -/
theorem base_of_reply {fd : ℕ} (h : Reachable (replyMachine rt) (replyInit T fd) c) :
    Reachable (machine rt) (init T fd) ⟨c.state, baseTrace c.trace⟩ := by
  have hsim : ∃ d, Reachable (machine rt) (init T fd) d ∧ d = ⟨c.state, baseTrace c.trace⟩ := by
    refine h.simulated (R := fun c d => d = ⟨c.state, baseTrace c.trace⟩) ?_ rfl
    rintro c a c' d rfl hn
    obtain ⟨s', es, hs, rfl⟩ := next_eq_some _ hn
    obtain ⟨⟨s₁, es₁⟩, hstep, hres⟩ := Option.map_eq_some_iff.1 hs
    obtain ⟨rfl, rfl⟩ := Prod.mk.inj hres
    refine ⟨⟨s₁, baseTrace c.trace ++ es₁⟩, .step .refl (a := a) trivial ?_, ?_⟩
    · simp only [next, machine, hstep, Option.map_some]
    · rw [baseTrace_step]
  obtain ⟨d, hd, rfl⟩ := hsim
  exact hd

/-- The stacks agree with the owners, and the tasks in the queues are as they were submitted. -/
theorem inv_of_reply {fd : ℕ} (h : Reachable (replyMachine rt) (replyInit T fd) c) :
    Inv c.state := inv_of_reachable (base_of_reply h)

/-- A step begins a call, ends a callback or reuses the descriptor number, or it is one of the
innermost frame of a thread. -/
theorem reply_cases {s s' : State T} {a : Action T} {es : List Event}
    (h : step rt s a = some (s', es)) :
    (es = [] ∧ a.replies s = [] ∧ ∀ u, ∀ g ∈ s'.stack u, g ∈ s.stack u ∨
      ∃ (call : Call) (op : OpId), g = call.frame op) ∨
    ∃ t reply f rest fs, s.stack t = f :: rest ∧
      advance s.toShared t reply f = some (fs, s'.toShared, es) ∧
      a.replies s = f.replies s.toShared reply ∧
      s'.stack = Function.update s.stack t (fs ++ rest) := by
  cases a with
  | reuse conn =>
    obtain ⟨-, h⟩ := Option.ite_none_right_eq_some.1 h
    obtain ⟨rfl, rfl⟩ := Prod.mk.inj (Option.some.inj h)
    exact .inl ⟨rfl, rfl, fun u g hg => .inl hg⟩
  | thread t ch =>
    cases ch with
    | call call =>
      obtain ⟨-, h⟩ := Option.ite_none_right_eq_some.1 h
      obtain ⟨rfl, rfl⟩ := Prod.mk.inj (Option.some.inj h)
      refine .inl ⟨rfl, rfl, fun u g hg => ?_⟩
      rcases mem_update.1 hg with ⟨rfl, hnew⟩ | ⟨-, hold⟩
      · rcases List.mem_cons.1 hnew with rfl | hold
        · exact .inr ⟨call, _, rfl⟩
        · exact .inl hold
      · exact .inl hold
    | ret =>
      simp only [step] at h
      split at h
      case h_2 => cases h
      rename_i op rest hst
      obtain ⟨rfl, rfl⟩ := Prod.mk.inj (Option.some.inj h)
      refine .inl ⟨rfl, rfl, fun u g hg => .inl ?_⟩
      rcases mem_update.1 hg with ⟨rfl, hnew⟩ | ⟨-, hold⟩
      · rw [hst]
        exact List.mem_cons_of_mem _ hnew
      · exact hold
    | go reply =>
      simp only [step] at h
      split at h
      case h_2 => cases h
      rename_i f rest hst
      obtain ⟨⟨fs, sh, es'⟩, hadv, hres⟩ := Option.map_eq_some_iff.1 h
      obtain ⟨rfl, rfl⟩ := Prod.mk.inj hres
      exact .inr ⟨t, reply, f, rest, fs, hst, hadv, by simp only [Action.replies, hst], rfl⟩

/-- Every step under the condition keeps what is reported truthful. -/
theorem TruthfulInv.step (h : TruthfulInv c) (hI : Inv c.state) {a : Action T}
    (hC : ZeroEnds c a) (hn : next (replyMachine rt) c a = some c') : TruthfulInv c' := by
  obtain ⟨s', es', hs, rfl⟩ := next_eq_some _ hn
  obtain ⟨⟨s₁, es⟩, hstep, hres⟩ := Option.map_eq_some_iff.1 hs
  obtain ⟨rfl, rfl⟩ := Prod.mk.inj hres
  rcases reply_cases hstep with ⟨rfl, hreplies, hstack⟩ |
    ⟨t, reply, f, rest, fs, hst, hadv, hreplies, hstack⟩
  · rw [hreplies, List.map_nil, List.append_nil, List.append_nil]
    refine ⟨fun u g hg => ?_, h.truthful.reported, fun hhealthy d op hleft => ?_⟩
    · rcases hstack u g hg with hold | ⟨call, op, rfl⟩
      · exact h.explained u g hold
      · exact call.explained op
    · rcases h.truthful.healthy hhealthy d op hleft with hinvoked | ⟨t, d, size, hmem⟩
      · exact .inl hinvoked
      · have hkept := (step_cases hstep).call_kept hmem
        exact .inr ⟨t, d, size, hkept.resolve_right List.not_mem_nil⟩
  · have hf : Explained c.trace f := h.explained t f (by simp [hst])
    unfold ZeroEnds at hC
    rw [hreplies] at hC ⊢
    have hreported := advance_reported hadv hI.fresh hf
    refine ⟨fun u g hg => ?_, allowed_append.2 ⟨h.truthful.reported, hreported⟩,
      fun hhealthy d op hleft => ?_⟩
    · rw [hstack] at hg
      rcases mem_replace hst hg with ⟨-, hnew⟩ | ⟨hold, -⟩
      · exact advance_explained hadv hI.fresh hf hC g hnew
      · exact (h.explained u g hold).mono _
    · have hbefore : ∀ op, ¬ Reason c.trace op := fun op hr => hhealthy op (hr.mono _)
      rcases List.mem_append.1 hleft with hleft | hleft
      -- It has been taken before,
      · rcases h.truthful.healthy hbefore d op hleft with ⟨size, hinvoked⟩ | ⟨u, d, size, hmem⟩
        · exact .inl ⟨size, List.mem_append_left _ hinvoked⟩
        · rcases (step_cases hstep).call_kept hmem with hkept | hinvoked
          · exact .inr ⟨u, d, size, hkept⟩
          · refine .inl ⟨size, List.mem_append_right _ (List.mem_append_right _ ?_)⟩
            exact List.mem_map_of_mem hinvoked
      -- or it is now.
      · have hes : .left d op .taken ∈ es := by
          rcases List.mem_append.1 hleft with hleft | hleft
          · exact absurd hleft (Frame.replies_no_base f)
          · simpa using hleft
        rcases (advance_cases hadv).taken_ok hf hes with ⟨d, size, hmem⟩ | hreason
        · refine .inr ⟨t, d, size, ?_⟩
          rw [hstack]
          exact mem_update.2 (.inl ⟨rfl, List.mem_append_left _ hmem⟩)
        · exact absurd hreason (hbefore op)

/-- In every run in which, as long as the socket has not been closed, a system call returns 0 only
if it is a `recv` that asks for at least one byte, error reports are truthful. -/
theorem truthful_always (rt : T) (fd : ℕ) (as : List (Action T))
    (h : Steps (replyMachine rt) ZeroEnds (replyInit T fd) as) :
    Always (replyMachine rt) Truthful (replyInit T fd) as := by
  refine always_of_reachVia (fun c hc => ?_) .refl h
  have hinv : TruthfulInv c := by
    refine hc.invariant_of (J := fun c => Inv c.state) (fun _ => inv_of_reply) ?_ ?_
    · exact ⟨fun t f hf => absurd hf List.not_mem_nil, trivial, fun _ d op h => nomatch h⟩
    · exact fun c a c' hI _ hT hC hn => hT.step hI hC hn
  exact hinv.truthful

/-- A submission, from its call to its end. -/
def submission {T : Type*} (rt : T) (call : Call) : List (Action T) :=
  .thread rt (.call call) :: List.replicate 3 (.thread rt (.go (.bytes 0)))

/-- A call of `do_read` or `do_write` that invokes a callback, with the return of that. -/
def serving {T : Type*} (rt : T) (call : Call) (reply : IoRet) : List (Action T) :=
  .thread rt (.call call) :: List.replicate 5 (.thread rt (.go reply)) ++ [.thread rt .ret]

/-- A read that gets its bytes, and a write that fails. -/
theorem truthful_readThenWrite :
    (∃ c, run (replyMachine (0 : Fin 1)) (replyInit (Fin 1) 7)
      (submission 0 (.asyncRead 100 5) ++ serving 0 .doRead (.bytes 5) ++
        submission 0 (.asyncWrite 200 3) ++ serving 0 .doWrite (.fail (.other 32))) = some c ∧
      c.trace.filter (fun e => e matches .base (.invoked _ _ _)) =
        [.base (.invoked 0 .ok 5), .base (.invoked 2 (.systemError (.other 32)) 0)]) ∧
    Always (replyMachine (0 : Fin 1)) Truthful (replyInit (Fin 1) 7)
      (submission 0 (.asyncRead 100 5) ++ serving 0 .doRead (.bytes 5) ++
        submission 0 (.asyncWrite 200 3) ++ serving 0 .doWrite (.fail (.other 32))) :=
  ⟨⟨_, rfl, by decide⟩, truthful_always 0 7 _ (by decide)⟩

/-- A read of no bytes is answered by 0, and reported with `EBADF`. -/
theorem empty_read_fails :
    ∃ c, run (replyMachine (0 : Fin 1)) (replyInit (Fin 1) 7)
        (submission 0 (.asyncRead 100 0) ++ serving 0 .doRead (.bytes 0)) = some c ∧
      c.trace = [.base (.accepted .read 0), .replied .read 0 0 (.bytes 0),
        .base (.io .read 0 .own), .base (.left .read 0 .taken),
        .base (.invoked 0 (.systemError .EBADF) 0)] ∧
      ¬ Truthful c := by
  refine ⟨_, rfl, rfl, fun h => ?_⟩
  have hreason := Allowed.of_mem h.reported [.base (.accepted .read 0),
    .replied .read 0 0 (.bytes 0), .base (.io .read 0 .own), .base (.left .read 0 .taken)]
    (.base (.invoked 0 (.systemError .EBADF) 0)) [] rfl 0 _ 0 rfl rfl
  cases hreason with
  | closed hmem => exact absurd hmem (by decide)
  | failed hmem he => simp at hmem
  | ended hmem hlen =>
    simp at hmem
    omega

end Spinet.Socket
