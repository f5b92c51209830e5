import Spinet.Socket.Closing

/-!
# close under a weak exchange

`close` begins with a `compare_exchange_weak` on `closed_`, which may fail although the socket is
open. It returns then, as it does when another call has closed the socket before. The machine here
is that of `Spinet.Socket.Machine` with such failures (`weakFail`), and with the returns of `close`
as events; `~TcpSocket` is a call of `close`.

`effective_always_iff` says what `close` gives its caller: in a run every return of `close` leaves
the socket closed, and the only call of `close` has closed the descriptor and drained both queues,
exactly when no exchange fails on a socket that is open.
-/

namespace Spinet.Socket

open Transition Stacks

/-- What can be seen of a run. -/
inductive WeakEvent
  /-- An event of the socket. -/
  | base (e : Event)
  /-- A call of `close` returned: `closed` is `closed_` then, and `alone` says that no other call of
  `close` had begun. -/
  | returned (closed alone : Bool)
deriving DecidableEq, Repr

/-- The state of the socket, and the number of calls of `close` begun, which the code does not
count. -/
structure WeakState (T : Type*) where
  /-- The socket and its threads. -/
  base : State T
  /-- The number of calls of `close` begun so far. -/
  closes : ℕ

/-- A step of the system. -/
inductive WeakAction (T : Type*)
  /-- A step in which no exchange fails on equality. -/
  | base (a : Action T)
  /-- The exchange of a call of `close` fails whatever `closed_` is. -/
  | weakFail (t : T)
deriving DecidableEq, Repr

variable {T : Type*}

/-- Whether the action is a call of `close`. -/
def Action.closes : Action T → Bool
  | .thread _ (.call .close) => true
  | _ => false

/-- Whether the action is the last step of a call of `close`. -/
def Action.returns (s : State T) : Action T → Bool
  | .thread t (.go _) =>
    match s.stack t with
    | .close .cas :: _ => s.sock.closed
    | .close (.drain .write (.test _ _)) :: _ => (s.sock.queue .write).isEmpty
    | _ => false
  | _ => false

variable [DecidableEq T]

/-- The step of an action. -/
def weakStep (rt : T) (w : WeakState T) : WeakAction T → Option (WeakState T × List WeakEvent)
  | .base a =>
    (step rt w.base a).map fun (s, es) =>
      let closes := w.closes + if a.closes then 1 else 0
      ({ base := s, closes := closes },
        es.map .base ++
          if a.returns w.base then [.returned s.sock.closed (decide (closes = 1))] else [])
  | .weakFail t =>
    match w.base.stack t with
    | .close .cas :: rest =>
      some ({ w with base := { w.base with stack := Function.update w.base.stack t rest } },
        [.returned w.base.sock.closed (decide (w.closes = 1))])
    | _ => none

/-- The machine of one socket, with failures of the exchange. -/
def weakMachine (rt : T) : Machine (WeakState T) (WeakAction T) WeakEvent := ⟨weakStep rt⟩

/-- A new socket, with no call in progress. -/
def weakInit (T : Type*) (fd : ℕ) : Config (WeakState T) WeakEvent :=
  { state := { base := (init T fd).state, closes := 0 }, trace := [] }

/-- A return of `close` leaves the socket closed; if it was the only call, the descriptor has been
closed and both drain loops are over. -/
def EffectiveReturn (past : List WeakEvent) (e : WeakEvent) : Prop :=
  ∀ closed alone, e = .returned closed alone → closed = true ∧
    (alone = true → .base .sysClose ∈ past ∧
      ∀ d, ∃ iters bound, .base (.drained d iters bound) ∈ past)

/-- Every return of `close` so far was effective. -/
def Effective (c : Config (WeakState T) WeakEvent) : Prop := Allowed EffectiveReturn c.trace

/-- The condition on a step: no exchange fails on a socket that is open. -/
def NotSpurious (c : Config (WeakState T) WeakEvent) : WeakAction T → Prop
  | .base _ => True
  | .weakFail _ => c.state.base.sock.closed = true

instance (c : Config (WeakState T) WeakEvent) (a : WeakAction T) : Decidable (NotSpurious c a) := by
  unfold NotSpurious
  split <;> infer_instance

/-! ## What has been done -/

/-- Whether the frame is a call of `close` about to make its exchange. -/
def Frame.atCas : Frame → Bool
  | .close .cas => true
  | _ => false

/-- What a call of `close` has done on its way to its place. -/
def Done (closed : Bool) (tr : List WeakEvent) : Frame → Prop
  | .close .deregister | .close .sysClose => closed = true
  | .close (.drain .read _) => closed = true ∧ .base .sysClose ∈ tr
  | .close (.drain .write _) => closed = true ∧ .base .sysClose ∈ tr ∧
    ∃ iters bound, .base (.drained .read iters bound) ∈ tr
  | _ => True

/-- Which calls of `close` may be about to make their exchange, by the number of those begun. -/
inductive AtCas (s : State T) : ℕ → Prop
  /-- None has begun. -/
  | none : s.sock.closed = false → Guarded Frame.atCas none s.stack → AtCas s 0
  /-- One has begun and is about to make its exchange. -/
  | one (t : T) : s.sock.closed = false → Guarded Frame.atCas (some t) s.stack → AtCas s 1
  /-- One has begun and has made its exchange. -/
  | past : Guarded Frame.atCas Option.none s.stack → AtCas s 1
  /-- More than one has begun. -/
  | many (n : ℕ) : AtCas s (n + 2)

/-- What holds of every configuration. -/
structure WeakInv (c : Config (WeakState T) WeakEvent) : Prop where
  /-- Every call of `close` has done what comes before its place. -/
  done : ∀ t, ∀ f ∈ c.state.base.stack t, Done c.state.base.sock.closed c.trace f
  /-- The only call of `close` finds the socket open. -/
  atCas : AtCas c.state.base c.state.closes

omit [DecidableEq T] in
/-- What has been done stays done. -/
theorem Done.mono {b b' : Bool} {tr : List WeakEvent} {f : Frame} (h : Done b tr f)
    (hb : b = true → b' = true) (es : List WeakEvent) : Done b' (tr ++ es) f := by
  cases f with
  | close pc =>
    cases pc with
    | cas => trivial
    | deregister | sysClose => exact hb h
    | drain d pc =>
      cases d with
      | read => exact ⟨hb h.1, List.mem_append_left _ h.2⟩
      | write =>
        obtain ⟨hc, hsys, iters, bound, hread⟩ := h
        exact ⟨hb hc, List.mem_append_left _ hsys, iters, bound, List.mem_append_left _ hread⟩
  | _ => trivial

omit [DecidableEq T] in
/-- The frames after a step have done what comes before their places. -/
theorem Advance.done {sh sh' : Shared T} {t : T} {f : Frame} {fs : List Frame} {es : List Event}
    {tr : List WeakEvent} (h : Advance sh t f fs sh' es) (es' : List WeakEvent)
    (hf : Done sh.sock.closed tr f) : ∀ g ∈ fs,
      Done sh'.sock.closed (tr ++ (es.map .base ++ es')) g := by
  intro g hg
  cases h with
  | closeWon =>
    obtain rfl := List.mem_singleton.1 hg
    rfl
  | closeDeregister =>
    obtain rfl := List.mem_singleton.1 hg
    exact hf
  | closeSys =>
    obtain rfl := List.mem_singleton.1 hg
    exact ⟨hf, by simp⟩
  | @drainRead iters bound =>
    obtain rfl := List.mem_singleton.1 hg
    exact ⟨hf.1, List.mem_append_left _ hf.2, iters, bound, by simp⟩
  | @drainLock d ho | @drainPop d | @drainRelock d ho =>
    obtain rfl := List.mem_singleton.1 hg
    cases d <;> exact Done.mono hf id _
  | @drainCall d =>
    rcases List.mem_cons.1 hg with rfl | hg
    · trivial
    · obtain rfl := List.mem_singleton.1 hg
      cases d <;> exact Done.mono hf id _
  | submitLock | submitTest | cancelLock | ioLock | ioTest | ioExec | ioPop | ioCall =>
    obtain rfl := List.mem_singleton.1 hg
    trivial
  | submitReject | submitPush | cancelClear | closeLost | drainWrite | ioClosed | ioEmpty
  | ioKeep =>
    cases hg

omit [DecidableEq T] in
/-- Only a step at the exchange takes the frame from there, and none puts one there. -/
theorem Advance.atCas {sh sh' : Shared T} {t : T} {f : Frame} {fs : List Frame} {es : List Event}
    (h : Advance sh t f fs sh' es) : fs.countP Frame.atCas = 0 := by
  cases h <;> rfl

/-- A call begins at its exchange only if it is a call of `close`. -/
theorem Call.frame_atCas (c : Call) (op : OpId) : (c.frame op).atCas = decide (c = .close) := by
  cases c <;> rfl

/-- What is known of the calls of `close` depends on `closed_` and on the frames at the exchange
only. -/
theorem AtCas.keep {s s' : State T} {n : ℕ} (h : AtCas s n)
    (hclosed : s'.sock.closed = s.sock.closed)
    (hstack : ∀ o, Guarded Frame.atCas o s.stack → Guarded Frame.atCas o s'.stack) :
    AtCas s' n := by
  cases h with
  | none hopen hg => exact .none (hclosed.trans hopen) (hstack _ hg)
  | one t hopen hg => exact .one t (hclosed.trans hopen) (hstack _ hg)
  | past hg => exact .past (hstack _ hg)
  | many n => exact .many n

/-- A frame at the exchange is taken from its stack. -/
theorem AtCas.leave {s s' : State T} {n : ℕ} {t : T} {f : Frame}
    {rest : List Frame} (fs : List Frame) (h : AtCas s n) (hst : s.stack t = f :: rest)
    (hf : f.atCas = true)
    (hfs : fs.countP Frame.atCas = 0)
    (hstack : s'.stack = Function.update s.stack t (fs ++ rest)) : AtCas s' n := by
  have hrelease : ∀ o, Guarded Frame.atCas o s.stack →
      Guarded Frame.atCas Option.none s'.stack := by
    intro o hg
    rw [hstack]
    refine hg.release (by rw [hst, List.countP_append, List.countP_cons_of_pos hf]; omega)
  cases h with
  | none hopen hg =>
    have := hg.not_holds_of_free (t := t) (f := f) (by simp [hst])
    rw [hf] at this
    cases this
  | one u hopen hg => exact .past (hrelease _ hg)
  | past hg => exact .past (hrelease _ hg)
  | many n => exact .many n

omit [DecidableEq T] in
/-- Only the exchange changes `closed_`. -/
theorem Advance.closed_eq {sh sh' : Shared T} {t : T} {f : Frame} {fs : List Frame}
    {es : List Event} (h : Advance sh t f fs sh' es) (hf : f.atCas = false) :
    sh'.sock.closed = sh.sock.closed := by
  cases h with
  | closeWon => cases hf
  | _ => rfl

variable {rt : T} {c : Config (WeakState T) WeakEvent} {s' : State T} {es : List Event}

/-- A step of the socket keeps what has been done. -/
theorem WeakInv.done_step (h : WeakInv c) (hs : Step rt c.state.base s' es)
    (es' : List WeakEvent) : ∀ t, ∀ f ∈ s'.stack t,
      Done s'.sock.closed (c.trace ++ (es.map .base ++ es')) f := by
  have hstep := frames_step (I := fun sh es f => Done sh.sock.closed (c.trace ++ es.map .base) f) []
    (fun t f hf => by simpa using h.done t f hf) hs
    (fun call => by cases call <;> trivial) ?_ (fun conn f hf => hf)
  · intro t f hf
    have hdone := (hstep t f hf).mono id es'
    rwa [List.nil_append, List.append_assoc] at hdone
  · intro t f rest fs sh hst ha
    refine ⟨fun g hg => ?_, fun u g _ _ hg => ?_⟩
    · have hdone := ha.done [] (h.done t f (by simp [hst])) g hg
      simpa using hdone
    · have hdone := hg.mono ha.closed (es.map .base)
      simpa using hdone

/-- A step of the socket keeps the account of the calls about to make their exchange. -/
theorem AtCas.step {s : State T} {n : ℕ} {a : Action T} (h : AtCas s n)
    (hs : (machine rt).step s a = some (s', es)) :
    AtCas s' (n + if a.closes then 1 else 0) := by
  cases a with
  | reuse conn =>
    simp only [machine, Socket.step, Option.ite_none_right_eq_some, Option.some.injEq,
      Prod.mk.injEq] at hs
    obtain ⟨-, rfl, rfl⟩ := hs
    exact h.keep rfl fun _ hg => hg
  | thread t ch =>
    cases ch with
    | call call =>
      simp only [machine, Socket.step, Option.ite_none_right_eq_some, Option.some.injEq,
        Prod.mk.injEq] at hs
      obtain ⟨-, rfl, rfl⟩ := hs
      by_cases hcall : call = .close
      · subst hcall
        -- The new call is about to make its exchange.
        cases h with
        | none hopen hg =>
          exact .one t hopen (hg.acquire (by rw [List.countP_cons_of_pos (by rfl)]))
        | one | past => exact .many 0
        | many n => exact .many (n + 1)
      · have hclose : (Action.thread t (.call call)).closes = false := by
          cases call <;> first | exact absurd rfl hcall | rfl
        have hframe : (call.frame s.nextOp).atCas = false := by
          rw [Call.frame_atCas, decide_eq_false hcall]
        rw [hclose]
        refine h.keep rfl fun o hg => hg.keep ?_
        rw [List.countP_cons_of_neg (by simp [hframe])]
    | ret =>
      simp only [machine, Socket.step] at hs
      split at hs
      case h_2 => cases hs
      rename_i op rest hst
      obtain ⟨rfl, rfl⟩ := Prod.mk.inj (Option.some.inj hs)
      refine h.keep rfl fun o hg => hg.keep ?_
      rw [hst]
      rfl
    | go reply =>
      simp only [machine, Socket.step] at hs
      split at hs
      case h_2 => cases hs
      rename_i f rest hst
      obtain ⟨⟨fs, sh, es'⟩, hadv, hres⟩ := Option.map_eq_some_iff.1 hs
      obtain ⟨rfl, rfl⟩ := Prod.mk.inj hres
      have ha := advance_cases hadv
      cases hf : f.atCas with
      | true => exact h.leave fs hst hf ha.atCas rfl
      | false =>
        refine h.keep (ha.closed_eq hf) fun o hg => hg.keep ?_
        rw [hst, List.countP_append, ha.atCas, List.countP_cons_of_neg (by simp [hf]), Nat.zero_add]

/-- A call of `close` that finds the socket closed is not the only one. -/
theorem AtCas.not_alone {s : State T} {n : ℕ} {t : T} {rest : List Frame} (h : AtCas s n)
    (hst : s.stack t = .close .cas :: rest) (hclosed : s.sock.closed = true) : n ≠ 1 := by
  rintro rfl
  cases h with
  | one u hopen hg =>
    rw [hclosed] at hopen
    cases hopen
  | past hg =>
    have := hg.not_holds_of_free (t := t) (f := .close .cas) (by simp [hst])
    cases this

/-- The events of the socket are not returns. -/
theorem effective_base {tr : List WeakEvent} (h : Allowed EffectiveReturn tr) (es : List Event) :
    Allowed EffectiveReturn (tr ++ es.map .base) := by
  refine allowed_append.2 ⟨h, ?_⟩
  induction es generalizing tr with
  | nil => trivial
  | cons e es ih =>
    have hbase : EffectiveReturn tr (.base e) := fun closed alone he => by cases he
    exact ⟨hbase, ih (allowed_append.2 ⟨h, hbase, trivial⟩)⟩

/-- What is to be shown of a return of `close`. -/
theorem effective_return {tr : List WeakEvent} {closed alone : Bool}
    (h : Allowed EffectiveReturn tr)
    (hclosed : closed = true) (halone : alone = true → .base .sysClose ∈ tr ∧
      ∀ d, ∃ iters bound, .base (.drained d iters bound) ∈ tr) :
    Allowed EffectiveReturn (tr ++ [.returned closed alone]) := by
  refine allowed_append.2 ⟨h, fun b₁ b₂ he => ?_, trivial⟩
  obtain ⟨rfl, rfl⟩ := WeakEvent.returned.inj he
  exact ⟨hclosed, halone⟩

/-- A step in which no exchange fails on equality keeps the invariant and is effective. -/
theorem base_keeps {a : Action T} {c' : Config (WeakState T) WeakEvent} (hI : WeakInv c)
    (hE : Effective c) (hn : next (weakMachine rt) c (.base a) = some c') :
    WeakInv c' ∧ Effective c' := by
  obtain ⟨w, es, hs, rfl⟩ := next_eq_some _ hn
  obtain ⟨⟨s', es'⟩, hr, hres⟩ := Option.map_eq_some_iff.1 hs
  obtain ⟨rfl, rfl⟩ := Prod.mk.inj hres
  have hstep := step_cases hr
  refine ⟨⟨hI.done_step hstep _, hI.atCas.step hr⟩, ?_⟩
  have hbase := effective_base hE es'
  by_cases hret : a.returns c.state.base = true
  · rw [if_pos hret, ← List.append_assoc]
    unfold Action.returns at hret
    split at hret
    case h_2 => cases hret
    rename_i t reply
    simp only [step] at hr
    split at hret
    · -- It has found the socket closed, so it is not the only call.
      rename_i rest hst
      rw [hst] at hr
      simp only [advance, hret, if_true, Option.map_some, Option.some.injEq, Prod.mk.injEq] at hr
      obtain ⟨rfl, rfl⟩ := hr
      refine effective_return hbase hret fun halone => ?_
      exact absurd (of_decide_eq_true halone) (hI.atCas.not_alone hst hret)
    · -- It has come from its exchange through both drain loops.
      rename_i iters bound rest hst
      obtain ⟨hclosed, hsys, iters', bound', hread⟩ :=
        hI.done t (.close (.drain .write (.test iters bound))) (by simp [hst])
      rw [hst] at hr
      simp only [advance, List.isEmpty_iff.1 hret, Option.map_some, Option.some.injEq,
        Prod.mk.injEq] at hr
      obtain ⟨rfl, rfl⟩ := hr
      refine effective_return hbase hclosed fun _ => ⟨List.mem_append_left _ hsys, fun d => ?_⟩
      cases d with
      | read => exact ⟨iters', bound', List.mem_append_left _ hread⟩
      | write => exact ⟨iters, bound, by simp⟩
    · cases hret
  · rw [if_neg hret, List.append_nil]
    exact hbase

/-- An exchange that fails on a socket that is closed does no harm. -/
theorem weakFail_keeps {t : T} {c' : Config (WeakState T) WeakEvent} (hI : WeakInv c)
    (hE : Effective c) (hC : c.state.base.sock.closed = true)
    (hn : next (weakMachine rt) c (.weakFail t) = some c') : WeakInv c' ∧ Effective c' := by
  obtain ⟨w, es, hs, rfl⟩ := next_eq_some _ hn
  simp only [weakMachine, weakStep] at hs
  split at hs
  case h_2 => cases hs
  rename_i rest hst
  obtain ⟨rfl, rfl⟩ := Prod.mk.inj (Option.some.inj hs)
  refine ⟨⟨fun u f hf => ?_, hI.atCas.leave [] hst rfl rfl rfl⟩, ?_⟩
  · have hmem : f ∈ c.state.base.stack u := by
      rcases mem_update.1 hf with ⟨rfl, hold⟩ | ⟨-, hold⟩
      · rw [hst]
        exact List.mem_cons_of_mem _ hold
      · exact hold
    exact (hI.done u f hmem).mono id _
  · refine effective_return hE hC fun halone => ?_
    exact absurd (of_decide_eq_true halone) (hI.atCas.not_alone hst hC)

/-- An exchange that fails on an open socket leaves it open. -/
theorem weakFail_breaks {t : T} {c' : Config (WeakState T) WeakEvent}
    (hC : ¬ c.state.base.sock.closed = true)
    (hn : next (weakMachine rt) c (.weakFail t) = some c') : ¬ Effective c' := by
  obtain ⟨w, es, hs, rfl⟩ := next_eq_some _ hn
  simp only [weakMachine, weakStep] at hs
  split at hs
  case h_2 => cases hs
  obtain ⟨rfl, rfl⟩ := Prod.mk.inj (Option.some.inj hs)
  intro hE
  have hlast := Allowed.of_mem hE c.trace _ [] rfl
  exact hC (hlast _ _ rfl).1

/-- In a run every return of `close` leaves the socket closed, and the only call of `close` has
closed the descriptor and drained both queues, exactly when no exchange fails on an open socket. -/
theorem effective_always_iff (rt : T) (fd : ℕ) (as : List (WeakAction T)) :
    Always (weakMachine rt) Effective (weakInit T fd) as ↔
      Steps (weakMachine rt) NotSpurious (weakInit T fd) as := by
  refine always_iff_steps (I := WeakInv) ?_ ?_ ?_ trivial
  · intro c a c' hI hE hC hn
    cases a with
    | base a => exact base_keeps hI hE hn
    | weakFail t => exact weakFail_keeps hI hE hC hn
  · intro c a c' hI hE hC hn
    cases a with
    | base a => exact absurd trivial hC
    | weakFail t => exact weakFail_breaks hC hn
  · exact ⟨fun t f hf => absurd hf List.not_mem_nil, .none rfl (Guarded.init fun _ => rfl)⟩

end Spinet.Socket
