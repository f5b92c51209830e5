import Spinet.Socket.Closing

/-!
# Every accepted operation completes exactly once

`Account` balances the books over the two queues, the stacks, and the trace: the accepted operations
of a side are those that have left its queue followed by those still in it, every operation taken
off a queue has been invoked or some frame is about to invoke it, and every operation is named by
one submission. Each is a local balance of a step (`Advance.taken_balance`, `Advance.named_balance`,
and the effect on a side), added up over the threads by `Stacks.total`.

`ExactlyOnce` is what follows for the user of a socket, in every configuration of every run. The
threads are finitely many, as they are in every run, so that frames can be counted over all of them.
-/

namespace Spinet.Socket

open Transition Stacks

/-- The event accepts operation `op`. -/
def Event.isAccepted (op : OpId) : Event → Bool
  | .accepted _ op' => decide (op' = op)
  | _ => false

/-- The event refuses operation `op`. -/
def Event.isRejected (op : OpId) : Event → Bool
  | .rejected _ op' => decide (op' = op)
  | _ => false

/-- In the event operation `op` leaves its queue in the given way. -/
def Event.isLeft (how : Exit) (op : OpId) : Event → Bool
  | .left _ op' how' => decide (op' = op ∧ how' = how)
  | _ => false

/-- The event invokes the callback of operation `op`. -/
def Event.isInvoked (op : OpId) : Event → Bool
  | .invoked op' _ _ => decide (op' = op)
  | _ => false

/-- Whether the frame is about to invoke the callback of operation `op`. -/
def Frame.aboutTo (op : OpId) : Frame → Bool
  | .close (.drain _ (.call op' _ _ _)) => decide (op' = op)
  | .doIo _ (.call op' _ _) => decide (op' = op)
  | _ => false

/-- Whether the frame is the submission of operation `op`. -/
def Frame.submits (op : OpId) : Frame → Bool
  | .submit _ op' _ _ _ _ => decide (op' = op)
  | _ => false

variable {T : Type*}

/-- How often the callback of operation `op` has been invoked. -/
def invokedCount (op : OpId) (c : Config (State T) Event) : ℕ := c.trace.countP (Event.isInvoked op)

/-- How many frames are about to invoke the callback of operation `op`. -/
def aboutToCount [Fintype T] (op : OpId) (c : Config (State T) Event) : ℕ :=
  total (Frame.aboutTo op) c.state.stack

/-- What can have become of an accepted operation. -/
inductive Fate
  /-- It is still queued. -/
  | queued
  /-- `do_read`, `do_write`, or `close` took it off its queue. -/
  | taken
  /-- `cancel` removed it. -/
  | cancelled
deriving DecidableEq, Repr

/-- The fate of an operation, by the queues and the trace. -/
def HasFate (c : Config (State T) Event) (op : OpId) : Fate → Prop
  | .queued => ∃ d, op ∈ queued d c.state.sock
  | .taken => ∃ d, .left d op .taken ∈ c.trace
  | .cancelled => ∃ d, .left d op .cancelled ∈ c.trace

/-- The callback of operation `op` has not been invoked, and no frame is about to invoke it. -/
def Uninvoked [Fintype T] (c : Config (State T) Event) (op : OpId) : Prop :=
  invokedCount op c = 0 ∧ aboutToCount op c = 0

/-- Every accepted operation completes exactly once. -/
structure ExactlyOnce [Fintype T] (c : Config (State T) Event) : Prop where
  /-- An accepted operation has exactly one of the three fates. -/
  fate : ∀ d op, .accepted d op ∈ c.trace → ∃! fate, HasFate c op fate
  /-- A queued operation has not been invoked. -/
  queued : ∀ op, HasFate c op .queued → Uninvoked c op
  /-- The callback of an operation taken off its queue has been invoked, or is about to be, once. -/
  taken : ∀ op, HasFate c op .taken → invokedCount op c + aboutToCount op c = 1
  /-- A cancelled operation is never invoked. -/
  cancelled : ∀ op, HasFate c op .cancelled → Uninvoked c op
  /-- A rejected operation has none of the fates and is never invoked. -/
  rejected : ∀ d op, .rejected d op ∈ c.trace → (∀ fate, ¬ HasFate c op fate) ∧ Uninvoked c op
  /-- Operations leave each queue in the order in which they were accepted. -/
  order : ∀ d, acceptedOf d c.trace = leftOf d c.trace ++ Socket.queued d c.state.sock
  /-- After `close` has returned both queues are empty. -/
  closed : .closeReturned ∈ c.trace → ∀ d, c.state.sock.queue d = []
  /-- A drain loop runs at most once for each operation it found when it first had the mutex. -/
  drained : ∀ d iters bound, .drained d iters bound ∈ c.trace → iters ≤ bound

/-! ## The books -/

/-- The books over the queues, the stacks, and the trace. -/
structure Account [Fintype T] (c : Config (State T) Event) : Prop where
  /-- The accepted operations of a side have left its queue, in order, or are in it. -/
  order : ∀ d, acceptedOf d c.trace = leftOf d c.trace ++ queued d c.state.sock
  /-- An operation that was taken has been invoked, or is about to be. -/
  taken : ∀ op, c.trace.countP (Event.isLeft .taken op) = invokedCount op c + aboutToCount op c
  /-- An operation belongs to at most one submission, and to none before it is named. -/
  named : ∀ op, c.trace.countP (Event.isAccepted op) + c.trace.countP (Event.isRejected op) +
    total (Frame.submits op) c.state.stack ≤ if op < c.state.nextOp then 1 else 0

theorem countP_clearEvents {p : Event → Bool} (hp : ∀ d op, p (.left d op .cancelled) = false)
    (d : Dir) (q : List (Task × OpId)) : (clearEvents d q).countP p = 0 := by
  simp [clearEvents, hp]

section Steps

variable {sh sh' : Shared T} {t : T} {f : Frame} {fs : List Frame} {es : List Event}

/-- A step that takes an operation off a queue is about to invoke it, and only a step that was about
to invoke it does. -/
theorem Advance.taken_balance (h : Advance sh t f fs sh' es) (op : OpId) :
    es.countP (Event.isLeft .taken op) + [f].countP (Frame.aboutTo op)
      = es.countP (Event.isInvoked op) + fs.countP (Frame.aboutTo op) := by
  cases h with
  | cancelClear =>
    have hleft := countP_clearEvents (p := Event.isLeft .taken op) fun _ _ => by simp [Event.isLeft]
    have hinvoked := countP_clearEvents (p := Event.isInvoked op) fun _ _ => rfl
    simp [List.countP_append, hleft, hinvoked, Frame.aboutTo]
  | @ioExec d task op' _ reply =>
    rcases exec_logIo task d op' sh.desc reply sh.sock.fd with hw | hw <;>
      simp [hw, Event.isLeft, Event.isInvoked, Frame.aboutTo]
  | _ => simp [Event.isLeft, Event.isInvoked, Frame.aboutTo, List.countP_cons, add_comm]

/-- A submission ends by accepting or refusing its operation. -/
theorem Advance.named_balance (h : Advance sh t f fs sh' es) (op : OpId) :
    es.countP (Event.isAccepted op) + es.countP (Event.isRejected op)
      + fs.countP (Frame.submits op) = [f].countP (Frame.submits op) := by
  cases h with
  | cancelClear =>
    have haccepted := countP_clearEvents (p := Event.isAccepted op) fun _ _ => rfl
    have hrejected := countP_clearEvents (p := Event.isRejected op) fun _ _ => rfl
    simp [List.countP_append, haccepted, hrejected, Frame.submits]
  | @ioExec d task op' _ reply =>
    rcases exec_logIo task d op' sh.desc reply sh.sock.fd with hw | hw <;>
      simp [hw, Event.isAccepted, Event.isRejected, Frame.submits]
  | _ => simp [Event.isAccepted, Event.isRejected, Frame.submits, List.countP_cons]

/-- A step moves operations through the queue of a side in order. -/
theorem Advance.order (h : Advance sh t f fs sh' es) (hf : AtFront sh f) (d : Dir)
    {accepted left : List OpId} (hord : accepted = left ++ queued d sh.sock) :
    accepted ++ acceptedOf d es = left ++ leftOf d es ++ queued d sh'.sock := by
  rcases h.effect d with ⟨-, -, hq, ha, hl⟩ | ⟨-, -, -, hq, ha, hl⟩ | ⟨-, -, -, hq, ha, hl⟩ |
    ⟨task, op, -, -, -, hq, ha, hl, -⟩ | ⟨op, -, -, -, hq, ha, hl, hfront⟩ |
    ⟨-, -, -, hq, ha, hl⟩
  iterate 3 simp [ha, hl, queued, hq, hord]
  · simp [ha, hl, queued, hq, hord]
  -- What is taken is the front: it goes from the head of the queue to the end of those that left.
  · have hhead := hfront hf
    obtain ⟨tail, htail⟩ := List.head?_eq_some_iff.1 hhead
    have hq' : queued d sh'.sock = tail := by
      rw [queued, hq, List.map_tail, ← queued, htail]; rfl
    calc accepted ++ acceptedOf d es = left ++ (op :: tail) := by
          rw [ha, hord, htail, List.append_nil]
      _ = left ++ [op] ++ tail := by rw [List.append_assoc, List.singleton_append]
      _ = left ++ leftOf d es ++ queued d sh'.sock := by rw [hl, hq']
  · simp [ha, hl, queued, hq, hord]

end Steps

/-! ## Runs -/

variable [Fintype T]

/-- A new socket. -/
theorem account_init (fd : ℕ) : Account (init T fd) where
  order := fun d => by simp [init, acceptedOf, leftOf, queued, TcpSocket.new]
  taken := fun op => by simp [init, invokedCount, aboutToCount, total]
  named := fun op => by simp [init, total]

variable [DecidableEq T] {rt : T} {c : Config (State T) Event} {s' : State T} {es : List Event}

/-- Every step keeps the books balanced. -/
theorem Account.step (hI : Inv c.state) (h : Account c) (hs : Step rt c.state s' es) :
    Account ⟨s', c.trace ++ es⟩ := by
  cases hs with
  | @call t call hm =>
    refine ⟨fun d => ?_, fun op => ?_, fun op => ?_⟩
    · simpa using h.order d
    · have hpush := total_push (Frame.aboutTo op) c.state.stack t (call.frame c.state.nextOp)
      have hnone : [call.frame c.state.nextOp].countP (Frame.aboutTo op) = 0 := by
        cases call <;> rfl
      have htaken := h.taken op
      simp only [invokedCount, aboutToCount, List.append_nil] at htaken ⊢
      omega
    · have hpush := total_push (Frame.submits op) c.state.stack t (call.frame c.state.nextOp)
      have hone : [call.frame c.state.nextOp].countP (Frame.submits op)
          ≤ if op = c.state.nextOp then 1 else 0 := by
        cases call <;> simp [Call.frame, Frame.submits, List.countP_cons, eq_comm]
      have hnamed := h.named op
      simp only [List.append_nil]
      -- Only the operation that the call names now has a new frame, and it had none before.
      rcases Nat.lt_trichotomy op c.state.nextOp with hlt | rfl | hgt
      · rw [if_neg (Nat.ne_of_lt hlt)] at hone
        rw [if_pos hlt] at hnamed
        rw [if_pos (Nat.lt_succ_of_lt hlt)]
        omega
      · rw [if_pos rfl] at hone
        rw [if_neg (Nat.lt_irrefl _)] at hnamed
        rw [if_pos (Nat.lt_succ_self _)]
        omega
      · rw [if_neg (Nat.ne_of_gt hgt)] at hone
        rw [if_neg (Nat.lt_asymm hgt)] at hnamed
        omega
  | @ret t op' rest hst =>
    refine ⟨fun d => ?_, fun op => ?_, fun op => ?_⟩
    · simpa using h.order d
    · have hsame : total (Frame.aboutTo op) (Function.update c.state.stack t rest)
          = total (Frame.aboutTo op) c.state.stack :=
        total_update_of_eq (by simp [hst, Frame.aboutTo])
      simpa [invokedCount, aboutToCount, hsame] using h.taken op
    · have hsame : total (Frame.submits op) (Function.update c.state.stack t rest)
          = total (Frame.submits op) c.state.stack :=
        total_update_of_eq (by simp [hst, Frame.submits])
      simpa [hsame] using h.named op
  | @go t f rest fs sh _ hst ha =>
    refine ⟨fun d => ?_, fun op => ?_, fun op => ?_⟩
    · rw [acceptedOf_append, leftOf_append]
      exact ha.order (hI.front t f (top_mem hst)) d (h.order d)
    · have htaken := h.taken op
      have hbal := ha.taken_balance op
      have htotal := total_replace (Frame.aboutTo op) hst fs
      simp only [invokedCount, aboutToCount, List.countP_append] at htaken ⊢
      omega
    · have hnamed := h.named op
      have hbal := ha.named_balance op
      have htotal := total_replace (Frame.submits op) hst fs
      simp only [List.countP_append]
      omega
  | reuse conn hd =>
    rw [List.append_nil]
    exact ⟨h.order, h.taken, h.named⟩

/-- The books are balanced in every reachable configuration. -/
theorem account_of_reachable {fd : ℕ} (h : Reachable (machine rt) (init T fd) c) : Account c := by
  refine h.invariant_of (J := fun c => Inv c.state) (fun _ => inv_of_reachable) (account_init fd) ?_
  intro c a c' hI _ hA _ hn
  obtain ⟨s', es, hs, rfl⟩ := next_eq_some _ hn
  exact hA.step hI (step_cases hs)

/-! ## What the books say of one operation -/

section Fates

omit [Fintype T] [DecidableEq T]

/-- The operations accepted on either side, counted in the trace. -/
theorem count_acceptedOf (op : OpId) (tr : List Event) :
    (acceptedOf .read tr).count op + (acceptedOf .write tr).count op
      = tr.countP (Event.isAccepted op) := by
  induction tr with
  | nil => rfl
  | cons e tr ih =>
    cases e with
    | accepted d op' =>
      cases d <;>
        simp [acceptedOf, Event.isAccepted, List.count_cons, List.countP_cons] at ih ⊢ <;> omega
    | _ => simpa [acceptedOf, Event.isAccepted, List.count_cons, List.countP_cons] using ih

/-- The operations that have left either queue, counted in the trace. -/
theorem count_leftOf (op : OpId) (tr : List Event) :
    (leftOf .read tr).count op + (leftOf .write tr).count op
      = tr.countP (Event.isLeft .taken op) + tr.countP (Event.isLeft .cancelled op) := by
  induction tr with
  | nil => rfl
  | cons e tr ih =>
    cases e with
    | left d op' how =>
      cases d <;> cases how <;>
        simp [leftOf, Event.isLeft, List.count_cons, List.countP_cons] at ih ⊢ <;> omega
    | _ => simpa [leftOf, Event.isLeft, List.count_cons, List.countP_cons] using ih

/-- How many operations named `op` have a fate. -/
def fateCount (c : Config (State T) Event) (op : OpId) : Fate → ℕ
  | .queued => (queued .read c.state.sock).count op + (queued .write c.state.sock).count op
  | .taken => c.trace.countP (Event.isLeft .taken op)
  | .cancelled => c.trace.countP (Event.isLeft .cancelled op)

/-- An operation left its queue in the given way exactly when this is counted. -/
theorem left_iff_count (how : Exit) (op : OpId) (tr : List Event) :
    (∃ d, .left d op how ∈ tr) ↔ 0 < tr.countP (Event.isLeft how op) := by
  rw [List.countP_pos_iff]
  constructor
  · rintro ⟨d, hd⟩
    exact ⟨_, hd, by simp [Event.isLeft]⟩
  · rintro ⟨e, he, hp⟩
    unfold Event.isLeft at hp
    split at hp
    · rename_i d op' how'
      obtain ⟨rfl, rfl⟩ : op' = op ∧ how' = how := by simpa using hp
      exact ⟨d, he⟩
    · simp at hp

/-- An operation has a fate exactly when it is counted for it. -/
theorem hasFate_iff_count {c : Config (State T) Event} {op : OpId} (fate : Fate) :
    HasFate c op fate ↔ 0 < fateCount c op fate := by
  cases fate with
  | queued =>
    have hcount : ∀ d, op ∈ queued d c.state.sock ↔ 0 < (queued d c.state.sock).count op :=
      fun d => List.count_pos_iff.symm
    simp only [HasFate, fateCount]
    constructor
    · rintro ⟨_ | _, hd⟩
      all_goals
        have := (hcount _).1 hd
        omega
    · intro hpos
      rcases Nat.eq_zero_or_pos ((queued .read c.state.sock).count op) with h0 | h0
      · exact ⟨.write, (hcount .write).2 (by omega)⟩
      · exact ⟨.read, (hcount .read).2 h0⟩
  | taken => exact left_iff_count .taken op c.trace
  | cancelled => exact left_iff_count .cancelled op c.trace

end Fates

omit [DecidableEq T] in
/-- An accepted operation is counted for one fate. -/
theorem Account.fates (h : Account c) (op : OpId) :
    c.trace.countP (Event.isAccepted op)
      = fateCount c op .queued + fateCount c op .taken + fateCount c op .cancelled := by
  have hsplit : ∀ d, (acceptedOf d c.trace).count op
      = (leftOf d c.trace).count op + (queued d c.state.sock).count op := fun d => by
    rw [h.order d, List.count_append]
  have hread := hsplit .read
  have hwrite := hsplit .write
  have haccepted := count_acceptedOf op c.trace
  have hleft := count_leftOf op c.trace
  simp only [fateCount]
  omega

omit [DecidableEq T] in
/-- An operation is submitted at most once. -/
theorem Account.named_le_one (h : Account c) (op : OpId) :
    c.trace.countP (Event.isAccepted op) + c.trace.countP (Event.isRejected op) ≤ 1 := by
  have := h.named op
  split_ifs at this <;> omega

omit [DecidableEq T] in
/-- An operation that has a fate has it once, and has no other. -/
theorem Account.one_fate (h : Account c) {op : OpId} {fate : Fate} (hf : HasFate c op fate) :
    fateCount c op fate = 1 ∧ ∀ other, other ≠ fate → fateCount c op other = 0 := by
  have hpos := (hasFate_iff_count fate).1 hf
  have := h.fates op
  have := h.named_le_one op
  refine ⟨?_, fun other hne => ?_⟩
  · cases fate <;> omega
  · cases fate <;> cases other <;> first | exact absurd rfl hne | omega

omit [DecidableEq T] in
/-- An accepted operation has a fate. -/
theorem Account.exists_fate (h : Account c) {d : Dir} {op : OpId} (hop : .accepted d op ∈ c.trace) :
    ∃ fate, HasFate c op fate := by
  have hpos : 0 < c.trace.countP (Event.isAccepted op) :=
    List.countP_pos_iff.2 ⟨_, hop, by simp [Event.isAccepted]⟩
  by_contra hno
  have h0 : ∀ fate, fateCount c op fate = 0 := fun fate =>
    Nat.eq_zero_of_not_pos fun hp => hno ⟨fate, (hasFate_iff_count fate).2 hp⟩
  have := h.fates op
  have := h0 .queued
  have := h0 .taken
  have := h0 .cancelled
  omega

omit [DecidableEq T] in
/-- A rejected operation has no fate. -/
theorem Account.no_fate (h : Account c) {d : Dir} {op : OpId} (hop : .rejected d op ∈ c.trace)
    (fate : Fate) : fateCount c op fate = 0 := by
  have hpos : 0 < c.trace.countP (Event.isRejected op) :=
    List.countP_pos_iff.2 ⟨_, hop, by simp [Event.isRejected]⟩
  have := h.fates op
  have := h.named_le_one op
  cases fate <;> omega

omit [DecidableEq T] in
/-- The callback of an operation that was not taken off a queue has not been invoked. -/
theorem Account.uninvoked (h : Account c) {op : OpId} (h0 : fateCount c op .taken = 0) :
    Uninvoked c op := by
  have := h.taken op
  simp only [fateCount] at h0
  constructor <;> omega

omit [DecidableEq T] in
/-- The books give every operation at most one fate, and invoke it if it was taken. -/
theorem Account.exactlyOnce (h : Account c) (hC : Closing c) : ExactlyOnce c where
  fate := by
    intro d op hop
    obtain ⟨fate, hf⟩ := h.exists_fate hop
    refine ⟨fate, hf, fun other ho => ?_⟩
    by_contra hne
    have h0 := (h.one_fate hf).2 other hne
    have := (hasFate_iff_count other).1 ho
    omega
  queued := fun op hf => h.uninvoked ((h.one_fate hf).2 .taken (by simp))
  taken := by
    intro op hf
    rw [← h.taken op]
    exact (h.one_fate hf).1
  cancelled := fun op hf => h.uninvoked ((h.one_fate hf).2 .taken (by simp))
  rejected := by
    intro d op hop
    refine ⟨fun fate hf => ?_, h.uninvoked (h.no_fate hop .taken)⟩
    have hpos := (hasFate_iff_count fate).1 hf
    rw [h.no_fate hop fate] at hpos
    exact absurd hpos (Nat.lt_irrefl 0)
  order := h.order
  closed := fun hr d => hC.emptied d (.inr hr)
  drained := hC.drained

/-- Along every run of calls from any threads, every accepted operation completes exactly once. -/
theorem exactlyOnce_always (rt : T) (fd : ℕ) (as : List (Action T)) :
    Always (machine rt) ExactlyOnce (init T fd) as :=
  always_of_reachable
    (fun _ hc => (account_of_reachable hc).exactlyOnce (closing_of_reachable hc)) .refl

end Spinet.Socket
