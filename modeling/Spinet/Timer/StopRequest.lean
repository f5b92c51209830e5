import Spinet.Timer.LifeCycle
import Spinet.Timer.Steps

/-!
# The stop request of a timer

A `stop` of a timer asks by storing `stopped_ = true`, and then notifies until `running_` is unset.
The thread reads `stopped_` in the guard of its loop and behind its wait. As with a runtime, the
thread begins with `stopped_ = false`, after `run` has returned, and so overwrites what a `stop` has
asked for before.

`stopHeeded_always` says when this cannot happen: every `stop` that begins after a `run` has
returned stores `stopped_` while no `run` is about to start a thread and no thread is about to
begin. From then on the thread never reads `stopped_` as unset, and no tick reads the clock but the
one that the thread is in at that time.
-/

namespace Spinet.Timer

open Transition

variable {T : Type*} {κ : Type} {P : Waiters (Ticket κ)}

/-- What has become of a request to stop. -/
inductive Request
  /-- There is none. -/
  | none
  /-- A `stop` that began after a `run` had returned has stored `stopped_`. -/
  | asked
  /-- Since then a thread has read `stopped_`, or a tick has read the clock. -/
  | answered
deriving DecidableEq, Repr

/-- What has become of a request after an event. It ends when another `run` begins. -/
def requestAfter : Request → Event κ → Request
  | _, .runBegan => .none
  | .none, .stopStored true => .asked
  | .asked, .read _ => .answered
  | .asked, .ticked _ => .answered
  | request, _ => request

/-- What has become of the request to stop after a trace. -/
def request (tr : List (Event κ)) : Request := tr.foldl requestAfter .none

/-- While a request to stop is pending, no thread reads `stopped_` as unset, and the clock is read
by a tick only if that is the first thing that happens, so by the tick that was in progress. -/
def Heeds (past : List (Event κ)) (e : Event κ) : Prop :=
  (e = .read false → request past = .none) ∧
    ∀ timePoint, e = .ticked timePoint → request past ≠ .answered

/-- Every request to stop is heeded. -/
def Heeded (c : Config (State T κ P) (Event κ)) : Prop := Allowed Heeds c.trace

/-- Whether the call is a `run` that is past its compare and exchange and has not started its
thread. -/
def Call.starting : Call κ → Bool
  | .run .lock | .run .test | .run .join | .run .start => true
  | _ => false

/-- Whether the thread is about to begin. -/
def ExecPc.beginning : ExecPc κ → Bool
  | .prologue => true
  | _ => false

/-- Whether the thread is past its guard and has not read the clock. -/
def ExecPc.entering : ExecPc κ → Bool
  | .lock | .collect => true
  | _ => false

/-- No `run` is about to start a thread, and no thread is about to begin. -/
def Settled (s : State T κ P) : Prop :=
  (∀ t, ∀ f ∈ s.call t, f.starting = false) ∧ ∀ pc ∈ s.timer.execs, pc.beginning = false

/-- The condition on a step: a `stop` that began after a `run` had returned stores `stopped_` only
while no `run` is about to start a thread, and no thread is about to begin. -/
def Timely (c : Config (State T κ P) (Event κ)) : Action T κ → Prop
  | .go t _ _ => c.state.call t = some (.stop true .store) → Settled c.state
  | _ => True

/-! ## What is kept while a request is pending -/

/-- A request is pending: `stopped_` is set, nothing is about to reset it, and once the request has
been answered no thread is on its way into a tick. -/
structure Asked (s : State T κ P) (r : Request) : Prop where
  stopped : s.timer.stopped = true
  settled : Settled s
  entering : r = .answered → ∀ pc ∈ s.timer.execs, pc.entering = false

/-- If a request is pending, what has to hold then does. -/
def Pending (s : State T κ P) (tr : List (Event κ)) : Prop :=
  request tr ≠ .none → Asked s (request tr)

variable {s s' : State T κ P} {r : Request} {tr es : List (Event κ)}

@[simp] theorem request_append (tr : List (Event κ)) (e : Event κ) :
    request (tr ++ [e]) = requestAfter (request tr) e := by simp [request]

/-- Whether the event is a reading of `stopped_` or of the clock. -/
def Event.isReading : Event κ → Bool
  | .read _ | .ticked _ => true
  | _ => false

/-- Whatever is not a reading is allowed. -/
theorem heeds_of_not_reading {e : Event κ} (he : e.isReading = false) :
    AllowedFrom Heeds tr [e] := by
  refine ⟨⟨?_, ?_⟩, trivial⟩
  · rintro rfl
    cases he
  · rintro timePoint rfl
    cases he

/-- A step that moves no thread into the beginning, and no `run` towards its start, leaves what is
settled so. -/
theorem Settled.keep (h : Settled s)
    (hcalls : ∀ t, ∀ f ∈ s'.call t, f.starting = true → ∃ u, ∃ g ∈ s.call u, g.starting = true)
    (hexecs : ∀ pc' ∈ s'.timer.execs, ∃ pc ∈ s.timer.execs, pc'.beginning = pc.beginning) :
    Settled s' := by
  refine ⟨fun t f hf => ?_, fun pc' hpc' => ?_⟩
  · by_contra hstart
    obtain ⟨u, g, hg, hstart⟩ := hcalls t f hf (by simpa using hstart)
    simp [h.1 u g hg] at hstart
  · obtain ⟨pc, hpc, hbegin⟩ := hexecs pc' hpc'
    rw [hbegin]
    exact h.2 pc hpc

section Calls

variable [DecidableEq T] {t : Thread T}

/-- Another call of one thread that is not about to start a thread leaves what is settled so. -/
theorem Settled.setCall {q : State T κ P} (h : Settled s) (hcall : q.call = s.call)
    (hexecs : ∀ pc' ∈ q.timer.execs, ∃ pc ∈ s.timer.execs, pc'.beginning = pc.beginning)
    {f : Option (Call κ)} (hf : ∀ g ∈ f, g.starting = false) : Settled (q.setCall t f) := by
  refine h.keep (fun u g hg hstart => ?_) hexecs
  simp only [State.setCall, Function.update_apply, hcall] at hg
  split at hg
  · simp [hf g hg] at hstart
  · exact ⟨u, g, hg, hstart⟩

/-- Another call of one thread that is not about to start a thread leaves a request pending, if no
thread has come to be on its way into a tick. -/
theorem Asked.setCall {q : State T κ P} (h : Asked s r) (hcall : q.call = s.call)
    (hstopped : q.timer.stopped = true)
    (hexecs : ∀ pc' ∈ q.timer.execs, ∃ pc ∈ s.timer.execs,
      pc'.beginning = pc.beginning ∧ pc'.entering = pc.entering)
    {f : Option (Call κ)} (hf : ∀ g ∈ f, g.starting = false) : Asked (q.setCall t f) r where
  stopped := hstopped
  settled := by
    refine h.settled.setCall hcall (fun pc' hpc' => ?_) hf
    obtain ⟨pc, hpc, hbegin, -⟩ := hexecs pc' hpc'
    exact ⟨pc, hpc, hbegin⟩
  entering hr pc' hpc' := by
    obtain ⟨pc, hpc, -, henter⟩ := hexecs pc' hpc'
    rw [henter]
    exact h.entering hr pc hpc

end Calls

/-! ## Steps -/

/-- A step that emits nothing leaves a request as it is. -/
theorem Pending.quiet (h : Pending s tr) (hkeep : ∀ {r}, Asked s r → Asked s' r) :
    Pending s' (tr ++ []) ∧ AllowedFrom Heeds tr ([] : List (Event κ)) := by
  rw [List.append_nil]
  exact ⟨fun hr => hkeep (h hr), trivial⟩

/-- A step that emits an event that says nothing of the request leaves it as it is. -/
theorem Pending.other (h : Pending s tr) {e : Event κ} (he : ∀ r, requestAfter r e = r)
    (hreading : e.isReading = false) (hkeep : ∀ {r}, Asked s r → Asked s' r) :
    Pending s' (tr ++ [e]) ∧ AllowedFrom Heeds tr [e] := by
  refine ⟨fun hr => ?_, heeds_of_not_reading hreading⟩
  rw [request_append, he] at hr ⊢
  exact hkeep (h hr)

/-- Before a step that no request allows none is pending. -/
theorem Pending.request_none (h : Pending s tr) (hnot : ∀ {r}, ¬ Asked s r) :
    request tr = .none := by
  by_contra hr
  exact hnot (h hr)

/-- Where none is pending, a step that makes no request leaves none. -/
theorem pending_of_none (hr : request (tr ++ es) = .none) : Pending s (tr ++ es) :=
  fun hr' => absurd hr hr'

/-- Readings of `stopped_` and of the clock make no request. -/
theorem requestAfter_none_of_reading {e : Event κ} (he : e.isReading = true) :
    requestAfter .none e = .none := by
  cases e with
  | read | ticked => rfl
  | _ => cases he

/-- A request is answered by readings of `stopped_` and of the clock. -/
theorem requestAfter_of_reading {e : Event κ} (hr : r ≠ .none) (he : e.isReading = true) :
    requestAfter r e = .answered := by
  cases e with
  | read | ticked => cases r <;> first | rfl | exact absurd rfl hr
  | _ => cases he

section Steps

variable {t : Thread T}

/-- A step of `run` that goes on leaves no request pending. -/
theorem Pending.runGoto (h : Pending s tr) {weak : Bool} {pc pc' : RunPc}
    {tm : Timer (Thread T) κ P} (hcall : s.call t = some (.run pc))
    (hs : RunStep s.timer t weak pc tm (.goto pc')) :
    Pending s' (tr ++ if pc = .cas then [.runBegan] else []) ∧
      AllowedFrom Heeds tr (if pc = RunPc.cas then [Event.runBegan] else []) := by
  have hstart : (Call.run pc : Call κ).starting = true → request tr = .none := fun hpc =>
    h.request_none fun hA => by simp [hA.settled.1 t _ hcall] at hpc
  cases hs with
  | cas =>
    refine ⟨pending_of_none ?_, heeds_of_not_reading rfl⟩
    simp [requestAfter]
  | lock | joinable | notJoinable | join | start =>
    refine ⟨pending_of_none ?_, trivial⟩
    simpa using hstart rfl

variable [DecidableEq T]

/-- The return of `run` leaves a request as it is. -/
theorem Pending.runRet (h : Pending s tr) {weak : Bool} {pc : RunPc} {tm : Timer (Thread T) κ P}
    (hs : RunStep s.timer t weak pc tm (.ret ())) :
    Pending ({ s with timer := tm, returned := true }.setCall t none) (tr ++ [.runReturned]) ∧
      AllowedFrom Heeds tr [.runReturned] := by
  refine h.other (fun r => by cases r <;> rfl) rfl fun hA => ?_
  have htimer : tm.stopped = s.timer.stopped ∧ tm.execs = s.timer.execs := by
    cases hs <;> exact ⟨rfl, rfl⟩
  refine hA.setCall (q := { s with timer := tm, returned := true }) rfl
    (htimer.1.trans hA.stopped) (fun pc' hpc' => ?_) (by simp)
  exact ⟨pc', htimer.2 ▸ hpc', rfl, rfl⟩

/-- A step of `stop` that goes on leaves a request as it is, or makes one. -/
theorem Pending.stopGoto (h : Pending s tr) {armed : Bool} {pc pc' : StopPc}
    {tm : Timer (Thread T) κ P} {b : Bool} (hs : StopStep s.timer t pc tm (.goto pc'))
    (hsettled : b = true → pc = .store → Settled s) :
    Pending ({ s with timer := tm }.setCall t (some (.stop armed pc')))
        (tr ++ if pc = .store then [.stopStored b] else []) ∧
      AllowedFrom Heeds tr (if pc = .store then [Event.stopStored b] else []) := by
  have hf : ∀ pc, ∀ g ∈ some (Call.stop armed pc : Call κ), g.starting = false := by
    simp [Call.starting]
  have hstay : ∀ {tm : Timer (Thread T) κ P} {pc : StopPc} {r : Request}, Asked s r →
      tm.stopped = true → tm.execs = s.timer.execs →
      Asked ({ s with timer := tm }.setCall t (some (.stop armed pc))) r := by
    intro tm pc r hA hstopped hexecs
    exact hA.setCall (q := { s with timer := tm }) rfl hstopped
      (fun pc' hpc' => ⟨pc', hexecs ▸ hpc', rfl, rfl⟩) (hf pc)
  cases hs with
  | store =>
    refine ⟨fun hr => ?_, heeds_of_not_reading rfl⟩
    rw [if_pos rfl, request_append] at hr ⊢
    by_cases hnone : request tr = .none
    · -- The store makes the request.
      rw [hnone] at hr ⊢
      cases b with
      | false => exact absurd rfl hr
      | true =>
        refine ⟨rfl, ?_, by simp [requestAfter]⟩
        exact (hsettled rfl rfl).setCall (q := { s with timer := { s.timer with stopped := true } })
          rfl (fun pc hpc => ⟨pc, hpc, rfl⟩) (hf _)
    · have hstays : requestAfter (request tr) (.stopStored b : Event κ) = request tr := by
        cases hreq : request tr with
        | none => exact absurd hreq hnone
        | asked | answered => cases b <;> rfl
      rw [hstays]
      exact hstay (h hnone) rfl rfl
  | notify =>
    refine h.quiet fun hA => ?_
    refine hA.setCall (q := { s with timer := s.timer.notifyAll }) rfl hA.stopped
      (fun pc' hpc' => ?_) (hf _)
    obtain ⟨pc, hpc, rfl⟩ := List.mem_map.1 hpc'
    exact ⟨pc, hpc, by cases pc <;> rfl, by cases pc <;> rfl⟩
  | read | spin | spun | lock | joinable | notJoinable | join =>
    exact h.quiet fun hA => hstay hA hA.stopped rfl

/-- The return of `stop` leaves a request as it is. -/
theorem Pending.stopRet (h : Pending s tr) {pc : StopPc} {tm : Timer (Thread T) κ P}
    (hs : StopStep s.timer t pc tm (.ret ())) :
    Pending ({ s with timer := tm }.setCall t none) (tr ++ [.stopReturned]) ∧
      AllowedFrom Heeds tr [.stopReturned] := by
  refine h.other (fun r => by cases r <;> rfl) rfl fun hA => ?_
  have htimer : tm.stopped = s.timer.stopped ∧ tm.execs = s.timer.execs := by
    cases hs <;> exact ⟨rfl, rfl⟩
  refine hA.setCall (q := { s with timer := tm }) rfl (htimer.1.trans hA.stopped)
    (fun pc' hpc' => ?_) (by simp)
  exact ⟨pc', htimer.2 ▸ hpc', rfl, rfl⟩

/-- A step of `async_wait_until` leaves a request pending. -/
theorem Asked.waitStep (h : Asked s r) {w : Wait κ} {pc : WaitPc} {tm : Timer (Thread T) κ P}
    {nx : Next WaitPc Unit} (hs : WaitStep s.timer t w pc tm nx) {n : ℕ} {f : Option (Call κ)}
    (hf : ∀ g ∈ f, g.starting = false) :
    Asked ({ s with timer := tm, registrations := n }.setCall t f) r := by
  have hstopped : tm.stopped = s.timer.stopped := by cases hs <;> rfl
  have hexecs : ∀ pc' ∈ tm.execs, ∃ pc ∈ s.timer.execs,
      pc'.beginning = pc.beginning ∧ pc'.entering = pc.entering := by
    intro pc' hpc'
    cases hs with
    | notify hi =>
      rcases List.mem_or_eq_of_mem_set hpc' with hpc' | rfl
      · exact ⟨pc', hpc', rfl, rfl⟩
      · exact ⟨_, List.mem_of_getElem? hi, rfl, rfl⟩
    | _ => exact ⟨pc', hpc', rfl, rfl⟩
  exact h.setCall (q := { s with timer := tm, registrations := n }) rfl
    (hstopped.trans h.stopped) hexecs hf

end Steps

section Exec

variable {i : ℕ} {now : ℤ} {pc pc' : ExecPc κ} {tm : Timer (Thread T) κ P}

/-- A thread that moves, and not into its beginning, leaves what is settled so. -/
theorem Settled.moveExec (h : Settled s) (hexecs : tm.execs = s.timer.execs)
    (hbegin : pc'.beginning = false) :
    Settled { s with timer := tm.moveExec i pc', clock := now } := by
  refine ⟨h.1, fun q hq => ?_⟩
  rcases mem_moveExec hq with rfl | ⟨j, -, hj⟩
  · exact hbegin
  · exact h.2 q (List.mem_of_getElem? (hexecs ▸ hj))

/-- A thread that moves, and not into its beginning or towards a tick, leaves a request pending. -/
theorem Asked.moveExec (h : Asked s r) (hi : s.timer.execs[i]? = some pc)
    (hexecs : tm.execs = s.timer.execs) (hstopped : tm.stopped = s.timer.stopped)
    (hbegin : pc'.beginning = false) (henter : pc'.entering = true → pc.entering = true) :
    Asked { s with timer := tm.moveExec i pc', clock := now } r where
  stopped := hstopped.trans h.stopped
  settled := h.settled.moveExec hexecs hbegin
  entering hr q hq := by
    rcases mem_moveExec hq with rfl | ⟨j, -, hj⟩
    · by_contra he
      simpa [h.entering hr pc (List.mem_of_getElem? hi)] using henter (by simpa using he)
    · exact h.entering hr q (List.mem_of_getElem? (hexecs ▸ hj))

/-- A reading answers a request if it leads to no tick, and no other thread is on its way to one. -/
theorem Pending.answer (h : Pending s tr) {e : Event κ} (he : e.isReading = true)
    (hexecs : tm.execs = s.timer.execs) (hstopped : tm.stopped = s.timer.stopped)
    (hbegin : pc'.beginning = false) (henter : pc'.entering = false)
    (hothers : ∀ j q, s.timer.execs[j]? = some q → j ≠ i → q.entering = false) :
    Pending { s with timer := tm.moveExec i pc', clock := now } (tr ++ [e]) := by
  intro hr
  rw [request_append] at hr ⊢
  have hnone : request tr ≠ .none := by
    intro hnone
    rw [hnone, requestAfter_none_of_reading he] at hr
    exact hr rfl
  have hA := h hnone
  rw [requestAfter_of_reading hnone he]
  refine ⟨hstopped.trans hA.stopped, hA.settled.moveExec hexecs hbegin, fun _ q hq => ?_⟩
  rcases mem_moveExec hq with rfl | ⟨j, hne, hj⟩
  · exact henter
  · exact hothers j q (hexecs ▸ hj) hne

/-- A thread that takes a step reads `stopped_` as set, and enters no tick once the request has been
answered. -/
theorem Pending.execStep (h : Pending s tr) (hi : s.timer.execs[i]? = some pc)
    (hs : ExecStep s.timer (.timer i) now pc tm pc' es)
    (hothers : pc.view ≠ .done → ∀ j q, s.timer.execs[j]? = some q → j ≠ i →
      q.entering = false) :
    Pending { s with timer := tm.moveExec i pc', clock := now } (tr ++ es) ∧
      AllowedFrom Heeds tr es := by
  have hexecs := hs.execs
  have hmem : pc ∈ s.timer.execs := List.mem_of_getElem? hi
  cases hs with
  | prologue =>
    have hnone := h.request_none fun hA => by simpa [ExecPc.beginning] using hA.settled.2 _ hmem
    exact ⟨pending_of_none (by simpa using hnone), trivial⟩
  | goOn hstop =>
    have hnone := h.request_none fun hA => by simpa [hstop] using hA.stopped
    exact ⟨pending_of_none (by simp [hnone, requestAfter]), ⟨fun _ => hnone, by simp⟩, trivial⟩
  | leave =>
    exact ⟨h.answer rfl hexecs rfl rfl rfl (hothers (by simp [ExecPc.view])), ⟨by simp, by simp⟩,
      trivial⟩
  | woken =>
    refine ⟨h.answer rfl hexecs rfl rfl rfl (hothers (by simp [ExecPc.view])),
      ⟨fun he => ?_, by simp⟩, trivial⟩
    exact h.request_none fun hA => by simp [hA.stopped] at he
  | collect =>
    refine ⟨h.answer rfl hexecs rfl rfl rfl (hothers (by simp [ExecPc.view])), ⟨by simp, ?_⟩,
      trivial⟩
    intro timePoint _ hr
    simpa [ExecPc.entering] using (h (by simp [hr])).entering hr _ hmem
  | fire | clear =>
    exact h.other (fun r => by cases r <;> rfl) rfl fun hA =>
      hA.moveExec hi hexecs rfl rfl (by simp [ExecPc.entering])
  | _ =>
    exact h.quiet fun hA => hA.moveExec hi hexecs rfl rfl (by simp [ExecPc.entering])

end Exec

variable [DecidableEq T] {c c' : Config (State T κ P) (Event κ)} {a : Action T κ} {clock : ℤ}

/-- Every timely step leaves a request pending as it should be. -/
theorem Pending.step (h : Pending s tr) (hs : Step s a s' es) (hC : Timely ⟨s, tr⟩ a)
    (hothers : ∀ (i : ℕ) (pc : ExecPc κ), s.timer.execs[i]? = some pc → pc.view ≠ .done →
      ∀ (j : ℕ) (q : ExecPc κ), s.timer.execs[j]? = some q → j ≠ i → q.entering = false) :
    Pending s' (tr ++ es) ∧ AllowedFrom Heeds tr es := by
  have hcall : ∀ {t : Thread T} {f : Call κ}, f.starting = false → ∀ {r}, Asked s r →
      Asked (s.setCall t (some f)) r := by
    intro t f hf r hA
    exact hA.setCall rfl hA.stopped (fun pc hpc => ⟨pc, hpc, rfl, rfl⟩) (by simp [hf])
  cases hs with
  | run | stop | wait => exact h.quiet (hcall rfl)
  | runGoto hpc hrun => exact h.runGoto hpc hrun
  | runRet hpc hrun => exact h.runRet hrun
  | @stopGoto t _ _ armed pc pc' tm hpc hstop =>
    refine h.stopGoto hstop fun hb hstore => ?_
    subst hstore
    have hb : armed = true := by simpa using hb
    exact hC (hb ▸ hpc)
  | stopRet hpc hstop => exact h.stopRet hstop
  | @waitGoto _ _ _ _ _ pc _ _ _ hwait =>
    by_cases hpush : pc = .push
    · simp only [hpush, if_true]
      exact h.other (fun r => by cases r <;> rfl) rfl fun hA => hA.waitStep hwait (by
        simp [Call.starting])
    · simp only [hpush, if_false]
      exact h.quiet fun hA => hA.waitStep hwait (by simp [Call.starting])
  | waitRet _ hwait => exact h.quiet fun hA => hA.waitStep hwait (by simp)
  | exec _ _ hi hexec => exact h.execStep hi hexec (hothers _ _ hi)

/-- In every run in which each `stop` that began after a `run` had returned stores `stopped_` while
no `run` is about to start a thread and no thread is about to begin, no request to stop is lost. -/
theorem stopHeeded_always (P : Waiters (Ticket κ)) (clock : ℤ) (as : List (Action T κ))
    (h : Steps (machine T P) Timely (init T P clock) as) :
    Always (machine T P) Heeded (init T P clock) as := by
  refine always_of_reachVia (fun c hc => ?_) .refl h
  have hboth : Pending c.state c.trace ∧ Heeded c := by
    refine hc.invariant_of (I := fun c => Pending c.state c.trace ∧ Heeded c)
      (J := fun c => Reachable (machine T P) (init T P clock) c) (fun _ => id)
      ⟨fun hr => absurd rfl hr, trivial⟩ ?_
    rintro c a c' hreach - ⟨hK, hH⟩ hC hn
    obtain ⟨s', es, hs, rfl⟩ := next_eq_some _ hn
    obtain ⟨hK', hH'⟩ := hK.step (step_cases hs) hC fun i pc hi hpc j q hj hne => by
      rcases others_ended hreach hi hpc hj hne with rfl | rfl <;> rfl
    exact ⟨hK', allowed_append.2 ⟨hH, hH'⟩⟩
  exact hboth.2

/-- A `stop`, up to its store. -/
def askToStop (user : T) : List (Action T ℕ) :=
  .stop (.user user) :: List.replicate 2 (.go (.user user) false 0)

/-- A thread that waits, and is then asked to stop. -/
def stopWhileWaiting (user : T) : List (Action T ℕ) :=
  startUp user ++ List.replicate 9 (.exec 0 0) ++ askToStop user ++ List.replicate 3 (.exec 0 0)

/-- The thread reads `stopped_` as set once it wakes up. -/
theorem heeded_stopWhileWaiting :
    (∃ c, run (machine (Fin 1) ticketWaiters) (init (Fin 1) ticketWaiters 0)
        (stopWhileWaiting 0) = some c ∧
      c.trace = [.runBegan, .runReturned, .read false, .ticked 0, .stopStored true, .read true]) ∧
      Always (machine (Fin 1) ticketWaiters) Heeded (init (Fin 1) ticketWaiters 0)
        (stopWhileWaiting 0) := by
  refine ⟨⟨_, rfl, rfl⟩, stopHeeded_always ticketWaiters 0 (stopWhileWaiting 0) ?_⟩
  repeat' first
    | exact trivial
    | refine Steps.cons rfl ?_ ?_
    | (intro h; cases h; done)
  -- What is left is the store of the `stop`.
  refine fun _ => ⟨fun t f hf => ?_, by decide⟩
  cases t with
  | user u =>
    obtain rfl : u = 0 := Subsingleton.elim u 0
    cases hf
    rfl
  | timer i => cases hf

/-- `run` has returned, and its thread has not begun when `stop` stores `stopped_`. The thread
begins, reads `stopped_` as unset, and enters a tick. -/
theorem stop_overwritten :
    ∃ c, run (machine (Fin 1) ticketWaiters) (init (Fin 1) ticketWaiters 0)
        (startUp 0 ++ askToStop 0 ++ List.replicate 4 (.exec 0 0)) = some c ∧
      c.trace = [.runBegan, .runReturned, .stopStored true, .read false, .ticked 0] ∧
      ¬ Heeded c := by
  refine ⟨_, rfl, rfl, fun h => ?_⟩
  have hread := Allowed.of_mem h [.runBegan, .runReturned, .stopStored true] (.read false)
    [.ticked 0] rfl
  exact absurd (hread.1 rfl) (by decide)

end Spinet.Timer
