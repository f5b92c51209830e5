import Mathlib.Data.Fintype.Basic
import Spinet.Library.Machine
import Spinet.Lifecycle.Runtime

/-!
# Stop requests of a Runtime

Calls of `run` and `stop` on one `Runtime` from any number of threads, with the threads that it
starts. A `stop` asks by storing `stopped_ = true`, and a thread started by `run` begins with
`stopped_ = false`. `run` returns before that, so a `stop` can ask before the thread has begun, and
what it asked for is then overwritten.

`heeded_always` says when this cannot happen: every `stop` that begins after a `run` has returned
stores `stopped_` while no `run` is about to start a thread and no thread is about to begin.

A call begins with its first access to something shared: `run` with its compare and exchange, `stop`
with its reading of `running_`. `compare_exchange_weak` may fail on equality.
-/

namespace Spinet.StopRequest

open Transition

/-- A call in progress. -/
inductive Frame
  /-- `run`. -/
  | run (pc : RunPc)
  /-- `stop`; `armed` says that a `run` had returned when it began. The code has no such flag. -/
  | stop (armed : Bool) (pc : StopPc)
deriving DecidableEq, Repr

/-- What can be seen of a run. -/
inductive Event
  /-- A call of `run` got past its compare and exchange. -/
  | runBegan
  /-- A call of `run` returned. -/
  | runReturned (err : Option String)
  /-- A call of `stop` stored `stopped_ = true`. -/
  | stopStored (armed : Bool)
  /-- A call of `stop` returned. -/
  | stopReturned
  /-- A thread inside `exec` read `stopped_` in the guard of its loop. -/
  | guard (stopped : Bool)
deriving DecidableEq, Repr

/-- The runtime, and the call of every caller. -/
structure State (T : Type*) where
  /-- The runtime. -/
  runtime : Runtime T
  /-- The call that each caller is in. -/
  caller : T → Option Frame
  /-- Whether a call of `run` has returned. The code has no such flag. -/
  returned : Bool

/-- A step of the system. -/
inductive Action (T : Type*)
  /-- A caller calls `run`. -/
  | run (t : T)
  /-- A caller calls `stop`. -/
  | stop (t : T)
  /-- The call of a caller takes a step. -/
  | go (t : T) (weak : Bool)
  /-- A thread inside `exec` takes a step. -/
  | loop (i : ℕ)
deriving DecidableEq, Repr

variable {T : Type*} [DecidableEq T]

/-- The state once a caller is in another call, or in none. -/
def State.setCaller (s : State T) (t : T) (f : Option Frame) : State T :=
  { s with caller := Function.update s.caller t f }

@[simp] theorem State.setCaller_caller (s : State T) (t u : T) (f : Option Frame) :
    (s.setCaller t f).caller u = if u = t then f else s.caller u := by
  simp [State.setCaller, Function.update_apply]

@[simp] theorem State.setCaller_runtime (s : State T) (t : T) (f : Option Frame) :
    (s.setCaller t f).runtime = s.runtime := rfl

/-- A step of a call of `run`. -/
def goRun (s : State T) (t : T) (weak : Bool) (pc : RunPc) : Option (State T × List Event) :=
  (s.runtime.runStep t weak pc).map fun (r, nx) =>
    match nx with
    | .goto pc' =>
      ({ s with runtime := r }.setCaller t (some (.run pc')), if pc = .cas then [.runBegan] else [])
    | .ret err =>
      ({ s with runtime := r, returned := true }.setCaller t none, [.runReturned err])

/-- A step of a call of `stop`. -/
def goStop (s : State T) (t : T) (armed : Bool) (pc : StopPc) : Option (State T × List Event) :=
  (s.runtime.stopStep t pc).map fun (r, nx) =>
    let armed := if pc = .read then s.returned else armed
    match nx with
    | .goto pc' =>
      ({ s with runtime := r }.setCaller t (some (.stop armed pc')),
        if pc = .store then [.stopStored armed] else [])
    | .ret _ => ({ s with runtime := r }.setCaller t none, [.stopReturned])

/-- The step of an action. -/
def step (s : State T) : Action T → Option (State T × List Event)
  | .run t => if (s.caller t).isNone then some (s.setCaller t (some (.run .cas)), []) else none
  | .stop t =>
    if (s.caller t).isNone then some (s.setCaller t (some (.stop false .read)), []) else none
  | .go t weak =>
    match s.caller t with
    | some (.run pc) => goRun s t weak pc
    | some (.stop armed pc) => goStop s t armed pc
    | none => none
  | .loop i =>
    (s.runtime.loopStep i).map fun (r, read) =>
      ({ s with runtime := r }, read.toList.map Event.guard)

/-- The machine of one runtime. -/
def machine (T : Type*) [DecidableEq T] : Machine (State T) (Action T) Event := ⟨step⟩

/-- A new runtime, with no call in progress. -/
def init (T : Type*) : Config (State T) Event :=
  { state := { runtime := .new, caller := fun _ => none, returned := false }, trace := [] }

/-! ## What is asked for -/

/-- Whether a request to stop is pending after an event, by whether one was before it: a `stop` that
began after a `run` had returned makes one, and it ends when another `run` begins. -/
def pendingAfter (pending : Bool) : Event → Bool
  | .stopStored true => true
  | .runBegan => false
  | _ => pending

/-- Whether a request to stop is pending after a trace. -/
def pending (tr : List Event) : Bool := tr.foldl pendingAfter false

/-- While a request to stop is pending, no thread goes on in its loop. -/
def Heeded (c : Config (State T) Event) : Prop :=
  Allowed (fun past e => e = .guard false → pending past = false) c.trace

/-- Whether the call is a `run` that is past its compare and exchange and has not started its
thread. -/
def Frame.starting : Frame → Bool
  | .run .lock | .run .test | .run .join | .run .start => true
  | _ => false

/-- No `run` is about to start a thread, and no thread is about to begin. -/
def Settled (s : State T) : Prop :=
  (∀ t, ∀ f ∈ s.caller t, f.starting = false) ∧ .prologue ∉ s.runtime.loops

/-- The condition on a step: a `stop` that began after a `run` had returned stores `stopped_` only
while no `run` is about to start a thread, and no thread is about to begin. -/
def Timely (c : Config (State T) Event) : Action T → Prop
  | .go t _ => c.state.caller t = some (.stop true .store) → Settled c.state
  | _ => True

instance [Fintype T] (s : State T) : Decidable (Settled s) := by
  unfold Settled
  infer_instance

instance [Fintype T] (c : Config (State T) Event) (a : Action T) : Decidable (Timely c a) := by
  unfold Timely
  split <;> infer_instance

@[simp] theorem pending_append (tr : List Event) (e : Event) :
    pending (tr ++ [e]) = pendingAfter (pending tr) e := by simp [pending]

/-! ## Steps -/

/-- While a request is pending, `stopped_` is set and nothing is about to reset it. -/
def Kept (c : Config (State T) Event) : Prop :=
  pending c.trace = true → c.state.runtime.stopped = true ∧ Settled c.state

/-- Another call of one caller settles nothing less, unless it is about to start a thread. -/
theorem Settled.setCaller {s : State T} (h : Settled s) (t : T) {f : Option Frame}
    (hf : ∀ g ∈ f, g.starting = false) : Settled (s.setCaller t f) := by
  refine ⟨fun u g hg => ?_, h.2⟩
  rw [State.setCaller_caller] at hg
  split at hg
  · exact hf g hg
  · exact h.1 u g hg

omit [DecidableEq T] in
/-- A step that emits nothing is allowed. -/
theorem Heeded.quiet {c : Config (State T) Event} {s : State T} (h : Heeded c) :
    Heeded ⟨s, c.trace ++ []⟩ := by
  rw [Heeded, List.append_nil]
  exact h

omit [DecidableEq T] in
/-- An event other than the guard that goes on is allowed. -/
theorem Heeded.other {c : Config (State T) Event} {s : State T} (h : Heeded c) {e : Event}
    (he : e ≠ .guard false) : Heeded ⟨s, c.trace ++ [e]⟩ :=
  allowed_append.2 ⟨h, fun heq => absurd heq he, trivial⟩

/-- A step of `run` keeps what is pending heeded. -/
theorem goRun_keeps {c : Config (State T) Event} {t : T} {weak : Bool} {pc : RunPc} {s' : State T}
    {es : List Event} (hK : Kept c) (hH : Heeded c) (hpc : c.state.caller t = some (.run pc))
    (hs : goRun c.state t weak pc = some (s', es)) :
    Kept ⟨s', c.trace ++ es⟩ ∧ Heeded ⟨s', c.trace ++ es⟩ := by
  obtain ⟨⟨r, nx⟩, hr, hres⟩ := Option.map_eq_some_iff.1 hs
  -- A call that is about to start a thread means that nothing is pending.
  have hidle : (Frame.run pc).starting = true → pending c.trace = false := by
    intro hstart
    by_contra hp
    have := (hK (by simpa using hp)).2.1 t _ hpc
    simp [hstart] at this
  cases Runtime.runStep_cases hr with
  | refuse =>
    obtain ⟨rfl, rfl⟩ := Prod.mk.inj hres
    refine ⟨fun hp => ?_, hH.other (by simp)⟩
    obtain ⟨hstop, hset⟩ := hK (by simpa [pendingAfter] using hp)
    exact ⟨hstop, hset.setCaller t (by simp)⟩
  | cas =>
    obtain ⟨rfl, rfl⟩ := Prod.mk.inj hres
    exact ⟨fun hp => by simp [pendingAfter] at hp, hH.other (by simp)⟩
  | unlock =>
    obtain ⟨rfl, rfl⟩ := Prod.mk.inj hres
    refine ⟨fun hp => ?_, hH.other (by simp)⟩
    obtain ⟨hstop, hset⟩ := hK (by simpa [pendingAfter] using hp)
    exact ⟨hstop, Settled.setCaller (s := { c.state with runtime := _, returned := true }) hset t
      (by simp)⟩
  | _ =>
    obtain ⟨rfl, rfl⟩ := Prod.mk.inj hres
    refine ⟨fun hp => ?_, hH.quiet⟩
    have := hidle rfl
    simp [this] at hp

/-- A step of `stop` keeps what is pending heeded, if its store is timely. -/
theorem goStop_keeps {c : Config (State T) Event} {t : T} {armed : Bool} {pc : StopPc}
    {s' : State T}
    {es : List Event} (hK : Kept c) (hH : Heeded c)
    (hC : armed = true → pc = .store → Settled c.state)
    (hs : goStop c.state t armed pc = some (s', es)) :
    Kept ⟨s', c.trace ++ es⟩ ∧ Heeded ⟨s', c.trace ++ es⟩ := by
  obtain ⟨⟨r, nx⟩, hr, hres⟩ := Option.map_eq_some_iff.1 hs
  cases Runtime.stopStep_cases hr with
  | store =>
    obtain ⟨rfl, rfl⟩ := Prod.mk.inj hres
    refine ⟨fun hp => ?_, hH.other (by simp)⟩
    have hset : Settled c.state := by
      cases armed with
      | true => exact hC rfl rfl
      | false => exact (hK (by simpa [pendingAfter] using hp)).2
    refine ⟨rfl, Settled.setCaller (s := { c.state with runtime := _ }) hset t ?_⟩
    simp [Frame.starting]
  | notRunning | unlock =>
    obtain ⟨rfl, rfl⟩ := Prod.mk.inj hres
    refine ⟨fun hp => ?_, hH.other (by simp)⟩
    obtain ⟨hstop, hset⟩ := hK (by simpa [pendingAfter] using hp)
    exact ⟨hstop, Settled.setCaller (s := { c.state with runtime := _ }) hset t (by simp)⟩
  | _ =>
    obtain ⟨rfl, rfl⟩ := Prod.mk.inj hres
    refine ⟨fun hp => ?_, hH.quiet⟩
    obtain ⟨hstop, hset⟩ := hK (by simpa using hp)
    exact ⟨hstop, Settled.setCaller (s := { c.state with runtime := _ }) hset t
      (by simp [Frame.starting])⟩

omit [DecidableEq T] in
/-- A step of a thread keeps what is pending heeded. -/
theorem loop_keeps {c : Config (State T) Event} {i : ℕ} {r : Runtime T} {read : Option Bool}
    (hK : Kept c) (hH : Heeded c) (hs : c.state.runtime.loopStep i = some (r, read)) :
    Kept ⟨{ c.state with runtime := r }, c.trace ++ read.toList.map .guard⟩ ∧
      Heeded ⟨{ c.state with runtime := r }, c.trace ++ read.toList.map .guard⟩ := by
  -- A thread that moves on does not begin.
  have hmoved : ∀ pc : LoopPc, pc ≠ .prologue → .prologue ∉ c.state.runtime.loops →
      .prologue ∉ c.state.runtime.loops.set i pc := by
    intro pc hpc hno hmem
    rcases List.mem_or_eq_of_mem_set hmem with h | h
    · exact hno h
    · exact hpc h.symm
  cases Runtime.loopStep_cases hs with
  | prologue hpc =>
    refine ⟨fun hp => ?_, hH.quiet⟩
    obtain ⟨-, hset⟩ := hK (by simpa using hp)
    exact absurd (List.mem_of_getElem? hpc) hset.2
  | goOn hpc hstop =>
    have hnot : pending c.trace = false := by
      by_contra hp
      have := (hK (by simpa using hp)).1
      simp [hstop] at this
    refine ⟨fun hp => ?_, allowed_append.2 ⟨hH, fun _ => hnot, trivial⟩⟩
    simp [pendingAfter, hnot] at hp
  | leave hpc hstop =>
    refine ⟨fun hp => ?_, hH.other (by simp)⟩
    obtain ⟨hstop, hset⟩ := hK (by simpa [pendingAfter] using hp)
    exact ⟨hstop, hset.1, hmoved _ (by simp) hset.2⟩
  | _ =>
    refine ⟨fun hp => ?_, hH.quiet⟩
    obtain ⟨hstop, hset⟩ := hK (by simpa using hp)
    exact ⟨hstop, hset.1, hmoved _ (by simp) hset.2⟩

/-- Every timely step keeps what is pending heeded. -/
theorem step_keeps {c c' : Config (State T) Event} {a : Action T} (hK : Kept c) (hH : Heeded c)
    (hC : Timely c a) (hn : next (machine T) c a = some c') : Kept c' ∧ Heeded c' := by
  obtain ⟨s', es, hs, rfl⟩ := next_eq_some _ hn
  cases a with
  | run t =>
    simp only [machine, step, Option.ite_none_right_eq_some, Option.some.injEq, Prod.mk.injEq] at hs
    obtain ⟨-, rfl, rfl⟩ := hs
    refine ⟨fun hp => ?_, hH.quiet⟩
    obtain ⟨hstop, hset⟩ := hK (by simpa using hp)
    exact ⟨hstop, hset.setCaller t (by simp [Frame.starting])⟩
  | stop t =>
    simp only [machine, step, Option.ite_none_right_eq_some, Option.some.injEq, Prod.mk.injEq] at hs
    obtain ⟨-, rfl, rfl⟩ := hs
    refine ⟨fun hp => ?_, hH.quiet⟩
    obtain ⟨hstop, hset⟩ := hK (by simpa using hp)
    exact ⟨hstop, hset.setCaller t (by simp [Frame.starting])⟩
  | go t weak =>
    simp only [machine, step] at hs
    split at hs
    · rename_i pc hpc
      exact goRun_keeps hK hH hpc hs
    · rename_i armed pc hpc
      refine goStop_keeps hK hH ?_ hs
      rintro rfl rfl
      exact hC hpc
    · cases hs
  | loop i =>
    obtain ⟨⟨r, read⟩, hr, hres⟩ := Option.map_eq_some_iff.1 hs
    obtain ⟨rfl, rfl⟩ := Prod.mk.inj hres
    exact loop_keeps hK hH hr

/-- Along every run in which each `stop` that began after a `run` had returned stores `stopped_`
while no `run` is about to start a thread and no thread is about to begin, no request to stop is
lost. -/
theorem heeded_always (as : List (Action T)) (h : Steps (machine T) Timely (init T) as) :
    Always (machine T) Heeded (init T) as := by
  refine always_of_reachVia (fun c hc => ?_) .refl h
  have hboth : Kept c ∧ Heeded c := by
    refine hc.invariant (I := fun c => Kept c ∧ Heeded c) ⟨fun hp => ?_, trivial⟩ ?_
    · simp [init, pending] at hp
    · exact fun c a c' hI hC hn => step_keeps hI.1 hI.2 hC hn
  exact hboth.2

/-- A thread that has begun, and is then stopped. -/
def stopAfterPrologue : List (Action (Fin 1)) :=
  [.run 0, .go 0 false, .go 0 false, .go 0 false, .go 0 false, .go 0 false, .loop 0, .loop 0,
    .loop 0, .stop 0, .go 0 false, .go 0 false, .loop 0]

theorem heeded_stopAfterPrologue :
    (∃ c, run (machine (Fin 1)) (init (Fin 1)) stopAfterPrologue = some c ∧
      c.trace = [.runBegan, .runReturned none, .guard false, .stopStored true, .guard true]) ∧
      Always (machine (Fin 1)) Heeded (init (Fin 1)) stopAfterPrologue :=
  ⟨⟨_, rfl, by decide⟩, heeded_always stopAfterPrologue (by decide)⟩

/-- `run` has returned, and its thread has not begun when `stop` stores `stopped_`. The thread
begins, and goes into its loop. -/
theorem stop_overwritten_by_prologue :
    ∃ c, run (machine (Fin 1)) (init (Fin 1))
        [.run 0, .go 0 false, .go 0 false, .go 0 false, .go 0 false, .go 0 false, .stop 0,
          .go 0 false, .go 0 false, .loop 0, .loop 0] = some c ∧
      c.trace = [.runBegan, .runReturned none, .stopStored true, .guard false] ∧ ¬ Heeded c := by
  refine ⟨_, rfl, by decide, fun h => ?_⟩
  have hlast := Allowed.of_mem h [.runBegan, .runReturned none, .stopStored true] (.guard false) []
    rfl rfl
  exact absurd hlast (by decide)

end Spinet.StopRequest
