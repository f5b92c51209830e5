import Mathlib.Data.Fintype.Basic
import Mathlib.Logic.Function.Basic
import Spinet.Library.Machine
import Spinet.Lifecycle.Workers

/-!
# Server and Client: run and stop

`Server` and `Client` own runtimes, their workers, and have the same `with_settings`, `run`, and
`stop` but for the texts of their errors. Both are `Owner` here. Calls of `run` and `stop` on a
configured owner may be made by any number of threads; their calls of the workers' `run` and `stop`
take the steps of `Spinet.Lifecycle.Runtime`, and the threads of the workers take theirs.

`compare_exchange_weak` is taken to fail only on inequality.
-/

namespace Spinet

open Transition

/-- `Server` or `Client`. -/
inductive OwnerKind
  | server
  | client
deriving DecidableEq, Repr

/-- What the texts of the errors call it. -/
def OwnerKind.name : OwnerKind → String
  | .server => "server"
  | .client => "client"

/-- `Server::Settings` and `Client::Settings`. -/
structure Settings where
  /-- `workers`. -/
  workers : ℕ
  /-- `reuse_port`. -/
  reusePort : Bool
deriving DecidableEq, Repr

/-- `Settings::validate`. -/
def Settings.validate (settings : Settings) : Option String :=
  if settings.workers < 1 then some "workers must be more than zero" else none

/-- Where a call of `run` or of `stop` stands. -/
inductive OwnerPc
  /-- `run`, about to compare and exchange `running_`. -/
  | runCas
  /-- `run`, about to lock `mtx_`. -/
  | runLock
  /-- `run`, in the section, about to test `settings_`. -/
  | runSettings
  /-- `run`, in a call of `run` on worker `k`. -/
  | runWorker (k : ℕ) (pc : RunPc)
  /-- `run`, about to return. -/
  | runUnlock (err : Option String)
  /-- `stop`, about to lock `mtx_`. -/
  | stopLock
  /-- `stop`, in the section, about to test `running_`. -/
  | stopTest
  /-- `stop`, in a call of `stop` on worker `k`. -/
  | stopWorker (k : ℕ) (pc : StopPc)
  /-- `stop`, about to store `running_ = false`. -/
  | stopClear
  /-- `stop`, about to return. -/
  | stopUnlock
deriving DecidableEq, Repr

/-- Whether the call answers for the workers: `run` from its compare and exchange on, and `stop`
between its test and its store. -/
def OwnerPc.busy : OwnerPc → Bool
  | .runLock | .runSettings | .runWorker _ _ | .runUnlock _ | .stopWorker _ _ | .stopClear => true
  | .runCas | .stopLock | .stopTest | .stopUnlock => false

/-- Whether the call is in a section of `mtx_`. -/
def OwnerPc.holds : OwnerPc → Bool
  | .runCas | .runLock | .stopLock => false
  | _ => true

/-- The members of `Server` and of `Client` that their life cycle uses. -/
structure Owner (T : Type*) where
  /-- Which of the two it is. -/
  kind : OwnerKind
  /-- The owner of `mtx_`. -/
  mtx : Option T
  /-- `running_`. -/
  running : Bool
  /-- `workers_`. -/
  workers : List (Runtime T)
  /-- `settings_`. -/
  settings : Option Settings

namespace Owner

variable {T : Type*}

/-- `Server::Server` and `Client::Client`. -/
def new (kind : OwnerKind) : Owner T :=
  { kind := kind, mtx := none, running := false, workers := [], settings := none }

/-- `with_settings`, which is one section of `mtx_`. -/
def withSettings (o : Owner T) (settings : Settings) : Owner T × Option String :=
  if o.running then (o, some (o.kind.name ++ " has been running"))
  else if o.settings.isSome then (o, some "settings has been set")
  else
    match settings.validate with
    | some err => (o, some err)
    | none =>
      ({ o with settings := some settings,
                workers := o.workers ++ List.replicate settings.workers .new }, none)

/-- Where `run` goes on before worker `k`. -/
def nextRun (o : Owner T) (k : ℕ) : OwnerPc :=
  if k < o.workers.length then .runWorker k .cas else .runUnlock none

/-- Where `stop` goes on before worker `k`. -/
def nextStop (o : Owner T) (k : ℕ) : OwnerPc :=
  if k < o.workers.length then .stopWorker k .read else .stopClear

/-- The owner with another worker `k`. -/
def setWorker (o : Owner T) (k : ℕ) (r : Runtime T) : Owner T :=
  { o with workers := o.workers.set k r }

/-- A step of a call by `t`: the owner after it, and where the call goes on or what it returns. -/
def step (o : Owner T) (t : T) : OwnerPc → Option (Owner T × Next OwnerPc (Option String))
  | .runCas =>
    if o.running then some (o, .ret (some (o.kind.name ++ " has been running")))
    else some ({ o with running := true }, .goto .runLock)
  | .runLock => if o.mtx.isNone then some ({ o with mtx := some t }, .goto .runSettings) else none
  | .runSettings =>
    some (o, .goto
      (if o.settings.isSome then o.nextRun 0 else .runUnlock (some "settings has been not set")))
  | .runWorker k pc =>
    (o.workers[k]?.bind fun r => r.runStep t false pc).map fun (r, nx) =>
      (o.setWorker k r, .goto (match nx with
        | .goto pc' => .runWorker k pc'
        | .ret none => o.nextRun (k + 1)
        | .ret err => .runUnlock err))
  | .runUnlock err => some ({ o with mtx := none }, .ret err)
  | .stopLock => if o.mtx.isNone then some ({ o with mtx := some t }, .goto .stopTest) else none
  | .stopTest => some (o, .goto (if o.running then o.nextStop 0 else .stopUnlock))
  | .stopWorker k pc =>
    (o.workers[k]?.bind fun r => r.stopStep t pc).map fun (r, nx) =>
      (o.setWorker k r, .goto (match nx with
        | .goto pc' => .stopWorker k pc'
        | .ret _ => o.nextStop (k + 1)))
  | .stopClear => some ({ o with running := false }, .goto .stopUnlock)
  | .stopUnlock => some ({ o with mtx := none }, .ret none)

/-- The state: the owner, and the call that every caller is in. -/
structure State (T : Type*) where
  /-- The owner. -/
  owner : Owner T
  /-- The call that each caller is in. -/
  caller : T → Option OwnerPc

/-- A step of the system. -/
inductive Action (T : Type*)
  /-- A caller calls `run`. -/
  | run (t : T)
  /-- A caller calls `stop`. -/
  | stop (t : T)
  /-- The call of a caller takes a step. -/
  | go (t : T)
  /-- Thread `i` of worker `k` takes a step. -/
  | loop (k i : ℕ)
deriving DecidableEq, Repr

variable [DecidableEq T]

/-- The state once a caller is in another call, or in none. -/
def State.setCaller (s : State T) (t : T) (pc : Option OwnerPc) : State T :=
  { s with caller := Function.update s.caller t pc }

@[simp] theorem State.setCaller_caller (s : State T) (t u : T) (pc : Option OwnerPc) :
    (s.setCaller t pc).caller u = if u = t then pc else s.caller u := by
  simp [State.setCaller, Function.update_apply]

@[simp] theorem State.setCaller_owner (s : State T) (t : T) (pc : Option OwnerPc) :
    (s.setCaller t pc).owner = s.owner := rfl

/-- Where a caller is after a step. -/
def toPc : Next OwnerPc (Option String) → Option OwnerPc
  | .goto pc => some pc
  | .ret _ => none

/-- The step of an action. A call that returns emits what it returns; `stop` returns nothing. -/
def stepState (s : State T) : Action T → Option (State T × List (Option String))
  | .run t => if (s.caller t).isNone then some (s.setCaller t (some .runCas), []) else none
  | .stop t => if (s.caller t).isNone then some (s.setCaller t (some .stopLock), []) else none
  | .go t =>
    ((s.caller t).bind fun pc => s.owner.step t pc).map fun (o, nx) =>
      ({ s with owner := o }.setCaller t (toPc nx),
        match nx with
        | .goto _ => []
        | .ret res => [res])
  | .loop k i =>
    ((s.owner.workers[k]?).bind fun r => r.loopStep i).map fun (r, _) =>
      ({ s with owner := s.owner.setWorker k r }, [])

/-- The machine of one owner. -/
def machine (T : Type*) [DecidableEq T] : Machine (State T) (Action T) (Option String) :=
  ⟨stepState⟩

/-- A configured owner, with no call in progress. -/
def init (T : Type*) (kind : OwnerKind) (settings : Settings) : Config (State T) (Option String) :=
  { state := { owner := ((new kind).withSettings settings).1, caller := fun _ => none }
    trace := [] }

/-- `running_` agrees with the workers. -/
structure Agrees (s : State T) : Prop where
  /-- While no call is in progress, `running_` is set if and only if every worker is running. -/
  idle : (∀ t, s.caller t = none) →
    (s.owner.running = true ↔ ∀ r ∈ s.owner.workers, r.running = true)
  /-- A `stop` that finds `running_` unset leaves no worker running. -/
  found : ∀ t, s.caller t = some .stopTest → s.owner.running = false →
    ∀ r ∈ s.owner.workers, r.running = false

/-- The condition on a step: if a `stop` tests `running_`, no `run` is between its compare and
exchange and its locking of `mtx_`. -/
def Ordered (c : Config (State T) (Option String)) : Action T → Prop
  | .go t => c.state.caller t = some .stopTest → ∀ u, c.state.caller u ≠ some .runLock
  | _ => True

instance [Fintype T] (c : Config (State T) (Option String)) (a : Action T) :
    Decidable (Ordered c a) := by
  unfold Ordered
  split <;> infer_instance

/-! ## The steps as a relation -/

/-- The steps of a call of `run` or of `stop`: the owner after it, and where the call is then. -/
inductive Move (o : Owner T) (t : T) : OwnerPc → Owner T → Option OwnerPc → Prop
  | runRefuse : o.running = true → Move o t .runCas o none
  | runCas : o.running = false → Move o t .runCas { o with running := true } (some .runLock)
  | runLock : o.mtx = none → Move o t .runLock { o with mtx := some t } (some .runSettings)
  | runUnset {err : String} : o.settings = none →
    Move o t .runSettings o (some (.runUnlock (some err)))
  | runSettings : o.settings ≠ none → Move o t .runSettings o (some (o.nextRun 0))
  | runWorker {k pc r r' pc'} : o.workers[k]? = some r →
    Runtime.RunStep r t false pc r' (.goto pc') →
    Move o t (.runWorker k pc) (o.setWorker k r') (some (.runWorker k pc'))
  | runStarted {k pc r r'} : o.workers[k]? = some r → Runtime.RunStep r t false pc r' (.ret none) →
    Move o t (.runWorker k pc) (o.setWorker k r') (some (o.nextRun (k + 1)))
  | runFailed {k pc r r' err} : o.workers[k]? = some r →
    Runtime.RunStep r t false pc r' (.ret (some err)) →
    Move o t (.runWorker k pc) (o.setWorker k r') (some (.runUnlock (some err)))
  | runUnlock {err} : Move o t (.runUnlock err) { o with mtx := none } none
  | stopLock : o.mtx = none → Move o t .stopLock { o with mtx := some t } (some .stopTest)
  | stopNotRunning : o.running = false → Move o t .stopTest o (some .stopUnlock)
  | stopTest : o.running = true → Move o t .stopTest o (some (o.nextStop 0))
  | stopWorker {k pc r r' pc'} : o.workers[k]? = some r → Runtime.StopStep r t pc r' (.goto pc') →
    Move o t (.stopWorker k pc) (o.setWorker k r') (some (.stopWorker k pc'))
  | stopStopped {k pc r r' u} : o.workers[k]? = some r → Runtime.StopStep r t pc r' (.ret u) →
    Move o t (.stopWorker k pc) (o.setWorker k r') (some (o.nextStop (k + 1)))
  | stopClear : Move o t .stopClear { o with running := false } (some .stopUnlock)
  | stopUnlock : Move o t .stopUnlock { o with mtx := none } none

omit [DecidableEq T] in
/-- Every step of a call is one of these. -/
theorem step_cases {o o' : Owner T} {t : T} {pc : OwnerPc} {nx : Next OwnerPc (Option String)}
    (h : o.step t pc = some (o', nx)) : Move o t pc o' (toPc nx) := by
  cases pc with
  | runCas =>
    cases hr : o.running
    · obtain ⟨rfl, rfl⟩ : _ = o' ∧ _ = nx := by simpa [step, hr] using h
      exact .runCas hr
    · obtain ⟨rfl, rfl⟩ : _ = o' ∧ _ = nx := by simpa [step, hr] using h
      exact .runRefuse hr
  | runLock =>
    simp only [step, Option.ite_none_right_eq_some, Option.some.injEq, Prod.mk.injEq] at h
    obtain ⟨hm, rfl, rfl⟩ := h
    exact .runLock (by simpa using hm)
  | runSettings =>
    cases hset : o.settings with
    | none =>
      obtain ⟨rfl, rfl⟩ : _ = o' ∧ _ = nx := by simpa [step, hset] using h
      exact .runUnset hset
    | some settings =>
      obtain ⟨rfl, rfl⟩ : _ = o' ∧ _ = nx := by simpa [step, hset] using h
      exact .runSettings (by simp [hset])
  | runWorker k pc =>
    simp only [step, Option.map_eq_some_iff, Option.bind_eq_some_iff, Prod.mk.injEq] at h
    obtain ⟨⟨r', nx'⟩, ⟨r, hk, hr⟩, rfl, rfl⟩ := h
    have hs := Runtime.runStep_cases hr
    rcases nx' with pc' | (_ | err)
    · exact .runWorker hk hs
    · exact .runStarted hk hs
    · exact .runFailed hk hs
  | runUnlock err =>
    obtain ⟨rfl, rfl⟩ : _ = o' ∧ _ = nx := by simpa [step] using h
    exact .runUnlock
  | stopLock =>
    simp only [step, Option.ite_none_right_eq_some, Option.some.injEq, Prod.mk.injEq] at h
    obtain ⟨hm, rfl, rfl⟩ := h
    exact .stopLock (by simpa using hm)
  | stopTest =>
    cases hr : o.running
    · obtain ⟨rfl, rfl⟩ : _ = o' ∧ _ = nx := by simpa [step, hr] using h
      exact .stopNotRunning hr
    · obtain ⟨rfl, rfl⟩ : _ = o' ∧ _ = nx := by simpa [step, hr] using h
      exact .stopTest hr
  | stopWorker k pc =>
    simp only [step, Option.map_eq_some_iff, Option.bind_eq_some_iff, Prod.mk.injEq] at h
    obtain ⟨⟨r', nx'⟩, ⟨r, hk, hr⟩, rfl, rfl⟩ := h
    have hs := Runtime.stopStep_cases hr
    rcases nx' with pc' | u
    · exact .stopWorker hk hs
    · exact .stopStopped hk hs
  | stopClear =>
    obtain ⟨rfl, rfl⟩ : _ = o' ∧ _ = nx := by simpa [step] using h
    exact .stopClear
  | stopUnlock =>
    obtain ⟨rfl, rfl⟩ : _ = o' ∧ _ = nx := by simpa [step] using h
    exact .stopUnlock

end Owner

end Spinet
