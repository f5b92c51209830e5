import Spinet.Library.Calls
import Spinet.Lifecycle.Agreement
import Spinet.Lifecycle.Overwritten

/-!
# Calls of run by the only caller

A `run` on a runtime, a server, or a client that is in no other call (`AtRest`), while the threads
inside `exec` take their steps. Here `compare_exchange_weak` may fail although the value is the
expected one: `weak` says where it does. `stepWeak` is the step of a call of `Owner` with this.

A `run` of an owner starts its workers one after another. `At` says where it is with each of them,
and whose `run` has failed if it is about to return an error.
-/

namespace Spinet

open Calls

/-- What a call does after a step, for `Calls`. -/
def Next.toSum {π ρ : Type} : Next π ρ → π ⊕ ρ
  | .goto pc => .inl pc
  | .ret value => .inr value

/-- How many steps a call of `run` has before it at most. -/
def RunPc.rank : RunPc → ℕ
  | .cas => 6
  | .lock => 5
  | .test => 4
  | .join => 3
  | .start => 2
  | .unlock => 1

namespace Runtime

variable {T : Type*} {r r' : Runtime T} {t : T} {weak : Bool}

/-- A call of `run`. -/
def runCall (t : T) (weak : Bool) (r : Runtime T) (pc : RunPc) :
    Option (Runtime T × (RunPc ⊕ Option String)) :=
  (r.runStep t weak pc).map fun (r', nx) => (r', nx.toSum)

/-- A step of a thread inside `exec`. -/
def Loops (r r' : Runtime T) : Prop := ∃ i read, r.loopStep i = some (r', read)

/-- A runtime that is in no call. -/
structure AtRest (r : Runtime T) : Prop where
  /-- `thread_mtx_` is free. -/
  threadMtx : r.threadMtx = none
  /-- While it is not running, every thread has ended. -/
  ended : r.running = false → ∀ pc ∈ r.loops, pc = .done
  /-- `runtime_thread_` stands for a thread that has been started. -/
  thread : ∀ i ∈ r.runtimeThread, i < r.loops.length

/-- Every thread has ended, so a join is over at once. -/
structure Ended (r : Runtime T) : Prop where
  /-- Every thread has ended. -/
  ended : ∀ pc ∈ r.loops, pc = .done
  /-- `runtime_thread_` stands for a thread that has been started. -/
  thread : ∀ i ∈ r.runtimeThread, i < r.loops.length

/-- A runtime in the only call of `run` on it, by `t`; `n` threads had been started before. -/
def InAlone (t : T) (n : ℕ) : RunPc → Runtime T → Prop
  | .cas, r => r.running = false ∧ r.threadMtx = none ∧ r.Ended ∧ r.loops.length = n
  | .lock, r => r.threadMtx = none ∧ r.Ended ∧ r.loops.length = n
  | .join, r => r.threadMtx = some t ∧ r.runtimeThread ≠ none ∧ r.Ended ∧ r.loops.length = n
  | .test, r | .start, r => r.threadMtx = some t ∧ r.Ended ∧ r.loops.length = n
  | .unlock, r => r.threadMtx = some t ∧ r.loops.length = n + 1

/-- A runtime that has never been used is at rest. -/
theorem new_atRest : (new : Runtime T).AtRest :=
  ⟨rfl, fun _ _ h => absurd h List.not_mem_nil, fun i hi => by cases hi⟩

/-- A sound runtime that is in no call is at rest. -/
theorem atRest_of_sound [DecidableEq T] {s : StopRequest.State T} (h : StopRequest.Sound s)
    (hno : ∀ t, s.caller t = none) : s.runtime.AtRest := by
  refine ⟨?_, fun hoff => ?_, h.thread⟩
  · -- The owner of the mutex would be in a section.
    cases hm : s.runtime.threadMtx with
    | none => rfl
    | some t =>
      have hguarded := h.guarded
      rw [hm] at hguarded
      obtain ⟨f, hf, -⟩ := hguarded.exists_holds
      simp [StopRequest.State.stack, hno t] at hf
  · cases h.session with
    | off _ _ hdone => exact hdone
    | starting _ _ hon _ | live _ _ hon _ =>
      rw [hoff] at hon
      cases hon

/-- In every state that can be reached, a runtime that is in no call is at rest. -/
theorem atRest_of_reachable [DecidableEq T]
    {c : Transition.Config (StopRequest.State T) StopRequest.Event}
    (h : Transition.Reachable (StopRequest.machine T) (StopRequest.init T) c)
    (hno : ∀ t, c.state.caller t = none) : c.state.runtime.AtRest :=
  atRest_of_sound (StopRequest.sound_of_reachable h) hno

/-- A runtime at rest that is not running is ready for `run`. -/
theorem AtRest.inAlone (h : r.AtRest) (hoff : r.running = false) :
    InAlone t r.loops.length .cas r :=
  ⟨hoff, h.threadMtx, ⟨h.ended hoff, h.thread⟩, rfl⟩

/-- That every thread has ended does not depend on `running_` and on `thread_mtx_`. -/
theorem Ended.congr (h : r.Ended) (hloops : r'.loops = r.loops)
    (hthread : r'.runtimeThread = r.runtimeThread) : r'.Ended :=
  ⟨by rw [hloops]; exact h.ended, by rw [hloops, hthread]; exact h.thread⟩

/-- If every thread has ended, none takes a step. -/
theorem Ended.not_loops (h : r.Ended) : ¬ Loops r r' := by
  rintro ⟨i, read, hs⟩
  have hdone : ∀ {pc : LoopPc}, r.loops[i]? = some pc → pc ≠ .done → False := fun hpc hne =>
    hne (h.ended _ (List.mem_of_getElem? hpc))
  cases loopStep_cases hs with
  | prologue hi => exact hdone hi (by simp)
  | goOn hi => exact hdone hi (by simp)
  | leave hi => exact hdone hi (by simp)
  | body hi => exact hdone hi (by simp)
  | release hi => exact hdone hi (by simp)
  | store hi => exact hdone hi (by simp)

/-- A step of a thread starts no other, and leaves `thread_mtx_` alone. -/
theorem Loops.fixed (h : Loops r r') :
    r'.loops.length = r.loops.length ∧ r'.threadMtx = r.threadMtx := by
  obtain ⟨i, read, hs⟩ := h
  cases loopStep_cases hs <;> simp

/-- What the threads do during the call. -/
theorem InAlone.loops {n : ℕ} {pc : RunPc} (h : InAlone t n pc r) (hs : Loops r r') :
    InAlone t n pc r' := by
  cases pc with
  | cas => exact absurd hs h.2.2.1.not_loops
  | lock => exact absurd hs h.2.1.not_loops
  | test => exact absurd hs h.2.1.not_loops
  | join => exact absurd hs h.2.2.1.not_loops
  | start => exact absurd hs h.2.1.not_loops
  | unlock =>
    obtain ⟨hlength, hmtx⟩ := hs.fixed
    exact ⟨hmtx.trans h.1, hlength.trans h.2⟩

/-- What a step of the call leaves. -/
def AfterAlone (t : T) (n : ℕ) (r' : Runtime T) : Next RunPc (Option String) → Prop
  | .goto pc => InAlone t n pc r'
  | .ret err => err = none ∧ r'.loops.length = n + 1

/-- A step of the call, whose exchange does not fail. -/
theorem InAlone.step {n : ℕ} {pc : RunPc} {nx : Next RunPc (Option String)} (h : InAlone t n pc r)
    (hweak : pc = .cas → weak = false) (hs : RunStep r t weak pc r' nx) : AfterAlone t n r' nx := by
  cases hs with
  | refuse hr =>
    rw [h.1, hweak rfl] at hr
    simp at hr
  | cas => exact ⟨h.2.1, h.2.2.1.congr rfl rfl, h.2.2.2⟩
  | lock => exact ⟨rfl, h.2.1.congr rfl rfl, h.2.2⟩
  | joinable hthread => exact ⟨h.1, hthread, h.2⟩
  | notJoinable => exact h
  | join => exact ⟨h.1, ⟨h.2.2.1.ended, fun i hi => by cases hi⟩, h.2.2.2⟩
  | start =>
    obtain ⟨hmtx, -, hlength⟩ := h
    exact ⟨hmtx, by simp [hlength]⟩
  | unlock => exact ⟨rfl, h.2⟩

/-- The call is never stuck. -/
theorem InAlone.enabled {n : ℕ} {pc : RunPc} (h : InAlone t n pc r) (weak : Bool) :
    ∃ r' nx, r.runStep t weak pc = some (r', nx) := by
  cases pc with
  | cas =>
    simp only [runStep]
    split <;> exact ⟨_, _, rfl⟩
  | lock => exact ⟨_, _, by rw [runStep, h.1, Option.isNone_none, if_pos rfl]⟩
  | join =>
    -- The thread has ended, as every other.
    obtain ⟨-, hthread, hended, -⟩ := h
    obtain ⟨i, hi⟩ := Option.ne_none_iff_exists'.1 hthread
    have hlt := hended.thread i hi
    have hdone : r.ended = true := by
      simp [Runtime.ended, hi, List.getElem?_eq_getElem hlt,
        hended.ended _ (List.getElem_mem hlt)]
    exact ⟨_, _, by rw [runStep, if_pos hdone]⟩
  | test | start | unlock => exact ⟨_, _, rfl⟩

/-- Every step of the call brings it closer to its return. -/
theorem RunStep.rank_lt {pc pc' : RunPc} (h : RunStep r t weak pc r' (.goto pc')) :
    pc'.rank < pc.rank := by
  cases h <;> decide

/-- No step of the call leads back to its exchange. -/
theorem RunStep.ne_cas {pc pc' : RunPc} (h : RunStep r t weak pc r' (.goto pc')) : pc' ≠ .cas := by
  cases h <;> decide

/-- Where the exchange fails, the call returns at once, and changes nothing. -/
theorem exec_of_refuse {env : Runtime T → Runtime T → Prop} (h : r.running = true ∨ weak = true) :
    Exec (runCall t weak) env r .cas r (.inr (some "the server is running")) := by
  refine .step .refl ?_
  have hrefuse : (r.running || weak) = true := by simpa using h
  simp [runCall, runStep, hrefuse, Next.toSum]

/-- The only call of `run` on a runtime that is not running always ends with a thread started,
exactly when its exchange does not fail on equality. -/
theorem run_starts_iff (h : r.AtRest) (hoff : r.running = false) (t : T) (weak : Bool) :
    Ends (runCall t weak) Loops r .cas (fun _ r' => r'.loops.length = r.loops.length + 1) ↔
      weak = false := by
  constructor
  · intro hends
    by_contra hweak
    have hlength := hends.post _ _ (exec_of_refuse (.inr (by simpa using hweak)))
    omega
  · rintro rfl
    refine Ends.of_rank (I := InAlone t r.loops.length) (m := fun pc _ => pc.rank)
      (fun pc s s' hI he => hI.loops he) ?_ ?_ (h.inAlone hoff)
    · intro pc s s' o hI hs
      obtain ⟨⟨r', nx⟩, hr, hres⟩ := Option.map_eq_some_iff.1 hs
      obtain ⟨rfl, rfl⟩ := Prod.mk.inj hres
      have hafter := hI.step (fun _ => rfl) (runStep_cases hr)
      cases nx with
      | goto pc' => exact hafter
      | ret err => exact hafter.2
    · intro pc s hI
      obtain ⟨r', nx, hr⟩ := hI.enabled false
      refine .inr ⟨r', nx.toSum, by rw [runCall, hr]; rfl, fun pc' hpc' => ?_⟩
      cases nx with
      | goto q =>
        obtain rfl := Sum.inl.inj hpc'
        exact (runStep_cases hr).rank_lt
      | ret err => cases hpc'

end Runtime

namespace Owner

variable {T : Type*} {o o' o₀ : Owner T} {t : T} {weak : OwnerPc → Bool}

/-- A step of a call by `t`, where `weak` says that the `compare_exchange_weak` that the step makes,
if any, fails although the value is the expected one. -/
def stepWeak (o : Owner T) (t : T) (weak : Bool) :
    OwnerPc → Option (Owner T × Next OwnerPc (Option String))
  | .runCas =>
    if o.running || weak then some (o, .ret (some (o.kind.name ++ " has been running")))
    else some ({ o with running := true }, .goto .runLock)
  | .runWorker k pc =>
    (o.workers[k]?.bind fun r => r.runStep t weak pc).map fun (r, nx) =>
      (o.setWorker k r, .goto (match nx with
        | .goto pc' => .runWorker k pc'
        | .ret none => o.nextRun (k + 1)
        | .ret err => .runUnlock err))
  | pc => o.step t pc

/-- Without such a failure, the steps are those of `step`. -/
theorem stepWeak_false (o : Owner T) (t : T) (pc : OwnerPc) :
    o.stepWeak t false pc = o.step t pc := by
  cases pc with
  | runCas => simp only [stepWeak, step, Bool.or_false]
  | _ => rfl

/-- A call, with the failures on equality at the places where `weak` says so. -/
def runCall (t : T) (weak : OwnerPc → Bool) (o : Owner T) (pc : OwnerPc) :
    Option (Owner T × (OwnerPc ⊕ Option String)) :=
  (o.stepWeak t (weak pc) pc).map fun (o', nx) => (o', nx.toSum)

/-- A step of a thread of a worker. -/
def Loops (o o' : Owner T) : Prop :=
  ∃ k r r', o.workers[k]? = some r ∧ r.Loops r' ∧ o' = o.setWorker k r'

/-- A server or client that is in no call. -/
structure AtRest (o : Owner T) : Prop where
  /-- `mtx_` is free. -/
  mtx : o.mtx = none
  /-- So are its workers. -/
  workers : ∀ r ∈ o.workers, r.AtRest
  /-- Without settings it has no workers. -/
  unset : o.settings = none → o.workers = []
  /-- With settings it has some. -/
  set : o.settings ≠ none → o.workers ≠ []

/-- Worker `j`, which was `r₀`, can be started and has been. -/
def Started (weak : OwnerPc → Bool) (j : ℕ) (r₀ r : Runtime T) : Prop :=
  r₀.running = false ∧ weak (.runWorker j .cas) = false ∧ r.loops.length = r₀.loops.length + 1

/-- The call is in the `run` of worker `j`, which was `r₀`. -/
def Starting (t : T) (weak : OwnerPc → Bool) (j : ℕ) (r₀ : Runtime T) : RunPc → Runtime T → Prop
  | .cas, r => r = r₀
  | pc, r => r₀.running = false ∧ weak (.runWorker j .cas) = false ∧
    Runtime.InAlone t r₀.loops.length pc r

/-- Where a call of `run` is with worker `j`, which was `r₀` when it began. -/
def WorkerAt (t : T) (weak : OwnerPc → Bool) (pc : OwnerPc) (j : ℕ) (r₀ r : Runtime T) : Prop :=
  match pc with
  | .runWorker k pc' =>
    if j < k then Started weak j r₀ r else if j = k then Starting t weak j r₀ pc' r else r = r₀
  | .runUnlock none => Started weak j r₀ r
  | .runUnlock (some _) => True
  | _ => r = r₀

/-- Worker `j` cannot be started, and has not been. -/
def Failed (o₀ o : Owner T) (weak : OwnerPc → Bool) (j : ℕ) : Prop :=
  ∃ r₀, o₀.workers[j]? = some r₀ ∧ o.workers[j]? = some r₀ ∧
    (r₀.running = true ∨ weak (.runWorker j .cas) = true)

/-- The places of a call of `run` past its exchange. -/
def Place (o₀ : Owner T) : OwnerPc → Prop
  | .runLock | .runSettings | .runUnlock (some _) => True
  | .runWorker k _ => k < o₀.workers.length ∧ o₀.settings ≠ none
  | .runUnlock none => o₀.settings ≠ none
  | _ => False

/-- What holds during the only call of `run` on an owner that was `o₀` when it began, past the
exchange. -/
structure At (o₀ : Owner T) (t : T) (weak : OwnerPc → Bool) (pc : OwnerPc) (o : Owner T) :
    Prop where
  /-- The settings stay. -/
  settings : o.settings = o₀.settings
  /-- The workers stay. -/
  length : o.workers.length = o₀.workers.length
  /-- `running_` has been set. -/
  running : o.running = true
  /-- The call owns `mtx_` in its section. -/
  mtx : o.mtx = if pc.holds then some t else none
  /-- It is a call of `run`, and it begins with the workers only if there are settings. -/
  place : Place o₀ pc
  /-- Where it is with the workers. -/
  workers : ∀ j r₀ r, o₀.workers[j]? = some r₀ → o.workers[j]? = some r → WorkerAt t weak pc j r₀ r
  /-- If it is about to return an error, there are no settings, or a worker has failed. -/
  err : ∀ e, pc = .runUnlock (some e) → o₀.settings = none ∨ ∃ j, Failed o₀ o weak j

/-- What holds when it returns. -/
structure Returned (o₀ : Owner T) (weak : OwnerPc → Bool) (err : Option String) (o : Owner T) :
    Prop where
  /-- `running_` is set. -/
  running : o.running = true
  /-- The workers are those from before. -/
  length : o.workers.length = o₀.workers.length
  /-- On success there are settings, and every worker has been started. -/
  ok : err = none → o₀.settings ≠ none ∧ ∀ j r₀ r, o₀.workers[j]? = some r₀ →
    o.workers[j]? = some r → Started weak j r₀ r
  /-- On an error there are no settings, or a worker has not been started. -/
  fail : err ≠ none → o₀.settings = none ∨ ∃ j, Failed o₀ o weak j

/-- How many steps the call has before it at most. -/
def rank (o₀ : Owner T) : OwnerPc → ℕ
  | .runCas => 7 * o₀.workers.length + 5
  | .runLock => 7 * o₀.workers.length + 4
  | .runSettings => 7 * o₀.workers.length + 3
  | .runWorker k pc => 7 * (o₀.workers.length - (k + 1)) + pc.rank + 2
  | _ => 1

/-- Going on before worker `k` brings the call closer to its return. -/
theorem rank_nextRun {k n : ℕ} (hlength : o.workers.length = o₀.workers.length)
    (hn : 7 * (o₀.workers.length - k) + 1 < n) : rank o₀ (o.nextRun k) < n := by
  unfold nextRun
  split
  · simp only [rank, RunPc.rank]
    omega
  · simp only [rank]
    omega

/-- What a step leaves. -/
def AfterStep (o₀ : Owner T) (t : T) (weak : OwnerPc → Bool) (o' : Owner T) :
    Next OwnerPc (Option String) → Prop
  | .goto pc => At o₀ t weak pc o'
  | .ret err => Returned o₀ weak err o'

/-- Where the call goes on before worker `k`, once it has started those before. -/
theorem at_nextRun {k : ℕ} (hsettings : o.settings = o₀.settings)
    (hlength : o.workers.length = o₀.workers.length) (hrun : o.running = true)
    (hmtx : o.mtx = some t) (hset : o₀.settings ≠ none)
    (hlt : ∀ j r₀ r, o₀.workers[j]? = some r₀ → o.workers[j]? = some r → j < k →
      Started weak j r₀ r)
    (hge : ∀ j r₀ r, o₀.workers[j]? = some r₀ → o.workers[j]? = some r → k ≤ j → r = r₀) :
    At o₀ t weak (o.nextRun k) o := by
  unfold nextRun
  split
  · rename_i hk
    refine ⟨hsettings, hlength, hrun, hmtx, ⟨hlength ▸ hk, hset⟩, fun j r₀ r h₀ h => ?_, by simp⟩
    simp only [WorkerAt]
    split
    · exact hlt j r₀ r h₀ h ‹_›
    · split
      · exact hge j r₀ r h₀ h (by omega)
      · exact hge j r₀ r h₀ h (by omega)
  · refine ⟨hsettings, hlength, hrun, hmtx, hset, fun j r₀ r h₀ h => hlt j r₀ r h₀ h ?_, by simp⟩
    obtain ⟨hj, -⟩ := List.getElem?_eq_some_iff.1 h
    omega

/-- Past its exchange, the `run` of a worker is that of one that can be started. -/
theorem starting_of_inAlone {j : ℕ} {pc : RunPc} {r₀ r : Runtime T} (hpc : pc ≠ .cas)
    (hoff : r₀.running = false) (hweak : weak (.runWorker j .cas) = false)
    (hin : Runtime.InAlone t r₀.loops.length pc r) : Starting t weak j r₀ pc r := by
  cases pc <;> first | exact absurd rfl hpc | exact ⟨hoff, hweak, hin⟩

/-- A step in the `run` of worker `k`. -/
theorem At.stepWorker {k : ℕ} {pc : RunPc} {r r' : Runtime T} {nx : Next RunPc (Option String)}
    (h : At o₀ t weak (.runWorker k pc) o) (hatRest : ∀ r ∈ o₀.workers, r.AtRest)
    (hk : o.workers[k]? = some r) : r.runStep t (weak (.runWorker k pc)) pc = some (r', nx) →
    AfterStep o₀ t weak (o.setWorker k r') (.goto (match nx with
      | .goto pc' => .runWorker k pc'
      | .ret none => o.nextRun (k + 1)
      | .ret err => .runUnlock err)) := by
  intro hs
  obtain ⟨hlt, hset⟩ := h.place
  obtain ⟨r₀, h₀⟩ : ∃ r₀, o₀.workers[k]? = some r₀ := ⟨_, List.getElem?_eq_getElem hlt⟩
  have hstarting : Starting t weak k r₀ pc r := by simpa [WorkerAt] using h.workers k r₀ r h₀ hk
  have hlength : (o.setWorker k r').workers.length = o₀.workers.length := by
    simp [setWorker, h.length]
  have hlt' : ∀ j r₀ x, o₀.workers[j]? = some r₀ → o.workers[j]? = some x → j < k →
      Started weak j r₀ x := fun j r₀ x hj₀ hj hjk => by
    simpa [WorkerAt, hjk] using h.workers j r₀ x hj₀ hj
  have hge' : ∀ j r₀ x, o₀.workers[j]? = some r₀ → o.workers[j]? = some x → k < j → x = r₀ :=
    fun j r₀ x hj₀ hj hkj => by
      simpa [WorkerAt, show ¬ j < k by omega, show j ≠ k by omega] using h.workers j r₀ x hj₀ hj
  -- Either the exchange fails, or the worker is being started.
  have hcases : (nx = .ret (some "the server is running") ∧ r' = r₀ ∧
        (r₀.running = true ∨ weak (.runWorker k .cas) = true)) ∨
      (r₀.running = false ∧ weak (.runWorker k .cas) = false ∧
        Runtime.AfterAlone t r₀.loops.length r' nx) := by
    by_cases hpc : pc = .cas
    · subst hpc
      obtain rfl : r = r₀ := hstarting
      by_cases hfail : r.running = true ∨ weak (.runWorker k .cas) = true
      · have hrefuse : (r.running || weak (.runWorker k .cas)) = true := by simpa using hfail
        rw [Runtime.runStep, if_pos hrefuse] at hs
        obtain ⟨rfl, rfl⟩ := Prod.mk.inj (Option.some.inj hs)
        exact .inl ⟨rfl, rfl, hfail⟩
      · obtain ⟨hoff, hweak⟩ : r.running = false ∧ weak (.runWorker k .cas) = false := by
          simpa using hfail
        have hin := (hatRest r (List.mem_of_getElem? h₀)).inAlone (t := t) hoff
        exact .inr ⟨hoff, hweak, hin.step (fun _ => hweak) (Runtime.runStep_cases hs)⟩
    · obtain ⟨hoff, hweak, hin⟩ : r₀.running = false ∧ weak (.runWorker k .cas) = false ∧
          Runtime.InAlone t r₀.loops.length pc r := by
        cases pc <;> first | exact absurd rfl hpc | exact hstarting
      exact .inr ⟨hoff, hweak, hin.step (fun h => absurd h hpc) (Runtime.runStep_cases hs)⟩
  have hk' : (o.setWorker k r').workers[k]? = some r' := by
    rw [setWorker, List.getElem?_set_self (h.length ▸ hlt)]
  rcases hcases with ⟨rfl, rfl, hfail⟩ | ⟨hoff, hweak, hafter⟩
  · refine ⟨h.settings, hlength, h.running, h.mtx, trivial, fun _ _ _ _ _ => trivial, fun e _ => ?_⟩
    exact .inr ⟨k, r', h₀, hk', hfail⟩
  · rcases nx with pc' | (_ | err)
    · refine ⟨h.settings, hlength, h.running, h.mtx, ⟨hlt, hset⟩, fun j r₀' x hj₀ hj => ?_, by simp⟩
      simp only [WorkerAt]
      rcases setWorker_getElem hj with ⟨rfl, rfl⟩ | ⟨hne, hj⟩
      · obtain rfl : r₀ = r₀' := Option.some.inj (h₀.symm.trans hj₀)
        simpa using starting_of_inAlone (Runtime.runStep_cases hs).ne_cas hoff hweak hafter
      · have hj' := h.workers j r₀' x hj₀ hj
        simpa [WorkerAt, hne] using hj'
    · -- Worker `k` joins those that have been started.
      rw [← setWorker_nextRun o k r']
      refine at_nextRun h.settings hlength h.running h.mtx hset ?_ ?_
      · intro j r₀' x hj₀ hj hjk
        rcases setWorker_getElem hj with ⟨rfl, rfl⟩ | ⟨hne, hj⟩
        · obtain rfl : r₀ = r₀' := Option.some.inj (h₀.symm.trans hj₀)
          exact ⟨hoff, hweak, hafter.2⟩
        · exact hlt' j r₀' x hj₀ hj (by omega)
      · intro j r₀' x hj₀ hj hjk
        rcases setWorker_getElem hj with ⟨rfl, rfl⟩ | ⟨hne, hj⟩
        · omega
        · exact hge' j r₀' x hj₀ hj (by omega)
    · cases hafter.1

/-- A step of the call. -/
theorem At.step {pc : OwnerPc} {nx : Next OwnerPc (Option String)} (h : At o₀ t weak pc o)
    (hatRest : ∀ r ∈ o₀.workers, r.AtRest) (hs : o.stepWeak t (weak pc) pc = some (o', nx)) :
    AfterStep o₀ t weak o' nx := by
  cases pc with
  | runCas | stopLock | stopTest | stopWorker | stopClear | stopUnlock => exact h.place.elim
  | runLock =>
    obtain ⟨-, hs⟩ := Option.ite_none_right_eq_some.1 hs
    obtain ⟨rfl, rfl⟩ := Prod.mk.inj (Option.some.inj hs)
    exact ⟨h.settings, h.length, h.running, rfl, trivial, h.workers, by simp⟩
  | runSettings =>
    obtain ⟨rfl, rfl⟩ := Prod.mk.inj (Option.some.inj hs)
    have hworkers : ∀ j r₀ r, o₀.workers[j]? = some r₀ → o.workers[j]? = some r → r = r₀ :=
      h.workers
    cases hset : o.settings with
    | none =>
      refine ⟨h.settings, h.length, h.running, h.mtx, trivial, fun _ _ _ _ _ => trivial,
        fun e _ => .inl ?_⟩
      rw [← h.settings, hset]
    | some settings =>
      refine at_nextRun h.settings h.length h.running h.mtx ?_ (fun _ _ _ _ _ hlt => by omega)
        fun j r₀ r h₀ hj _ => hworkers j r₀ r h₀ hj
      rw [← h.settings, hset]
      simp
  | runWorker k pc =>
    simp only [stepWeak, Option.map_eq_some_iff, Option.bind_eq_some_iff, Prod.mk.injEq] at hs
    obtain ⟨⟨r', nx'⟩, ⟨r, hk, hr⟩, rfl, rfl⟩ := hs
    exact h.stepWorker hatRest hk hr
  | runUnlock err =>
    obtain ⟨rfl, rfl⟩ := Prod.mk.inj (Option.some.inj hs)
    refine ⟨h.running, h.length, ?_, ?_⟩
    · rintro rfl
      exact ⟨h.place, h.workers⟩
    · intro hne
      obtain ⟨e, rfl⟩ := Option.ne_none_iff_exists'.1 hne
      exact h.err e rfl

/-- The call is never stuck, and every step brings it closer to its return. -/
theorem At.progress {pc : OwnerPc} (h : At o₀ t weak pc o) :
    ∃ o' nx, o.stepWeak t (weak pc) pc = some (o', nx) ∧
      ∀ pc', nx = .goto pc' → rank o₀ pc' < rank o₀ pc := by
  cases pc with
  | runCas | stopLock | stopTest | stopWorker | stopClear | stopUnlock => exact h.place.elim
  | runLock =>
    have hmtx : o.mtx = none := h.mtx
    refine ⟨{ o with mtx := some t }, .goto .runSettings, ?_, ?_⟩
    · simp [stepWeak, Owner.step, hmtx]
    · rintro pc' ⟨rfl⟩
      simp [rank]
  | runSettings =>
    refine ⟨_, _, rfl, ?_⟩
    rintro pc' ⟨rfl⟩
    split
    · exact rank_nextRun h.length (by simp [rank])
    · simp [rank]
  | runWorker k pc =>
    obtain ⟨hlt, hset⟩ := h.place
    obtain ⟨r₀, h₀⟩ : ∃ r₀, o₀.workers[k]? = some r₀ := ⟨_, List.getElem?_eq_getElem hlt⟩
    obtain ⟨r, hk⟩ : ∃ r, o.workers[k]? = some r := ⟨_, List.getElem?_eq_getElem (h.length ▸ hlt)⟩
    have hstarting : Starting t weak k r₀ pc r := by simpa [WorkerAt] using h.workers k r₀ r h₀ hk
    obtain ⟨r', nx, hr⟩ : ∃ r' nx, r.runStep t (weak (.runWorker k pc)) pc = some (r', nx) := by
      cases pc with
      | cas =>
        simp only [Runtime.runStep]
        split <;> exact ⟨_, _, rfl⟩
      | lock | test | join | start | unlock => exact hstarting.2.2.enabled _
    refine ⟨_, _, by rw [stepWeak, hk, Option.bind_some, hr]; rfl, ?_⟩
    rintro pc' ⟨rfl⟩
    rcases nx with q | (_ | err)
    · have := (Runtime.runStep_cases hr).rank_lt
      simp only [rank]
      omega
    · exact rank_nextRun h.length (by simp only [rank]; omega)
    · simp only [rank]
      omega
  | runUnlock err => exact ⟨_, _, rfl, by simp⟩

/-- What the threads of the workers do during the call, if none of them was running. -/
theorem At.loops {pc : OwnerPc} (h : At o₀ t weak pc o)
    (hended : ∀ r ∈ o₀.workers, r.Ended) (hs : Loops o o') : At o₀ t weak pc o' := by
  obtain ⟨k, r, r', hk, hloops, rfl⟩ := hs
  obtain ⟨hlength, -⟩ := hloops.fixed
  refine ⟨h.settings, by simp [setWorker, h.length], h.running, h.mtx, h.place, ?_, fun e he => ?_⟩
  · intro j r₀ x h₀ hj
    rcases setWorker_getElem hj with ⟨rfl, rfl⟩ | ⟨-, hj⟩
    · have hnot : r = r₀ → False := by
        rintro rfl
        exact (hended r (List.mem_of_getElem? h₀)).not_loops hloops
      have hold := h.workers j r₀ r h₀ hk
      cases pc with
      | runWorker i pc' =>
        simp only [WorkerAt] at hold ⊢
        split_ifs at hold ⊢
        · exact ⟨hold.1, hold.2.1, hlength.trans hold.2.2⟩
        · cases pc' with
          | cas => exact (hnot hold).elim
          | lock | test | join | start | unlock => exact ⟨hold.1, hold.2.1, hold.2.2.loops hloops⟩
        · exact (hnot hold).elim
      | runUnlock err =>
        cases err with
        | none => exact ⟨hold.1, hold.2.1, hlength.trans hold.2.2⟩
        | some e => trivial
      | _ => exact (hnot hold).elim
    · exact h.workers j r₀ x h₀ hj
  · rcases h.err e he with hnone | ⟨j, r₀, h₀, hj, hfail⟩
    · exact .inl hnone
    · refine .inr ⟨j, r₀, h₀, ?_, hfail⟩
      have hne : k ≠ j := by
        rintro rfl
        obtain rfl : r = r₀ := Option.some.inj (hk.symm.trans hj)
        exact (hended r (List.mem_of_getElem? h₀)).not_loops hloops
      rw [setWorker, List.getElem?_set_ne hne]
      exact hj

/-- The only call of `run` on an owner that is not running, past its exchange, always returns, and
what it leaves. The surroundings are those that keep `At` and do nothing before the exchange. -/
theorem run_ends {env : Owner T → Owner T → Prop} (h : o.AtRest) (hoff : o.running = false)
    (hweak : weak .runCas = false) (hfirst : ∀ o', ¬ env o o')
    (henv : ∀ pc o₁ o₂, At o t weak pc o₁ → env o₁ o₂ → At o t weak pc o₂) :
    Ends (runCall t weak) env o .runCas (Returned o weak) := by
  refine Ends.of_rank (I := fun pc o' => (pc = .runCas ∧ o' = o) ∨ At o t weak pc o')
    (m := fun pc _ => rank o pc) ?_ ?_ ?_ (.inl ⟨rfl, rfl⟩)
  · rintro pc o₁ o₂ (⟨rfl, rfl⟩ | hat) he
    · exact absurd he (hfirst o₂)
    · exact .inr (henv pc o₁ o₂ hat he)
  · intro pc o₁ o₂ res hI hs
    obtain ⟨⟨o', nx⟩, hr, hres⟩ := Option.map_eq_some_iff.1 hs
    obtain ⟨rfl, rfl⟩ := Prod.mk.inj hres
    rcases hI with ⟨rfl, rfl⟩ | hat
    · simp only [stepWeak, hoff, hweak, Bool.or_self, Bool.false_eq_true, if_false,
        Option.some.injEq, Prod.mk.injEq] at hr
      obtain ⟨rfl, rfl⟩ := hr
      refine .inr ⟨rfl, rfl, rfl, h.mtx, trivial, fun j r₀ r h₀ hj => ?_, by simp⟩
      exact Option.some.inj (hj.symm.trans h₀)
    · have hafter := hat.step h.workers hr
      cases nx with
      | goto pc' => exact .inr hafter
      | ret err => exact hafter
  · rintro pc o₁ (⟨rfl, rfl⟩ | hat)
    · refine .inr ⟨{ o₁ with running := true }, .inl .runLock, ?_, ?_⟩
      · simp [runCall, stepWeak, hoff, hweak, Next.toSum]
      · rintro pc' ⟨rfl⟩
        simp [rank]
    · obtain ⟨o', nx, hr, hrank⟩ := hat.progress
      refine .inr ⟨o', nx.toSum, by rw [runCall, hr]; rfl, fun pc' hpc' => ?_⟩
      cases nx with
      | goto q =>
        obtain rfl := Sum.inl.inj hpc'
        exact hrank q rfl
      | ret err => cases hpc'

/-- A `run` that nothing disturbs, past its exchange. -/
theorem run_ends_undisturbed (h : o.AtRest) (hoff : o.running = false) (t : T)
    (hweak : weak .runCas = false) :
    Ends (runCall t weak) Undisturbed o .runCas (Returned o weak) :=
  run_ends h hoff hweak (fun _ he => he) fun _ _ _ _ he => he.elim

/-- If every worker can be started, `run` returns no error. -/
theorem Returned.eq_none {err : Option String} (h : Returned o weak err o')
    (hset : o.settings ≠ none)
    (hworkers : ∀ j r, o.workers[j]? = some r →
      r.running = false ∧ weak (.runWorker j .cas) = false) : err = none := by
  by_contra hne
  rcases h.fail hne with hnone | ⟨j, r₀, h₀, -, hfail⟩
  · exact hset hnone
  · obtain ⟨hoff, hweak⟩ := hworkers j r₀ h₀
    rw [hoff, hweak] at hfail
    simp at hfail

/-- Where the exchange fails, the call returns at once, and changes nothing. -/
theorem exec_of_refuse {env : Owner T → Owner T → Prop}
    (h : o.running = true ∨ weak .runCas = true) :
    Exec (runCall t weak) env o .runCas o (.inr (some (o.kind.name ++ " has been running"))) := by
  refine .step .refl ?_
  have hrefuse : (o.running || weak .runCas) = true := by simpa using h
  simp [runCall, stepWeak, hrefuse, Next.toSum]

/-- Every worker has one more thread that has been started. -/
def AllStarted (o o' : Owner T) : Prop :=
  ∀ (j : ℕ) (r : Runtime T), o.workers[j]? = some r →
    ∃ r' : Runtime T, o'.workers[j]? = some r' ∧ r'.loops.length = r.loops.length + 1

/-- The only call of `run` on a configured owner that is not running always ends with a thread of
every worker started, exactly when no worker is running and no exchange fails on equality: neither
its own nor that of a worker. -/
theorem run_starts_iff (h : o.AtRest) (hoff : o.running = false) (hset : o.settings ≠ none) (t : T)
    (weak : OwnerPc → Bool) :
    Ends (runCall t weak) Loops o .runCas (fun _ o' => AllStarted o o') ↔
      weak .runCas = false ∧ ∀ k r, o.workers[k]? = some r →
        r.running = false ∧ weak (.runWorker k .cas) = false := by
  constructor
  · intro hends
    have hweak : weak .runCas = false := by
      -- Otherwise it would return at once, and it has workers to start.
      by_contra hfail
      obtain ⟨r, rest, hr⟩ := List.exists_cons_of_ne_nil (h.set hset)
      have h₀ : o.workers[0]? = some r := by simp [hr]
      obtain ⟨r', h₀', hlength⟩ :=
        hends.post _ _ (exec_of_refuse (.inr (by simpa using hfail))) 0 r h₀
      obtain rfl : r = r' := Option.some.inj (h₀.symm.trans h₀')
      omega
    refine ⟨hweak, fun k r hk => ?_⟩
    -- It can return with nothing happening meanwhile.
    have hundisturbed := run_ends_undisturbed h hoff t hweak
    obtain ⟨o', err, hexec⟩ := hundisturbed.returns o .runCas .refl
    have hret := hundisturbed.post o' err hexec
    have hstarted := hends.post o' err (hexec.mono fun _ _ he => he.elim)
    cases err with
    | none =>
      obtain ⟨r', hr', -⟩ := hstarted k r hk
      obtain ⟨hr, hw, -⟩ := (hret.ok rfl).2 k r r' hk hr'
      exact ⟨hr, hw⟩
    | some e =>
      rcases hret.fail (by simp) with hnone | ⟨j, r₀, h₀, hj, -⟩
      · exact absurd hnone hset
      · -- The worker whose `run` failed has not been started.
        obtain ⟨r', hr', hlength⟩ := hstarted j r₀ h₀
        obtain rfl : r₀ = r' := Option.some.inj (hj.symm.trans hr')
        omega
  · rintro ⟨hweak, hall⟩
    have hended : ∀ r ∈ o.workers, r.Ended := by
      intro r hr
      obtain ⟨k, hk⟩ := List.mem_iff_getElem?.1 hr
      exact ⟨(h.workers r hr).ended (hall k r hk).1, (h.workers r hr).thread⟩
    have hfirst : ∀ o', ¬ Loops o o' := by
      rintro o' ⟨k, r, r', hk, hloops, -⟩
      exact (hended r (List.mem_of_getElem? hk)).not_loops hloops
    have hends : Ends (runCall t weak) Loops o .runCas (Returned o weak) :=
      run_ends h hoff hweak hfirst fun pc o₁ o₂ hat hl => hat.loops hended hl
    refine ⟨fun o' err hexec j r hr => ?_, hends.returns⟩
    have hret := hends.post o' err hexec
    obtain rfl := hret.eq_none hset hall
    have hlt : j < o'.workers.length := by
      rw [hret.length]
      exact (List.getElem?_eq_some_iff.1 hr).1
    exact ⟨_, List.getElem?_eq_getElem hlt,
      ((hret.ok rfl).2 j r _ hr (List.getElem?_eq_getElem hlt)).2.2⟩

end Owner

end Spinet
