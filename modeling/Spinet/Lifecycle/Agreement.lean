import Spinet.Lifecycle.Owner

/-!
# The flag of a server or client agrees with its workers

`run` sets `running_` before it locks `mtx_`, while `stop` tests and clears it under `mtx_`. A
`stop` in that gap finds `running_` set, stops workers that do not run yet, and clears `running_`;
the `run` then starts them. `agrees_always` says that this is all that can go wrong: if no `stop`
tests `running_` while a `run` is in the gap, then `running_` agrees with the workers whenever no
call is in progress.

A call is busy while it answers for the workers. The invariant is that at most one call is busy,
that it finds every worker as it expects it (`Meets`), and that without one `running_` agrees with
the workers (`Calm`).
-/

namespace Spinet.Owner

open Transition

variable {T : Type*} [DecidableEq T]

/-! ## What a busy call leaves -/

/-- What worker `j` is like while the call of `t` at `pc` answers for it. -/
def Expected (t : T) (pc : OwnerPc) (j : ℕ) (r : Runtime T) : Prop :=
  match pc with
  | .runLock | .runSettings | .stopClear => r.Idle
  | .runUnlock _ => r.Active
  | .runWorker k pc' => if j < k then r.Active else if j = k then Runtime.InRun t pc' r else r.Idle
  | .stopWorker k pc' =>
    if j < k then r.Idle else if j = k then Runtime.InStop t pc' r else r.Active
  | _ => True

/-- The workers are as the call of `t` at `pc` expects them. -/
def Meets (o : Owner T) (t : T) (pc : OwnerPc) : Prop :=
  o.running = true ∧ ∀ j r, o.workers[j]? = some r → Expected t pc j r

/-- `running_` agrees with the workers, and no worker is in a call. -/
def Calm (o : Owner T) : Prop :=
  (o.running = true → ∀ r ∈ o.workers, r.Active) ∧ (o.running = false → ∀ r ∈ o.workers, r.Idle)

/-- What holds of the owner when only the call of `t` may be busy, and is at `pc`. -/
def Answered (o : Owner T) (t : T) : Option OwnerPc → Prop
  | some pc => if pc.busy then o.Meets t pc else o.Calm
  | none => o.Calm

section Moves

omit [DecidableEq T]

variable {o o' : Owner T} {t u : T} {pc : OwnerPc} {nx : Option OwnerPc}

/-- Which worker another one is, after worker `k` has been replaced. -/
theorem setWorker_getElem {k j : ℕ} {r' x : Runtime T}
    (hj : (o.setWorker k r').workers[j]? = some x) :
    (j = k ∧ x = r') ∨ (j ≠ k ∧ o.workers[j]? = some x) := by
  rw [setWorker, List.getElem?_set] at hj
  split at hj
  · rename_i heq
    split at hj
    · exact .inl ⟨heq.symm, (Option.some.inj hj).symm⟩
    · cases hj
  · rename_i hne
    exact .inr ⟨fun e => hne e.symm, hj⟩

/-- What holds of a new worker `k`, and of the other workers of the owner. -/
theorem forall_setWorker {P : ℕ → Runtime T → Prop} {k : ℕ} {r' : Runtime T} (hk : P k r')
    (hne : ∀ j r, j ≠ k → o.workers[j]? = some r → P j r) :
    ∀ j r, (o.setWorker k r').workers[j]? = some r → P j r := by
  intro j r hj
  rcases setWorker_getElem hj with ⟨rfl, rfl⟩ | ⟨hjk, hj⟩
  · exact hk
  · exact hne j r hjk hj

theorem setWorker_nextRun (o : Owner T) (k : ℕ) (r : Runtime T) (j : ℕ) :
    (o.setWorker k r).nextRun j = o.nextRun j := by simp [nextRun, setWorker]

theorem setWorker_nextStop (o : Owner T) (k : ℕ) (r : Runtime T) (j : ℕ) :
    (o.setWorker k r).nextStop j = o.nextStop j := by simp [nextStop, setWorker]

/-- Before worker `k`, `run` has started the workers up to `k` and no other. -/
theorem meets_nextRun {k : ℕ} (hrun : o.running = true)
    (hlt : ∀ j r, o.workers[j]? = some r → j < k → r.Active)
    (hge : ∀ j r, o.workers[j]? = some r → k ≤ j → r.Idle) : o.Answered t (some (o.nextRun k)) := by
  unfold nextRun
  split
  · refine ⟨hrun, fun j r hj => ?_⟩
    simp only [Expected, Runtime.InRun]
    split
    · exact hlt j r hj ‹_›
    · split <;> exact hge j r hj (by omega)
  · refine ⟨hrun, fun j r hj => hlt j r hj ?_⟩
    obtain ⟨hlen, -⟩ := List.getElem?_eq_some_iff.1 hj
    omega

/-- Before worker `k`, `stop` has stopped the workers up to `k` and no other. -/
theorem meets_nextStop {k : ℕ} (hrun : o.running = true)
    (hlt : ∀ j r, o.workers[j]? = some r → j < k → r.Idle)
    (hge : ∀ j r, o.workers[j]? = some r → k ≤ j → r.Active) :
    o.Answered t (some (o.nextStop k)) := by
  unfold nextStop
  split
  · refine ⟨hrun, fun j r hj => ?_⟩
    simp only [Expected, Runtime.InStop]
    split
    · exact hlt j r hj ‹_›
    · split <;> exact hge j r hj (by omega)
  · refine ⟨hrun, fun j r hj => hlt j r hj ?_⟩
    obtain ⟨hlen, -⟩ := List.getElem?_eq_some_iff.1 hj
    omega

/-- A step of a busy call of a configured owner. -/
theorem Move.answered_of_meets (h : Move o t pc o' nx) (hbusy : pc.busy = true)
    (hset : o.settings ≠ none) (hm : o.Meets t pc) : o'.Answered t nx := by
  obtain ⟨hrun, hexp⟩ := hm
  cases h with
  | runRefuse | runCas | stopLock | stopNotRunning | stopTest | stopUnlock => cases hbusy
  | runLock => exact ⟨hrun, hexp⟩
  | runUnset hnone => exact absurd hnone hset
  | runSettings => exact meets_nextRun hrun (fun _ _ _ hlt => by omega) fun j r hj _ => hexp j r hj
  | @runWorker k pc r r' pc' hk hs =>
    have hin : Runtime.InRun t pc r := by simpa [Expected] using hexp k r hk
    have hk' : Runtime.InRun t pc' r' := hin.step hs
    refine ⟨hrun, forall_setWorker (by simpa [Expected] using hk') fun j x hne hj => ?_⟩
    simpa [Expected, hne] using hexp j x hj
  | @runStarted k pc r r' hk hs =>
    have hin : Runtime.InRun t pc r := by simpa [Expected] using hexp k r hk
    obtain ⟨-, hactive⟩ := hin.step hs
    rw [← setWorker_nextRun o k r']
    -- Worker `k` joins those that have been started; it is not among those still to start.
    refine meets_nextRun hrun (forall_setWorker (fun _ => hactive) fun j x hne hj hlt => ?_)
      (forall_setWorker (fun hge => absurd hge (by omega)) fun j x hne hj hge => ?_)
    · simpa [Expected, show j < k by omega] using hexp j x hj
    · simpa [Expected, show ¬ j < k by omega, hne] using hexp j x hj
  | @runFailed k pc r r' err hk hs =>
    -- `run` does not fail on an idle worker.
    have hin : Runtime.InRun t pc r := by simpa [Expected] using hexp k r hk
    have := (hin.step hs).1
    cases this
  | runUnlock =>
    refine ⟨fun _ r hr => ?_, fun hoff => ?_⟩
    · obtain ⟨j, hj⟩ := List.mem_iff_getElem?.1 hr
      exact hexp j r hj
    · have hon : o.running = false := hoff
      rw [hrun] at hon
      cases hon
  | @stopWorker k pc r r' pc' hk hs =>
    have hin : Runtime.InStop t pc r := by simpa [Expected] using hexp k r hk
    have hk' : Runtime.InStop t pc' r' := hin.step hs
    refine ⟨hrun, forall_setWorker (by simpa [Expected] using hk') fun j x hne hj => ?_⟩
    simpa [Expected, hne] using hexp j x hj
  | @stopStopped k pc r r' _ hk hs =>
    have hin : Runtime.InStop t pc r := by simpa [Expected] using hexp k r hk
    have hidle : r'.Idle := hin.step hs
    rw [← setWorker_nextStop o k r']
    refine meets_nextStop hrun (forall_setWorker (fun _ => hidle) fun j x hne hj hlt => ?_)
      (forall_setWorker (fun hge => absurd hge (by omega)) fun j x hne hj hge => ?_)
    · simpa [Expected, show j < k by omega] using hexp j x hj
    · simpa [Expected, show ¬ j < k by omega, hne] using hexp j x hj
  | stopClear =>
    show Calm _
    refine ⟨fun hon => by simp at hon, fun _ r hr => ?_⟩
    obtain ⟨j, hj⟩ := List.mem_iff_getElem?.1 hr
    exact hexp j r hj

/-- A step of a call that is not busy, when no call is. -/
theorem Move.answered_of_calm (h : Move o t pc o' nx) (hbusy : pc.busy = false) (hc : o.Calm) :
    o'.Answered t nx := by
  cases h with
  | runRefuse => exact hc
  | runCas hoff =>
    exact ⟨rfl, fun j r hj => hc.2 hoff r (List.mem_of_getElem? hj)⟩
  | stopLock => exact hc
  | stopNotRunning => exact hc
  | stopTest hon =>
    exact meets_nextStop hon (fun _ _ _ hlt => by omega) fun j r hj _ =>
      hc.1 hon r (List.mem_of_getElem? hj)
  | stopUnlock => exact hc
  | _ => cases hbusy

/-- A step of a call that is not busy, when another one is: it changes nothing but `mtx_`, unless it
is the test of `stop`. -/
theorem Move.quiet (h : Move o t pc o' nx) (hbusy : pc.busy = false) (htest : pc ≠ .stopTest)
    (hrun : o.running = true) :
    o'.running = o.running ∧ o'.workers = o.workers ∧ ∀ pc' ∈ nx, pc'.busy = false := by
  cases h with
  | runRefuse | stopLock | stopUnlock => simp [OwnerPc.busy]
  | runCas hoff =>
    rw [hrun] at hoff
    cases hoff
  | stopNotRunning | stopTest => exact absurd rfl htest
  | _ => cases hbusy

/-- What a step does to `mtx_`: a call in a section owns it, and the ownership of another thread
stays. -/
theorem Move.mutex (h : Move o t pc o' nx) (hpc : pc.holds = true → o.mtx = some t) :
    (∀ pc' ∈ nx, pc'.holds = true → o'.mtx = some t) ∧
      (u ≠ t → o.mtx = some u → o'.mtx = some u) := by
  have hother : o.mtx = some t → u ≠ t → o.mtx ≠ some u := fun ht hne hu => by
    rw [ht] at hu
    exact hne (Option.some.inj hu).symm
  cases h <;> simp_all [OwnerPc.holds, setWorker]

/-- A step changes neither the settings nor the number of workers. -/
theorem Move.fixed (h : Move o t pc o' nx) :
    o'.settings = o.settings ∧ o'.workers.length = o.workers.length := by
  cases h <;> simp [setWorker]

/-- What the thread of a worker does changes nothing that a call expects of it. -/
theorem Expected.loopStep {j i : ℕ} {r r' : Runtime T} {read : Option Bool} (h : Expected t pc j r)
    (hs : Runtime.LoopStep r i r' read) : Expected t pc j r' := by
  cases pc with
  | runLock | runSettings | stopClear => exact Runtime.Idle.loopStep h hs
  | runUnlock => exact Runtime.Active.loopStep h hs
  | runWorker k pc' =>
    simp only [Expected] at h ⊢
    split_ifs at h ⊢
    · exact h.loopStep hs
    · exact h.loopStep hs
    · exact h.loopStep hs
  | stopWorker k pc' =>
    simp only [Expected] at h ⊢
    split_ifs at h ⊢
    · exact h.loopStep hs
    · exact h.loopStep hs
    · exact h.loopStep hs
  | runCas | stopLock | stopTest | stopUnlock => trivial

/-- What the threads of the workers do changes nothing that a call expects. -/
theorem Meets.loopStep {k i : ℕ} {r r' : Runtime T} {read : Option Bool} (h : o.Meets t pc)
    (hk : o.workers[k]? = some r) (hs : Runtime.LoopStep r i r' read) :
    (o.setWorker k r').Meets t pc := by
  exact ⟨h.1, forall_setWorker ((h.2 k r hk).loopStep hs) fun j x _ hj => h.2 j x hj⟩

/-- What the threads of the workers do changes nothing about a calm owner. -/
theorem Calm.loopStep {k i : ℕ} {r r' : Runtime T} {read : Option Bool} (h : o.Calm)
    (hk : o.workers[k]? = some r) (hs : Runtime.LoopStep r i r' read) :
    (o.setWorker k r').Calm := by
  have hmem := List.mem_of_getElem? hk
  refine ⟨fun hon x hx => ?_, fun hoff x hx => ?_⟩
  · rcases List.mem_or_eq_of_mem_set hx with hx | rfl
    · exact h.1 hon x hx
    · exact (h.1 hon r hmem).loopStep hs
  · rcases List.mem_or_eq_of_mem_set hx with hx | rfl
    · exact h.2 hoff x hx
    · exact (h.2 hoff r hmem).loopStep hs

end Moves

/-! ## Runs -/

/-- What holds of the owner and its callers. -/
structure Inv (s : State T) : Prop where
  /-- A call in a section owns `mtx_`. -/
  mutex : ∀ t, ∀ pc ∈ s.caller t, pc.holds = true → s.owner.mtx = some t
  /-- At most one call is busy. -/
  one : ∀ t u, ∀ pc ∈ s.caller t, ∀ pc' ∈ s.caller u, pc.busy = true → pc'.busy = true → t = u
  /-- The workers are as the busy call expects them. -/
  meets : ∀ t, ∀ pc ∈ s.caller t, pc.busy = true → s.owner.Meets t pc
  /-- While no call is busy, `running_` agrees with the workers. -/
  calm : (∀ t, ∀ pc ∈ s.caller t, pc.busy = false) → s.owner.Calm
  /-- The owner is configured. -/
  settings : s.owner.settings ≠ none
  /-- It has workers. -/
  workers : s.owner.workers ≠ []

/-- A new call is not busy. -/
theorem Inv.call {s : State T} (h : Inv s) {t : T} {pc : OwnerPc} (ht : s.caller t = none)
    (hpc : pc.busy = false ∧ pc.holds = false) : Inv (s.setCaller t (some pc)) := by
  have hmem : ∀ u, ∀ pc' ∈ (s.setCaller t (some pc)).caller u,
      pc' = pc ∨ pc' ∈ s.caller u := by
    intro u pc' hpc'
    rw [State.setCaller_caller] at hpc'
    split at hpc'
    · exact .inl (Option.some.inj hpc').symm
    · exact .inr hpc'
  refine ⟨?_, ?_, ?_, ?_, h.settings, h.workers⟩
  · intro u pc' hu hholds
    rcases hmem u pc' hu with rfl | hu
    · simp [hpc.2] at hholds
    · exact h.mutex u pc' hu hholds
  · intro u v pc₁ h₁ pc₂ h₂ hb₁ hb₂
    rcases hmem u pc₁ h₁ with rfl | h₁
    · simp [hpc.1] at hb₁
    · rcases hmem v pc₂ h₂ with rfl | h₂
      · simp [hpc.1] at hb₂
      · exact h.one u v pc₁ h₁ pc₂ h₂ hb₁ hb₂
  · intro u pc' hu hbusy
    rcases hmem u pc' hu with rfl | hu
    · simp [hpc.1] at hbusy
    · exact h.meets u pc' hu hbusy
  · intro hno
    refine h.calm fun u pc' hu => hno u pc' ?_
    rw [State.setCaller_caller, if_neg]
    · exact hu
    · rintro rfl
      simp [ht] at hu

omit [DecidableEq T] in
/-- While the call of another thread is busy, a step of `t`'s is not, and changes nothing that
matters, if it is not the test of a `stop` in the gap of a `run`. -/
theorem Inv.quiet {s : State T} (h : Inv s) {t u : T} {pc pc' : OwnerPc} {o : Owner T}
    {nx : Option OwnerPc} (ht : s.caller t = some pc)
    (hC : pc = .stopTest → ∀ u, s.caller u ≠ some .runLock) (hm : Move s.owner t pc o nx)
    (hne : u ≠ t) (hu : pc' ∈ s.caller u) (hbusy : pc'.busy = true) :
    o.running = s.owner.running ∧ o.workers = s.owner.workers ∧ ∀ pc'' ∈ nx, pc''.busy = false := by
  have hnot : pc.busy = false := by
    by_contra hb
    exact hne (h.one u t pc' hu pc ht hbusy (by simpa using hb))
  refine hm.quiet hnot ?_ (h.meets u pc' hu hbusy).1
  rintro rfl
  -- The test is in the section of `mtx_`, and so is the busy call, unless it has yet to lock it.
  have hlock : pc' ≠ .runLock := fun e => hC rfl u (e ▸ hu)
  have hholds : pc'.holds = true := by
    cases pc' <;> simp_all [OwnerPc.busy, OwnerPc.holds]
  have hu' := h.mutex u pc' hu hholds
  rw [h.mutex t _ ht rfl] at hu'
  exact hne (Option.some.inj hu').symm

omit [DecidableEq T] in
/-- While no call of another thread is busy, a step of `t`'s answers for the workers. -/
theorem Inv.answered {s : State T} (h : Inv s) {t : T} {pc : OwnerPc} {o : Owner T}
    {nx : Option OwnerPc} (ht : s.caller t = some pc) (hm : Move s.owner t pc o nx)
    (hno : ∀ u, u ≠ t → ∀ pc' ∈ s.caller u, pc'.busy = false) : o.Answered t nx := by
  cases hb : pc.busy with
  | true => exact hm.answered_of_meets hb h.settings (h.meets t pc ht hb)
  | false =>
    refine hm.answered_of_calm hb (h.calm fun u pc' hu => ?_)
    rcases eq_or_ne u t with rfl | hne
    · rw [ht] at hu
      exact Option.some.inj hu ▸ hb
    · exact hno u hne pc' hu

/-- A step of a call keeps the invariant, if it is no test of a `stop` in the gap of a `run`. -/
theorem Inv.move {s : State T} (h : Inv s) {t : T} {pc : OwnerPc} {o : Owner T}
    {nx : Option OwnerPc}
    (ht : s.caller t = some pc) (hC : pc = .stopTest → ∀ u, s.caller u ≠ some .runLock)
    (hm : Move s.owner t pc o nx) : Inv ({ s with owner := o }.setCaller t nx) := by
  have hmtx : ∀ u, _ := fun u => hm.mutex (u := u) (h.mutex t pc ht)
  have hquiet : ∀ u, u ≠ t → ∀ pc' ∈ s.caller u, pc'.busy = true → _ :=
    fun u hne pc' hu hbusy => h.quiet ht hC hm hne hu hbusy
  constructor
  case mutex =>
    intro u pc' hu hholds
    rw [State.setCaller_caller] at hu
    split at hu
    · rename_i heq
      subst heq
      exact (hmtx u).1 pc' hu hholds
    · rename_i hne
      exact (hmtx u).2 hne (h.mutex u pc' hu hholds)
  case one =>
    intro u v pc₁ h₁ pc₂ h₂ hb₁ hb₂
    rw [State.setCaller_caller] at h₁ h₂
    split at h₁ <;> split at h₂
    · rename_i hu hv
      rw [hu, hv]
    · rename_i hu hv
      have := (hquiet v hv pc₂ h₂ hb₂).2.2 pc₁ h₁
      simp [hb₁] at this
    · rename_i hu hv
      have := (hquiet u hu pc₁ h₁ hb₁).2.2 pc₂ h₂
      simp [hb₂] at this
    · exact h.one u v pc₁ h₁ pc₂ h₂ hb₁ hb₂
  case meets =>
    intro u pc' hu hbusy
    rw [State.setCaller_caller] at hu
    split at hu
    · rename_i heq
      subst heq
      have hno : ∀ v, v ≠ u → ∀ pc'' ∈ s.caller v, pc''.busy = false := by
        intro v hne pc'' hv
        by_contra hb
        have := (hquiet v hne pc'' hv (by simpa using hb)).2.2 pc' hu
        simp [hbusy] at this
      have hans := h.answered ht hm hno
      obtain rfl : nx = some pc' := hu
      simpa [Answered, hbusy] using hans
    · rename_i hne
      obtain ⟨hrun, hworkers, -⟩ := hquiet u hne pc' hu hbusy
      have hold := h.meets u pc' hu hbusy
      exact ⟨hrun.trans hold.1, fun j r hj => hold.2 j r (hworkers ▸ hj)⟩
  case calm =>
    intro hno
    have hcaller : ∀ u, u ≠ t → ∀ pc' ∈ s.caller u, pc'.busy = false := by
      intro u hne pc' hu
      exact hno u pc' (by rw [State.setCaller_caller, if_neg hne]; exact hu)
    have hans := h.answered ht hm hcaller
    cases nx with
    | none => exact hans
    | some pc' =>
      have hb := hno t pc' (by rw [State.setCaller_caller, if_pos rfl]; rfl)
      simpa [Answered, hb] using hans
  case settings =>
    exact hm.fixed.1 ▸ h.settings
  case workers =>
    intro hnil
    have hlen := hm.fixed.2
    rw [State.setCaller_owner] at hnil
    rw [hnil] at hlen
    exact h.workers (List.eq_nil_of_length_eq_zero hlen.symm)

omit [DecidableEq T] in
/-- A step of a thread of a worker keeps the invariant. -/
theorem Inv.loop {s : State T} (h : Inv s) {k i : ℕ} {r r' : Runtime T} {read : Option Bool}
    (hk : s.owner.workers[k]? = some r) (hs : Runtime.LoopStep r i r' read) :
    Inv { s with owner := s.owner.setWorker k r' } := by
  refine ⟨h.mutex, h.one, fun t pc ht hb => (h.meets t pc ht hb).loopStep hk hs,
    fun hno => (h.calm hno).loopStep hk hs, h.settings, ?_⟩
  simpa [setWorker] using h.workers

/-- Every step under the condition keeps the invariant. -/
theorem Inv.step {c : Config (State T) (Option String)} {a : Action T} {s' : State T}
    {es : List (Option String)} (h : Inv c.state) (hC : Ordered c a)
    (hs : (machine T).step c.state a = some (s', es)) : Inv s' := by
  cases a with
  | run t =>
    simp only [machine, stepState, Option.ite_none_right_eq_some, Option.some.injEq,
      Prod.mk.injEq] at hs
    obtain ⟨ht, rfl, -⟩ := hs
    exact h.call (by simpa using ht) ⟨rfl, rfl⟩
  | stop t =>
    simp only [machine, stepState, Option.ite_none_right_eq_some, Option.some.injEq,
      Prod.mk.injEq] at hs
    obtain ⟨ht, rfl, -⟩ := hs
    exact h.call (by simpa using ht) ⟨rfl, rfl⟩
  | go t =>
    simp only [machine, stepState, Option.map_eq_some_iff, Option.bind_eq_some_iff,
      Prod.mk.injEq] at hs
    obtain ⟨⟨o, nx⟩, ⟨pc, ht, hstep⟩, rfl, -⟩ := hs
    refine h.move ht ?_ (step_cases hstep)
    rintro rfl
    exact hC ht
  | loop k i =>
    simp only [machine, stepState, Option.map_eq_some_iff, Option.bind_eq_some_iff,
      Prod.mk.injEq] at hs
    obtain ⟨⟨r', read⟩, ⟨r, hk, hr⟩, rfl, -⟩ := hs
    exact h.loop hk (Runtime.loopStep_cases hr)

omit [DecidableEq T] in
/-- The workers of a configured owner are new. -/
theorem withSettings_new (T : Type*) (kind : OwnerKind) {settings : Settings}
    (h : settings.validate = none) : (new (T := T) kind).withSettings settings =
      ({ kind := kind, mtx := none, running := false, settings := some settings,
         workers := List.replicate settings.workers .new }, none) := by
  simp [withSettings, new, h]

omit [DecidableEq T] in
/-- A configured owner. -/
theorem inv_init (kind : OwnerKind) {settings : Settings} (h : settings.validate = none) :
    Inv (init T kind settings).state := by
  have hcaller : ∀ t pc, pc ∉ (init T kind settings).state.caller t := by
    intro t pc hpc
    cases hpc
  have howner : (init T kind settings).state.owner = _ :=
    congrArg Prod.fst (withSettings_new T kind h)
  refine ⟨fun t pc ht => absurd ht (hcaller t pc), fun t _ pc ht => absurd ht (hcaller t pc),
    fun t pc ht => absurd ht (hcaller t pc), fun _ => ?_, ?_, ?_⟩
  · rw [howner]
    refine ⟨fun hon => by simp at hon, fun _ r hr => ?_⟩
    rw [List.eq_of_mem_replicate hr]
    exact Runtime.new_idle
  · rw [howner]
    simp
  · rw [howner]
    have hpos : ¬ settings.workers < 1 := fun hlt => by simp [Settings.validate, hlt] at h
    simp only [ne_eq, List.replicate_eq_nil_iff]
    omega

omit [DecidableEq T] in
/-- The invariant gives the agreement. -/
theorem Inv.agrees {s : State T} (h : Inv s) : Agrees s where
  idle := by
    intro hidle
    obtain ⟨hon, hoff⟩ := h.calm fun t pc ht => by rw [hidle t] at ht; cases ht
    refine ⟨fun hr r hmem => (hon hr r hmem).running, fun hall => ?_⟩
    by_contra hr
    obtain ⟨r, hmem⟩ := List.exists_mem_of_ne_nil _ h.workers
    have := (hoff (by simpa using hr) r hmem).running
    rw [hall r hmem] at this
    cases this
  found := by
    intro t _ hr r hmem
    refine ((h.calm fun u pc hu => ?_).2 hr r hmem).running
    by_contra hb
    have := (h.meets u pc hu (by simpa using hb)).1
    rw [hr] at this
    cases this

/-- The invariant holds of what is reached under the condition. -/
theorem inv_of_reachVia (kind : OwnerKind) {settings : Settings} (hvalid : settings.validate = none)
    {c : Config (State T) (Option String)}
    (h : ReachVia (machine T) Ordered (init T kind settings) c) : Inv c.state := by
  refine h.invariant (I := fun c => Inv c.state) (inv_init kind hvalid) ?_
  intro c a c' hI hC hn
  obtain ⟨s', es, hs, rfl⟩ := next_eq_some _ hn
  exact hI.step hC hs

/-- Along every run of calls of `run` and `stop` on a configured owner in which no `stop` tests
`running_` while a `run` is between its compare and exchange and its locking of `mtx_`, `running_`
agrees with the workers whenever no call is in progress. -/
theorem agrees_always (kind : OwnerKind) (settings : Settings) (as : List (Action T))
    (hvalid : settings.validate = none) (h : Steps (machine T) Ordered (init T kind settings) as) :
    Always (machine T) (fun c => Agrees c.state) (init T kind settings) as :=
  always_of_reachVia (fun _ hc => (inv_of_reachVia kind hvalid hc).agrees) .refl h

/-- A `run`, after which a second one is refused, and a `stop` that waits for the worker to end. -/
def runThenStop : List (Action (Fin 2)) :=
  [.run 0, .go 0, .run 1, .go 1, .go 0, .go 0, .go 0, .go 0, .go 0, .go 0, .go 0, .go 0, .loop 0 0,
    .loop 0 0, .stop 1, .go 1, .go 1, .go 1, .go 1, .go 1, .go 1, .loop 0 0, .loop 0 0, .loop 0 0,
    .loop 0 0, .go 1, .go 1, .go 1, .go 1]

theorem agrees_runThenStop :
    (∃ c, run (machine (Fin 2)) (init (Fin 2) .server ⟨1, false⟩) runThenStop = some c ∧
      c.trace = [some "server has been running", none, none] ∧ ∀ t, c.state.caller t = none) ∧
      Always (machine (Fin 2)) (fun c => Agrees c.state) (init (Fin 2) .server ⟨1, false⟩)
        runThenStop :=
  ⟨⟨_, rfl, by decide, by decide⟩,
    agrees_always .server ⟨1, false⟩ runThenStop (by decide) (by decide)⟩

/-- A `run` has set `running_` and not locked `mtx_`. A `stop` finds `running_` set and its worker
not running, and clears `running_`. The `run` then starts the worker. Both have returned: the worker
is running, and `running_` is not set. -/
theorem stop_between_cas_and_lock :
    ∃ c, run (machine (Fin 2)) (init (Fin 2) .server ⟨1, false⟩)
        [.run 0, .go 0, .stop 1, .go 1, .go 1, .go 1, .go 1, .go 1, .go 0, .go 0, .go 0, .go 0,
          .go 0, .go 0, .go 0, .go 0] = some c ∧
      c.trace = [none, none] ∧ (∀ t, c.state.caller t = none) ∧ c.state.owner.running = false ∧
      c.state.owner.workers.map Runtime.running = [true] ∧ ¬ Agrees c.state := by
  refine ⟨_, rfl, by decide, by decide, rfl, rfl, fun h => ?_⟩
  have hagree := h.idle (by decide)
  exact absurd hagree (by decide)

end Spinet.Owner
