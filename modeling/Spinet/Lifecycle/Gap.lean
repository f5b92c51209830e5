import Spinet.Lifecycle.Agreement

/-!
# A stop in the gap of a run

`agrees_always` asks that no `stop` tests `running_` while a `run` is between its compare and
exchange and its locking of `mtx_`. Such a test is a way to the mismatch whenever it is made
(`disordered_breaks`): the two calls can go on by themselves until both have returned, and then
every worker is running while `running_` is not set. How many workers there are does not matter, so
both calls are followed over their loops, one worker at a time.
-/

namespace Spinet.Owner

open Transition

variable {T : Type*} [DecidableEq T]

/-- The state once the call of `t` has made the owner `o` and stands at `pc`. -/
def State.after (s : State T) (t : T) (o : Owner T) (pc : Option OwnerPc) : State T :=
  { s with owner := o }.setCaller t pc

@[simp] theorem State.after_owner (s : State T) (t : T) (o : Owner T) (pc : Option OwnerPc) :
    (s.after t o pc).owner = o := rfl

@[simp] theorem State.after_caller (s : State T) (t u : T) (o : Owner T) (pc : Option OwnerPc) :
    (s.after t o pc).caller u = if u = t then pc else s.caller u := by
  rw [State.after, State.setCaller_caller]

@[simp] theorem State.after_after (s : State T) (t : T) (o o' : Owner T) (pc pc' : Option OwnerPc) :
    (s.after t o pc).after t o' pc' = s.after t o' pc' := by
  simp [State.after, State.setCaller]

/-- A state in which the call of `t` stands at `pc`. -/
theorem State.after_self {s : State T} {t : T} {pc : Option OwnerPc} (h : s.caller t = pc) :
    s.after t s.owner pc = s := by
  subst h
  simp [State.after, State.setCaller]

/-- Steps of the system lead from one state to another. -/
def Leads (s s' : State T) : Prop := ∀ tr, ∃ tr', Reachable (machine T) ⟨s, tr⟩ ⟨s', tr'⟩

theorem Leads.refl (s : State T) : Leads s s := fun tr => ⟨tr, .refl⟩

theorem Leads.trans {s s' s'' : State T} (h : Leads s s') (h' : Leads s' s'') : Leads s s'' := by
  intro tr
  obtain ⟨tr', hr⟩ := h tr
  obtain ⟨tr'', hr'⟩ := h' tr'
  exact ⟨tr'', ReachVia.trans hr hr'⟩

variable {s : State T} {o o' : Owner T} {t u : T}

/-- A call takes its step. -/
theorem leads_step {pc : OwnerPc} {nx : Next OwnerPc (Option String)}
    (h : o.step t pc = some (o', nx)) :
    Leads (s.after t o (some pc)) (s.after t o' (toPc nx)) := by
  intro tr
  obtain ⟨es, hs⟩ : ∃ es, (machine T).step (s.after t o (some pc)) (.go t) =
      some ((s.after t o (some pc)).after t o' (toPc nx), es) := by
    rcases nx with pc' | res
    · exact ⟨[], by simp [machine, stepState, h, State.after]⟩
    · exact ⟨[res], by simp [machine, stepState, h, State.after]⟩
  rw [State.after_after] at hs
  refine ⟨tr ++ es, .step .refl (a := .go t) trivial ?_⟩
  simp only [next, hs, Option.map_some]

/-! ## The calls over the workers -/

omit [DecidableEq T] in
/-- An owner's worker in place of itself. -/
theorem setWorker_self {k : ℕ} {r : Runtime T} (hk : o.workers[k]? = some r) :
    o.setWorker k r = o := by
  obtain ⟨hlt, rfl⟩ := List.getElem?_eq_some_iff.1 hk
  rw [setWorker, List.set_getElem_self]

omit [DecidableEq T] in
theorem setWorker_setWorker (o : Owner T) (k : ℕ) (r r' : Runtime T) :
    (o.setWorker k r).setWorker k r' = o.setWorker k r' := by
  simp [setWorker]

omit [DecidableEq T] in
theorem setWorker_getElem_self {k : ℕ} {r : Runtime T} (r' : Runtime T)
    (hk : o.workers[k]? = some r) : (o.setWorker k r').workers[k]? = some r' := by
  obtain ⟨hlt, -⟩ := List.getElem?_eq_some_iff.1 hk
  simp [setWorker, hlt]

/-- `stop` passes over workers that are not running. -/
theorem leads_stopWorkers (hidle : ∀ r ∈ o.workers, r.Idle) :
    ∀ n k, k + n = o.workers.length →
      Leads (s.after t o (some (o.nextStop k))) (s.after t o (some .stopClear))
  | 0, k, hk => by
    have hend : o.nextStop k = .stopClear := by simp [nextStop, ← hk]
    rw [hend]
    exact .refl _
  | n + 1, k, hk => by
    have hlt : k < o.workers.length := by omega
    have hr := List.getElem?_eq_getElem hlt
    have hoff := (hidle _ (List.getElem_mem hlt)).running
    have hstep : o.step t (o.nextStop k) = some (o, .goto (o.nextStop (k + 1))) := by
      rw [nextStop, if_pos hlt]
      simp only [step, hr, Option.bind_some, Runtime.stopStep, hoff, Bool.false_eq_true, if_false,
        Option.map_some, setWorker_self hr]
    exact (leads_step hstep).trans (leads_stopWorkers hidle n (k + 1) (by omega))

/-- A step of `run` on a worker. -/
theorem leads_runStep {k : ℕ} {pc pc' : RunPc} {r r' : Runtime T} (hk : o.workers[k]? = some r)
    (h : r.runStep t false pc = some (r', .goto pc')) :
    Leads (s.after t o (some (.runWorker k pc)))
      (s.after t (o.setWorker k r') (some (.runWorker k pc'))) := by
  have hstep :
      o.step t (.runWorker k pc) = some (o.setWorker k r', .goto (.runWorker k pc')) := by
    simp only [step, hk, Option.bind_some, h, Option.map_some]
  exact leads_step hstep

/-- `run` starts a worker that is not running. -/
theorem leads_startWorker {k : ℕ} {r : Runtime T} (hk : o.workers[k]? = some r) (hidle : r.Idle) :
    ∃ r', r'.running = true ∧ Leads (s.after t o (some (.runWorker k .cas)))
      (s.after t (o.setWorker k r') (some (o.nextRun (k + 1)))) := by
  obtain ⟨hoff, hmtx, -, hthread⟩ := hidle
  -- The worker after its compare and exchange, in the section, with a new thread, and at the end.
  let r₁ : Runtime T := { r with running := true }
  let r₂ : Runtime T := { r₁ with threadMtx := some t }
  let r₃ : Runtime T :=
    { r₂ with runtimeThread := some r.loops.length, loops := r.loops ++ [.prologue] }
  let r₄ : Runtime T := { r₃ with threadMtx := none }
  have hcas : r.runStep t false .cas = some (r₁, .goto .lock) := by simp [Runtime.runStep, hoff, r₁]
  have hlock : r₁.runStep t false .lock = some (r₂, .goto .test) := by
    simp [Runtime.runStep, r₁, r₂, hmtx]
  have htest : r₂.runStep t false .test = some (r₂, .goto .start) := by
    simp [Runtime.runStep, r₁, r₂, hthread]
  have hstart : r₂.runStep t false .start = some (r₃, .goto .unlock) := rfl
  have hunlock : (o.setWorker k r₃).step t (.runWorker k .unlock) =
      some (o.setWorker k r₄, .goto (o.nextRun (k + 1))) := by
    simp only [step, setWorker_getElem_self r₃ hk, Option.bind_some, Runtime.runStep,
      Option.map_some, setWorker_setWorker, setWorker_nextRun, r₄]
  refine ⟨r₄, rfl, ?_⟩
  have h₁ := leads_runStep (s := s) hk hcas
  have h₂ := leads_runStep (s := s) (setWorker_getElem_self r₁ hk) hlock
  have h₃ := leads_runStep (s := s) (setWorker_getElem_self r₂ hk) htest
  have h₄ := leads_runStep (s := s) (setWorker_getElem_self r₂ hk) hstart
  rw [setWorker_setWorker] at h₂ h₃ h₄
  exact (((h₁.trans h₂).trans h₃).trans h₄).trans (leads_step hunlock)

/-- `run` starts one worker after the other. -/
theorem leads_runWorkers : ∀ n k (o : Owner T), k + n = o.workers.length →
    (∀ j r, o.workers[j]? = some r → j < k → r.running = true) →
    (∀ j r, o.workers[j]? = some r → k ≤ j → r.Idle) →
    ∃ o', o'.running = o.running ∧ (∀ r ∈ o'.workers, r.running = true) ∧
      Leads (s.after t o (some (o.nextRun k))) (s.after t o' (some (.runUnlock none)))
  | 0, k, o, hk, hlt, _ => by
    have hend : o.nextRun k = .runUnlock none := by simp [nextRun, ← hk]
    refine ⟨o, rfl, fun r hr => ?_, hend ▸ .refl _⟩
    obtain ⟨j, hj⟩ := List.mem_iff_getElem?.1 hr
    obtain ⟨hlen, -⟩ := List.getElem?_eq_some_iff.1 hj
    exact hlt j r hj (by omega)
  | n + 1, k, o, hk, hlt, hge => by
    have hlen : k < o.workers.length := by omega
    have hr := List.getElem?_eq_getElem hlen
    have hnext : o.nextRun k = .runWorker k .cas := if_pos hlen
    obtain ⟨r', hon, hstart⟩ := leads_startWorker (s := s) (t := t) hr (hge k _ hr le_rfl)
    obtain ⟨o', hrun, hall, hrest⟩ := leads_runWorkers n (k + 1) (o.setWorker k r')
      (by simp [setWorker]; omega)
      (forall_setWorker (fun _ => hon) fun j x hne hj hjk => hlt j x hj (by omega))
      (forall_setWorker (fun hkk => absurd hkk (by omega)) fun j x hne hj hjk =>
        hge j x hj (by omega))
    refine ⟨o', hrun, hall, ?_⟩
    rw [hnext]
    rw [setWorker_nextRun] at hrest
    exact hstart.trans hrest

/-! ## The mismatch -/

/-- A `stop` that is about to find `running_` set, when no worker is running: it can return, and
leaves `running_` unset. -/
theorem leads_stop (ht : s.caller t = some .stopTest) (hon : s.owner.running = true)
    (hidle : ∀ r ∈ s.owner.workers, r.Idle) :
    Leads s (s.after t { s.owner with running := false, mtx := none } none) := by
  have htest : s.owner.step t .stopTest = some (s.owner, .goto (s.owner.nextStop 0)) := by
    simp [step, hon]
  have hstop := leads_stopWorkers (s := s) (t := t) hidle s.owner.workers.length 0 (by omega)
  have h₁ : Leads s (s.after t s.owner (some (s.owner.nextStop 0))) := by
    have := leads_step (s := s) htest
    rwa [State.after_self ht] at this
  have hclear : s.owner.step t .stopClear =
    some ({ s.owner with running := false }, .goto .stopUnlock) := rfl
  have hunlock : ({ s.owner with running := false } : Owner T).step t .stopUnlock =
    some ({ s.owner with running := false, mtx := none }, .ret none) := rfl
  exact ((h₁.trans hstop).trans (leads_step hclear)).trans (leads_step hunlock)

/-- A `run` that stands before its locking of `mtx_`, when no worker is running: it can return, and
has started every worker without setting `running_` again. -/
theorem leads_run (hu : s.caller u = some .runLock) (hmtx : s.owner.mtx = none)
    (hset : s.owner.settings ≠ none) (hidle : ∀ r ∈ s.owner.workers, r.Idle) :
    ∃ o', o'.running = s.owner.running ∧ (∀ r ∈ o'.workers, r.running = true) ∧
      Leads s (s.after u o' none) := by
  have hlock :
      s.owner.step u .runLock = some ({ s.owner with mtx := some u }, .goto .runSettings) := by
    simp [step, hmtx]
  have h₁ : Leads s (s.after u { s.owner with mtx := some u } (some .runSettings)) := by
    have := leads_step (s := s) hlock
    rwa [State.after_self hu] at this
  have hsettings : ({ s.owner with mtx := some u } : Owner T).step u .runSettings =
      some ({ s.owner with mtx := some u }, .goto (nextRun { s.owner with mtx := some u } 0)) := by
    simp [step, Option.isSome_iff_ne_none.2 hset]
  obtain ⟨o', hrun, hall, h₂⟩ := leads_runWorkers (s := s) (t := u) s.owner.workers.length 0
    { s.owner with mtx := some u } (by simp) (fun _ _ _ hlt => by omega)
    fun j r hj _ => hidle r (List.mem_of_getElem? hj)
  have hunlock : o'.step u (.runUnlock none) = some ({ o' with mtx := none }, .ret none) := rfl
  exact ⟨{ o' with mtx := none }, hrun, hall,
    ((h₁.trans (leads_step hsettings)).trans h₂).trans (leads_step hunlock)⟩

/-- A `stop` that tests `running_` while a `run` is between its compare and exchange and its locking
of `mtx_`: if no other call is in progress, both can go on until they have returned, and then
`running_` does not agree with the workers. -/
theorem disordered_breaks (kind : OwnerKind) (settings : Settings)
    {c : Config (State T) (Option String)} (hvalid : settings.validate = none)
    (h : ReachVia (machine T) Ordered (init T kind settings) c)
    (ht : c.state.caller t = some .stopTest) (hu : c.state.caller u = some .runLock)
    (hother : ∀ v, v ≠ t → v ≠ u → c.state.caller v = none) :
    ∃ c', Reachable (machine T) c c' ∧ (∀ v, c'.state.caller v = none) ∧ ¬ Agrees c'.state := by
  have hinv := inv_of_reachVia kind hvalid h
  have hne : u ≠ t := by
    rintro rfl
    rw [ht] at hu
    cases hu
  -- The `run` answers for the workers, and none of them is running yet.
  obtain ⟨hon, hidle⟩ := hinv.meets u .runLock hu rfl
  have hidle' : ∀ r ∈ c.state.owner.workers, r.Idle := fun r hr => by
    obtain ⟨j, hj⟩ := List.mem_iff_getElem?.1 hr
    exact hidle j r hj
  have hstop := leads_stop ht hon hidle'
  obtain ⟨o', hoff, hall, hrun⟩ :=
    leads_run (s := c.state.after t { c.state.owner with running := false, mtx := none } none)
      (u := u) (by simp [hne, hu]) rfl hinv.settings hidle'
  obtain ⟨tr, hreach⟩ := (hstop.trans hrun) c.trace
  have hcaller : ∀ v, ((c.state.after t { c.state.owner with running := false, mtx := none }
      none).after u o' none).caller v = none := by
    intro v
    rw [State.after_caller, State.after_caller]
    split_ifs with hvu hvt
    · rfl
    · rfl
    · exact hother v hvt hvu
  refine ⟨_, hreach, hcaller, fun hagrees => ?_⟩
  have hset : o'.running = true := (hagrees.idle hcaller).2 hall
  rw [hoff] at hset
  cases hset

end Spinet.Owner
