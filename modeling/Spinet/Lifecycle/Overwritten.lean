import Spinet.Library.Stacks
import Spinet.Lifecycle.StopRequest

/-!
# A stop request that is overwritten

`heeded_always` asks that each `stop` that began after a `run` had returned stores `stopped_` while
no `run` is about to start a thread and no thread is about to begin. Whenever such a store is made
otherwise, the request can be lost (`untimely_breaks`): the thread begins, if need be after the
`run` has started it, and goes into its loop.

That the `run` can always go on to its start is the work here. A runtime has at most one session at
a time (`Session`): a `run` about to start a thread, or the thread it has started. So while a `run`
is about to start a thread every other thread has ended, and whoever has `thread_mtx_` can leave its
section.
-/

namespace Spinet.StopRequest

open Transition Stacks

/-- Whether the call is in a section of `thread_mtx_`. -/
def Frame.holds : Frame → Bool
  | .run .test | .run .join | .run .start | .run .unlock => true
  | .stop _ .test | .stop _ .join | .stop _ .unlock => true
  | _ => false

/-- Whether the call waits for `runtime_thread_` to end. -/
def Frame.joins : Frame → Bool
  | .run .join | .stop _ .join => true
  | _ => false

/-- A call that waits for the thread is in a section. -/
theorem Frame.holds_of_joins {f : Frame} (h : f.joins = true) : f.holds = true := by
  unfold Frame.joins at h
  split at h <;> simp_all [Frame.holds]

variable {T : Type*} [DecidableEq T]

/-- The call of every caller, as a stack. -/
def State.stack (s : State T) (t : T) : List Frame := (s.caller t).toList

/-- Who is about to start a thread, and which threads have not ended. -/
inductive Session (s : State T) : Prop
  /-- The runtime is not running. -/
  | off : s.runtime.running = false → (∀ t, (s.caller t).any Frame.starting = false) →
    (∀ pc ∈ s.runtime.loops, pc = .done) → Session s
  /-- The `run` of `t` is about to start a thread. -/
  | starting (t : T) : (∀ u, u ≠ t → (s.caller u).any Frame.starting = false) →
    s.runtime.running = true → (∀ pc ∈ s.runtime.loops, pc = .done) → Session s
  /-- Thread `i` has been started. -/
  | live (i : ℕ) : (∀ t, (s.caller t).any Frame.starting = false) → s.runtime.running = true →
    (∀ j pc, s.runtime.loops[j]? = some pc → j ≠ i → pc = .done) → Session s

/-- What holds of a runtime and its callers. -/
structure Sound (s : State T) : Prop where
  /-- The owner of `thread_mtx_` is in a section of it. -/
  guarded : Guarded Frame.holds s.runtime.threadMtx s.stack
  /-- There is at most one session. -/
  session : Session s
  /-- `runtime_thread_` stands for a thread that has been started. -/
  thread : ∀ i ∈ s.runtime.runtimeThread, i < s.runtime.loops.length
  /-- A call that waits for `runtime_thread_` to end waits for a thread. -/
  joins : ∀ t, (s.caller t).any Frame.joins = true → s.runtime.runtimeThread ≠ none

/-- If a `run` is about to start a thread, every thread has ended and no other `run` is. -/
theorem Sound.of_starting {s : State T} (h : Sound s) {t : T}
    (ht : (s.caller t).any Frame.starting = true) :
    s.runtime.running = true ∧ (∀ pc ∈ s.runtime.loops, pc = .done) ∧
      ∀ u, u ≠ t → (s.caller u).any Frame.starting = false := by
  cases h.session with
  | off _ hno _ => simp [hno t] at ht
  | starting u hother hon hdone =>
    have hu : t = u := by
      by_contra hne
      simp [hother t hne] at ht
    exact ⟨hon, hdone, hu ▸ hother⟩
  | live _ hno _ _ => simp [hno t] at ht

/-- The state once the call of `t` has changed the runtime and goes on, or has returned. -/
def State.after (s : State T) (t : T) (r : Runtime T) (returned : Bool) (f : Option Frame) :
    State T :=
  { s with runtime := r, returned := returned }.setCaller t f

variable {s : State T} {t : T} {r : Runtime T} {returned : Bool} {f : Option Frame}

@[simp] theorem State.after_caller (u : T) :
    (s.after t r returned f).caller u = if u = t then f else s.caller u := by
  rw [State.after, State.setCaller_caller]

@[simp] theorem State.after_runtime : (s.after t r returned f).runtime = r := rfl

/-- A call is the whole stack of its caller. -/
theorem State.after_stack :
    (s.after t r returned f).stack = Function.update s.stack t f.toList := by
  funext u
  rw [State.stack, State.after_caller, Function.update_apply]
  split <;> rfl

/-! ## The sections of the mutex -/

/-- A step changes the stack of its caller only. -/
theorem guarded_after
    (h : Guarded Frame.holds r.threadMtx (Function.update s.stack t f.toList)) :
    Guarded Frame.holds (s.after t r returned f).runtime.threadMtx
      (s.after t r returned f).stack := by
  rw [State.after_stack]
  exact h

/-- A step that does not join: who waits for a thread waited for it, or finds one. -/
theorem Sound.joins_keep (h : Sound s)
    (hthread : s.runtime.runtimeThread ≠ none → r.runtimeThread ≠ none)
    (hf : f.any Frame.joins = true → r.runtimeThread ≠ none) :
    ∀ u, ((s.after t r returned f).caller u).any Frame.joins = true →
      (s.after t r returned f).runtime.runtimeThread ≠ none := by
  intro u hu
  rw [State.after_caller] at hu
  split at hu
  · exact hf hu
  · exact hthread (h.joins u hu)

/-- A step that joins: no other call waits for the thread. -/
theorem Sound.joins_join (h : Sound s) (ht : (s.caller t).any Frame.joins = true)
    (hf : f.any Frame.joins = false) :
    ∀ u, ((s.after t r returned f).caller u).any Frame.joins = true →
      (s.after t r returned f).runtime.runtimeThread ≠ none := by
  obtain ⟨g, hg, hj⟩ := (Option.any_eq_true _ _).1 ht
  intro u hu
  rw [State.after_caller] at hu
  split at hu
  · simp [hf] at hu
  · rename_i hne
    obtain ⟨g', hg', hj'⟩ := (Option.any_eq_true _ _).1 hu
    exact absurd (h.guarded.unique (t := u) (u := t) (by simp [State.stack, hg'])
      (by simp [State.stack, hg]) (Frame.holds_of_joins hj') (Frame.holds_of_joins hj)) hne

/-! ## The sessions -/

/-- A step that neither begins a session nor moves one on. -/
theorem Session.keep (h : Session s) (hrun : r.running = s.runtime.running)
    (hloops : r.loops = s.runtime.loops)
    (hf : f.any Frame.starting = (s.caller t).any Frame.starting) :
    Session (s.after t r returned f) := by
  have hcaller : ∀ u, ((s.after t r returned f).caller u).any Frame.starting
      = (s.caller u).any Frame.starting := by
    intro u
    rw [State.after_caller]
    split
    · rename_i hu
      rw [hf, hu]
    · rfl
  cases h with
  | off hoff hno hdone =>
    exact .off (hrun.trans hoff) (fun u => (hcaller u).trans (hno u)) (hloops ▸ hdone)
  | starting u hother hon hdone =>
    exact .starting u (fun v hv => (hcaller v).trans (hother v hv)) (hrun.trans hon)
      (hloops ▸ hdone)
  | live i hno hon hdone =>
    exact .live i (fun u => (hcaller u).trans (hno u)) (hrun.trans hon) (hloops ▸ hdone)

/-- A step of a call that neither begins a session nor moves one on, and does not join. -/
theorem Sound.keep (h : Sound s)
    (hguarded : Guarded Frame.holds r.threadMtx (Function.update s.stack t f.toList))
    (hrun : r.running = s.runtime.running) (hloops : r.loops = s.runtime.loops)
    (hthread : r.runtimeThread = s.runtime.runtimeThread)
    (hf : f.any Frame.starting = (s.caller t).any Frame.starting)
    (hjoins : f.any Frame.joins = true → s.runtime.runtimeThread ≠ none) :
    Sound (s.after t r returned f) where
  guarded := guarded_after hguarded
  session := h.session.keep hrun hloops hf
  thread := by
    rw [State.after_runtime, hthread, hloops]
    exact h.thread
  joins := by
    refine h.joins_keep (fun hne => ?_) fun hj => ?_
    · rw [hthread]
      exact hne
    · rw [hthread]
      exact hjoins hj

/-- A step of a call that joins. -/
theorem Sound.join (h : Sound s)
    (hguarded : Guarded Frame.holds r.threadMtx (Function.update s.stack t f.toList))
    (hrun : r.running = s.runtime.running) (hloops : r.loops = s.runtime.loops)
    (hthread : r.runtimeThread = none)
    (hf : f.any Frame.starting = (s.caller t).any Frame.starting)
    (ht : (s.caller t).any Frame.joins = true) (hjoins : f.any Frame.joins = false) :
    Sound (s.after t r returned f) where
  guarded := guarded_after hguarded
  session := h.session.keep hrun hloops hf
  thread := by
    intro i hi
    rw [State.after_runtime, hthread] at hi
    cases hi
  joins := h.joins_join ht hjoins

/-- A step of `run` keeps the runtime sound. -/
theorem Sound.goRun {weak : Bool} {pc : RunPc} {s' : State T} {es : List Event} (h : Sound s)
    (hpc : s.caller t = some (.run pc)) (hs : goRun s t weak pc = some (s', es)) : Sound s' := by
  obtain ⟨⟨r, nx⟩, hr, hres⟩ := Option.map_eq_some_iff.1 hs
  cases Runtime.runStep_cases hr with
  | refuse =>
    obtain ⟨rfl, -⟩ := Prod.mk.inj hres
    exact h.keep (h.guarded.keep (by simp [State.stack, hpc, Frame.holds])) rfl rfl rfl
      (by simp [hpc, Frame.starting]) (by simp)
  | cas hoff =>
    obtain ⟨rfl, -⟩ := Prod.mk.inj hres
    refine ⟨guarded_after (h.guarded.keep (by simp [State.stack, hpc, Frame.holds])), ?_, h.thread,
      h.joins_keep id (by simp [Frame.joins])⟩
    -- The runtime was not running, so the session begins here.
    cases h.session with
    | off _ hno hdone =>
      refine .starting t (fun u hu => ?_) rfl hdone
      simpa [hu] using hno u
    | starting _ _ hon _ =>
      rw [hoff] at hon
      cases hon
    | live _ _ hon _ =>
      rw [hoff] at hon
      cases hon
  | lock hfree =>
    obtain ⟨rfl, -⟩ := Prod.mk.inj hres
    exact h.keep (Guarded.acquire (hfree ▸ h.guarded) (by simp [State.stack, hpc, Frame.holds]))
      rfl rfl rfl (by simp [hpc, Frame.starting])
      (by simp [Frame.joins])
  | joinable hthread =>
    obtain ⟨rfl, -⟩ := Prod.mk.inj hres
    exact h.keep (h.guarded.keep (by simp [State.stack, hpc, Frame.holds])) rfl rfl rfl
      (by simp [hpc, Frame.starting]) fun _ => hthread
  | notJoinable =>
    obtain ⟨rfl, -⟩ := Prod.mk.inj hres
    exact h.keep (h.guarded.keep (by simp [State.stack, hpc, Frame.holds])) rfl rfl rfl
      (by simp [hpc, Frame.starting]) (by simp [Frame.joins])
  | join =>
    obtain ⟨rfl, -⟩ := Prod.mk.inj hres
    exact h.join (h.guarded.keep (by simp [State.stack, hpc, Frame.holds])) rfl rfl rfl
      (by simp [hpc, Frame.starting]) (by simp [hpc, Frame.joins]) rfl
  | start =>
    obtain ⟨rfl, -⟩ := Prod.mk.inj hres
    obtain ⟨hon, hdone, hother⟩ := h.of_starting (t := t) (by simp [hpc, Frame.starting])
    refine ⟨guarded_after (h.guarded.keep (by simp [State.stack, hpc, Frame.holds])), ?_,
      fun i hi => ?_,
      h.joins_keep (fun _ => by simp) (by simp [Frame.joins])⟩
    -- The session goes on with the thread, the last of those started.
    · refine .live s.runtime.loops.length (fun u => ?_) hon fun j pc hj hne => ?_
      · rw [State.setCaller_caller]
        split
        · rfl
        · exact hother u ‹_›
      · have hlt : j < s.runtime.loops.length := by
          have := (List.getElem?_eq_some_iff.1 hj).1
          simp at this
          omega
        rw [State.setCaller_runtime, List.getElem?_append_left hlt] at hj
        exact hdone pc (List.mem_of_getElem? hj)
    · obtain rfl : s.runtime.loops.length = i := Option.some.inj hi
      simp
  | unlock =>
    obtain ⟨rfl, -⟩ := Prod.mk.inj hres
    exact h.keep (h.guarded.release (by simp [State.stack, hpc, Frame.holds])) rfl rfl rfl
      (by simp [hpc, Frame.starting]) (by simp)

/-- A step of `stop` keeps the runtime sound. -/
theorem Sound.goStop {armed : Bool} {pc : StopPc} {s' : State T} {es : List Event} (h : Sound s)
    (hpc : s.caller t = some (.stop armed pc)) (hs : goStop s t armed pc = some (s', es)) :
    Sound s' := by
  obtain ⟨⟨r, nx⟩, hr, hres⟩ := Option.map_eq_some_iff.1 hs
  cases Runtime.stopStep_cases hr with
  | notRunning | read | store | notJoinable =>
    obtain ⟨rfl, -⟩ := Prod.mk.inj hres
    exact h.keep (h.guarded.keep (by simp [State.stack, hpc, Frame.holds])) rfl rfl rfl
      (by simp [hpc, Frame.starting]) (by simp [Frame.joins])
  | lock hfree =>
    obtain ⟨rfl, -⟩ := Prod.mk.inj hres
    exact h.keep (Guarded.acquire (hfree ▸ h.guarded) (by simp [State.stack, hpc, Frame.holds]))
      rfl rfl rfl (by simp [hpc, Frame.starting])
      (by simp [Frame.joins])
  | joinable hthread =>
    obtain ⟨rfl, -⟩ := Prod.mk.inj hres
    exact h.keep (h.guarded.keep (by simp [State.stack, hpc, Frame.holds])) rfl rfl rfl
      (by simp [hpc, Frame.starting]) fun _ => hthread
  | join =>
    obtain ⟨rfl, -⟩ := Prod.mk.inj hres
    exact h.join (h.guarded.keep (by simp [State.stack, hpc, Frame.holds])) rfl rfl rfl
      (by simp [hpc, Frame.starting]) (by simp [hpc, Frame.joins]) rfl
  | unlock =>
    obtain ⟨rfl, -⟩ := Prod.mk.inj hres
    exact h.keep (h.guarded.release (by simp [State.stack, hpc, Frame.holds])) rfl rfl rfl
      (by simp [hpc, Frame.starting]) (by simp)

omit [DecidableEq T] in
/-- While a thread has not ended no `run` is about to start one, and every other thread has. -/
theorem Session.alone (h : Session s) {i : ℕ} {pc : LoopPc} (hi : s.runtime.loops[i]? = some pc)
    (hpc : pc ≠ .done) :
    (∀ t, (s.caller t).any Frame.starting = false) ∧ s.runtime.running = true ∧
      ∀ j q, s.runtime.loops[j]? = some q → j ≠ i → q = .done := by
  have hall : ¬ ∀ pc ∈ s.runtime.loops, pc = .done := fun hdone =>
    hpc (hdone pc (List.mem_of_getElem? hi))
  cases h with
  | off _ _ hdone => exact absurd hdone hall
  | starting _ _ _ hdone => exact absurd hdone hall
  | live k hno hon hdone =>
    have hk : i = k := by
      by_contra hne
      exact hpc (hdone i pc hi hne)
    exact ⟨hno, hon, hk ▸ hdone⟩

omit [DecidableEq T] in
/-- A thread that takes a step is the one of the session. -/
theorem Session.loop (h : Session s) {i : ℕ} {pc q : LoopPc} (hi : s.runtime.loops[i]? = some pc)
    (hpc : pc ≠ .done) :
    (∀ t, (s.caller t).any Frame.starting = false) ∧ s.runtime.running = true ∧
      ∀ j q', (s.runtime.loops.set i q)[j]? = some q' → j ≠ i → q' = .done := by
  obtain ⟨hno, hon, hdone⟩ := h.alone hi hpc
  refine ⟨hno, hon, fun j q' hj hne => ?_⟩
  rw [List.getElem?_set_ne hne.symm] at hj
  exact hdone j q' hj hne

/-- A step of a thread keeps the runtime sound. -/
theorem Sound.loop {i : ℕ} {read : Option Bool} (h : Sound s)
    (hs : s.runtime.loopStep i = some (r, read)) : Sound { s with runtime := r } := by
  have hthread : ∀ {pc}, ∀ k ∈ s.runtime.runtimeThread, k < (s.runtime.loops.set i pc).length := by
    intro pc k hk
    rw [List.length_set]
    exact h.thread k hk
  cases Runtime.loopStep_cases hs with
  | store hi =>
    obtain ⟨hno, hon, hdone⟩ := h.session.loop (q := .done) hi (by simp)
    refine ⟨h.guarded, .off rfl hno fun pc hpc => ?_, hthread, h.joins⟩
    obtain ⟨j, hj⟩ := List.mem_iff_getElem?.1 hpc
    rcases eq_or_ne j i with rfl | hne
    · have hlt : j < s.runtime.loops.length := (List.getElem?_eq_some_iff.1 hi).1
      have hset : (s.runtime.loops.set j .done)[j]? = some .done := List.getElem?_set_self hlt
      exact Option.some.inj (hj.symm.trans hset)
    · exact hdone j pc hj hne
  | prologue hi | goOn hi | leave hi | body hi | release hi =>
    obtain ⟨hno, hon, hdone⟩ := h.session.loop hi (by simp)
    exact ⟨h.guarded, .live i hno hon hdone, hthread, h.joins⟩

/-- Every step keeps the runtime sound. -/
theorem Sound.step {a : Action T} {s' : State T} {es : List Event} (h : Sound s)
    (hs : (machine T).step s a = some (s', es)) : Sound s' := by
  cases a with
  | run t =>
    simp only [machine, StopRequest.step, Option.ite_none_right_eq_some, Option.some.injEq,
      Prod.mk.injEq] at hs
    obtain ⟨ht, rfl, -⟩ := hs
    have hnone : s.caller t = none := by simpa using ht
    exact h.keep (h.guarded.keep (by simp [State.stack, hnone, Frame.holds])) rfl rfl rfl
      (by simp [hnone, Frame.starting]) (by simp [Frame.joins])
  | stop t =>
    simp only [machine, StopRequest.step, Option.ite_none_right_eq_some, Option.some.injEq,
      Prod.mk.injEq] at hs
    obtain ⟨ht, rfl, -⟩ := hs
    have hnone : s.caller t = none := by simpa using ht
    exact h.keep (h.guarded.keep (by simp [State.stack, hnone, Frame.holds])) rfl rfl rfl
      (by simp [hnone, Frame.starting]) (by simp [Frame.joins])
  | go t weak =>
    simp only [machine, StopRequest.step] at hs
    split at hs
    · exact h.goRun ‹_› hs
    · exact h.goStop ‹_› hs
    · cases hs
  | loop i =>
    obtain ⟨⟨r, read⟩, hr, hres⟩ := Option.map_eq_some_iff.1 hs
    obtain ⟨rfl, -⟩ := Prod.mk.inj hres
    exact h.loop hr

/-- The runtime is sound in every reachable state. -/
theorem sound_of_reachable {c : Config (State T) Event} (h : Reachable (machine T) (init T) c) :
    Sound c.state := by
  refine h.invariant_step (I := fun s _ => Sound s) ?_ fun _ _ _ _ _ hI _ hs => hI.step hs
  exact ⟨Guarded.init fun _ => rfl,
    .off rfl (fun _ => rfl) fun pc hpc => absurd hpc List.not_mem_nil,
    fun i hi => absurd hi (by simp [init, Runtime.new]), fun t ht => absurd ht (by simp [init])⟩

/-! ## The request is lost -/

/-- A request is pending, and the `run` of `u` stands at `pc`. -/
structure Armed (u : T) (pc : RunPc) (c : Config (State T) Event) : Prop where
  /-- The configuration is reachable. -/
  reach : Reachable (machine T) (init T) c
  /-- A request is pending. -/
  pending : pending c.trace = true
  /-- Where the `run` stands. -/
  caller : c.state.caller u = some (.run pc)

variable {c : Config (State T) Event} {u v : T} {pc : RunPc}

/-- A step after which a request is pending still, and the `run` stands at `pc'`. -/
theorem Armed.step {q : RunPc} {a : Action T} {s' : State T} {es : List Event} (h : Armed u pc c)
    (hs : (machine T).step c.state a = some (s', es))
    (hpending : Spinet.StopRequest.pending (c.trace ++ es) = true)
    (hcaller : s'.caller u = some (.run q)) :
    ∃ c', Reachable (machine T) c c' ∧ Armed u q c' ∧ c'.state = s' := by
  have hnext : next (machine T) c a = some ⟨s', c.trace ++ es⟩ := by
    simp only [next, hs, Option.map_some]
  exact ⟨_, .step .refl trivial hnext, ⟨.step h.reach trivial hnext, hpending, hcaller⟩, rfl⟩

/-- The `run` takes a step. -/
theorem Armed.goRun {q : RunPc} (h : Armed u pc c) (hpc : pc ≠ .cas)
    (hs : c.state.runtime.runStep u false pc = some (r, .goto q)) :
    ∃ c', Reachable (machine T) c c' ∧ Armed u q c' ∧ c'.state.runtime = r := by
  have hstep : (machine T).step c.state (.go u false) =
      some ({ c.state with runtime := r }.setCaller u (some (.run q)), []) := by
    simp [machine, StopRequest.step, h.caller, StopRequest.goRun, hs, hpc]
  obtain ⟨c', hreach, harmed, hstate⟩ :=
    h.step (q := q) hstep (by simpa using h.pending) (by simp)
  exact ⟨c', hreach, harmed, by rw [hstate]; rfl⟩

/-- The `stop` of another caller, in its section, takes a step and stays there. -/
theorem Armed.goStop {armed : Bool} {pc₁ pc₂ : StopPc} (h : Armed u pc c)
    (hv : c.state.caller v = some (.stop armed pc₁)) (hne : u ≠ v) (hread : pc₁ ≠ .read)
    (hstore : pc₁ ≠ .store) (hs : c.state.runtime.stopStep v pc₁ = some (r, .goto pc₂)) :
    ∃ c', Reachable (machine T) c c' ∧ Armed u pc c' ∧ c'.state.runtime = r ∧
      c'.state.caller v = some (.stop armed pc₂) := by
  have hstep : (machine T).step c.state (.go v false) =
      some ({ c.state with runtime := r }.setCaller v (some (.stop armed pc₂)), []) := by
    simp [machine, StopRequest.step, hv, StopRequest.goStop, hs, hread, hstore]
  obtain ⟨c', hreach, harmed, hstate⟩ :=
    h.step (q := pc) hstep (by simpa using h.pending) (by simp [hne, h.caller])
  exact ⟨c', hreach, harmed, by rw [hstate]; rfl, by rw [hstate]; simp⟩

/-- The call of another caller that is about to leave its section can do so. -/
theorem Armed.unlock {f : Frame} (h : Armed u pc c) (hv : c.state.caller v = some f) (hne : u ≠ v)
    (hf : f = .run .unlock ∨ ∃ armed, f = .stop armed .unlock) :
    ∃ c', Reachable (machine T) c c' ∧ Armed u pc c' ∧ c'.state.runtime.threadMtx = none := by
  rcases hf with rfl | ⟨armed, rfl⟩
  · have hstep : (machine T).step c.state (.go v false) = some
        (c.state.after v { c.state.runtime with threadMtx := none } true none,
          [.runReturned none]) := by
      simp [machine, StopRequest.step, hv, StopRequest.goRun, Runtime.runStep, State.after]
    obtain ⟨c', hreach, harmed, hstate⟩ := h.step (q := pc) hstep
      (by simp [pendingAfter, h.pending]) (by simp [hne, h.caller])
    exact ⟨c', hreach, harmed, by rw [hstate]; rfl⟩
  · have hstep : (machine T).step c.state (.go v false) = some
        (c.state.after v { c.state.runtime with threadMtx := none } c.state.returned none,
          [.stopReturned]) := by
      simp [machine, StopRequest.step, hv, StopRequest.goStop, Runtime.stopStep, State.after]
    obtain ⟨c', hreach, harmed, hstate⟩ := h.step (q := pc) hstep
      (by simp [pendingAfter, h.pending]) (by simp [hne, h.caller])
    exact ⟨c', hreach, harmed, by rw [hstate]; rfl⟩

/-- While a `run` is about to start a thread, the thread that `runtime_thread_` stands for has
ended. -/
theorem Armed.ended (h : Armed u pc c) (hpc : (Frame.run pc).starting = true)
    (hthread : c.state.runtime.runtimeThread ≠ none) : c.state.runtime.ended = true := by
  have hsound := sound_of_reachable h.reach
  obtain ⟨-, hdone, -⟩ := hsound.of_starting (t := u) (by simpa [h.caller] using hpc)
  obtain ⟨i, hi⟩ := Option.ne_none_iff_exists'.1 hthread
  have hlt := hsound.thread i hi
  simp [Runtime.ended, hi, List.getElem?_eq_getElem hlt, hdone _ (List.getElem_mem hlt)]

/-- The `stop` of another caller that waits for a thread to end can leave its section. -/
theorem Armed.leaveJoin {armed : Bool} (h : Armed u pc c) (hpc : (Frame.run pc).starting = true)
    (hv : c.state.caller v = some (.stop armed .join)) (hne : u ≠ v) :
    ∃ c', Reachable (machine T) c c' ∧ Armed u pc c' ∧ c'.state.runtime.threadMtx = none := by
  have hthread := (sound_of_reachable h.reach).joins v (by simp [hv, Frame.joins])
  have hs : c.state.runtime.stopStep v .join =
      some ({ c.state.runtime with runtimeThread := none }, .goto .unlock) := by
    simp [Runtime.stopStep, h.ended hpc hthread]
  obtain ⟨c₁, h₁, harmed, -, hv₁⟩ := h.goStop hv hne (by simp) (by simp) hs
  obtain ⟨c₂, h₂, hfree⟩ := harmed.unlock hv₁ hne (.inr ⟨armed, rfl⟩)
  exact ⟨c₂, h₁.trans h₂, hfree⟩

/-- Whoever has `thread_mtx_` while a `run` waits for it can give it up. -/
theorem Armed.release (h : Armed u .lock c) :
    ∃ c', Reachable (machine T) c c' ∧ Armed u .lock c' ∧ c'.state.runtime.threadMtx = none := by
  have hsound := sound_of_reachable h.reach
  cases hm : c.state.runtime.threadMtx with
  | none => exact ⟨c, .refl, h, hm⟩
  | some v =>
    have hguarded := hsound.guarded
    rw [hm] at hguarded
    obtain ⟨f, hf, hholds⟩ := hguarded.exists_holds
    have hv : c.state.caller v = some f := by simpa [State.stack] using hf
    have hne : u ≠ v := by
      rintro rfl
      obtain rfl : Frame.run .lock = f := Option.some.inj (h.caller.symm.trans hv)
      simp [Frame.holds] at hholds
    cases f with
    | run pc' =>
      cases pc' with
      | cas | lock => simp [Frame.holds] at hholds
      | unlock => exact h.unlock hv hne (.inl rfl)
      | test | join | start =>
        -- It would be about to start a thread as well.
        have hstart := hsound.of_starting (t := u) (by simp [h.caller, Frame.starting])
        have hother := hstart.2.2 v hne.symm
        simp [hv, Frame.starting] at hother
    | stop armed pc' =>
      cases pc' with
      | read | store | lock => simp [Frame.holds] at hholds
      | unlock => exact h.unlock hv hne (.inr ⟨armed, rfl⟩)
      | join => exact h.leaveJoin rfl hv hne
      | test =>
        cases hthread : c.state.runtime.runtimeThread with
        | none =>
          have hs : c.state.runtime.stopStep v .test = some (c.state.runtime, .goto .unlock) := by
            simp [Runtime.stopStep, hthread]
          obtain ⟨c₁, h₁, harmed, -, hv₁⟩ := h.goStop hv hne (by simp) (by simp) hs
          obtain ⟨c₂, h₂, hfree⟩ := harmed.unlock hv₁ hne (.inr ⟨armed, rfl⟩)
          exact ⟨c₂, h₁.trans h₂, hfree⟩
        | some i =>
          have hs : c.state.runtime.stopStep v .test = some (c.state.runtime, .goto .join) := by
            simp [Runtime.stopStep, hthread]
          obtain ⟨c₁, h₁, harmed, -, hv₁⟩ := h.goStop hv hne (by simp) (by simp) hs
          obtain ⟨c₂, h₂, hfree⟩ := harmed.leaveJoin rfl hv₁ hne
          exact ⟨c₂, h₁.trans h₂, hfree⟩

/-- A `run` that is about to start a thread can go on until it does. -/
theorem Armed.toStart (h : Armed u pc c) (hpc : (Frame.run pc).starting = true) :
    ∃ c', Reachable (machine T) c c' ∧ Armed u .start c' := by
  have hjoin : ∀ {c}, Armed u .join c → c.state.runtime.runtimeThread ≠ none →
      ∃ c', Reachable (machine T) c c' ∧ Armed u .start c' := by
    intro c h hthread
    have hs : c.state.runtime.runStep u false .join =
        some ({ c.state.runtime with runtimeThread := none }, .goto .start) := by
      simp [Runtime.runStep, h.ended rfl hthread]
    obtain ⟨c', hreach, harmed, -⟩ := h.goRun (by simp) hs
    exact ⟨c', hreach, harmed⟩
  have htest : ∀ {c}, Armed u .test c → ∃ c', Reachable (machine T) c c' ∧ Armed u .start c' := by
    intro c h
    cases hthread : c.state.runtime.runtimeThread with
    | none =>
      have hs : c.state.runtime.runStep u false .test = some (c.state.runtime, .goto .start) := by
        simp [Runtime.runStep, hthread]
      obtain ⟨c', hreach, harmed, -⟩ := h.goRun (by simp) hs
      exact ⟨c', hreach, harmed⟩
    | some i =>
      have hs : c.state.runtime.runStep u false .test = some (c.state.runtime, .goto .join) := by
        simp [Runtime.runStep, hthread]
      obtain ⟨c₁, h₁, harmed, hr⟩ := h.goRun (by simp) hs
      obtain ⟨c₂, h₂, hstart⟩ := hjoin harmed (by simp [hr, hthread])
      exact ⟨c₂, h₁.trans h₂, hstart⟩
  cases pc with
  | cas | unlock => simp [Frame.starting] at hpc
  | start => exact ⟨c, .refl, h⟩
  | join => exact hjoin h ((sound_of_reachable h.reach).joins u (by simp [h.caller, Frame.joins]))
  | test => exact htest h
  | lock =>
    obtain ⟨c₁, h₁, harmed, hfree⟩ := h.release
    have hs : c₁.state.runtime.runStep u false .lock =
        some ({ c₁.state.runtime with threadMtx := some u }, .goto .test) := by
      simp [Runtime.runStep, hfree]
    obtain ⟨c₂, h₂, hlocked, -⟩ := harmed.goRun (by simp) hs
    obtain ⟨c₃, h₃, hstart⟩ := htest hlocked
    exact ⟨c₃, (h₁.trans h₂).trans h₃, hstart⟩

/-- A thread that is about to begin while a request is pending overwrites it, and goes into its
loop. -/
theorem begin_overwrites {i : ℕ} (hp : pending c.trace = true)
    (hi : c.state.runtime.loops[i]? = some .prologue) :
    ∃ c', Reachable (machine T) c c' ∧ ¬ Heeded c' := by
  have hlt : i < c.state.runtime.loops.length := (List.getElem?_eq_some_iff.1 hi).1
  let r₁ : Runtime T := { c.state.runtime with stopped := false }.moveLoop i .guard
  have hbegin : next (machine T) c (.loop i) =
      some ⟨{ c.state with runtime := r₁ }, c.trace ++ []⟩ := by
    simp [next, machine, StopRequest.step, Runtime.loopStep, hi, r₁]
  have hguard : next (machine T) ⟨{ c.state with runtime := r₁ }, c.trace ++ []⟩ (.loop i) =
      some ⟨{ c.state with runtime := r₁.moveLoop i .body }, c.trace ++ [] ++ [.guard false]⟩ := by
    simp [next, machine, StopRequest.step, Runtime.loopStep, r₁, List.getElem?_set_self hlt]
  refine ⟨_, .step (.step .refl trivial hbegin) trivial hguard, fun h => ?_⟩
  have hlast := Allowed.of_mem h (c.trace ++ []) (.guard false) [] rfl rfl
  rw [List.nil_append, List.append_nil, hp] at hlast
  cases hlast

/-- Whenever a step breaks the condition, the request can be lost. -/
theorem untimely_breaks {a : Action T} {c' : Config (State T) Event}
    (h : Reachable (machine T) (init T) c) (hn : next (machine T) c a = some c')
    (hC : ¬ Timely c a) : ∃ c'', Reachable (machine T) c' c'' ∧ ¬ Heeded c'' := by
  cases a with
  | run | stop | loop => exact absurd trivial hC
  | go t weak =>
    obtain ⟨hstore, hnot⟩ : c.state.caller t = some (.stop true .store) ∧ ¬ Settled c.state := by
      simpa [Timely] using hC
    have hreach : Reachable (machine T) (init T) c' := .step h trivial hn
    obtain rfl : c' = ⟨c.state.after t { c.state.runtime with stopped := true } c.state.returned
        (some (.stop true .lock)), c.trace ++ [.stopStored true]⟩ := by
      have hstep : (machine T).step c.state (.go t weak) = some
          (c.state.after t { c.state.runtime with stopped := true } c.state.returned
            (some (.stop true .lock)), [.stopStored true]) := by
        simp [machine, StopRequest.step, hstore, StopRequest.goStop, Runtime.stopStep, State.after]
      simp only [next, hstep, Option.map_some, Option.some.injEq] at hn
      exact hn.symm
    have hpending : pending (c.trace ++ [.stopStored true]) = true := by simp [pendingAfter]
    by_cases hbegin : .prologue ∈ c.state.runtime.loops
    · obtain ⟨i, hi⟩ := List.mem_iff_getElem?.1 hbegin
      exact begin_overwrites hpending hi
    · -- A `run` is about to start a thread: it does so, and that thread begins.
      obtain ⟨u, f, hu, hstarting⟩ : ∃ u, ∃ f ∈ c.state.caller u, f.starting = true := by
        by_contra hno
        push Not at hno
        exact hnot ⟨fun u f hf => by simpa using hno u f hf, hbegin⟩
      have hne : u ≠ t := by
        rintro rfl
        obtain rfl : Frame.stop true .store = f := Option.some.inj (hstore.symm.trans hu)
        simp [Frame.starting] at hstarting
      cases f with
      | stop armed pc => simp [Frame.starting] at hstarting
      | run pc =>
        have hcaller : c.state.caller u = some (.run pc) := hu
        have harmed : Armed u pc ⟨c.state.after t { c.state.runtime with stopped := true }
            c.state.returned (some (.stop true .lock)), c.trace ++ [.stopStored true]⟩ :=
          ⟨hreach, hpending, by simp [hne, hcaller]⟩
        obtain ⟨c₁, h₁, hstart⟩ := harmed.toStart hstarting
        obtain ⟨c₂, h₂, hstarted, hr⟩ := hstart.goRun (q := .unlock) (by simp) rfl
        obtain ⟨c₃, h₃, hlost⟩ := begin_overwrites (i := c₁.state.runtime.loops.length)
          hstarted.pending (by simp [hr])
        exact ⟨c₃, (h₁.trans h₂).trans h₃, hlost⟩

end Spinet.StopRequest
