import Spinet.Lifecycle.Alone

/-!
# Each worker is a runtime of its own

The machine of `Spinet.Lifecycle.Owner` has the steps of all workers, and the workers are called
from within `run` and `stop` of their owner. `Shows k` says that the machine of a single runtime, of
`Spinet.Lifecycle.StopRequest`, shows what worker `k` does; `shown_of_reachable` that it can go on
to. So what holds of a runtime in every run holds of every worker in every run of its owner, and an
owner that is in no call is at rest (`atRest_of_reachable`).
-/

namespace Spinet.Owner

open Transition Stacks

variable {T : Type*} {k : ℕ}

/-- What a call of the owner is for worker `k`. -/
inductive CallAt (k : ℕ) : Option OwnerPc → Option StopRequest.Frame → Prop
  /-- A `run` that is in the `run` of worker `k`. -/
  | run (pc : RunPc) : CallAt k (some (.runWorker k pc)) (some (.run pc))
  /-- A `stop` that is in the `stop` of worker `k`. -/
  | stop (armed : Bool) (pc : StopPc) : CallAt k (some (.stopWorker k pc)) (some (.stop armed pc))
  /-- Another call, or none. -/
  | other {f : Option OwnerPc} : (∀ pc, f ≠ some (.runWorker k pc)) →
    (∀ pc, f ≠ some (.stopWorker k pc)) → CallAt k f none

/-- The state of a runtime that shows worker `k` of an owner. -/
structure Shows (k : ℕ) (s : State T) (d : StopRequest.State T) : Prop where
  /-- The runtime is the worker. -/
  runtime : s.owner.workers[k]? = some d.runtime
  /-- Its calls are those of the owner that are in a call of worker `k`. -/
  caller : ∀ t, CallAt k (s.caller t) (d.caller t)

/-- A call that is not in a call of worker `k`, or is about to begin one. -/
def Fresh (k : ℕ) (f : Option OwnerPc) : Prop :=
  CallAt k f none ∨ f = some (.runWorker k .cas) ∨ f = some (.stopWorker k .read)

variable {o : Owner T} {s : State T} {d d₁ d₂ : StopRequest.State T} {t : T} {f : Option OwnerPc}

/-- So is a `run` before any worker. -/
theorem fresh_nextRun (o : Owner T) (j : ℕ) : Fresh k (some (o.nextRun j)) := by
  unfold nextRun
  split
  · rcases eq_or_ne j k with rfl | hne
    · exact .inr (.inl rfl)
    · exact .inl (.other (by simp [hne]) (by simp))
  · exact .inl (.other (by simp) (by simp))

/-- So is a `stop` before any worker. -/
theorem fresh_nextStop (o : Owner T) (j : ℕ) : Fresh k (some (o.nextStop j)) := by
  unfold nextStop
  split
  · rcases eq_or_ne j k with rfl | hne
    · exact .inr (.inr rfl)
    · exact .inl (.other (by simp) (by simp [hne]))
  · exact .inl (.other (by simp) (by simp))

/-- A call that is not in a call of worker `k` does not show. -/
theorem CallAt.eq_none {g : Option StopRequest.Frame} (h : CallAt k f g) (hf : CallAt k f none) :
    g = none := by
  cases hf with
  | other hrun hstop =>
    cases h with
    | run pc => exact absurd rfl (hrun pc)
    | stop armed pc => exact absurd rfl (hstop pc)
    | other => rfl

variable [DecidableEq T]

/-- The runtime gets from one state to another. -/
def Follows (d d₁ : StopRequest.State T) : Prop :=
  ∀ tr, ∃ tr₁, Reachable (StopRequest.machine T) ⟨d, tr⟩ ⟨d₁, tr₁⟩

/-- The runtime takes no step. -/
theorem Follows.refl (d : StopRequest.State T) : Follows d d := fun tr => ⟨tr, .refl⟩

/-- The runtime takes one step. -/
theorem Follows.one (a : StopRequest.Action T) {es : List StopRequest.Event}
    (h : StopRequest.step d a = some (d₁, es)) : Follows d d₁ := by
  refine fun tr => ⟨tr ++ es, .step .refl (a := a) trivial ?_⟩
  simp only [next, StopRequest.machine, h, Option.map_some]

/-- The runtime takes more steps. -/
theorem Follows.trans (h : Follows d d₁) (h' : Follows d₁ d₂) : Follows d d₂ := by
  intro tr
  obtain ⟨tr₁, h₁⟩ := h tr
  obtain ⟨tr₂, h₂⟩ := h' tr₁
  exact ⟨tr₂, h₁.trans h₂⟩

/-- A runtime whose caller `t` is in no call goes on to show a call that may be about to begin
one. -/
theorem shows_fresh (hk : o.workers[k]? = some d.runtime)
    (hcaller : ∀ u, u ≠ t → CallAt k (s.caller u) (d.caller u)) (ht : d.caller t = none)
    (hf : Fresh k f) :
    ∃ d₁, Follows d d₁ ∧ Shows k ({ s with owner := o }.setCaller t f) d₁ := by
  have hshows : ∀ g, CallAt k f g →
      Shows k ({ s with owner := o }.setCaller t f) (d.setCaller t g) := by
    refine fun g hg => ⟨hk, fun u => ?_⟩
    rw [State.setCaller_caller, StopRequest.State.setCaller_caller]
    split
    · exact hg
    · exact hcaller u ‹_›
  rcases hf with hnone | rfl | rfl
  · refine ⟨d, .refl d, ?_⟩
    have hself : d.setCaller t none = d := by
      rw [StopRequest.State.setCaller, ← ht, Function.update_eq_self]
    have := hshows none hnone
    rwa [hself] at this
  · have hrun : StopRequest.step d (.run t) = some (d.setCaller t (some (.run .cas)), []) := by
      simp [StopRequest.step, ht]
    exact ⟨_, .one (.run t) hrun, hshows _ (.run .cas)⟩
  · have hstop : StopRequest.step d (.stop t) =
        some (d.setCaller t (some (.stop false .read)), []) := by
      simp [StopRequest.step, ht]
    exact ⟨_, .one (.stop t) hstop, hshows _ (.stop false .read)⟩

/-- A step of a call that is not in a call of worker `k`, and does not change it. -/
theorem Shows.elsewhere {pc : OwnerPc} (h : Shows k s d) (ht : s.caller t = some pc)
    (hpc : CallAt k (some pc) none) (hk : o.workers[k]? = s.owner.workers[k]?) (hf : Fresh k f) :
    ∃ d₁, Follows d d₁ ∧ Shows k ({ s with owner := o }.setCaller t f) d₁ := by
  refine shows_fresh (hk.trans h.runtime) (fun u _ => h.caller u) ?_ hf
  exact (ht ▸ h.caller t : CallAt k (some pc) _).eq_none hpc

/-- A step in a call of worker `k`. -/
theorem Shows.within {r : Runtime T} (h : Shows k s d) (hd : Follows d d₁) (hr : d₁.runtime = r)
    (hother : ∀ u, u ≠ t → d₁.caller u = d.caller u)
    (hf : CallAt k f (d₁.caller t) ∨ (d₁.caller t = none ∧ Fresh k f)) :
    ∃ d₂, Follows d d₂ ∧ Shows k ({ s with owner := s.owner.setWorker k r }.setCaller t f) d₂ := by
  subst hr
  have hlt : k < s.owner.workers.length := (List.getElem?_eq_some_iff.1 h.runtime).1
  have hk : (s.owner.setWorker k d₁.runtime).workers[k]? = some d₁.runtime := by
    simp [setWorker, hlt]
  have hcaller : ∀ u, u ≠ t → CallAt k (s.caller u) (d₁.caller u) := by
    intro u hu
    rw [hother u hu]
    exact h.caller u
  rcases hf with hf | ⟨ht, hf⟩
  · refine ⟨d₁, hd, hk, fun u => ?_⟩
    rw [State.setCaller_caller]
    split
    · subst u
      exact hf
    · exact hcaller u ‹_›
  · obtain ⟨d₂, hd₂, hshows⟩ := shows_fresh (s := s) hk hcaller ht hf
    exact ⟨d₂, hd.trans hd₂, hshows⟩

/-- Where the call of the owner is after a step in a call of worker `k`. -/
def GoesOn {π ρ : Type} (k : ℕ) (at' : π → OwnerPc) (nx : Next π ρ) (f : Option OwnerPc) : Prop :=
  match nx with
  | .goto pc => f = some (at' pc)
  | .ret _ => Fresh k f

/-- The runtime follows a step in the `run` of worker `k`. -/
theorem Shows.run {pc : RunPc} {r r' : Runtime T} {nx : Next RunPc (Option String)}
    (h : Shows k s d) (ht : s.caller t = some (.runWorker k pc))
    (hk : s.owner.workers[k]? = some r) (hs : r.runStep t false pc = some (r', nx))
    (hf : GoesOn k (.runWorker k) nx f) :
    ∃ d₁, Follows d d₁ ∧ Shows k ({ s with owner := s.owner.setWorker k r' }.setCaller t f) d₁ := by
  obtain rfl : d.runtime = r := Option.some.inj (h.runtime.symm.trans hk)
  have hd : d.caller t = some (.run pc) := by
    have hat := h.caller t
    rw [ht] at hat
    revert hat
    generalize d.caller t = g
    rintro (_ | _ | ⟨hrun, -⟩)
    · rfl
    · exact absurd rfl (hrun pc)
  have hgo : StopRequest.step d (.go t false) = StopRequest.goRun d t false pc := by
    rw [StopRequest.step, hd]
  cases nx with
  | goto pc' =>
    obtain rfl : f = _ := hf
    refine h.within (Follows.one (.go t false) (hgo.trans (by rw [StopRequest.goRun, hs]; rfl)))
      rfl (fun u hu => ?_) (.inl ?_)
    · simp [hu]
    · simpa using CallAt.run pc'
  | ret v =>
    refine h.within (Follows.one (.go t false) (hgo.trans (by rw [StopRequest.goRun, hs]; rfl)))
      rfl (fun u hu => ?_) (.inr ⟨?_, hf⟩)
    · simp [hu]
    · simp

/-- The runtime follows a step in the `stop` of worker `k`. -/
theorem Shows.stop {pc : StopPc} {r r' : Runtime T} {nx : Next StopPc Unit}
    (h : Shows k s d) (ht : s.caller t = some (.stopWorker k pc))
    (hk : s.owner.workers[k]? = some r) (hs : r.stopStep t pc = some (r', nx))
    (hf : GoesOn k (.stopWorker k) nx f) :
    ∃ d₁, Follows d d₁ ∧ Shows k ({ s with owner := s.owner.setWorker k r' }.setCaller t f) d₁ := by
  obtain rfl : d.runtime = r := Option.some.inj (h.runtime.symm.trans hk)
  obtain ⟨armed, hd⟩ : ∃ armed, d.caller t = some (.stop armed pc) := by
    have hat := h.caller t
    rw [ht] at hat
    revert hat
    generalize d.caller t = g
    rintro (_ | ⟨armed, _⟩ | ⟨-, hstop⟩)
    · exact ⟨armed, rfl⟩
    · exact absurd rfl (hstop pc)
  have hgo : StopRequest.step d (.go t false) = StopRequest.goStop d t armed pc := by
    rw [StopRequest.step, hd]
  cases nx with
  | goto pc' =>
    obtain rfl : f = _ := hf
    refine h.within (Follows.one (.go t false) (hgo.trans (by rw [StopRequest.goStop, hs]; rfl)))
      rfl (fun u hu => ?_) (.inl ?_)
    · simp [hu]
    · simpa using CallAt.stop _ pc'
  | ret v =>
    refine h.within (Follows.one (.go t false) (hgo.trans (by rw [StopRequest.goStop, hs]; rfl)))
      rfl (fun u hu => ?_) (.inr ⟨?_, hf⟩)
    · simp [hu]
    · simp

/-- The runtime follows a step of a call of the owner. -/
theorem Shows.go {pc : OwnerPc} {nx : Next OwnerPc (Option String)} (h : Shows k s d)
    (ht : s.caller t = some pc) (hs : s.owner.step t pc = some (o, nx)) :
    ∃ d₁, Follows d d₁ ∧ Shows k ({ s with owner := o }.setCaller t (toPc nx)) d₁ := by
  cases pc with
  | runCas =>
    simp only [Owner.step] at hs
    split at hs
    · obtain ⟨rfl, rfl⟩ := Prod.mk.inj (Option.some.inj hs)
      exact h.elsewhere ht (.other (by simp) (by simp)) rfl
        (.inl (.other (by simp [toPc]) (by simp [toPc])))
    · obtain ⟨rfl, rfl⟩ := Prod.mk.inj (Option.some.inj hs)
      exact h.elsewhere ht (.other (by simp) (by simp)) rfl
        (.inl (.other (by simp [toPc]) (by simp [toPc])))
  | runLock | stopLock =>
    obtain ⟨-, hs⟩ := Option.ite_none_right_eq_some.1 hs
    obtain ⟨rfl, rfl⟩ := Prod.mk.inj (Option.some.inj hs)
    exact h.elsewhere ht (.other (by simp) (by simp)) rfl
      (.inl (.other (by simp [toPc]) (by simp [toPc])))
  | runSettings =>
    obtain ⟨rfl, rfl⟩ := Prod.mk.inj (Option.some.inj hs)
    refine h.elsewhere ht (.other (by simp) (by simp)) rfl ?_
    simp only [toPc]
    split
    · exact fresh_nextRun _ 0
    · exact .inl (.other (by simp) (by simp))
  | stopTest =>
    obtain ⟨rfl, rfl⟩ := Prod.mk.inj (Option.some.inj hs)
    refine h.elsewhere ht (.other (by simp) (by simp)) rfl ?_
    simp only [toPc]
    split
    · exact fresh_nextStop _ 0
    · exact .inl (.other (by simp) (by simp))
  | runUnlock | stopClear | stopUnlock =>
    obtain ⟨rfl, rfl⟩ := Prod.mk.inj (Option.some.inj hs)
    exact h.elsewhere ht (.other (by simp) (by simp)) rfl
      (.inl (.other (by simp [toPc]) (by simp [toPc])))
  | runWorker j pc =>
    simp only [Owner.step, Option.map_eq_some_iff, Option.bind_eq_some_iff, Prod.mk.injEq] at hs
    obtain ⟨⟨r', nx'⟩, ⟨r, hk, hr⟩, rfl, rfl⟩ := hs
    rcases eq_or_ne j k with rfl | hne
    · refine h.run ht hk hr ?_
      rcases nx' with pc' | (_ | err)
      · rfl
      · exact fresh_nextRun _ _
      · exact .inl (.other (by simp [toPc]) (by simp [toPc]))
    · refine h.elsewhere ht (.other (by simp [hne]) (by simp)) (by simp [setWorker, hne]) ?_
      rcases nx' with pc' | (_ | err)
      · exact .inl (.other (by simp [toPc, hne]) (by simp [toPc]))
      · exact fresh_nextRun _ _
      · exact .inl (.other (by simp [toPc]) (by simp [toPc]))
  | stopWorker j pc =>
    simp only [Owner.step, Option.map_eq_some_iff, Option.bind_eq_some_iff, Prod.mk.injEq] at hs
    obtain ⟨⟨r', nx'⟩, ⟨r, hk, hr⟩, rfl, rfl⟩ := hs
    rcases eq_or_ne j k with rfl | hne
    · refine h.stop ht hk hr ?_
      rcases nx' with pc' | _
      · rfl
      · exact fresh_nextStop _ _
    · refine h.elsewhere ht (.other (by simp) (by simp [hne])) (by simp [setWorker, hne]) ?_
      rcases nx' with pc' | _
      · exact .inl (.other (by simp [toPc]) (by simp [toPc, hne]))
      · exact fresh_nextStop _ _

/-- A new call of the owner does not show. -/
theorem Shows.call {pc : OwnerPc} (h : Shows k s d) (ht : s.caller t = none)
    (hpc : CallAt k (some pc) none) : Shows k (s.setCaller t (some pc)) d := by
  have hd : d.caller t = none := by
    have hat := h.caller t
    rw [ht] at hat
    exact hat.eq_none (.other (by simp) (by simp))
  refine ⟨h.runtime, fun u => ?_⟩
  rw [State.setCaller_caller]
  split
  · subst u
    rwa [hd]
  · exact h.caller u

/-- The runtime follows a step of a thread of a worker. -/
theorem Shows.loop {j i : ℕ} {r r' : Runtime T} {read : Option Bool} (h : Shows k s d)
    (hj : s.owner.workers[j]? = some r) (hs : r.loopStep i = some (r', read)) :
    ∃ d₁, Follows d d₁ ∧ Shows k { s with owner := s.owner.setWorker j r' } d₁ := by
  rcases eq_or_ne j k with rfl | hne
  · obtain rfl : d.runtime = r := Option.some.inj (h.runtime.symm.trans hj)
    have hloop : StopRequest.step d (.loop i) =
        some ({ d with runtime := r' }, read.toList.map .guard) := by
      rw [StopRequest.step, hs]
      rfl
    refine ⟨{ d with runtime := r' }, .one (.loop i) hloop, ?_, h.caller⟩
    have hlt := (List.getElem?_eq_some_iff.1 hj).1
    simp [setWorker, hlt]
  · exact ⟨d, .refl d, by simpa [setWorker, hne] using h.runtime, h.caller⟩

/-- A runtime that shows worker `k` goes on to show it. -/
theorem Shows.step {c c' : Config (State T) (Option String)} {a : Action T}
    {d : Config (StopRequest.State T) StopRequest.Event} (h : Shows k c.state d.state)
    (hn : next (machine T) c a = some c') :
    ∃ d₁, Reachable (StopRequest.machine T) d d₁ ∧ Shows k c'.state d₁.state := by
  obtain ⟨s', es, hs, rfl⟩ := next_eq_some _ hn
  have hstep : ∃ d₁, Follows d.state d₁ ∧ Shows k s' d₁ := by
    cases a with
    | run t =>
      simp only [machine, stepState, Option.ite_none_right_eq_some, Option.some.injEq,
        Prod.mk.injEq] at hs
      obtain ⟨ht, rfl, -⟩ := hs
      exact ⟨d.state, .refl _, h.call (by simpa using ht) (.other (by simp) (by simp))⟩
    | stop t =>
      simp only [machine, stepState, Option.ite_none_right_eq_some, Option.some.injEq,
        Prod.mk.injEq] at hs
      obtain ⟨ht, rfl, -⟩ := hs
      exact ⟨d.state, .refl _, h.call (by simpa using ht) (.other (by simp) (by simp))⟩
    | go t =>
      simp only [machine, stepState, Option.map_eq_some_iff, Option.bind_eq_some_iff,
        Prod.mk.injEq] at hs
      obtain ⟨⟨o, nx⟩, ⟨pc, ht, hr⟩, rfl, -⟩ := hs
      exact h.go ht hr
    | loop j i =>
      simp only [machine, stepState, Option.map_eq_some_iff, Option.bind_eq_some_iff,
        Prod.mk.injEq] at hs
      obtain ⟨⟨r', read⟩, ⟨r, hj, hr⟩, rfl, -⟩ := hs
      exact h.loop hj hr
  obtain ⟨d₁, hfollows, hshows⟩ := hstep
  obtain ⟨tr₁, hreach⟩ := hfollows d.trace
  exact ⟨⟨d₁, tr₁⟩, hreach, hshows⟩

/-- Whatever an owner does, there is a run of a runtime that shows worker `k`. -/
theorem shown_of_reachable {c : Config (State T) (Option String)} {kind : OwnerKind}
    {settings : Settings} (h : Reachable (machine T) (init T kind settings) c)
    (hk : k < (init T kind settings).state.owner.workers.length) :
    ∃ d, Reachable (StopRequest.machine T) (StopRequest.init T) d ∧ Shows k c.state d.state := by
  refine Reachable.simulated (R := fun c d => Shows k c.state d.state)
    (fun _ _ _ _ hR hn => hR.step hn) h ⟨?_, fun t => .other (by simp [init]) (by simp [init])⟩
  have hnew : ∀ r ∈ (init T kind settings).state.owner.workers, r = Runtime.new := by
    intro r hr
    simp only [init, withSettings, new, Bool.false_eq_true, if_false, Option.isSome_none] at hr
    split at hr
    · cases hr
    · exact List.eq_of_mem_replicate (by simpa using hr)
  rw [List.getElem?_eq_getElem hk, hnew _ (List.getElem_mem hk)]
  rfl

/-! ## At rest -/

/-- The calls that every caller is in. -/
def State.stack (s : State T) (t : T) : List OwnerPc := (s.caller t).toList

/-- What holds of the owner beside its workers. -/
structure Framed (kind : OwnerKind) (settings : Settings) (s : State T) : Prop where
  /-- The owner of `mtx_` is in a section of it. -/
  guarded : Guarded OwnerPc.holds s.owner.mtx s.stack
  /-- The settings stay. -/
  configured : s.owner.settings = (init T kind settings).state.owner.settings
  /-- The number of workers stays. -/
  length : s.owner.workers.length = (init T kind settings).state.owner.workers.length

/-- The stacks once a caller is in another call, or in none. -/
theorem stack_setCaller (s : State T) (o : Owner T) (t : T) (f : Option OwnerPc) :
    ({ s with owner := o }.setCaller t f).stack = Function.update s.stack t f.toList := by
  funext u
  rcases eq_or_ne u t with rfl | hne
  · simp [State.stack]
  · simp [State.stack, hne]

omit [DecidableEq T] in
/-- Before a worker, a call is in its section. -/
theorem holds_next (o : Owner T) (j : ℕ) :
    (o.nextRun j).holds = true ∧ (o.nextStop j).holds = true := by
  unfold nextRun nextStop
  constructor <;> split <;> rfl

/-- A step of a call keeps the mutex guarded. -/
theorem Move.guarded {pc : OwnerPc} {nx : Option OwnerPc} (h : Move s.owner t pc o nx)
    (ht : s.caller t = some pc) (hg : Guarded OwnerPc.holds s.owner.mtx s.stack) :
    Guarded OwnerPc.holds o.mtx ({ s with owner := o }.setCaller t nx).stack := by
  have hst : s.stack t = [pc] := by simp [State.stack, ht]
  rw [stack_setCaller]
  cases h with
  | runRefuse | runCas | runUnset | runWorker | runFailed | stopNotRunning | stopWorker |
    stopClear => exact hg.keep (by rw [hst]; rfl)
  | runSettings | runStarted =>
    refine hg.keep ?_
    rw [hst, Option.toList_some, List.countP_cons_of_pos (holds_next s.owner _).1]
    rfl
  | stopTest | stopStopped =>
    refine hg.keep ?_
    rw [hst, Option.toList_some, List.countP_cons_of_pos (holds_next s.owner _).2]
    rfl
  | runLock hfree | stopLock hfree =>
    rw [hfree] at hg
    exact hg.acquire (by rw [hst]; rfl)
  | runUnlock | stopUnlock => exact hg.release (by rw [hst]; rfl)

/-- A new call takes no mutex. -/
theorem Framed.call {kind : OwnerKind} {settings : Settings} {pc : OwnerPc}
    (h : Framed kind settings s) (ht : s.caller t = none) (hpc : pc.holds = false) :
    Framed kind settings (s.setCaller t (some pc)) := by
  refine ⟨?_, h.configured, h.length⟩
  have hstack : (s.setCaller t (some pc)).stack = Function.update s.stack t [pc] :=
    stack_setCaller s s.owner t (some pc)
  rw [hstack]
  exact h.guarded.keep (by simp [State.stack, ht, hpc])

/-- Every step keeps it. -/
theorem Framed.step {kind : OwnerKind} {settings : Settings} {a : Action T} {s' : State T}
    {es : List (Option String)} (h : Framed kind settings s)
    (hs : (machine T).step s a = some (s', es)) : Framed kind settings s' := by
  cases a with
  | run t =>
    simp only [machine, stepState, Option.ite_none_right_eq_some, Option.some.injEq,
      Prod.mk.injEq] at hs
    obtain ⟨ht, rfl, -⟩ := hs
    exact h.call (by simpa using ht) rfl
  | stop t =>
    simp only [machine, stepState, Option.ite_none_right_eq_some, Option.some.injEq,
      Prod.mk.injEq] at hs
    obtain ⟨ht, rfl, -⟩ := hs
    exact h.call (by simpa using ht) rfl
  | go t =>
    simp only [machine, stepState, Option.map_eq_some_iff, Option.bind_eq_some_iff,
      Prod.mk.injEq] at hs
    obtain ⟨⟨o, nx⟩, ⟨pc, ht, hr⟩, rfl, -⟩ := hs
    have hmove := step_cases hr
    exact ⟨hmove.guarded ht h.guarded, hmove.fixed.1.trans h.configured,
      hmove.fixed.2.trans h.length⟩
  | loop j i =>
    simp only [machine, stepState, Option.map_eq_some_iff, Option.bind_eq_some_iff,
      Prod.mk.injEq] at hs
    obtain ⟨⟨r', read⟩, ⟨r, hj, hr⟩, rfl, -⟩ := hs
    exact ⟨h.guarded, h.configured, by simpa [setWorker] using h.length⟩

/-- It holds in every state that can be reached. -/
theorem framed_of_reachable {c : Config (State T) (Option String)} {kind : OwnerKind}
    {settings : Settings} (h : Reachable (machine T) (init T kind settings) c) :
    Framed kind settings c.state := by
  refine h.invariant_step (I := fun s _ => Framed kind settings s) ⟨?_, rfl, rfl⟩
    fun _ _ _ _ _ hI _ hs => hI.step hs
  have hmtx : (init T kind settings).state.owner.mtx = none := by
    simp only [init, withSettings, new, Bool.false_eq_true, if_false, Option.isSome_none]
    split <;> rfl
  rw [hmtx]
  exact Guarded.init fun _ => rfl

/-- In every state that can be reached, an owner that is in no call is at rest. -/
theorem atRest_of_reachable {c : Config (State T) (Option String)} {kind : OwnerKind}
    {settings : Settings} (h : Reachable (machine T) (init T kind settings) c)
    (hno : ∀ t, c.state.caller t = none) : c.state.owner.AtRest := by
  have hframed := framed_of_reachable h
  have hempty : ∀ r : Owner T, r = (init T kind settings).state.owner →
      (r.settings = none → r.workers = []) ∧ (r.settings ≠ none → r.workers ≠ []) := by
    rintro _ rfl
    simp only [init, withSettings, new, Bool.false_eq_true, if_false, Option.isSome_none]
    split
    · exact ⟨fun _ => rfl, fun hset => absurd rfl hset⟩
    · rename_i hvalid
      refine ⟨fun hset => by simp at hset, fun _ => ?_⟩
      simp only [List.nil_append, ne_eq, List.replicate_eq_nil_iff]
      intro hzero
      simp [Settings.validate, hzero] at hvalid
  refine ⟨?_, fun r hr => ?_, fun hset => ?_, fun hset hnil => ?_⟩
  · -- The owner of the mutex would be in a section.
    cases hm : c.state.owner.mtx with
    | none => rfl
    | some t =>
      have hguarded := hframed.guarded
      rw [hm] at hguarded
      obtain ⟨pc, hpc, -⟩ := hguarded.exists_holds
      simp [State.stack, hno t] at hpc
  · obtain ⟨k, hk⟩ := List.mem_iff_getElem?.1 hr
    have hlt : k < (init T kind settings).state.owner.workers.length := by
      rw [← hframed.length]
      exact (List.getElem?_eq_some_iff.1 hk).1
    obtain ⟨d, hd, hshows⟩ := shown_of_reachable h hlt
    obtain rfl : d.state.runtime = r := Option.some.inj (hshows.runtime.symm.trans hk)
    refine Runtime.atRest_of_reachable hd fun t => ?_
    have hat := hshows.caller t
    rw [hno t] at hat
    exact hat.eq_none (.other (by simp) (by simp))
  · rw [hframed.configured] at hset
    refine List.eq_nil_of_length_eq_zero ?_
    rw [hframed.length, (hempty _ rfl).1 hset]
    rfl
  · rw [hframed.configured] at hset
    refine (hempty _ rfl).2 hset (List.eq_nil_of_length_eq_zero ?_)
    rw [← hframed.length, hnil]
    rfl

end Spinet.Owner
