import Spinet.Lifecycle.Alone

/-!
# A run that fails

`run` of a server or client sets `running_` first, and then looks for its settings and starts its
workers one by one. None of this is undone when it returns an error. `run_noTrace_iff` says what is
left of the claim that a failed `run` leaves no trace: it is so when the exchange on `running_`
fails, which changes nothing, and otherwise only because no error is returned.

The call is the only one, and nothing else happens during it.
-/

namespace Spinet.Owner

open Calls

variable {T : Type*} {o o' : Owner T} {t : T} {weak : OwnerPc → Bool}

/-- `with_settings` followed by `run` succeeds. -/
def Restarts (t : T) (o : Owner T) : Prop :=
  ∀ settings : Settings, settings.validate = none → (o.withSettings settings).2 = none ∧
    Ends (runCall t fun _ => false) Undisturbed (o.withSettings settings).1 .runCas
      (fun err _ => err = none)

/-- If `run` returns an error, `running_` is as before, and so is every worker. An owner that is not
configured, and not running, can be configured then, and be run. -/
def NoTrace (t : T) (weak : OwnerPc → Bool) (o : Owner T) : Prop :=
  ∀ o' e, Exec (runCall t weak) Undisturbed o .runCas o' (.inr (some e)) →
    o'.running = o.running ∧ o'.workers.map Runtime.running = o.workers.map Runtime.running ∧
      (o.settings = none → o.running = false → Restarts t o')

/-- A new owner is at rest. -/
theorem new_atRest (kind : OwnerKind) : (new kind : Owner T).AtRest :=
  ⟨rfl, fun _ hr => absurd hr List.not_mem_nil, fun _ => rfl, fun h => absurd rfl h⟩

/-- What `with_settings` makes of an owner at rest that has no settings and is not running. -/
theorem AtRest.withSettings (h : o.AtRest) (hoff : o.running = false) (hset : o.settings = none)
    {settings : Settings} (hvalid : settings.validate = none) :
    (o.withSettings settings).2 = none ∧ (o.withSettings settings).1.AtRest ∧
      (o.withSettings settings).1.running = false ∧ (o.withSettings settings).1.settings ≠ none ∧
      ∀ r ∈ (o.withSettings settings).1.workers, r.running = false := by
  have hsome : o.withSettings settings =
      ({ o with settings := some settings,
                workers := o.workers ++ List.replicate settings.workers .new }, none) := by
    simp [Owner.withSettings, hoff, hset, hvalid]
  have hpos : settings.workers ≠ 0 := by
    rintro hzero
    simp [Settings.validate, hzero] at hvalid
  rw [hsome, h.unset hset, List.nil_append]
  refine ⟨rfl, ⟨h.mtx, fun r hr => ?_, by simp, fun _ => ?_⟩, hoff, by simp, fun r hr => ?_⟩
  · obtain rfl := List.eq_of_mem_replicate hr
    exact Runtime.new_atRest
  · simpa using hpos
  · obtain rfl := List.eq_of_mem_replicate hr
    rfl

/-- An owner at rest that has no settings, and is not running, can be configured and run. -/
theorem AtRest.restarts (h : o.AtRest) (hoff : o.running = false) (hset : o.settings = none)
    (t : T) : Restarts t o := by
  intro settings hvalid
  obtain ⟨hok, hrest, hoff', hset', hworkers⟩ := h.withSettings hoff hset hvalid
  have hends : Ends (runCall t fun _ => false) Undisturbed _ .runCas
      (Returned (o.withSettings settings).1 fun _ => false) :=
    run_ends_undisturbed hrest hoff' t rfl
  refine ⟨hok, fun o' err hexec => ?_, hends.returns⟩
  exact (hends.post o' err hexec).eq_none hset' fun j r hj =>
    ⟨hworkers r (List.mem_of_getElem? hj), rfl⟩

/-- Where the exchange fails, `run` changes nothing. -/
theorem eq_of_refuse {err : Option String} (h : o.running = true ∨ weak .runCas = true)
    (hexec : Exec (runCall t weak) Undisturbed o .runCas o' (.inr err)) : o' = o := by
  have hrefuse : (o.running || weak .runCas) = true := by simpa using h
  refine hexec.rule (I := fun pc o' => pc = .runCas ∧ o' = o) (Q := fun _ o' => o' = o)
    (fun _ _ _ _ he => he.elim) ?_ ⟨rfl, rfl⟩
  rintro pc o₁ o₂ res ⟨rfl, rfl⟩ hs
  simp only [runCall, stepWeak, hrefuse, if_true, Option.map_some, Option.some.injEq,
    Prod.mk.injEq] at hs
  obtain ⟨rfl, rfl⟩ := hs
  rfl

/-- A failed `run` leaves no trace exactly when its exchange on `running_` fails, or no error can be
returned: there are settings, no worker is running, and the exchange of no worker fails. -/
theorem run_noTrace_iff (h : o.AtRest) (t : T) (weak : OwnerPc → Bool) :
    NoTrace t weak o ↔ o.running = true ∨ weak .runCas = true ∨
      (o.settings ≠ none ∧ ∀ k r, o.workers[k]? = some r →
        r.running = false ∧ weak (.runWorker k .cas) = false) := by
  constructor
  · intro hno
    by_contra hnot
    obtain ⟨hoff, hweak, hworkers⟩ : o.running = false ∧ weak .runCas = false ∧
        ¬ (o.settings ≠ none ∧ ∀ k r, o.workers[k]? = some r →
          r.running = false ∧ weak (.runWorker k .cas) = false) := by
      simpa only [not_or, Bool.not_eq_true] using hnot
    have hends := run_ends_undisturbed h hoff t hweak
    obtain ⟨o', err, hexec⟩ := hends.returns o .runCas .refl
    have hret := hends.post o' err hexec
    cases err with
    | none =>
      -- A `run` that succeeds has started every worker.
      obtain ⟨hset, hstarted⟩ := hret.ok rfl
      refine hworkers ⟨hset, fun k r hk => ?_⟩
      have hlt : k < o'.workers.length := by
        rw [hret.length]
        exact (List.getElem?_eq_some_iff.1 hk).1
      obtain ⟨hr, hw, -⟩ := hstarted k r _ hk (List.getElem?_eq_getElem hlt)
      exact ⟨hr, hw⟩
    | some e =>
      -- One that fails leaves `running_` set.
      have hrunning := (hno o' e hexec).1
      rw [hret.running, hoff] at hrunning
      cases hrunning
  · intro hcond o' e hexec
    by_cases hrefuse : o.running = true ∨ weak .runCas = true
    · obtain rfl := eq_of_refuse hrefuse hexec
      exact ⟨rfl, rfl, fun hset hoff => h.restarts hoff hset t⟩
    · obtain ⟨hoff, hweak⟩ : o.running = false ∧ weak .runCas = false := by simpa using hrefuse
      obtain ⟨hset, hworkers⟩ :=
        (hcond.resolve_left (by simp [hoff])).resolve_left (by simp [hweak])
      have hnone := ((run_ends_undisturbed h hoff t hweak).post o' _ hexec).eq_none hset
        hworkers
      cases hnone

/-- A server that is configured, and has never been run, has no error to return. -/
theorem run_noTrace_configured :
    NoTrace () (fun _ => false) ((new .server : Owner Unit).withSettings ⟨2, false⟩).1 := by
  have hnew : (new .server : Owner Unit).AtRest := new_atRest .server
  obtain ⟨-, hrest, -, hset, hworkers⟩ := AtRest.withSettings hnew rfl rfl
      (show Settings.validate ⟨2, false⟩ = none from rfl)
  refine (run_noTrace_iff hrest () _).2 (.inr (.inr ⟨hset, fun k r hk => ?_⟩))
  exact ⟨hworkers r (List.mem_of_getElem? hk), rfl⟩

/-- `run` on a new server fails, as it has no settings. It is taken to be running then, and refuses
to be configured. -/
theorem failed_run_refuses_settings :
    (∃ o' : Owner Unit, Exec (runCall () fun _ => false) Undisturbed (new .server) .runCas o'
        (.inr (some "settings has been not set")) ∧ o'.running = true ∧
        (o'.withSettings ⟨1, false⟩).2 = some "server has been running") ∧
      ¬ NoTrace () (fun _ => false) (new .server) := by
  have hexec : Exec (runCall () fun _ => false) Undisturbed (new .server) .runCas
      ({ (new .server : Owner Unit) with running := true })
      (.inr (some "settings has been not set")) :=
    .step (.step (.step (.step .refl rfl) rfl) rfl) rfl
  refine ⟨⟨_, hexec, rfl, rfl⟩, fun h => ?_⟩
  have hrunning := (h _ _ hexec).1
  cases hrunning

end Spinet.Owner
