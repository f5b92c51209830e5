import Spinet.Library.Machine

/-!
# A machine within another

A machine that is put together from others has each of them as a part: the part's state, actions,
and events can be read off those of the whole, and a step of the whole is one of the part, if its
action is for the part, and leaves the part alone otherwise. `Projection` says so. A run of the
whole is then a run of the part (`Projection.run`), and what is known of the part's runs under a
condition holds of the part within the whole, if the whole meets the condition (`Projection.steps`).
-/

namespace Transition

variable {σ α ε σ' α' ε' : Type*}

/-- How the machine `M` is a part of the machine `N`. -/
structure Projection (N : Machine σ' α' ε') (M : Machine σ α ε) where
  /-- The part's state. -/
  state : σ' → σ
  /-- What an action is for the part, if it is for the part. -/
  action : α' → Option α
  /-- What an event is for the part, if it is one of the part. -/
  event : ε' → Option ε
  /-- A step for the part is the part's. -/
  step_some : ∀ {s a s' es b}, N.step s a = some (s', es) → action a = some b →
    M.step (state s) b = some (state s', es.filterMap event)
  /-- A step that is not for the part leaves it alone. -/
  step_none : ∀ {s a s' es}, N.step s a = some (s', es) → action a = none →
    state s' = state s ∧ es.filterMap event = []

namespace Projection

variable {N : Machine σ' α' ε'} {M : Machine σ α ε} (p : Projection N M) {c c' : Config σ' ε'}
  {a : α'} {as : List α'}

/-- The part's configuration. -/
def config (c : Config σ' ε') : Config σ ε := ⟨p.state c.state, c.trace.filterMap p.event⟩

/-- The condition that `C` puts on a step of the whole. -/
def Meets (C : Config σ ε → α → Prop) (c : Config σ' ε') (a : α') : Prop :=
  ∀ b ∈ p.action a, C (p.config c) b

/-- A step for the part. -/
theorem next_some {b : α} (h : next N c a = some c') (ha : p.action a = some b) :
    next M (p.config c) b = some (p.config c') := by
  obtain ⟨s, es, hs, rfl⟩ := next_eq_some N h
  have hstep := p.step_some hs ha
  simp only [next, config, hstep, Option.map_some, List.filterMap_append]

/-- A step that is not for the part. -/
theorem next_none (h : next N c a = some c') (ha : p.action a = none) :
    p.config c' = p.config c := by
  obtain ⟨s, es, hs, rfl⟩ := next_eq_some N h
  obtain ⟨hstate, hes⟩ := p.step_none hs ha
  rw [config, config, hstate, List.filterMap_append, hes, List.append_nil]

/-- A run of the whole is a run of the part. -/
protected theorem run : ∀ {as : List α'} {c : Config σ' ε'}, run N c as = some c' →
    run M (p.config c) (as.filterMap p.action) = some (p.config c')
  | [], c, h => by
    cases h
    rfl
  | a :: as, c, h => by
    obtain ⟨c₁, hn, hrest⟩ := Option.bind_eq_some_iff.1 h
    have ih := Projection.run hrest
    cases ha : p.action a with
    | none => rwa [List.filterMap_cons_none ha, ← p.next_none hn ha]
    | some b =>
      rw [List.filterMap_cons_some ha]
      exact Option.bind_eq_some_iff.2 ⟨p.config c₁, p.next_some hn ha, ih⟩

/-- If the whole meets a condition on the part along a run, then so does the part. -/
theorem steps {C : Config σ ε → α → Prop} : ∀ {as : List α'} {c : Config σ' ε'},
    run N c as = some c' → Steps N (p.Meets C) c as →
      Steps M C (p.config c) (as.filterMap p.action)
  | [], _, _, _ => trivial
  | a :: as, c, h, hsteps => by
    obtain ⟨c₁, hn, hrest⟩ := Option.bind_eq_some_iff.1 h
    obtain ⟨hC, hsteps₁⟩ := hsteps c₁ hn
    have ih := steps hrest hsteps₁
    cases ha : p.action a with
    | none => rwa [List.filterMap_cons_none ha, ← p.next_none hn ha]
    | some b =>
      rw [List.filterMap_cons_some ha]
      exact Steps.cons (p.next_some hn ha) (hC b ha) ih

end Projection

end Transition
