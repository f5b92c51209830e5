import Mathlib.Data.List.Basic
import Mathlib.Logic.Basic

/-!
# Machines that an environment drives

A `Machine` is a system whose steps an environment chooses: in a state, an enabled action leads to
one next state and emits events. The events emitted so far are the trace, which is kept beside the
state, in a `Config`, so that a property may speak of the whole past and no state needs a field for
it. `ReachVia C` is reachability along steps that all meet a condition `C`; plain reachability is
the case in which `C` asks for nothing.

The rules are an induction principle for invariants (`ReachVia.invariant`), its use on top of what
is already known of every reachable configuration (`ReachVia.invariant_of`), and the rule that
characterises the runs along which a property never fails (`always_iff_steps`). A machine whose
steps another one can follow reaches nothing that the other does not (`Reachable.simulated`). A
property of the trace that says which events may follow which past is `Allowed`, and
`allowed_append` says what a step has to show for it. -/

namespace Transition

/-- A machine with states `σ`, actions `α`, and events `ε`. An action that is not enabled in a state
has no step there. -/
structure Machine (σ α ε : Type*) where
  /-- The step that an action takes: the next state and the events emitted. -/
  step : σ → α → Option (σ × List ε)

/-- A state with the events emitted on the way to it. -/
structure Config (σ ε : Type*) where
  /-- The current state. -/
  state : σ
  /-- The events emitted so far, oldest first. -/
  trace : List ε

variable {σ α ε : Type*} (M : Machine σ α ε)

/-- A step on configurations: the trace grows by the events emitted. -/
def next (c : Config σ ε) (a : α) : Option (Config σ ε) :=
  (M.step c.state a).map fun r => ⟨r.1, c.trace ++ r.2⟩

/-- The configuration after a list of actions; `none` if one of them is not enabled. -/
def run (c : Config σ ε) : List α → Option (Config σ ε)
  | [] => some c
  | a :: as => (next M c a).bind fun c' => run c' as

/-- A step on configurations is a step of the machine. -/
theorem next_eq_some {c c' : Config σ ε} {a : α} (h : next M c a = some c') :
    ∃ s es, M.step c.state a = some (s, es) ∧ c' = ⟨s, c.trace ++ es⟩ := by
  unfold next at h
  cases hs : M.step c.state a with
  | none => simp [hs] at h
  | some r =>
    rw [hs, Option.map_some, Option.some.injEq] at h
    exact ⟨r.1, r.2, rfl, h.symm⟩

/-- The configurations reached from `c₀` by steps that each meet the condition `C`, which is on the
configuration before the step and the action taken. -/
inductive ReachVia (C : Config σ ε → α → Prop) (c₀ : Config σ ε) : Config σ ε → Prop
  | refl : ReachVia C c₀ c₀
  | step {c c' : Config σ ε} {a : α} :
      ReachVia C c₀ c → C c a → next M c a = some c' → ReachVia C c₀ c'

/-- The configurations reached from `c₀` by any steps. -/
abbrev Reachable (c₀ : Config σ ε) : Config σ ε → Prop := ReachVia M (fun _ _ => True) c₀

variable {M} {C : Config σ ε → α → Prop} {c₀ c : Config σ ε}

/-- What is reached under a condition is reachable. -/
theorem ReachVia.reachable (h : ReachVia M C c₀ c) : Reachable M c₀ c := by
  induction h with
  | refl => exact .refl
  | step _ _ hn ih => exact .step ih trivial hn

/-- Reachability is transitive. -/
theorem ReachVia.trans {c' : Config σ ε} (h : ReachVia M C c₀ c) (h' : ReachVia M C c c') :
    ReachVia M C c₀ c' := by
  induction h' with
  | refl => exact h
  | step _ hC hn ih => exact .step ih hC hn

/-- A property that holds at the start and that every step under the condition keeps holds of what
is reached. -/
theorem ReachVia.invariant {I : Config σ ε → Prop} (h : ReachVia M C c₀ c) (hinit : I c₀)
    (hstep : ∀ c a c', I c → C c a → next M c a = some c' → I c') : I c := by
  induction h with
  | refl => exact hinit
  | step _ hC hn ih => exact hstep _ _ _ ih hC hn

/-- As `ReachVia.invariant`, where a step may use what is known of every reachable
configuration. -/
theorem ReachVia.invariant_of {I J : Config σ ε → Prop} (h : ReachVia M C c₀ c)
    (hJ : ∀ c, Reachable M c₀ c → J c) (hinit : I c₀)
    (hstep : ∀ c a c', J c → J c' → I c → C c a → next M c a = some c' → I c') : I c := by
  induction h with
  | refl => exact hinit
  | step hr hC hn ih =>
    exact hstep _ _ _ (hJ _ hr.reachable) (hJ _ (.step hr.reachable trivial hn)) ih hC hn

/-- The rule for steps of the machine: `ReachVia.invariant` with the step and its events in view. -/
theorem ReachVia.invariant_step {I : σ → List ε → Prop} (h : ReachVia M C c₀ c)
    (hinit : I c₀.state c₀.trace)
    (hstep : ∀ s tr a s' es, I s tr → C ⟨s, tr⟩ a → M.step s a = some (s', es) →
      I s' (tr ++ es)) :
    I c.state c.trace := by
  refine h.invariant (I := fun c => I c.state c.trace) hinit ?_
  intro c a c' hI hC hn
  obtain ⟨s', es, hs, rfl⟩ := next_eq_some M hn
  exact hstep _ _ _ _ _ hI hC hs

/-- As `ReachVia.invariant`, for a property of the configuration and of the actions that have led to
it. -/
theorem run_invariant {I : List α → Config σ ε → Prop} (hinit : I [] c₀)
    (hstep : ∀ as c a c', Reachable M c₀ c → I as c → next M c a = some c' → I (as ++ [a]) c')
    {as : List α} (h : run M c₀ as = some c) : I as c := by
  -- The actions that remain are to follow any beginning of the run.
  have hrest : ∀ (as pre : List α) (c₁ : Config σ ε), Reachable M c₀ c₁ → I pre c₁ →
      run M c₁ as = some c → I (pre ++ as) c := by
    intro as
    induction as with
    | nil =>
      intro pre c₁ _ hI hrun
      cases hrun
      rwa [List.append_nil]
    | cons a as ih =>
      intro pre c₁ hc hI hrun
      obtain ⟨c₂, hn, hrun⟩ := Option.bind_eq_some_iff.1 hrun
      have hpre := ih (pre ++ [a]) c₂ (.step hc trivial hn) (hstep _ _ _ _ hc hI hn) hrun
      rwa [List.append_assoc, List.singleton_append] at hpre
  exact hrest as [] c₀ .refl hinit h

/-- If every step of one machine is followed by some steps of another, along a relation between
their configurations, then so is everything that the first one reaches. -/
theorem Reachable.simulated {σ' α' ε' : Type*} {N : Machine σ' α' ε'} {d₀ : Config σ' ε'}
    {R : Config σ ε → Config σ' ε' → Prop}
    (hstep : ∀ c a c' d, R c d → next M c a = some c' → ∃ d', Reachable N d d' ∧ R c' d')
    (h : Reachable M c₀ c) (hinit : R c₀ d₀) : ∃ d, Reachable N d₀ d ∧ R c d := by
  induction h with
  | refl => exact ⟨d₀, .refl, hinit⟩
  | step _ _ hn ih =>
    obtain ⟨d, hd, hR⟩ := ih
    obtain ⟨d', hd', hR'⟩ := hstep _ _ _ d hR hn
    exact ⟨d', hd.trans hd', hR'⟩

/-! ## Properties along a run -/

variable (M) in
/-- Every configuration that the run of `as` from `c` visits satisfies `P`. -/
def Always (P : Config σ ε → Prop) (c : Config σ ε) : List α → Prop
  | [] => P c
  | a :: as => P c ∧ ∀ c', next M c a = some c' → Always P c' as

variable (M) in
/-- Every step that the run of `as` from `c` takes meets the condition `C`. -/
def Steps (C : Config σ ε → α → Prop) (c : Config σ ε) : List α → Prop
  | [] => True
  | a :: as => ∀ c', next M c a = some c' → C c a ∧ Steps C c' as

/-- What holds of everything reached under a condition holds along every run whose steps all meet
it. -/
theorem always_of_reachVia {P : Config σ ε → Prop} (hP : ∀ c, ReachVia M C c₀ c → P c) :
    ∀ {as : List α} {c : Config σ ε}, ReachVia M C c₀ c → Steps M C c as → Always M P c as
  | [], c, hc, _ => hP c hc
  | a :: as, c, hc, hsteps => by
    refine ⟨hP c hc, fun c' hn => ?_⟩
    obtain ⟨hC, hsteps'⟩ := hsteps c' hn
    exact always_of_reachVia hP (.step hc hC hn) hsteps'

/-- What holds of every reachable configuration holds along every run. -/
theorem always_of_reachable {P : Config σ ε → Prop} (hP : ∀ c, Reachable M c₀ c → P c) :
    ∀ {as : List α} {c : Config σ ε}, Reachable M c₀ c → Always M P c as
  | [], c, hc => hP c hc
  | _ :: _, c, hc => ⟨hP c hc, fun _ hn => always_of_reachable hP (.step hc trivial hn)⟩

/-- What holds along a run holds where it ends. -/
theorem Always.last {P : Config σ ε → Prop} {c' : Config σ ε} :
    ∀ {as : List α} {c : Config σ ε}, Always M P c as → run M c as = some c' → P c'
  | [], _, hP, h => by
    cases h
    exact hP
  | _ :: _, _, hP, h => by
    obtain ⟨c₁, hn, hrest⟩ := Option.bind_eq_some_iff.1 h
    exact Always.last (hP.2 c₁ hn) hrest

/-- A property that holds where a run starts holds along it exactly when every step meets the
condition, provided that steps under the condition keep it (with the help of an invariant `I`) and
that a step against the condition breaks it. -/
theorem always_iff_steps {I P : Config σ ε → Prop}
    (hkeep : ∀ c a c', I c → P c → C c a → next M c a = some c' → I c' ∧ P c')
    (hbreak : ∀ c a c', I c → P c → ¬ C c a → next M c a = some c' → ¬ P c') :
    ∀ {as : List α} {c : Config σ ε}, I c → P c → (Always M P c as ↔ Steps M C c as)
  | [], c, _, hP => by simp [Always, Steps, hP]
  | a :: as, c, hI, hP => by
    simp only [Always, Steps, hP, true_and]
    refine forall_congr' fun c' => forall_congr' fun hn => ?_
    by_cases hC : C c a
    -- Under the condition the rest of the run decides, against it this step does.
    · obtain ⟨hI', hP'⟩ := hkeep c a c' hI hP hC hn
      simp only [hC, true_and]
      exact always_iff_steps hkeep hbreak hI' hP'
    · simp only [hC, false_and, iff_false]
      intro hA
      have hP' : P c' := by
        cases as with
        | nil => exact hA
        | cons => exact hA.1
      exact hbreak c a c' hI hP hC hn hP'

/-- A run whose first step meets the condition, and whose other steps do. -/
theorem Steps.cons {a : α} {as : List α} {c₁ : Config σ ε} (hn : next M c a = some c₁)
    (hC : C c a) (hsteps : Steps M C c₁ as) : Steps M C c (a :: as) := by
  intro c' hn'
  rw [hn] at hn'
  cases hn'
  exact ⟨hC, hsteps⟩

/-- A condition that every step meets is met along every run. -/
theorem steps_of_forall (hC : ∀ c a, C c a) :
    ∀ {as : List α} {c : Config σ ε}, Steps M C c as
  | [], _ => trivial
  | _ :: _, c => fun _ _ => ⟨hC c _, steps_of_forall hC⟩

/-- A run whose steps all meet a condition is one that goes on under that condition. -/
theorem Steps.reachVia : ∀ {as : List α} {c c' : Config σ ε}, Steps M C c as →
    run M c as = some c' → ReachVia M C c c'
  | [], _, _, _, hrun => by cases hrun; exact .refl
  | a :: as, c, c', h, hrun => by
    obtain ⟨c₁, hn, hrun⟩ := Option.bind_eq_some_iff.1 hrun
    obtain ⟨hC, hsteps⟩ := h c₁ hn
    exact (ReachVia.step .refl hC hn).trans (Steps.reachVia hsteps hrun)

/-- If every step of one machine under a condition is followed by a step of another with the same
action, along a relation between their configurations, then so is every run under the condition. -/
theorem Steps.simulated {σ' ε' : Type*} {N : Machine σ' α ε'} {R : Config σ ε → Config σ' ε' → Prop}
    (hstep : ∀ c a c' d, R c d → C c a → next M c a = some c' →
      ∃ d', next N d a = some d' ∧ R c' d') :
    ∀ {as : List α} {c c' : Config σ ε} {d : Config σ' ε'}, Steps M C c as →
      run M c as = some c' → R c d → ∃ d', run N d as = some d' ∧ R c' d'
  | [], _, _, d, _, hrun, hR => by cases hrun; exact ⟨d, rfl, hR⟩
  | a :: as, c, c', d, h, hrun, hR => by
    obtain ⟨c₁, hn, hrun⟩ := Option.bind_eq_some_iff.1 hrun
    obtain ⟨hC, hsteps⟩ := h c₁ hn
    obtain ⟨d₁, hn', hR₁⟩ := hstep c a c₁ d hR hC hn
    obtain ⟨d', hrun', hR'⟩ := Steps.simulated hstep hsteps hrun hR₁
    exact ⟨d', Option.bind_eq_some_iff.2 ⟨d₁, hn', hrun'⟩, hR'⟩

/-- What a run leads to is reachable. -/
theorem reachable_of_run {as : List α} {c' : Config σ ε} (hrun : run M c as = some c') :
    Reachable M c c' := Steps.reachVia (steps_of_forall fun _ _ => trivial) hrun

/-- A run whose steps all meet a condition meets a weaker one. -/
theorem Steps.imp {D : Config σ ε → α → Prop} (hCD : ∀ c a, C c a → D c a) :
    ∀ {as : List α} {c : Config σ ε}, Steps M C c as → Steps M D c as
  | [], _, _ => trivial
  | _ :: _, _, h => fun c' hn => ⟨hCD _ _ (h c' hn).1, Steps.imp hCD (h c' hn).2⟩

/-- A condition that can be tested can be tested along a run. -/
instance decidableSteps [∀ c a, Decidable (C c a)] :
    ∀ (c : Config σ ε) (as : List α), Decidable (Steps M C c as)
  | _, [] => isTrue trivial
  | c, a :: as =>
    match hn : next M c a with
    | none => isTrue fun c' h => by rw [hn] at h; cases h
    | some c₁ =>
      have := decidableSteps c₁ as
      decidable_of_iff (C c a ∧ Steps M C c₁ as)
        ⟨fun h c' h' => by rw [hn] at h'; cases h'; exact h, fun h => h c₁ hn⟩

/-! ## Properties of the trace -/

/-- Every event of a list may be emitted after the events before it, of which `past` are the ones
before the list. -/
def AllowedFrom (Q : List ε → ε → Prop) (past : List ε) : List ε → Prop
  | [] => True
  | e :: es => Q past e ∧ AllowedFrom Q (past ++ [e]) es

/-- Every event of the trace `tr` was allowed by the events before it. -/
abbrev Allowed (Q : List ε → ε → Prop) (tr : List ε) : Prop := AllowedFrom Q [] tr

/-- A trace is allowed in two parts. -/
theorem allowedFrom_append {Q : List ε → ε → Prop} : ∀ {past tr es : List ε},
    AllowedFrom Q past (tr ++ es) ↔ AllowedFrom Q past tr ∧ AllowedFrom Q (past ++ tr) es
  | past, [], es => by simp [AllowedFrom]
  | past, e :: tr, es => by
    simp only [List.cons_append, AllowedFrom, and_assoc]
    rw [allowedFrom_append, List.append_assoc, List.singleton_append]

/-- What a step has to show for its events. -/
theorem allowed_append {Q : List ε → ε → Prop} {tr es : List ε} :
    Allowed Q (tr ++ es) ↔ Allowed Q tr ∧ AllowedFrom Q tr es := by
  rw [Allowed, allowedFrom_append, List.nil_append]

/-- A trace whose events are allowed whatever was before them. -/
theorem allowedFrom_of_forall {Q : List ε → ε → Prop} : ∀ {past tr : List ε},
    (∀ e ∈ tr, ∀ past, Q past e) → AllowedFrom Q past tr
  | _, [], _ => trivial
  | past, e :: _, h => ⟨h e List.mem_cons_self past,
      allowedFrom_of_forall fun e' he' => h e' (List.mem_cons_of_mem e he')⟩

/-- An allowed trace, read as a statement about each of its events. -/
theorem Allowed.of_mem {Q : List ε → ε → Prop} {past tr : List ε} (h : AllowedFrom Q past tr) :
    ∀ l₁ e l₂, tr = l₁ ++ e :: l₂ → Q (past ++ l₁) e := by
  intro l₁ e l₂ heq
  rw [heq, allowedFrom_append] at h
  exact h.2.1

end Transition
