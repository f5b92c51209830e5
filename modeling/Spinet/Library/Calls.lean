import Mathlib.Data.Nat.Notation
import Mathlib.Logic.Basic

/-!
# Calls

A call goes from place to place, changing a state, until it returns a value. Its surroundings may
change the state between its steps. `Exec` are the executions, finished or not.

`Exec.rule` is the rule for invariants: what holds at each place and is kept by the surroundings
and by the steps holds wherever an execution gets to, and gives what holds when it returns. `Ends`
says that a call is never stuck and what holds when it returns, and `Ends.of_rank` proves it with a
rank that goes down along the way.
-/

namespace Calls

variable {σ π ρ : Type*}

/-- The executions of a call from a place: `.inl` is the place where it is, `.inr` the value that it
has returned. `step` is what the call does, and `env` what its surroundings do. -/
inductive Exec (step : σ → π → Option (σ × (π ⊕ ρ))) (env : σ → σ → Prop) (s : σ) (pc : π) :
    σ → π ⊕ ρ → Prop
  | refl : Exec step env s pc s (.inl pc)
  | env {s₁ s₂ : σ} {pc₁ : π} : Exec step env s pc s₁ (.inl pc₁) → env s₁ s₂ →
    Exec step env s pc s₂ (.inl pc₁)
  | step {s₁ s₂ : σ} {pc₁ : π} {o : π ⊕ ρ} : Exec step env s pc s₁ (.inl pc₁) →
    step s₁ pc₁ = some (s₂, o) → Exec step env s pc s₂ o

/-- Surroundings that do nothing. -/
def Undisturbed (_ _ : σ) : Prop := False

variable {step : σ → π → Option (σ × (π ⊕ ρ))} {env : σ → σ → Prop} {s s₁ s' : σ} {pc pc₁ : π}
  {o : π ⊕ ρ}

/-- An execution goes on from where another one is. -/
theorem Exec.trans (h : Exec step env s pc s₁ (.inl pc₁)) (h' : Exec step env s₁ pc₁ s' o) :
    Exec step env s pc s' o := by
  induction h' with
  | refl => exact h
  | env _ he ih => exact .env ih he
  | step _ hs ih => exact .step ih hs

/-- An execution is one in surroundings that can do more, too. -/
theorem Exec.mono {env' : σ → σ → Prop} (henv : ∀ s s', env s s' → env' s s')
    (h : Exec step env s pc s' o) : Exec step env' s pc s' o := by
  induction h with
  | refl => exact .refl
  | env _ he ih => exact .env ih (henv _ _ he)
  | step _ hs ih => exact .step ih hs

/-- What holds at each place, and is kept by the surroundings and by the steps of the call, holds
wherever an execution gets to. -/
theorem Exec.rule {I : π → σ → Prop} {Q : ρ → σ → Prop}
    (henv : ∀ pc s s', I pc s → env s s' → I pc s')
    (hstep : ∀ pc s s' o, I pc s → step s pc = some (s', o) →
      Sum.elim (fun pc' => I pc' s') (fun v => Q v s') o)
    (h : Exec step env s pc s' o) (hI : I pc s) :
    Sum.elim (fun pc' => I pc' s') (fun v => Q v s') o := by
  induction h with
  | refl => exact hI
  | env _ he ih => exact henv _ _ _ ih he
  | step _ hs ih => exact hstep _ _ _ _ ih hs

/-- A call that can always return, and what holds when it does. -/
structure Ends (step : σ → π → Option (σ × (π ⊕ ρ))) (env : σ → σ → Prop) (s : σ) (pc : π)
    (Q : ρ → σ → Prop) : Prop where
  /-- What holds when it returns. -/
  post : ∀ s' v, Exec step env s pc s' (.inr v) → Q v s'
  /-- It is never stuck. -/
  returns : ∀ s₁ pc₁, Exec step env s pc s₁ (.inl pc₁) →
    ∃ s' v, Exec step env s₁ pc₁ s' (.inr v)

/-- A call with a rank that the surroundings or a step of the call can lower can return. -/
theorem returns_of_rank {I : π → σ → Prop} {m : π → σ → ℕ}
    (henv : ∀ pc s s', I pc s → env s s' → I pc s')
    (hstep : ∀ pc s s' pc', I pc s → step s pc = some (s', .inl pc') → I pc' s')
    (hprog : ∀ pc s, I pc s → (∃ s', env s s' ∧ m pc s' < m pc s) ∨
      ∃ s' o, step s pc = some (s', o) ∧ ∀ pc', o = .inl pc' → m pc' s' < m pc s) :
    ∀ (n : ℕ) {pc : π} {s : σ}, m pc s ≤ n → I pc s → ∃ s' v, Exec step env s pc s' (.inr v) := by
  intro n
  -- The induction is on a bound of the rank.
  induction n with
  | zero =>
    intro pc s hrank hI
    rcases hprog pc s hI with ⟨s', -, hlt⟩ | ⟨s', pc' | v, hs, hlt⟩
    · exact absurd (Nat.lt_of_lt_of_le hlt hrank) (Nat.not_lt_zero _)
    · exact absurd (Nat.lt_of_lt_of_le (hlt pc' rfl) hrank) (Nat.not_lt_zero _)
    · exact ⟨s', v, .step .refl hs⟩
  | succ n ih =>
    intro pc s hrank hI
    rcases hprog pc s hI with ⟨s', he, hlt⟩ | ⟨s', pc' | v, hs, hlt⟩
    · obtain ⟨s'', v, hexec⟩ :=
        ih (Nat.le_of_lt_succ (Nat.lt_of_lt_of_le hlt hrank)) (henv _ _ _ hI he)
      exact ⟨s'', v, (Exec.env .refl he).trans hexec⟩
    · obtain ⟨s'', v, hexec⟩ :=
        ih (Nat.le_of_lt_succ (Nat.lt_of_lt_of_le (hlt pc' rfl) hrank)) (hstep _ _ _ _ hI hs)
      exact ⟨s'', v, (Exec.step .refl hs).trans hexec⟩
    · exact ⟨s', v, .step .refl hs⟩

/-- The rule for `Ends`: an invariant, and a rank that the surroundings or a step of the call can
lower wherever the call is. -/
theorem Ends.of_rank {I : π → σ → Prop} {Q : ρ → σ → Prop} {m : π → σ → ℕ}
    (henv : ∀ pc s s', I pc s → env s s' → I pc s')
    (hstep : ∀ pc s s' o, I pc s → step s pc = some (s', o) →
      Sum.elim (fun pc' => I pc' s') (fun v => Q v s') o)
    (hprog : ∀ pc s, I pc s → (∃ s', env s s' ∧ m pc s' < m pc s) ∨
      ∃ s' o, step s pc = some (s', o) ∧ ∀ pc', o = .inl pc' → m pc' s' < m pc s)
    (hI : I pc s) : Ends step env s pc Q where
  post := fun _ _ h => h.rule henv hstep hI
  returns := fun s₁ pc₁ h =>
    returns_of_rank henv (fun pc s s' pc' hI hs => hstep pc s s' (.inl pc') hI hs) hprog
      (m pc₁ s₁) (Nat.le_refl _) (h.rule henv hstep hI)

end Calls
