import Mathlib.Algebra.BigOperators.Ring.Finset
import Mathlib.Data.Fintype.Basic
import Mathlib.Data.List.Count
import Mathlib.Logic.Function.Basic

/-!
# Threads with call stacks, and mutexes

A program with threads `T` has for each thread a stack of frames `F`, innermost call first. A step
of a thread `t` changes only its own stack, so it is `Function.update stack t _`. Two kinds of facts
about all stacks at once are kept here.

- `total p stack` is the number of frames that satisfy `p`, over all threads. A step changes it by
  what it changes in one stack (`total_update`), so a conservation law over threads needs no more
  than the counts of the old and the new stack of the thread that steps.
- `Guarded holds owner stack` ties a mutex to the stacks: the thread that owns it has exactly one
  frame that holds it, and no other thread has one. A step either leaves the mutex alone
  (`Guarded.keep`), acquires it while it is free (`Guarded.acquire`), or releases it
  (`Guarded.release`); two frames that hold it are then on one thread (`Guarded.unique`).
-/

namespace Stacks

variable {T F : Type*} [DecidableEq T]

/-- A frame is on some stack after an update exactly when it is in the new stack of `t`, or was on
the stack of another thread. -/
theorem mem_update {stack : T → List F} {t u : T} {l : List F} {f : F} :
    f ∈ Function.update stack t l u ↔ (u = t ∧ f ∈ l) ∨ (u ≠ t ∧ f ∈ stack u) := by
  by_cases hu : u = t
  · subst hu; simp
  · simp [hu]

/-- After a step that replaces the innermost frame of a thread, a frame is one of the new ones, or
stays where it was. -/
theorem mem_replace {stack : T → List F} {t u : T} {f g : F} {rest fs : List F}
    (hst : stack t = f :: rest) (hg : g ∈ Function.update stack t (fs ++ rest) u) :
    (u = t ∧ g ∈ fs) ∨ (g ∈ stack u ∧ (u = t → g ∈ rest)) := by
  rcases mem_update.1 hg with ⟨rfl, hnew⟩ | ⟨hne, hold⟩
  · rcases List.mem_append.1 hnew with hfs | hrest
    · exact .inl ⟨rfl, hfs⟩
    · exact .inr ⟨by simp [hst, hrest], fun _ => hrest⟩
  · exact .inr ⟨hold, fun he => absurd he hne⟩

/-- A property of the frames below the innermost one of every thread survives an update if the new
stack has it. -/
theorem forall_tail_update {P : F → Prop} {stack : T → List F} {t : T} {l : List F}
    (h : ∀ u, ∀ g ∈ (stack u).tail, P g) (hl : ∀ g ∈ l.tail, P g) :
    ∀ u, ∀ g ∈ (Function.update stack t l u).tail, P g := by
  intro u g hg
  rcases eq_or_ne u t with rfl | hu
  · rw [Function.update_self] at hg
    exact hl g hg
  · rw [Function.update_of_ne hu] at hg
    exact h u g hg

/-! ## Counting frames over all threads -/

section Total

variable [Fintype T]

/-- The number of frames, over all threads, that satisfy `p`. -/
def total (p : F → Bool) (stack : T → List F) : ℕ := ∑ t, (stack t).countP p

/-- Updating one stack changes the total by the difference of its counts. -/
theorem total_update (p : F → Bool) (stack : T → List F) (t : T) (l : List F) :
    total p (Function.update stack t l) + (stack t).countP p = total p stack + l.countP p := by
  have hupd : ∀ u, (Function.update stack t l u).countP p
      = Function.update (fun u => (stack u).countP p) t (l.countP p) u := by
    intro u
    by_cases hu : u = t
    · subst hu; simp
    · simp [hu]
  -- Both totals are the sum over the other threads and the count of the stack of `t`.
  unfold total
  rw [Finset.sum_congr rfl fun u _ => hupd u, Finset.sum_update_of_mem (Finset.mem_univ t),
    ← Finset.sum_sdiff (Finset.singleton_subset_iff.2 (Finset.mem_univ t)), Finset.sum_singleton]
  omega

/-- An update that keeps the count of the updated stack keeps the total. -/
theorem total_update_of_eq {p : F → Bool} {stack : T → List F} {t : T} {l : List F}
    (h : l.countP p = (stack t).countP p) :
    total p (Function.update stack t l) = total p stack := by
  have := total_update p stack t l
  omega

/-- As `total_update`, for a step that replaces the innermost frame of a thread. -/
theorem total_replace (p : F → Bool) {stack : T → List F} {t : T} {f : F} {rest : List F}
    (h : stack t = f :: rest) (fs : List F) :
    total p (Function.update stack t (fs ++ rest)) + [f].countP p
      = total p stack + fs.countP p := by
  have hupd := total_update p stack t (fs ++ rest)
  have hold : (stack t).countP p = [f].countP p + rest.countP p := by
    rw [h, ← List.countP_append]; rfl
  rw [hold, List.countP_append] at hupd
  omega

/-- As `total_update`, for a step that puts a frame on top of a stack. -/
theorem total_push (p : F → Bool) (stack : T → List F) (t : T) (f : F) :
    total p (Function.update stack t (f :: stack t)) = total p stack + [f].countP p := by
  have hupd := total_update p stack t (f :: stack t)
  have hnew : (f :: stack t).countP p = [f].countP p + (stack t).countP p := by
    rw [← List.countP_append]; rfl
  omega

end Total

/-! ## Mutexes -/

/-- The stacks agree with the owner of a mutex: the owner has exactly one frame that holds the
mutex, and no other thread has any. -/
def Guarded (holds : F → Bool) (owner : Option T) (stack : T → List F) : Prop :=
  ∀ t, (stack t).countP holds = if owner = some t then 1 else 0

variable {holds : F → Bool} {owner : Option T} {stack : T → List F} {t u : T} {f g : F}

/-- A thread with a frame that holds the mutex owns it. -/
theorem Guarded.owner_eq (h : Guarded holds owner stack) (hf : f ∈ stack t)
    (hh : holds f = true) : owner = some t := by
  have hpos : 0 < (stack t).countP holds := List.countP_pos_iff.2 ⟨f, hf, hh⟩
  have ht := h t
  by_contra hne
  rw [if_neg hne] at ht
  omega

/-- Two frames that hold the mutex are on one thread. -/
theorem Guarded.unique (h : Guarded holds owner stack) (hf : f ∈ stack t) (hg : g ∈ stack u)
    (hhf : holds f = true) (hhg : holds g = true) : t = u := by
  have ht := h.owner_eq hf hhf
  rw [h.owner_eq hg hhg] at ht
  exact (Option.some.inj ht).symm

/-- While a frame other than the innermost one of a thread holds the mutex, that one does not. -/
theorem Guarded.only (h : Guarded holds owner stack) {rest : List F} (hst : stack t = f :: rest)
    (hg : g ∈ stack u) (hrest : u = t → g ∈ rest) (hhg : holds g = true) : holds f = false := by
  by_contra hhf
  have hhf : holds f = true := by simpa using hhf
  have hf : f ∈ stack t := by simp [hst]
  have hu : u = t := h.unique hg hf hhg hhf
  -- Both are on the stack of the owner, which then has two.
  have ht := h t
  rw [if_pos (h.owner_eq hf hhf), hst, List.countP_cons_of_pos hhf] at ht
  have hpos : 0 < rest.countP holds := List.countP_pos_iff.2 ⟨g, hrest hu, hhg⟩
  omega

/-- The owner of the mutex has a frame that holds it. -/
theorem Guarded.exists_holds (h : Guarded holds (some t) stack) :
    ∃ f ∈ stack t, holds f = true := by
  have ht := h t
  rw [if_pos rfl] at ht
  exact List.countP_pos_iff.1 (by omega)

/-- While the mutex is free, no frame holds it. -/
theorem Guarded.not_holds_of_free (h : Guarded holds none stack) (hf : f ∈ stack t) :
    holds f = false := by
  by_contra hh
  have := h.owner_eq hf (by simpa using hh)
  simp at this

/-- Initially the mutex is free and every stack is empty. -/
theorem Guarded.init (hstack : ∀ t, stack t = []) : Guarded holds none stack := by
  intro t
  simp [hstack t]

/-- A step that keeps the number of frames of its thread that hold the mutex leaves it alone. -/
theorem Guarded.keep (h : Guarded holds owner stack) {l : List F}
    (hl : l.countP holds = (stack t).countP holds) :
    Guarded holds owner (Function.update stack t l) := by
  intro u
  by_cases hu : u = t
  · subst hu; rw [Function.update_self, hl]; exact h u
  · rw [Function.update_of_ne hu]; exact h u

/-- A step that finds the mutex free and takes it. -/
theorem Guarded.acquire (h : Guarded holds none stack) {l : List F}
    (hl : l.countP holds = (stack t).countP holds + 1) :
    Guarded holds (some t) (Function.update stack t l) := by
  intro u
  by_cases hu : u = t
  · subst hu
    have hu0 := h u
    simp only [reduceCtorEq, if_false] at hu0
    simp [hl, hu0]
  · have hne : t ≠ u := fun e => hu e.symm
    have hu0 := h u
    simp only [reduceCtorEq, if_false] at hu0
    simp [hu, hu0, hne]

/-- A step of the owner that gives the mutex up. -/
theorem Guarded.release (h : Guarded holds owner stack) {l : List F}
    (hl : l.countP holds + 1 = (stack t).countP holds) :
    Guarded holds none (Function.update stack t l) := by
  have hpos : 0 < (stack t).countP holds := by omega
  obtain ⟨f, hf, hh⟩ := List.countP_pos_iff.1 hpos
  -- The thread owns the mutex, so it had one frame that holds it, and the others have none.
  have hown := h.owner_eq hf hh
  intro u
  by_cases hu : u = t
  · subst hu
    have hu1 := h u
    rw [if_pos hown] at hu1
    simp only [Function.update_self, reduceCtorEq, if_false]
    omega
  · have hne : owner ≠ some u := by rw [hown]; simpa using fun e => hu e.symm
    have hu0 := h u
    rw [if_neg hne] at hu0
    simp [hu, hu0]

end Stacks
