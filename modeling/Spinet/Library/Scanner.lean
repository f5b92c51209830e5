import Mathlib.Data.List.Basic
import Mathlib.Logic.Basic

/-!
# Scanners

A scanner reads a sequence of items one at a time. On each item it either goes on in another state
or stops with a result; `feed` runs it over a list, and `Ends` says that it stops on the last item
of the list, as a condition asks. Reading in pieces is the same as reading the whole
(`feed_append`), no text that a scanner ends on is the beginning of another (`Ends.unique`), and on
the beginning of one it does not stop (`Ends.feed_of_append`).

To find out which texts a scanner ends on, one takes its states apart from the left. `ends_cons` is
the rule for one item. `ends_collect` is the rule for a state that collects the items of a class,
`ends_until` for one that does so up to a given item, `ends_count` for one that collects a given
number of them, and `ends_star` for a state at which a line, a chunk, or another longer item begins
and to which the scanner comes back after it. -/

namespace Scanner

variable {σ α ρ : Type*}

/-- What a scanner does with an item. -/
inductive Verdict (σ ρ : Type*) where
  /-- It goes on in a state. -/
  | goOn (s : σ)
  /-- It stops, in a state and with a result. -/
  | stop (s : σ) (r : ρ)

variable (step : σ → α → Verdict σ ρ) (Q : σ → ρ → Prop)

/-- Reads until the scanner stops or the items are used up: the state, the result if the scanner has
stopped, and the items that are left. -/
def feed : σ → List α → σ × Option ρ × List α
  | s, [] => (s, none, [])
  | s, a :: as =>
    match step s a with
    | .goOn s' => feed s' as
    | .stop s' r => (s', some r, as)

/-- The scanner stops on the last item, in a state and with a result that meet a condition. -/
def Ends (s : σ) (as : List α) : Prop := ∃ s' r, feed step s as = (s', some r, []) ∧ Q s' r

variable {step Q} {s s' t : σ} {a e : α} {as bs rest : List α} {r : ρ}

/-- What comes after the item on which the scanner stops is left. -/
theorem feed_append_of_stop (h : feed step s as = (s', some r, rest)) :
    feed step s (as ++ bs) = (s', some r, rest ++ bs) := by
  induction as generalizing s with
  | nil => simp [feed] at h
  | cons a as ih =>
    rw [List.cons_append, feed]
    rw [feed] at h
    cases hs : step s a with
    | goOn s₁ =>
      rw [hs] at h
      exact ih h
    | stop s₁ r₁ =>
      rw [hs] at h
      simp only [Prod.mk.injEq, Option.some.injEq] at h
      obtain ⟨rfl, rfl, rfl⟩ := h
      rfl

/-- A scanner that has not stopped has read everything, and reads on from the state in which it
is. -/
theorem feed_append (h : feed step s as = (s', none, rest)) (bs : List α) :
    rest = [] ∧ feed step s (as ++ bs) = feed step s' bs := by
  induction as generalizing s with
  | nil =>
    rw [feed, Prod.mk.injEq, Prod.mk.injEq] at h
    obtain ⟨rfl, -, rfl⟩ := h
    exact ⟨rfl, rfl⟩
  | cons a as ih =>
    rw [List.cons_append, feed]
    rw [feed] at h
    cases hs : step s a with
    | goOn s₁ =>
      rw [hs] at h
      exact ih h
    | stop s₁ r₁ => simp [hs] at h

/-- What every item keeps of the state, and what is known of the result where it stops, holds for a
whole text. -/
theorem feed_invariant {I : σ → Prop} {J : ρ → Prop}
    (hgo : ∀ s a t, I s → step s a = .goOn t → I t)
    (hstop : ∀ s a t r, I s → step s a = .stop t r → I t ∧ J r) (hs : I s) (as : List α) :
    I (feed step s as).1 ∧ ∀ r, (feed step s as).2.1 = some r → J r := by
  induction as generalizing s with
  | nil => exact ⟨hs, fun r h => by simp [feed] at h⟩
  | cons a as ih =>
    rw [feed]
    cases hv : step s a with
    | goOn t => exact ih (hgo s a t hs hv)
    | stop t r =>
      obtain ⟨ht, hr⟩ := hstop s a t r hs hv
      refine ⟨ht, fun r' hr' => ?_⟩
      obtain rfl := Option.some.inj hr'
      exact hr

/-- Where a scanner stops, a beginning of the text has been read, on which it ends. -/
theorem exists_of_stop (h : feed step s as = (s', some r, rest)) :
    ∃ read, as = read ++ rest ∧ feed step s read = (s', some r, []) := by
  induction as generalizing s with
  | nil => simp [feed] at h
  | cons a as ih =>
    rw [feed] at h
    cases hs : step s a with
    | goOn s₁ =>
      rw [hs] at h
      obtain ⟨read, rfl, hread⟩ := ih h
      exact ⟨a :: read, rfl, by rw [feed, hs]; exact hread⟩
    | stop s₁ r₁ =>
      rw [hs] at h
      simp only [Prod.mk.injEq, Option.some.injEq] at h
      obtain ⟨rfl, rfl, rfl⟩ := h
      exact ⟨[a], rfl, by rw [feed, hs]⟩

/-- A text on which a scanner ends is read off the front of any other that begins with it. -/
theorem Ends.feed_append (h : Ends step Q s as) (bs : List α) :
    ∃ s' r, Q s' r ∧ feed step s (as ++ bs) = (s', some r, bs) := by
  obtain ⟨s', r, hfeed, hQ⟩ := h
  exact ⟨s', r, hQ, feed_append_of_stop hfeed⟩

/-- If two texts on which a scanner ends, with something after each, are the same, then the two
texts are. -/
theorem Ends.unique {R : σ → ρ → Prop} {xs ys : List α} (h : Ends step Q s as)
    (h' : Ends step R s bs) (heq : as ++ xs = bs ++ ys) : as = bs := by
  obtain ⟨s₁, r₁, -, h₁⟩ := h.feed_append xs
  obtain ⟨s₂, r₂, -, h₂⟩ := h'.feed_append ys
  rw [heq, h₂, Prod.mk.injEq, Prod.mk.injEq] at h₁
  rw [← h₁.2.2] at heq
  exact List.append_cancel_right heq

/-- On a part of a text on which it ends, a scanner does not stop. -/
theorem Ends.feed_of_append (h : Ends step Q s (as ++ bs)) (hne : bs ≠ []) :
    ∃ s', feed step s as = (s', none, []) := by
  rcases hfeed : feed step s as with ⟨s', r, rest⟩
  cases r with
  | none =>
    obtain ⟨rfl, -⟩ := Scanner.feed_append hfeed []
    exact ⟨s', rfl⟩
  | some r =>
    -- It would leave what comes after, and it leaves nothing.
    obtain ⟨t, r', hends, -⟩ := h
    rw [feed_append_of_stop hfeed, Prod.mk.injEq, Prod.mk.injEq] at hends
    exact absurd (List.append_eq_nil_iff.1 hends.2.2).2 hne

/-! ## Taking texts apart -/

/-- Without an item nothing is ended on. -/
theorem not_ends_nil : ¬ Ends step Q s [] := by
  simp [Ends, feed]

/-- The rule for one item. -/
theorem ends_cons : Ends step Q s (a :: as) ↔
    match step s a with
    | .goOn t => Ends step Q t as
    | .stop t r => as = [] ∧ Q t r := by
  rw [Ends, feed]
  cases step s a with
  | goOn t => rfl
  | stop t r =>
    simp only [Prod.mk.injEq, Option.some.injEq]
    constructor
    · rintro ⟨_, _, ⟨rfl, rfl, hrest⟩, hQ⟩
      exact ⟨hrest, hQ⟩
    · rintro ⟨hrest, hQ⟩
      exact ⟨t, r, ⟨rfl, rfl, hrest⟩, hQ⟩

/-- On an item on which it goes on, the scanner ends if it ends on what follows. -/
theorem ends_goOn (h : step s a = .goOn t) : Ends step Q s (a :: as) ↔ Ends step Q t as := by
  rw [ends_cons, h]

/-- On an item on which it stops against the condition, the scanner does not end. -/
theorem not_ends_stop (h : step s a = .stop t r) (hQ : ¬ Q t r) : ¬ Ends step Q s (a :: as) := by
  rw [ends_cons, h]
  exact fun h => hQ h.2

/-- The rule for a state that goes on on the items of a class only. -/
theorem ends_class (p : α → Prop) (next : α → σ) (hgo : ∀ a, p a → step s a = .goOn (next a))
    (hother : ∀ a, ¬ p a → ∃ t r, step s a = .stop t r ∧ ¬ Q t r) :
    Ends step Q s as ↔ ∃ a rest, as = a :: rest ∧ p a ∧ Ends step Q (next a) rest := by
  constructor
  · intro h
    cases as with
    | nil => exact absurd h not_ends_nil
    | cons a as =>
      by_cases ha : p a
      · exact ⟨a, as, rfl, ha, (ends_goOn (hgo a ha)).1 h⟩
      · obtain ⟨t', r, hstop, hQ⟩ := hother a ha
        exact absurd h (not_ends_stop hstop hQ)
  · rintro ⟨a, rest, rfl, ha, hends⟩
    exact (ends_goOn (hgo a ha)).2 hends

/-- The rule for a state that goes on on one item only. -/
theorem ends_item (hitem : step s e = .goOn t)
    (hother : ∀ a, a ≠ e → ∃ t r, step s a = .stop t r ∧ ¬ Q t r) :
    Ends step Q s as ↔ ∃ rest, as = e :: rest ∧ Ends step Q t rest := by
  have hgo : ∀ a, a = e → step s a = .goOn t := by
    rintro a rfl
    exact hitem
  rw [ends_class (· = e) (fun _ => t) hgo hother]
  constructor
  · rintro ⟨_, rest, rfl, rfl, hends⟩
    exact ⟨rest, rfl, hends⟩
  · rintro ⟨rest, rfl, hends⟩
    exact ⟨e, rest, rfl, rfl, hends⟩

/-- The rule for a state that collects the items of a class: what has been collected is the state's
parameter. -/
theorem ends_collect (state : List α → σ) (p : α → Prop)
    (hloop : ∀ l a, p a → step (state l) a = .goOn (state (l ++ [a]))) {l : List α} :
    Ends step Q (state l) as ↔
      ∃ w c rest, as = w ++ c :: rest ∧ (∀ x ∈ w, p x) ∧ ¬ p c ∧
        Ends step Q (state (l ++ w)) (c :: rest) := by
  constructor
  · intro h
    induction as generalizing l with
    | nil => exact absurd h not_ends_nil
    | cons a as ih =>
      by_cases hp : p a
      · obtain ⟨w, c, rest, rfl, hw, hc, hends⟩ := ih ((ends_goOn (hloop l a hp)).1 h)
        refine ⟨a :: w, c, rest, rfl, ?_, hc, ?_⟩
        · simpa [hp] using hw
        · rwa [List.append_assoc] at hends
      · exact ⟨[], a, as, rfl, by simp, hp, by rwa [List.append_nil]⟩
  · rintro ⟨w, c, rest, rfl, hw, -, hends⟩
    induction w generalizing l with
    | nil => rwa [List.append_nil] at hends
    | cons a w ih =>
      rw [List.cons_append, ends_goOn (hloop l a (hw a (List.mem_cons_self ..)))]
      refine ih (fun x hx => hw x (List.mem_cons_of_mem _ hx)) ?_
      rwa [List.append_assoc]

/-- The rule for a state that collects the items of a class up to an item that is not of the
class. -/
theorem ends_until (state after : List α → σ) (p : α → Prop) (e : α)
    (hloop : ∀ l a, p a → step (state l) a = .goOn (state (l ++ [a]))) (he : ¬ p e)
    (hend : ∀ l, step (state l) e = .goOn (after l))
    (hother : ∀ l a, ¬ p a → a ≠ e → ∃ t r, step (state l) a = .stop t r ∧ ¬ Q t r)
    {l : List α} :
    Ends step Q (state l) as ↔
      ∃ w rest, as = w ++ e :: rest ∧ (∀ x ∈ w, p x) ∧ Ends step Q (after (l ++ w)) rest := by
  rw [ends_collect state p hloop]
  constructor
  · rintro ⟨w, c, rest, rfl, hw, hc, hends⟩
    by_cases hce : c = e
    · subst hce
      exact ⟨w, rest, rfl, hw, (ends_goOn (hend _)).1 hends⟩
    · obtain ⟨t, r, hstop, hQ⟩ := hother _ c hc hce
      exact absurd hends (not_ends_stop hstop hQ)
  · rintro ⟨w, rest, rfl, hw, hends⟩
    exact ⟨w, e, rest, rfl, hw, he, (ends_goOn (hend _)).2 hends⟩

/-- The rule for a state that collects a number of items, up to the last one. -/
theorem ends_count (state : ℕ → List α → σ)
    (hloop : ∀ n l a, step (state (n + 2) l) a = .goOn (state (n + 1) (l ++ [a])))
    {n : ℕ} {l : List α} :
    Ends step Q (state (n + 1) l) as ↔
      ∃ w c rest, as = w ++ c :: rest ∧ w.length = n ∧
        Ends step Q (state 1 (l ++ w)) (c :: rest) := by
  constructor
  · intro h
    induction n generalizing l as with
    | zero =>
      cases as with
      | nil => exact absurd h not_ends_nil
      | cons a as => exact ⟨[], a, as, rfl, rfl, by rwa [List.append_nil]⟩
    | succ n ih =>
      cases as with
      | nil => exact absurd h not_ends_nil
      | cons a as =>
        obtain ⟨w, c, rest, rfl, hw, hends⟩ := ih ((ends_goOn (hloop n l a)).1 h)
        rw [List.append_assoc] at hends
        exact ⟨a :: w, c, rest, rfl, by rw [List.length_cons, hw], hends⟩
  · rintro ⟨w, c, rest, rfl, hw, hends⟩
    induction w generalizing l n with
    | nil =>
      subst hw
      rwa [List.append_nil] at hends
    | cons a w ih =>
      obtain ⟨n, rfl⟩ : ∃ k, n = k + 1 := ⟨w.length, hw.symm⟩
      rw [List.cons_append, ends_goOn (hloop n l a)]
      refine ih (by simpa using hw) ?_
      rwa [List.append_assoc]

/-- The rule for a state at which longer items begin and to which the scanner comes back after each:
it ends on some items and then on what it ends on otherwise. An item may not come everywhere; where
it may, `next` says what the scanner knows after it. -/
theorem ends_star {τ ι : Type*} (state : τ → σ) (text : ι → List α) (next : τ → ι → Option τ)
    {Exit : τ → List α → Prop} (hne : ∀ i, text i ≠ [])
    (hitem : ∀ t as, Ends step Q (state t) as ↔
      (∃ i t' rest, next t i = some t' ∧ as = text i ++ rest ∧ Ends step Q (state t') rest) ∨
        Exit t as)
    {t : τ} : Ends step Q (state t) as ↔
      ∃ (is : List ι) (t' : τ) (rest : List α),
        is.foldlM next t = some t' ∧ as = is.flatMap text ++ rest ∧ Exit t' rest := by
  constructor
  · intro h
    -- Every item takes something off the text.
    induction hn : as.length using Nat.strongRecOn generalizing as t with
    | _ n ih =>
      subst hn
      rcases (hitem t as).1 h with ⟨i, t₁, rest, hnext, rfl, hends⟩ | hexit
      · have hlt : rest.length < (text i ++ rest).length := by
          have := List.length_pos_iff.2 (hne i)
          rw [List.length_append]
          omega
        obtain ⟨is, t', rest', hfold, rfl, hexit⟩ := ih _ hlt hends rfl
        refine ⟨i :: is, t', rest', ?_, by simp, hexit⟩
        rw [List.foldlM_cons, hnext]
        exact hfold
      · exact ⟨[], t, as, rfl, rfl, hexit⟩
  · rintro ⟨is, t', rest, hfold, rfl, hexit⟩
    induction is generalizing t with
    | nil =>
      cases hfold
      exact (hitem _ rest).2 (.inr hexit)
    | cons i is ih =>
      rw [List.foldlM_cons] at hfold
      obtain ⟨t₁, hnext, hfold⟩ := Option.bind_eq_some_iff.1 hfold
      exact (hitem t _).2 (.inl ⟨i, t₁, is.flatMap text ++ rest, hnext, by simp, ih hfold⟩)

end Scanner
