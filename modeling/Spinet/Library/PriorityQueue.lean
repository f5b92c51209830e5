import Mathlib.Algebra.Order.Group.Multiset

/-!
# Priority queues

A priority queue is known by what it holds, a multiset, and by its comparison: its top is an element
that is not less than any other. Which of several such elements is at the top is left open, as the
C++ library leaves it open, so what is proved here holds of every implementation (`PriorityQueue`).
`listQueue` is one that can be run.

`popWhile` takes elements off the top as long as they pass a test. What it takes and what it leaves
make up what was there, and it ends at an element that fails (`popWhile_elems`, `popWhile_top`). If
the top passes only when everything does, it takes all or nothing (`popWhile_all`,
`popWhile_nothing`).
-/

universe u

/-- An implementation of priority queues over `α` with the comparison `lt`. -/
structure PriorityQueue (α : Type u) (lt : α → α → Bool) where
  /-- The queues. -/
  Q : Type u
  /-- What a queue holds. -/
  elems : Q → Multiset α
  /-- The queue that holds nothing. -/
  empty : Q
  /-- The queue with one more element. -/
  push : Q → α → Q
  /-- The element at the top. -/
  top : Q → Option α
  /-- The queue without the element at the top. -/
  pop : Q → Q
  elems_empty : elems empty = 0
  elems_push : ∀ q a, elems (push q a) = a ::ₘ elems q
  top_none : ∀ q, top q = none → elems q = 0
  elems_pop : ∀ q a, top q = some a → elems q = a ::ₘ elems (pop q)
  top_max : ∀ q a, top q = some a → ∀ b ∈ elems q, lt a b = false

namespace PriorityQueue

variable {α : Type u} {lt : α → α → Bool} (P : PriorityQueue α lt)

/-- The number of elements. -/
def size (q : P.Q) : ℕ := (P.elems q).card

/-- Takes elements off the top while they pass the test, at most `fuel` of them; `taken` are those
taken before. -/
def popWhileLoop (test : α → Bool) : ℕ → P.Q → List α → List α × P.Q
  | 0, q, taken => (taken, q)
  | fuel + 1, q, taken =>
    match P.top q with
    | none => (taken, q)
    | some a => if test a then popWhileLoop test fuel (P.pop q) (taken ++ [a]) else (taken, q)

/-- Takes elements off the top while they pass the test. -/
def popWhile (test : α → Bool) (q : P.Q) : List α × P.Q := P.popWhileLoop test (P.size q) q []

variable {P} {test : α → Bool} {q : P.Q}

/-- Popping leaves one element less. -/
theorem size_pop {a : α} (h : P.top q = some a) : P.size (P.pop q) + 1 = P.size q := by
  unfold size
  rw [P.elems_pop q a h, Multiset.card_cons]

/-- A queue without a top holds nothing. -/
theorem top_of_size_zero (h : P.size q = 0) : P.top q = none := by
  cases ht : P.top q with
  | none => rfl
  | some a =>
    have := size_pop ht
    omega

/-- What is taken passes the test, and it makes up what was there together with what is left. None
of it is less than what is taken after it. -/
theorem popWhileLoop_elems (test : α → Bool) : ∀ (fuel : ℕ) (q : P.Q) (taken : List α),
    ∃ new, (P.popWhileLoop test fuel q taken).1 = taken ++ new ∧ (∀ a ∈ new, test a = true) ∧
      P.elems q = ↑new + P.elems (P.popWhileLoop test fuel q taken).2 ∧
      new.Pairwise fun a b => lt a b = false
  | 0, q, taken => ⟨[], by simp [popWhileLoop]⟩
  | fuel + 1, q, taken => by
    unfold popWhileLoop
    cases ht : P.top q with
    | none => exact ⟨[], by simp⟩
    | some a =>
      by_cases ha : test a = true
      -- The top is taken, and then what the rest of the loop takes.
      · obtain ⟨new, htaken, hnew, helems, hsorted⟩ :=
          popWhileLoop_elems test fuel (P.pop q) (taken ++ [a])
        refine ⟨a :: new, ?_, ?_, ?_, List.pairwise_cons.2 ⟨fun b hb => ?_, hsorted⟩⟩
        · simp [ha, htaken]
        · simpa [ha] using hnew
        · simp only [ha, if_true]
          calc P.elems q = a ::ₘ P.elems (P.pop q) := P.elems_pop q a ht
            _ = a ::ₘ (↑new + P.elems (P.popWhileLoop test fuel (P.pop q) (taken ++ [a])).2) := by
              rw [helems]
            _ = ↑(a :: new) + P.elems (P.popWhileLoop test fuel (P.pop q) (taken ++ [a])).2 := by
              rw [← Multiset.cons_coe, Multiset.cons_add]
        · refine P.top_max q a ht b ?_
          rw [P.elems_pop q a ht, helems, Multiset.mem_cons, Multiset.mem_add]
          exact .inr (.inl hb)
      · exact ⟨[], by simp [ha]⟩

/-- With fuel for every element the loop ends at an element that fails, or with nothing left. -/
theorem popWhileLoop_top : ∀ (fuel : ℕ) (q : P.Q) (taken : List α), P.size q ≤ fuel →
    ∀ a, P.top (P.popWhileLoop test fuel q taken).2 = some a → test a = false
  | 0, q, taken, hfuel, a, ha => by
    rw [popWhileLoop, top_of_size_zero (Nat.le_zero.1 hfuel)] at ha
    cases ha
  | fuel + 1, q, taken, hfuel, a, ha => by
    unfold popWhileLoop at ha
    cases ht : P.top q with
    | none => simp [ht] at ha
    | some b =>
      simp only [ht] at ha
      by_cases hb : test b = true
      · rw [if_pos hb] at ha
        have := size_pop ht
        exact popWhileLoop_top fuel (P.pop q) (taken ++ [b]) (by omega) a ha
      · rw [if_neg hb] at ha
        obtain rfl : b = a := by simpa [ht] using ha
        simpa using hb

/-- What is taken passes the test, and it makes up what was there together with what is left. -/
theorem popWhile_elems (test : α → Bool) (q : P.Q) :
    (∀ a ∈ (P.popWhile test q).1, test a = true) ∧
      P.elems q = ↑(P.popWhile test q).1 + P.elems (P.popWhile test q).2 := by
  obtain ⟨new, htaken, hnew, helems, -⟩ := popWhileLoop_elems test (P.size q) q []
  rw [List.nil_append] at htaken
  unfold popWhile
  rw [htaken]
  exact ⟨hnew, helems⟩

/-- Nothing that is taken is less than what is taken after it. -/
theorem popWhile_sorted (test : α → Bool) (q : P.Q) :
    (P.popWhile test q).1.Pairwise fun a b => lt a b = false := by
  obtain ⟨new, htaken, -, -, hsorted⟩ := popWhileLoop_elems test (P.size q) q []
  unfold popWhile
  rw [htaken, List.nil_append]
  exact hsorted

/-- What is left holds nothing, or its top fails the test. -/
theorem popWhile_top (test : α → Bool) (q : P.Q) (a : α)
    (h : P.top (P.popWhile test q).2 = some a) : test a = false :=
  popWhileLoop_top (P.size q) q [] (Nat.le_refl _) a h

/-- If everything passes, everything is taken. -/
theorem popWhile_all (test : α → Bool) (h : ∀ a ∈ P.elems q, test a = true) :
    (↑(P.popWhile test q).1 : Multiset α) = P.elems q ∧ P.elems (P.popWhile test q).2 = 0 := by
  obtain ⟨-, helems⟩ := popWhile_elems test q
  -- Nothing is left: a top that was left would have failed, and nothing fails.
  have hleft : P.elems (P.popWhile test q).2 = 0 := by
    cases ht : P.top (P.popWhile test q).2 with
    | none => exact P.top_none _ ht
    | some a =>
      have hmem : a ∈ P.elems q := by
        rw [helems, P.elems_pop _ a ht]
        simp
      have := popWhile_top test q a ht
      rw [h a hmem] at this
      cases this
  rw [hleft, add_zero] at helems
  exact ⟨helems.symm, hleft⟩

/-- If an element that is not less than another fails with it, and one fails, nothing is taken. -/
theorem popWhile_nothing (hlt : ∀ a b, lt a b = false → test a = true → test b = true)
    {b : α} (hb : b ∈ P.elems q) (hfail : test b = false) :
    P.popWhile test q = ([], q) := by
  unfold popWhile
  cases hsize : P.size q with
  | zero => rfl
  | succ n =>
    unfold popWhileLoop
    cases ht : P.top q with
    | none => rfl
    | some a =>
      -- The top is not less than the element that fails, so it fails too and the loop ends here.
      have ha : test a = false := by
        by_contra hpass
        have := hlt a b (P.top_max q a ht b hb) (by simpa using hpass)
        simp [hfail] at this
      simp [ha]

/-! ## Queues as lists -/

/-- A comparison orders like a strict weak order, as the C++ library asks for. -/
structure StrictWeak {α : Type u} (lt : α → α → Bool) : Prop where
  asymm : ∀ a b, lt a b = true → lt b a = false
  negTrans : ∀ a b c, lt a b = false → lt b c = false → lt a c = false

section ListQueue

variable {α : Type u} {lt : α → α → Bool}

/-- An element of a list that is not less than any other, with the rest of the list. -/
def extractMax (lt : α → α → Bool) : List α → Option (α × List α)
  | [] => none
  | a :: l =>
    match extractMax lt l with
    | none => some (a, [])
    | some (b, rest) => if lt a b then some (b, a :: rest) else some (a, l)

/-- Only the empty list has no such element. -/
theorem extractMax_none {l : List α} (h : extractMax lt l = none) : l = [] := by
  cases l with
  | nil => rfl
  | cons a l =>
    unfold extractMax at h
    split at h
    · cases h
    · split at h <;> cases h

/-- What is extracted and the rest are the list. -/
theorem extractMax_perm : ∀ {l rest : List α} {a : α}, extractMax lt l = some (a, rest) →
    l.Perm (a :: rest)
  | [], _, _, h => by cases h
  | b :: l, rest, a, h => by
    unfold extractMax at h
    split at h
    · rename_i hnone
      obtain ⟨rfl, rfl⟩ : b = a ∧ [] = rest := by simpa using h
      rw [extractMax_none hnone]
    · rename_i m rest' hsome
      split at h
      · obtain ⟨rfl, rfl⟩ : m = a ∧ b :: rest' = rest := by simpa using h
        calc (b :: l).Perm (b :: m :: rest') := (extractMax_perm hsome).cons b
          List.Perm _ (m :: b :: rest') := List.Perm.swap _ _ _
      · obtain ⟨rfl, rfl⟩ : b = a ∧ l = rest := by simpa using h
        exact List.Perm.refl _

/-- What is extracted is not less than any element. -/
theorem extractMax_max (hlt : StrictWeak lt) : ∀ {l rest : List α} {a : α},
    extractMax lt l = some (a, rest) → ∀ b ∈ l, lt a b = false
  | [], _, _, h => by cases h
  | c :: l, rest, a, h => by
    have hirrefl : ∀ x, lt x x = false := fun x => by
      by_contra hx
      have := hlt.asymm x x (by simpa using hx)
      exact hx this
    intro b hb
    unfold extractMax at h
    split at h
    · rename_i hnone
      obtain ⟨rfl, rfl⟩ : c = a ∧ [] = rest := by simpa using h
      rw [extractMax_none hnone] at hb
      obtain rfl := List.mem_singleton.1 hb
      exact hirrefl b
    · rename_i m rest' hsome
      -- `m` is the greatest of the tail, and is compared with the head.
      split at h
      · rename_i hcm
        obtain ⟨rfl, rfl⟩ : m = a ∧ c :: rest' = rest := by simpa using h
        rcases List.mem_cons.1 hb with rfl | hb
        · exact hlt.asymm b m hcm
        · exact extractMax_max hlt hsome b hb
      · rename_i hcm
        obtain ⟨rfl, rfl⟩ : c = a ∧ l = rest := by simpa using h
        rcases List.mem_cons.1 hb with rfl | hb
        · exact hirrefl b
        · exact hlt.negTrans c m b (by simpa using hcm) (extractMax_max hlt hsome b hb)

/-- Priority queues as unordered lists, searched for their top. -/
def listQueue (hlt : StrictWeak lt) : PriorityQueue α lt where
  Q := List α
  elems := fun l => ↑l
  empty := []
  push := fun l a => a :: l
  top := fun l => (extractMax lt l).map Prod.fst
  pop := fun l => (extractMax lt l).elim [] Prod.snd
  elems_empty := rfl
  elems_push := fun _ _ => rfl
  top_none := fun l h => by
    rw [extractMax_none (Option.map_eq_none_iff.1 h)]
    rfl
  elems_pop := fun l a h => by
    obtain ⟨⟨b, rest⟩, hl, rfl⟩ := Option.map_eq_some_iff.1 h
    rw [hl, Multiset.cons_coe]
    exact Multiset.coe_eq_coe.2 (extractMax_perm hl)
  top_max := fun l a h b hb => by
    obtain ⟨⟨c, rest⟩, hl, rfl⟩ := Option.map_eq_some_iff.1 h
    exact extractMax_max hlt hl b hb

end ListQueue

end PriorityQueue
