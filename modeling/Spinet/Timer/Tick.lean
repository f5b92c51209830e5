import Spinet.Library.PriorityQueue

/-!
# What a tick of the timer fires

The collecting loop of `Timer::exec` takes operations off the top of `waiters_` until the one at the
top is not due, and fires what it took. `waiters_` is a `std::priority_queue` over `operator<` of
`WaitOperation`, so its top is the operation with the latest deadline, and the loop stops at once
unless even that one is due.

A tick thus fires what is due, and leaves the rest, exactly when everything is due or nothing is
(`firesDue_iff`). The results hold of every implementation of the queue.
-/

namespace Spinet

/-- `Timer::WaitOperation`, with callbacks of type `κ`. A `TimePoint` is the reading of the steady
clock in nanoseconds. -/
structure WaitOperation (κ : Type) where
  /-- `time_point`. -/
  timePoint : ℤ
  /-- `callback`. -/
  callback : κ
deriving DecidableEq, Repr

variable {κ : Type}

/-- `operator<` of `WaitOperation`. -/
def WaitOperation.lt (x y : WaitOperation κ) : Bool := decide (x.timePoint < y.timePoint)

/-- The type of `waiters_`, given an implementation of priority queues. -/
abbrev Waiters (κ : Type) := PriorityQueue (WaitOperation κ) WaitOperation.lt

namespace Timer

/-- A callback invoked with its two arguments. -/
structure Fired (κ : Type) where
  /-- The callback. -/
  callback : κ
  /-- Its first argument, the deadline. -/
  prevTimePoint : ℤ
  /-- Its second argument, the time of the tick. -/
  timePoint : ℤ
deriving DecidableEq, Repr

/-- Whether the collecting loop goes on past an operation at the top. -/
def isDue (now : ℤ) (operation : WaitOperation κ) : Bool := !decide (operation.timePoint > now)

/-- The collecting loop of `Timer::exec`: the operations taken, and the queue left. -/
def collect (P : Waiters κ) (now : ℤ) (waiters : P.Q) : List (WaitOperation κ) × P.Q :=
  P.popWhile (isDue now) waiters

/-- The first part of an iteration of `Timer::exec`: the callbacks invoked, and the queue left. -/
def tick (P : Waiters κ) (now : ℤ) (waiters : P.Q) : List (Fired κ) × P.Q :=
  let (operations, waiters) := collect P now waiters
  (operations.map fun operation => ⟨operation.callback, operation.timePoint, now⟩, waiters)

/-- `async_wait_until`, as far as the queue goes. -/
def asyncWaitUntil (P : Waiters κ) (waiters : P.Q) (timePoint : ℤ) (callback : κ) : P.Q :=
  P.push waiters ⟨timePoint, callback⟩

/-- The tick fires exactly the operations that are due, and leaves exactly the others. -/
structure FiresDue (P : Waiters κ) (now : ℤ) (waiters : P.Q) : Prop where
  fired : ↑(tick P now waiters).1 = ((P.elems waiters).filter (·.timePoint ≤ now)).map
    fun operation => (⟨operation.callback, operation.timePoint, now⟩ : Fired κ)
  left : P.elems (tick P now waiters).2 = (P.elems waiters).filter (now < ·.timePoint)

variable {P : Waiters κ} {now : ℤ} {waiters : P.Q}

/-- `operator<` is a strict weak order. -/
theorem strictWeak_lt : PriorityQueue.StrictWeak (WaitOperation.lt (κ := κ)) where
  asymm := fun a b h => by
    simp only [WaitOperation.lt, decide_eq_true_eq, decide_eq_false_iff_not] at h ⊢
    omega
  negTrans := fun a b c hab hbc => by
    simp only [WaitOperation.lt, decide_eq_false_iff_not] at hab hbc ⊢
    omega

/-- The loop goes on past the operations with a deadline of at most `now`. -/
theorem isDue_eq_true {operation : WaitOperation κ} :
    isDue now operation = true ↔ operation.timePoint ≤ now := by
  simp [isDue]

/-- If the operation at the top is due, so is every other. -/
theorem isDue_of_not_lt (a b : WaitOperation κ) (hlt : WaitOperation.lt a b = false)
    (ha : isDue now a = true) : isDue now b = true := by
  rw [isDue_eq_true] at ha ⊢
  simp only [WaitOperation.lt, decide_eq_false_iff_not] at hlt
  omega

/-- The loop takes nothing or everything. -/
theorem collect_cases (P : Waiters κ) (now : ℤ) (waiters : P.Q) :
    collect P now waiters = ([], waiters) ∨
      (↑(collect P now waiters).1 = P.elems waiters ∧ P.elems (collect P now waiters).2 = 0) := by
  by_cases hall : ∀ w ∈ P.elems waiters, isDue now w = true
  · exact .inr (PriorityQueue.popWhile_all (isDue now) hall)
  · push Not at hall
    obtain ⟨late, hlate, hfail⟩ := hall
    exact .inl (PriorityQueue.popWhile_nothing isDue_of_not_lt hlate (by simpa using hfail))

/-- If everything is due, the tick fires it all. -/
theorem firesDue_of_all (h : ∀ w ∈ P.elems waiters, w.timePoint ≤ now) :
    FiresDue P now waiters := by
  obtain ⟨htaken, hleft⟩ := PriorityQueue.popWhile_all (isDue now)
    fun w hw => isDue_eq_true.2 (h w hw)
  constructor
  · rw [Multiset.filter_eq_self.2 h, ← htaken]
    rfl
  · rw [Multiset.filter_eq_nil.2 fun w hw => Int.not_lt.2 (h w hw)]
    exact hleft

/-- If something is not due, the tick fires nothing. -/
theorem tick_of_not_due {w : WaitOperation κ} (hw : w ∈ P.elems waiters) (h : now < w.timePoint) :
    tick P now waiters = ([], waiters) := by
  have hfail : isDue now w = false := by simpa [isDue] using h
  simp [tick, collect, PriorityQueue.popWhile_nothing isDue_of_not_lt hw hfail]

/-- If nothing is due, the tick fires nothing, as it should. -/
theorem firesDue_of_none (h : ∀ w ∈ P.elems waiters, now < w.timePoint) :
    FiresDue P now waiters := by
  rcases Multiset.empty_or_exists_mem (P.elems waiters) with hempty | ⟨w, hw⟩
  · exact firesDue_of_all fun w hw => by simp [hempty] at hw
  -- Any operation will do: the tick stops at the top, and takes nothing.
  · have htick := tick_of_not_due hw (h w hw)
    constructor
    · rw [htick, Multiset.filter_eq_nil.2 fun w hw => Int.not_le.2 (h w hw)]
      rfl
    · rw [htick, Multiset.filter_eq_self.2 h]

/-- A tick fires exactly what is due, and leaves the rest, if and only if everything is due or
nothing is. -/
theorem firesDue_iff (P : Waiters κ) (now : ℤ) (waiters : P.Q) :
    FiresDue P now waiters ↔
      (∀ w ∈ P.elems waiters, w.timePoint ≤ now) ∨ (∀ w ∈ P.elems waiters, now < w.timePoint) := by
  constructor
  · intro h
    by_contra hmixed
    push Not at hmixed
    obtain ⟨⟨late, hlate, hnot⟩, early, hearly, hdue⟩ := hmixed
    -- The late one is at the top, so the early one stays.
    have hleft := h.left
    rw [tick_of_not_due hlate hnot] at hleft
    have hmem : early ∈ (P.elems waiters).filter (now < ·.timePoint) := hleft ▸ hearly
    have := (Multiset.mem_filter.1 hmem).2
    omega
  · rintro (hall | hnone)
    · exact firesDue_of_all hall
    · exact firesDue_of_none hnone

/-- Waiters that can be run. -/
def listWaiters : Waiters ℕ := PriorityQueue.listQueue strictWeak_lt

/-- Two operations, due at 10 and at 100. At 50 the tick fires neither: the one due at 100 is at the
top. -/
theorem tick_holds_back :
    ∃ waiters, waiters = asyncWaitUntil listWaiters
        (asyncWaitUntil listWaiters listWaiters.empty 10 1) 100 2 ∧
      (tick listWaiters 50 waiters).1 = [] ∧ ¬ FiresDue listWaiters 50 waiters := by
  refine ⟨_, rfl, rfl, fun h => ?_⟩
  have hfired : (0 : Multiset (Fired ℕ)) = {⟨1, 10, 50⟩} := h.fired
  simp at hfired

end Timer

end Spinet
