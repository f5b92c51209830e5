import Spinet.Timer.Conservation

/-!
# Relative waits

`async_wait_for` adds a number of milliseconds to a reading of the clock, both signed 64-bit
numbers. The addition converts the milliseconds to nanoseconds by a multiplication, so either of the
two can leave the range of 64 bits. That is undefined in C++; here it wraps around, as it does on
the usual machines.

`neverEarly_iff` says that exactly the durations whose deadline is in the range are waited for. A
deadline that has wrapped around is earlier than the one meant by at least `2^64`, and so every tick
that fires the wait is early.
-/

namespace Spinet.Timer

open Transition

variable {T : Type*} {κ : Type} {P : Waiters (Ticket κ)}

/-- The conversion of `std::chrono::milliseconds` to the nanoseconds of the clock. -/
def toNanoseconds (duration : Int64) : Int64 := duration * 1000000

/-- `std::chrono::steady_clock::now() + duration`, where the clock has read `now`. -/
def deadline (now duration : Int64) : Int64 := now + toNanoseconds duration

/-- `Timer::async_wait_for`, once it has read the clock: a call of `async_wait_until`. -/
def asyncWaitFor (t : Thread T) (now duration : Int64) (callback : κ) : Action T κ :=
  .wait t (deadline now duration).toInt callback

/-- A wait that a call of `async_wait_for` registers is not fired before the time that was asked for
has passed since the call read the clock as `now`. -/
def NeverEarly (T : Type*) [DecidableEq T] (P : Waiters (Ticket κ)) (now duration : Int64) : Prop :=
  ∀ (clock : ℤ) (t : Thread T) (callback : κ) (c c₁ c' : Config (State T κ P) (Event κ)),
    Reachable (machine T P) (init T P clock) c → c.state.clock ≤ now.toInt →
    next (machine T P) c (asyncWaitFor t now duration callback) = some c₁ →
    Reachable (machine T P) c₁ c' →
    ∀ f, .fired f ∈ c'.trace → f.prevTimePoint = (deadline now duration).toInt →
      f.callback.callback = callback → c.state.registrations ≤ f.callback.number →
      now.toInt + duration.toInt * 1000000 ≤ f.timePoint

/-! ## The arithmetic -/

/-- The deadline is the one meant, reduced to the range of 64 bits. -/
theorem toInt_deadline (now duration : Int64) :
    (deadline now duration).toInt = (now.toInt + duration.toInt * 1000000).bmod (2 ^ 64) := by
  rw [deadline, toNanoseconds, Int64.toInt_add, Int64.toInt_mul, Int.add_bmod_bmod]
  rfl

/-- A deadline in the range is the one meant. -/
theorem toInt_deadline_of_lt {now duration : Int64} (hnow : 0 ≤ now.toInt)
    (hduration : 0 ≤ duration.toInt) (h : now.toInt + duration.toInt * 1000000 < 2 ^ 63) :
    (deadline now duration).toInt = now.toInt + duration.toInt * 1000000 := by
  rw [toInt_deadline]
  exact Int.bmod_eq_of_le_mul_two (by omega) (by omega)

/-! ## A wait that is fired -/

variable [DecidableEq T]

/-- A new timer with one wait. -/
def oneWait (T : Type*) (P : Waiters (Ticket κ)) (timePoint : ℤ) (callback : κ) :
    Timer (Thread T) κ P :=
  { Timer.new _ P with waiters := P.push P.empty ⟨timePoint, 0, callback⟩ }

/-- A state with no call in progress, after one wait has been registered. -/
def settled (tm : Timer (Thread T) κ P) (clock : ℤ) (returned : Bool) : State T κ P :=
  { timer := tm, call := fun _ => none, clock := clock, registrations := 1, returned := returned }

/-- A new timer registers a wait. -/
theorem run_wait (t : T) (timePoint clock : ℤ) (callback : κ) :
    run (machine T P) (init T P clock)
        (.wait (.user t) timePoint callback :: List.replicate 4 (.go (.user t) false 0)) =
      some ⟨settled (oneWait T P timePoint callback) clock false,
        [.registered ⟨timePoint, 0, callback⟩]⟩ := by
  have hempty : P.top P.empty = none :=
    PriorityQueue.top_of_size_zero (by simp [PriorityQueue.size, P.elems_empty])
  simp [run, next, machine, step, init, State.idle, State.setCall, goWait, waitStep, Timer.new,
    isEmpty, hempty, notifyOne, List.replicate, oneWait, settled]

/-- It starts its thread. -/
theorem run_run (t : T) (timePoint clock : ℤ) (callback : κ) (tr : List (Event κ)) :
    run (machine T P) ⟨settled (oneWait T P timePoint callback) clock false, tr⟩
        (.run (.user t) :: List.replicate 5 (.go (.user t) false 0)) =
      some ⟨settled
        { oneWait T P timePoint callback with
          running := true
          timerThread := some 0
          execs := [.prologue] } clock true, tr ++ [.runBegan, .runReturned]⟩ := by
  simp [run, next, machine, step, State.idle, State.setCall, goRun, runStep, List.replicate,
    settled, oneWait, Timer.new]

omit [DecidableEq T] in
/-- A wait that is due is all that a tick collects. -/
theorem collect_oneWait {timePoint now : ℤ} (callback : κ) (h : timePoint ≤ now) :
    (collect P now (oneWait T P timePoint callback).waiters).1 = [⟨timePoint, 0, callback⟩] := by
  have helems : P.elems (oneWait T P timePoint callback).waiters = {⟨timePoint, 0, callback⟩} := by
    rw [oneWait, P.elems_push, P.elems_empty]
    rfl
  have hdue : ∀ w ∈ P.elems (oneWait T P timePoint callback).waiters, isDue now w = true := by
    intro w hw
    rw [helems, Multiset.mem_singleton] at hw
    rw [hw]
    exact isDue_eq_true.2 h
  obtain ⟨htaken, -⟩ := PriorityQueue.popWhile_all (isDue now) hdue
  rw [helems] at htaken
  exact Multiset.coe_eq_singleton.1 htaken

/-- The thread fires a wait that is due in its first tick. -/
theorem run_exec {timePoint clock now : ℤ} (callback : κ) (tr : List (Event κ))
    (hclock : clock ≤ now) (hdue : timePoint ≤ now) :
    ∃ c', run (machine T P) ⟨settled
        { oneWait T P timePoint callback with
          running := true
          timerThread := some 0
          execs := [.prologue] } clock true, tr⟩ (List.replicate 6 (.exec 0 now)) = some c' ∧
      c'.trace = tr ++ [.read false, .ticked now, .fired ⟨⟨0, callback⟩, timePoint, now⟩] := by
  have hcollect := collect_oneWait (T := T) (P := P) callback hdue
  simp only [oneWait] at hcollect
  simp [run, next, machine, step, execStep, moveExec, List.replicate, settled, oneWait, Timer.new,
    hclock, hcollect]

/-- A wait until `timePoint` on a new timer may be fired at any time that is not before it. -/
theorem exists_fired {timePoint clock now : ℤ} (t : T) (callback : κ) (hclock : clock ≤ now)
    (hdue : timePoint ≤ now) :
    ∃ c₁ c', next (machine T P) (init T P clock) (.wait (.user t) timePoint callback) = some c₁ ∧
      Reachable (machine T P) c₁ c' ∧ .fired ⟨⟨0, callback⟩, timePoint, now⟩ ∈ c'.trace := by
  obtain ⟨c₁, hn, hwait⟩ := Option.bind_eq_some_iff.1 (run_wait (P := P) t timePoint clock callback)
  have hrun := run_run (P := P) t timePoint clock callback [.registered ⟨timePoint, 0, callback⟩]
  obtain ⟨c', hexec, htrace⟩ := run_exec (T := T) (P := P) callback
    [.registered ⟨timePoint, 0, callback⟩, .runBegan, .runReturned] hclock hdue
  refine ⟨c₁, c', hn, ?_, ?_⟩
  · exact (reachable_of_run hwait).trans ((reachable_of_run hrun).trans (reachable_of_run hexec))
  · simp [htrace]

/-! ## Exactly -/

/-- A wait that is registered by `async_wait_for` is never fired early if and only if the deadline
is in the range of 64 bits. -/
theorem neverEarly_iff [Inhabited T] [Inhabited κ] (P : Waiters (Ticket κ)) (now duration : Int64)
    (hnow : 0 ≤ now.toInt) (hduration : 0 ≤ duration.toInt) :
    NeverEarly T P now duration ↔ now.toInt + duration.toInt * 1000000 < 2 ^ 63 := by
  constructor
  · intro h
    by_contra hrange
    -- Whatever the deadline is, the wait can be fired at the last time that the clock can read.
    have hlast : ∀ x : Int64, x.toInt ≤ 2 ^ 63 - 1 := fun x => by
      have := x.toInt_lt
      omega
    obtain ⟨c₁, c', hn, hc', hfired⟩ := exists_fired (P := P) (default : T) (default : κ)
      (hlast now) (hlast (deadline now duration))
    have := h now.toInt (.user default) default _ c₁ c' .refl (Int.le_refl _) hn hc' _ hfired rfl
      rfl (Nat.le_refl 0)
    simp only at this
    omega
  · intro hrange clock t callback c c₁ c' hc _ hn hc' f hfired hdeadline _ _
    have hreach : Reachable (machine T P) (init T P clock) c' :=
      (ReachVia.step hc trivial hn).trans hc'
    have honTime := (conserved_of_reachable hreach).onTime
    obtain ⟨past, rest, htrace⟩ := List.mem_iff_append.1 hfired
    have hnotEarly := (Allowed.of_mem honTime past (.fired f) rest htrace f rfl).2.2
    calc now.toInt + duration.toInt * 1000000 = (deadline now duration).toInt :=
        (toInt_deadline_of_lt hnow hduration hrange).symm
      _ = f.prevTimePoint := hdeadline.symm
      _ ≤ f.timePoint := hnotEarly

/-- A wait of five milliseconds. -/
theorem neverEarly_five : NeverEarly (Fin 1) ticketWaiters 100 5 :=
  (neverEarly_iff ticketWaiters 100 5 (by decide) (by decide)).2 (by decide)

/-- What follows a registration: the timer is started, and ticks at the time of the registration. -/
def tickAtOnce (user : T) : List (Action T ℕ) :=
  List.replicate 4 (.go (.user user) false 0) ++ startUp user ++
    List.replicate 6 (.exec 0 5000000)

/-- A wait for `Duration::max()` is fired by that tick, with a deadline before it. -/
theorem maximum_fired_at_once :
    ∃ c₁ c', next (machine (Fin 1) ticketWaiters) (init (Fin 1) ticketWaiters 5000000)
        (asyncWaitFor (.user 0) 5000000 Int64.maxValue 1) = some c₁ ∧
      run (machine (Fin 1) ticketWaiters) c₁ (tickAtOnce 0) = some c' ∧
      c'.trace = [.registered ⟨4000000, 0, 1⟩, .runBegan, .runReturned, .read false,
        .ticked 5000000, .fired ⟨⟨0, 1⟩, 4000000, 5000000⟩] ∧
      ¬ NeverEarly (Fin 1) ticketWaiters 5000000 Int64.maxValue := by
  obtain ⟨c₁, c', hn, hrun, htrace⟩ : ∃ c₁ c',
      next (machine (Fin 1) ticketWaiters) (init (Fin 1) ticketWaiters 5000000)
        (asyncWaitFor (.user 0) 5000000 Int64.maxValue 1) = some c₁ ∧
      run (machine (Fin 1) ticketWaiters) c₁ (tickAtOnce 0) = some c' ∧
      c'.trace = [.registered ⟨4000000, 0, 1⟩, .runBegan, .runReturned, .read false,
        .ticked 5000000, .fired ⟨⟨0, 1⟩, 4000000, 5000000⟩] := ⟨_, _, rfl, rfl, rfl⟩
  refine ⟨c₁, c', hn, hrun, htrace, fun h => ?_⟩
  have hearly := h 5000000 (.user 0) 1 _ c₁ c' .refl (by decide) hn (reachable_of_run hrun)
    ⟨⟨0, 1⟩, 4000000, 5000000⟩ (by simp [htrace]) (by decide) rfl (by decide)
  exact absurd hearly (by decide)

end Spinet.Timer
