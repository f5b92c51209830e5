import Spinet.Lifecycle.EachWorker
import Spinet.Lifecycle.FailedRun
import Spinet.Socket.WeakClose
import Spinet.Timer.Alone

/-!
# Effective start and close under a weak exchange

`TcpSocket::close`, `Runtime::run`, `Timer::run`, and the `run` of a server or client each begin
with a single `compare_exchange_weak`, and take its failure for a sign that another call has done
the work. It may also fail although the value is the expected one. `effective_iff` collects what
these failures do: in each of the five the call does what it is for exactly when there is none.

For the socket this is about whole runs with any number of callers. For the others it is about the
only call of `run` on an object that is not running: it always ends with the thread, or the thread
of every worker, started. An object that is in no call is at rest (`Runtime.atRest_of_reachable`,
`Owner.atRest_of_reachable`, `Timer.atRest_of_reachable`).
-/

namespace Spinet

open Calls Transition

/-- Every return of `close` leaves the socket closed, the only call of it has closed the descriptor
and drained both queues, and the only call of `run` on a runtime, a configured server or client, or
a timer that is not running always ends with its threads started, exactly when no exchange fails on
equality and no worker of the server or client is running already. -/
theorem effective_iff {T : Type*} [DecidableEq T] {κ : Type} (P : Waiters (Timer.Ticket κ))
    (t : T) :
    (∀ fd as, Always (Socket.weakMachine t) Socket.Effective (Socket.weakInit T fd) as ↔
      Steps (Socket.weakMachine t) Socket.NotSpurious (Socket.weakInit T fd) as) ∧
    (∀ (r : Runtime T) (weak : Bool), r.AtRest → r.running = false →
      (Ends (Runtime.runCall t weak) Runtime.Loops r .cas
        (fun _ r' => r'.loops.length = r.loops.length + 1) ↔ weak = false)) ∧
    (∀ (o : Owner T) (weak : OwnerPc → Bool), o.AtRest → o.running = false → o.settings ≠ none →
      (Ends (Owner.runCall t weak) Owner.Loops o .runCas (fun _ o' => o.AllStarted o') ↔
        weak .runCas = false ∧ ∀ k r, o.workers[k]? = some r →
          r.running = false ∧ weak (.runWorker k .cas) = false)) ∧
    (∀ (tm : Timer T κ P) (weak : Bool), tm.AtRest → tm.running = false →
      (Ends (Timer.runCall t weak) Timer.Around tm .cas
        (fun _ tm' => tm'.execs.length = tm.execs.length + 1) ↔ weak = false)) :=
  ⟨fun fd as => Socket.effective_always_iff t fd as,
    fun _ weak hrest hoff => Runtime.run_starts_iff hrest hoff t weak,
    fun _ weak hrest hoff hset => Owner.run_starts_iff hrest hoff hset t weak,
    fun _ weak hrest hoff => Timer.run_starts_iff hrest hoff t weak⟩

/-- Waiters of a timer that can be run. -/
def unitWaiters : Waiters (Timer.Ticket Unit) := PriorityQueue.listQueue Timer.strictWeak_lt

/-- A socket that is closed, and then closed again, where the exchange may fail as it likes. -/
def closeAgain {T : Type*} (t : T) : List (Socket.WeakAction T) :=
  [.base (.thread t (.call .close))] ++
    List.replicate 7 (.base (.thread t (.go (.bytes 0)))) ++
    [.base (.thread t (.call .close)), .weakFail t]

/-- A server with two workers. -/
def twoWorkers : Owner Unit := ((Owner.new .server).withSettings ⟨2, false⟩).1

theorem effective_closeAgain :
    (∃ c, run (Socket.weakMachine ()) (Socket.weakInit Unit 3) (closeAgain ()) = some c ∧
      c.trace = [.base .sysClose, .base (.drained .read 0 0),
        .base (.drained .write 0 0), .base .closeReturned, .returned true true,
        .returned true false]) ∧
      Always (Socket.weakMachine ()) Socket.Effective (Socket.weakInit Unit 3) (closeAgain ()) ∧
      Ends (Runtime.runCall () false) Runtime.Loops (.new : Runtime Unit) .cas
        (fun _ r' => r'.loops.length = 1) ∧
      Ends (Owner.runCall () fun _ => false) Owner.Loops twoWorkers .runCas
        (fun _ o' => twoWorkers.AllStarted o') ∧
      Ends (Timer.runCall () false) Timer.Around (Timer.new Unit unitWaiters) .cas
        (fun _ tm' => tm'.execs.length = 1) := by
  obtain ⟨hclose, hrun, howner, htimer⟩ := effective_iff unitWaiters ()
  obtain ⟨-, hrest, hoff, hset, hworkers⟩ :=
    (Owner.new_atRest .server : (Owner.new .server : Owner Unit).AtRest).withSettings rfl rfl
      (show Settings.validate ⟨2, false⟩ = none from rfl)
  have howner' := (howner twoWorkers (fun _ => false) hrest hoff hset).2
    ⟨rfl, fun k r hk => ⟨hworkers r (List.mem_of_getElem? hk), rfl⟩⟩
  have htimer' : (Timer.new Unit unitWaiters).AtRest :=
    ⟨rfl, fun _ pc hpc => absurd hpc List.not_mem_nil, fun i hi => by cases hi⟩
  exact ⟨⟨_, rfl, by decide⟩, (hclose 3 _).2 (by decide), (hrun _ _ Runtime.new_atRest rfl).2 rfl,
    howner', (htimer _ _ htimer' rfl).2 rfl⟩

/-- The only call of `close` returns with the socket open, a new runtime and a new timer are not
started, and a server starts the first of its workers only. -/
theorem weak_failures_return :
    (∃ c, run (Socket.weakMachine ()) (Socket.weakInit Unit 3)
        [.base (.thread () (.call .close)), .weakFail ()] = some c ∧
      c.trace = [.returned false true] ∧ ¬ Socket.Effective c) ∧
      Exec (Runtime.runCall () true) Runtime.Loops .new .cas .new
        (.inr (some "the server is running")) ∧
      (∃ o', Exec (Owner.runCall () fun pc => decide (pc = .runWorker 1 .cas)) Owner.Loops
        twoWorkers
          .runCas o' (.inr (some "the server is running")) ∧ o'.running = true ∧
        o'.workers.map (·.running) = [true, false]) ∧
      Exec (Timer.runCall () true) Timer.Around (Timer.new Unit unitWaiters) .cas
        (Timer.new Unit unitWaiters) (.inr ()) := by
  have howner : ∃ o', Exec (Owner.runCall () fun pc => decide (pc = .runWorker 1 .cas)) Owner.Loops
      twoWorkers .runCas o' (.inr (some "the server is running")) ∧ o'.running = true ∧
      o'.workers.map (·.running) = [true, false] :=
    ⟨_, .step (.step (.step (.step (.step (.step (.step (.step (.step (.step .refl rfl) rfl) rfl)
      rfl) rfl) rfl) rfl) rfl) rfl) rfl, rfl, rfl⟩
  refine ⟨⟨_, rfl, by decide, fun h => ?_⟩, .step .refl rfl, howner, .step .refl rfl⟩
  have hlast := Allowed.of_mem h [] _ [] rfl
  have hclosed := (hlast _ _ rfl).1
  cases hclosed

end Spinet
