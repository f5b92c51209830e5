import Mathlib.Algebra.BigOperators.Group.Finset.Basic
import Mathlib.Data.Multiset.UnionInter
import Mathlib.Tactic.Abel
import Spinet.Timer.Steps

/-!
# What becomes of a wait

A wait is registered into `waiters_`, a tick moves it to its own list, and invokes it from there
with `waiter_mtx_` released, and the end of `exec` throws away what is in `waiters_`. `Effect` says
what a step can do to the waits, and `conserved_of_reachable` that none is lost or doubled on the
way. `accounted_always` reads this off for each wait: it is in exactly one of these places at any
time, and is invoked at most once, with its own time point, and not before it.
-/

namespace Spinet.Timer

open Transition

variable {T : Type*} {κ : Type} {P : Waiters (Ticket κ)}

/-! ## Sums of multisets -/

section Sums

variable {ι α β : Type*} {m : ι → Multiset α}

/-- Replacing an element of a list changes the sum of its images by theirs. -/
theorem sum_map_set [AddCommMonoid β] (f : α → β) : ∀ {l : List α} {i : ℕ} {a : α}, l[i]? = some a →
    ∀ b, ((l.set i b).map f).sum + f a = (l.map f).sum + f b
  | [], _, _, h, _ => by simp at h
  | c :: l, 0, a, h, b => by
    obtain rfl : c = a := by simpa using h
    simp only [List.set_cons_zero, List.map_cons, List.sum_cons]
    abel
  | c :: l, i + 1, a, h, b => by
    have htail := sum_map_set f (l := l) (i := i) (a := a) (by simpa using h) b
    simp only [List.set_cons_succ, List.map_cons, List.sum_cons, add_assoc]
    rw [htail]

/-- What is in the sum of the images of a list is in one of them. -/
theorem mem_sum_map {f : β → Multiset α} {a : α} {l : List β} :
    a ∈ (l.map f).sum ↔ ∃ b ∈ l, a ∈ f b := by
  induction l with
  | nil => simp
  | cons b l ih => simp [ih]

variable [Fintype ι] [DecidableEq ι]

/-- If a sum has nothing twice, neither has a summand, and what is in one is in no other. -/
theorem nodup_of_sum (h : (∑ i, m i).Nodup) (i : ι) :
    (m i).Nodup ∧ ∀ a ∈ m i, ∀ j, a ∈ m j → j = i := by
  rw [← Finset.add_sum_erase Finset.univ m (Finset.mem_univ i), Multiset.nodup_add] at h
  obtain ⟨hi, -, hdisjoint⟩ := h
  refine ⟨hi, fun a ha j hj => ?_⟩
  by_contra hne
  exact Multiset.disjoint_left.1 hdisjoint ha
    (Multiset.mem_sum.2 ⟨j, Finset.mem_erase.2 ⟨hne, Finset.mem_univ j⟩, hj⟩)

end Sums

/-! ## The places of a wait -/

/-- Where a registered wait is. -/
inductive Place
  /-- In `waiters_`. -/
  | pending
  /-- Collected by a tick that has not invoked it yet. -/
  | collected
  /-- Its callback has been invoked. -/
  | fired
  /-- Thrown away at the end of `exec`. -/
  | discarded
deriving DecidableEq, Repr

instance : Fintype Place where
  elems := {.pending, .collected, .fired, .discarded}
  complete := fun p => by cases p <;> decide

/-- The wait that an event registers. -/
def Event.registers : Event κ → Multiset (Wait κ)
  | .registered operation => {operation}
  | _ => 0

/-- The wait whose callback an event invokes, by the callback and its first argument. -/
def Event.fires : Event κ → Multiset (Wait κ)
  | .fired f => {⟨f.prevTimePoint, f.callback⟩}
  | _ => 0

/-- The waits that an event throws away. -/
def Event.discards : Event κ → Multiset (Wait κ)
  | .discarded operations => operations
  | _ => 0

/-- The waits that the events of a trace stand for. -/
def sumOf (g : Event κ → Multiset (Wait κ)) (tr : List (Event κ)) : Multiset (Wait κ) :=
  (tr.map g).sum

/-- The waits collected and not invoked yet. -/
def collected (tm : Timer (Thread T) κ P) : Multiset (Wait κ) :=
  (tm.execs.map fun pc => (↑pc.operations : Multiset (Wait κ))).sum

/-- The waits at a place. -/
def places (c : Config (State T κ P) (Event κ)) : Place → Multiset (Wait κ)
  | .pending => P.elems c.state.timer.waiters
  | .collected => collected c.state.timer
  | .fired => sumOf Event.fires c.trace
  | .discarded => sumOf Event.discards c.trace

/-- A callback is invoked with the time point of a wait registered before, and with the time of a
tick before, which is not earlier. -/
def OnTime (past : List (Event κ)) (e : Event κ) : Prop :=
  ∀ f, e = .fired f →
    .registered ⟨f.prevTimePoint, f.callback⟩ ∈ past ∧ .ticked f.timePoint ∈ past ∧
    f.prevTimePoint ≤ f.timePoint

/-- Every registered wait is accounted for. -/
structure Accounted (c : Config (State T κ P) (Event κ)) : Prop where
  /-- No two registrations are of the same wait. -/
  distinct : (sumOf Event.registers c.trace).Nodup
  /-- A registered wait is in exactly one place. -/
  once : ∀ w, .registered w ∈ c.trace → ∃! p, w ∈ places c p
  /-- What is in a place has been registered. -/
  known : ∀ p, ∀ w ∈ places c p, .registered w ∈ c.trace
  /-- It is there once; in particular, a wait is fired at most once. -/
  nodup : ∀ p, (places c p).Nodup
  /-- Callbacks are invoked with the right arguments, and not early. -/
  onTime : Allowed OnTime c.trace

/-- A wait that was pending or collected, and is neither any more, has been fired, unless the step
is the clearing at the end of `exec`. -/
def GoneByClearing [DecidableEq T] (c : Config (State T κ P) (Event κ)) (a : Action T κ) : Prop :=
  ∀ c', next (machine T P) c a = some c' → ∀ w, w ∈ places c .pending ∨ w ∈ places c .collected →
    w ∉ places c' .pending → w ∉ places c' .collected → w ∉ places c' .fired →
    ∃ i now, a = .exec i now ∧ c.state.timer.execs[i]? = some .clear

@[simp] theorem sumOf_nil (g : Event κ → Multiset (Wait κ)) : sumOf g [] = 0 := rfl

@[simp] theorem sumOf_append (g : Event κ → Multiset (Wait κ)) (tr es : List (Event κ)) :
    sumOf g (tr ++ es) = sumOf g tr + sumOf g es := by
  simp [sumOf]

@[simp] theorem sumOf_singleton (g : Event κ → Multiset (Wait κ)) (e : Event κ) :
    sumOf g [e] = g e := by
  simp [sumOf]

/-- A wait is in the sum of a trace if it is among those that one of its events stands for. -/
theorem mem_sumOf {g : Event κ → Multiset (Wait κ)} {w : Wait κ} {tr : List (Event κ)} :
    w ∈ sumOf g tr ↔ ∃ e ∈ tr, w ∈ g e := mem_sum_map

/-- A wait registered by a trace is in its sum. -/
theorem mem_registers {w : Wait κ} {tr : List (Event κ)} :
    w ∈ sumOf Event.registers tr ↔ .registered w ∈ tr := by
  rw [mem_sumOf]
  constructor
  · rintro ⟨e, he, hw⟩
    cases e with
    | registered v =>
      obtain rfl := Multiset.mem_singleton.1 hw
      exact he
    | _ => exact absurd hw (Multiset.notMem_zero w)
  · exact fun he => ⟨_, he, Multiset.mem_singleton_self w⟩

/-- The waits at all places. -/
theorem sum_places (c : Config (State T κ P) (Event κ)) :
    ∑ p, places c p =
      places c .pending + places c .collected + places c .fired + places c .discarded := by
  have huniv : (Finset.univ : Finset Place) = {.pending, .collected, .fired, .discarded} := rfl
  rw [huniv]
  simp [add_assoc]

/-! ## What a step does to the waits -/

/-- What holds of the tick that a thread is in: its time has been read from the clock, and what it
has collected was due then. -/
def ExecPc.Due (tr : List (Event κ)) : ExecPc κ → Prop
  | .unlock timePoint operations | .fire timePoint operations | .callback timePoint operations =>
    .ticked timePoint ∈ tr ∧ ∀ w ∈ operations, w.timePoint ≤ timePoint
  | _ => True

/-- What a step of thread `i` inside `exec` does to the waits. -/
inductive ExecEffect (tm : Timer T κ P) (i : ℕ) : Timer T κ P → List (Event κ) → Prop
  /-- The waits stay where they are. -/
  | quiet {tm' : Timer T κ P} {es : List (Event κ)} {pc pc' : ExecPc κ} :
    tm.execs[i]? = some pc → tm'.execs = tm.execs.set i pc' → tm'.waiters = tm.waiters →
    pc'.operations = pc.operations → (∀ tr, pc.Due tr → pc'.Due tr) →
    (es = [] ∨ ∃ stopped, es = [.read stopped]) → ExecEffect tm i tm' es
  /-- The tick takes what it collects. -/
  | collect {tm' : Timer T κ P} (now : ℤ) : tm.execs[i]? = some .collect →
    tm'.execs = tm.execs.set i (.unlock now (Timer.collect P now tm.waiters).1) →
    tm'.waiters = (Timer.collect P now tm.waiters).2 → ExecEffect tm i tm' [.ticked now]
  /-- The tick invokes a callback. -/
  | fire {tm' : Timer T κ P} (w : Wait κ) (timePoint : ℤ) (operations : List (Wait κ)) :
    tm.execs[i]? = some (.fire timePoint (w :: operations)) →
    tm'.execs = tm.execs.set i (.callback timePoint operations) → tm'.waiters = tm.waiters →
    ExecEffect tm i tm' [.fired ⟨w.callback, w.timePoint, timePoint⟩]
  /-- The end of `exec` throws away what is in `waiters_`. -/
  | clear {tm' : Timer T κ P} : tm.execs[i]? = some .clear → tm'.execs = tm.execs.set i .destroy →
    tm'.waiters = P.empty → ExecEffect tm i tm' [.discarded (P.elems tm.waiters)]

/-- Every step of a thread inside `exec` has one of these effects. -/
theorem ExecStep.effect {tm tm' : Timer T κ P} {t : T} {i : ℕ} {now : ℤ} {pc pc' : ExecPc κ}
    {es : List (Event κ)} (h : ExecStep tm t now pc tm' pc' es) (hi : tm.execs[i]? = some pc) :
    ExecEffect tm i (tm'.moveExec i pc') es := by
  cases h with
  | collect => exact .collect now hi rfl rfl
  | clear => exact .clear hi rfl rfl
  | fire => exact .fire _ _ _ hi rfl rfl
  | unlock | callback => exact .quiet hi rfl rfl rfl (fun _ hdue => hdue) (.inl rfl)
  | goOn | leave | woken => exact .quiet hi rfl rfl rfl (fun _ _ => trivial) (.inr ⟨_, rfl⟩)
  -- Where the thread waits or goes on otherwise it has nothing collected.
  | _ => exact .quiet hi rfl rfl rfl (fun _ _ => trivial) (.inl rfl)

/-- The waits stay where they are. -/
structure Kept (tm tm' : Timer (Thread T) κ P) : Prop where
  /-- What is in `waiters_` stays. -/
  waiters : tm'.waiters = tm.waiters
  /-- What has been collected stays collected. -/
  collected : collected tm' = collected tm
  /-- What has been collected is due still. -/
  due : ∀ tr, (∀ pc ∈ tm.execs, pc.Due tr) → ∀ pc ∈ tm'.execs, pc.Due tr

variable {tm tm' : Timer (Thread T) κ P}

/-- A step that moves no thread inside `exec`. -/
theorem Kept.of_execs (hwaiters : tm'.waiters = tm.waiters) (hexecs : tm'.execs = tm.execs) :
    Kept tm tm' where
  waiters := hwaiters
  collected := by rw [Timer.collected, hexecs, Timer.collected]
  due := fun tr h => by rwa [hexecs]

/-- Moving a thread changes what is collected by what it has collected. -/
theorem collected_set {i : ℕ} {pc pc' : ExecPc κ} (hi : tm.execs[i]? = some pc)
    (hexecs : tm'.execs = tm.execs.set i pc') :
    collected tm' + ↑pc.operations = collected tm + ↑pc'.operations := by
  rw [collected, hexecs]
  exact sum_map_set (fun pc => (↑pc.operations : Multiset (Wait κ))) hi pc'

/-- The other threads are in the ticks that they were in. -/
theorem due_set {i : ℕ} {pc' : ExecPc κ} {tr : List (Event κ)} (h : ∀ pc ∈ tm.execs, pc.Due tr)
    (hpc' : pc'.Due tr) (hexecs : tm'.execs = tm.execs.set i pc') :
    ∀ pc ∈ tm'.execs, pc.Due tr := by
  intro pc hpc
  rw [hexecs] at hpc
  rcases List.mem_or_eq_of_mem_set hpc with hmem | rfl
  · exact h pc hmem
  · exact hpc'

/-- A step that moves a thread, and leaves it what it has collected. -/
theorem Kept.of_set {i : ℕ} {pc pc' : ExecPc κ} (hi : tm.execs[i]? = some pc)
    (hexecs : tm'.execs = tm.execs.set i pc') (hwaiters : tm'.waiters = tm.waiters)
    (hops : pc'.operations = pc.operations) (hdue : ∀ tr, pc.Due tr → pc'.Due tr) :
    Kept tm tm' where
  waiters := hwaiters
  collected := by
    have hset := collected_set hi hexecs
    rw [hops] at hset
    exact add_right_cancel hset
  due := fun tr h => due_set h (hdue tr (h pc (List.mem_of_getElem? hi))) hexecs

/-- Notifying a thread leaves it what it has collected. -/
theorem ExecPc.notified_operations (pc : ExecPc κ) : pc.notified.operations = pc.operations := by
  cases pc <;> rfl

/-- A thread that is notified is in no tick. -/
theorem ExecPc.Due.notified {pc : ExecPc κ} {tr : List (Event κ)} (h : pc.Due tr) :
    pc.notified.Due tr := by
  cases pc <;> exact h

/-- `notify_all` keeps the waits. -/
theorem kept_notifyAll (tm : Timer (Thread T) κ P) : Kept tm tm.notifyAll where
  waiters := rfl
  collected := by simp [Timer.collected, notifyAll, Function.comp_def, ExecPc.notified_operations]
  due := fun tr h pc hpc => by
    obtain ⟨pc₀, hpc₀, rfl⟩ := List.mem_map.1 hpc
    exact (h pc₀ hpc₀).notified

/-- Every step of `run` keeps the waits. -/
theorem RunStep.kept {t : Thread T} {weak : Bool} {pc : RunPc} {nx : Next RunPc Unit}
    (h : RunStep tm t weak pc tm' nx) : Kept tm tm' := by
  cases h with
  | start =>
    -- The thread that starts has collected nothing.
    refine ⟨rfl, by simp [collected, ExecPc.operations], fun tr hdue pc hpc => ?_⟩
    rcases List.mem_append.1 hpc with hmem | hnew
    · exact hdue pc hmem
    · obtain rfl := List.mem_singleton.1 hnew
      trivial
  | _ => exact .of_execs rfl rfl

/-- Every step of `stop` keeps the waits. -/
theorem StopStep.kept {t : Thread T} {pc : StopPc} {nx : Next StopPc Unit}
    (h : StopStep tm t pc tm' nx) : Kept tm tm' := by
  cases h with
  | notify => exact kept_notifyAll tm
  | _ => exact .of_execs rfl rfl

/-- Every step of `async_wait_until` but one keeps the waits, and that one pushes. -/
theorem WaitStep.kept {t : Thread T} {w : Wait κ} {pc : WaitPc} {nx : Next WaitPc Unit}
    (h : WaitStep tm t w pc tm' nx) :
    (pc ≠ .push ∧ Kept tm tm') ∨
      (pc = .push ∧ tm'.waiters = P.push tm.waiters w ∧ tm'.execs = tm.execs) := by
  cases h with
  | pushFirst | push => exact .inr ⟨rfl, rfl, rfl⟩
  | notify hi => exact .inl ⟨by simp, .of_set hi rfl rfl rfl fun _ _ => trivial⟩
  | lock | notifyNone | unlock => exact .inl ⟨by simp, .of_execs rfl rfl⟩

/-- Whether an event says nothing of a wait. -/
def Event.silent : Event κ → Bool
  | .registered _ | .fired _ | .discarded _ => false
  | _ => true

/-- What a step of the system does to the waits. -/
inductive Effect (s : State T κ P) (a : Action T κ) (s' : State T κ P) : List (Event κ) → Prop
  /-- The waits stay where they are. -/
  | quiet {es : List (Event κ)} : Kept s.timer s'.timer → s'.registrations = s.registrations →
    (∀ e ∈ es, e.silent = true) → Effect s a s' es
  /-- A wait is registered. -/
  | register (w : Wait κ) : w.callback.number = s.registrations →
    s'.registrations = s.registrations + 1 → s'.timer.waiters = P.push s.timer.waiters w →
    s'.timer.execs = s.timer.execs → Effect s a s' [.registered w]
  /-- A thread inside `exec` takes a step. -/
  | exec (i : ℕ) (now : ℤ) {es : List (Event κ)} : a = .exec i now →
    s'.registrations = s.registrations → ExecEffect s.timer i s'.timer es → Effect s a s' es

/-- Every step has one of these effects. -/
theorem Step.effect [DecidableEq T] {s s' : State T κ P} {a : Action T κ} {es : List (Event κ)}
    (h : Step s a s' es) : Effect s a s' es := by
  cases h with
  | run | stop | wait => exact .quiet (.of_execs rfl rfl) rfl (by simp)
  | runGoto _ hrun => exact .quiet hrun.kept rfl (by split <;> simp [Event.silent])
  | runRet _ hrun => exact .quiet hrun.kept rfl (by simp [Event.silent])
  | stopGoto _ hstop => exact .quiet hstop.kept rfl (by split <;> simp [Event.silent])
  | stopRet _ hstop => exact .quiet hstop.kept rfl (by simp [Event.silent])
  | waitGoto _ hwait =>
    rcases hwait.kept with ⟨hpc, hkept⟩ | ⟨rfl, hwaiters, hexecs⟩
    · exact .quiet hkept (by simp [hpc]) (by simp [hpc])
    · exact .register _ rfl rfl hwaiters hexecs
  | waitRet _ hwait =>
    cases hwait
    exact .quiet (.of_execs rfl rfl) rfl (by simp)
  | exec _ _ hi hexec => exact .exec _ _ rfl rfl (hexec.effect hi)

/-! ## Conservation -/

/-- No wait is lost or doubled. -/
structure Conserved (c : Config (State T κ P) (Event κ)) : Prop where
  /-- What has been registered is what is at the places. -/
  sum : sumOf Event.registers c.trace = ∑ p, places c p
  /-- The waits are numbered. -/
  number : ∀ w ∈ sumOf Event.registers c.trace, w.callback.number < c.state.registrations
  /-- No wait is registered twice. -/
  nodup : (sumOf Event.registers c.trace).Nodup
  /-- What a tick has collected was due at its time. -/
  due : ∀ pc ∈ c.state.timer.execs, pc.Due c.trace
  /-- Callbacks are invoked with the right arguments, and not early. -/
  onTime : Allowed OnTime c.trace

/-- What a tick has collected was due at its time, whatever happens next. -/
theorem ExecPc.Due.append {pc : ExecPc κ} {tr : List (Event κ)} (h : pc.Due tr)
    (es : List (Event κ)) : pc.Due (tr ++ es) := by
  cases pc with
  | unlock | fire | callback => exact ⟨List.mem_append_left es h.1, h.2⟩
  | _ => trivial

/-- Silent events stand for no waits. -/
theorem sumOf_silent {es : List (Event κ)} (h : ∀ e ∈ es, e.silent = true) :
    sumOf Event.registers es = 0 ∧ sumOf Event.fires es = 0 ∧ sumOf Event.discards es = 0 := by
  induction es with
  | nil => simp
  | cons e es ih =>
    obtain ⟨hreg, hfire, hdisc⟩ := ih fun e he => h e (List.mem_cons_of_mem _ he)
    have he := h e List.mem_cons_self
    unfold sumOf at hreg hfire hdisc ⊢
    simp only [List.map_cons, List.sum_cons, hreg, hfire, hdisc, add_zero]
    cases e <;> simp_all [Event.silent, Event.registers, Event.fires, Event.discards]

/-- Events other than invocations are allowed. -/
theorem onTime_append {tr es : List (Event κ)} (h : Allowed OnTime tr)
    (hes : ∀ e ∈ es, ∀ f, e ≠ .fired f) : Allowed OnTime (tr ++ es) := by
  refine allowed_append.2 ⟨h, ?_⟩
  induction es generalizing tr with
  | nil => trivial
  | cons e es ih =>
    refine ⟨fun f hf => absurd hf (hes e List.mem_cons_self f), ?_⟩
    have hhead : OnTime tr e := fun f hf => absurd hf (hes e List.mem_cons_self f)
    exact ih (allowed_append.2 ⟨h, hhead, trivial⟩) fun e he => hes e (List.mem_cons_of_mem _ he)

variable {c : Config (State T κ P) (Event κ)} {s' : State T κ P} {es : List (Event κ)}

/-- A step that leaves the waits where they are conserves them. -/
theorem Conserved.quiet (h : Conserved c) (hkept : Kept c.state.timer s'.timer)
    (hregs : s'.registrations = c.state.registrations) (hes : ∀ e ∈ es, e.silent = true) :
    Conserved (⟨s', c.trace ++ es⟩ : Config _ _) := by
  obtain ⟨hreg, hfire, hdisc⟩ := sumOf_silent hes
  have hregisters : sumOf Event.registers (c.trace ++ es) = sumOf Event.registers c.trace := by
    rw [sumOf_append, hreg, add_zero]
  refine ⟨?_, ?_, ?_, fun pc hpc => ?_, onTime_append h.onTime fun e he f hf => ?_⟩
  · have hsum := h.sum
    rw [sum_places] at hsum ⊢
    simp only [places, hregisters, sumOf_append, hfire, hdisc, add_zero, hkept.waiters,
      hkept.collected] at hsum ⊢
    exact hsum
  · rw [hregisters, hregs]
    exact h.number
  · rw [hregisters]
    exact h.nodup
  · exact (hkept.due _ h.due pc hpc).append es
  · subst hf
    exact absurd (hes _ he) (by simp [Event.silent])

/-- The waits that are registered after an event that registers none. -/
theorem registers_append_of (tr : List (Event κ)) {e : Event κ} (he : e.registers = 0) :
    sumOf Event.registers (tr ++ [e]) = sumOf Event.registers tr := by
  rw [sumOf_append, sumOf_singleton, he, add_zero]

/-- A registration adds a wait with a number of its own. -/
theorem Conserved.register (h : Conserved c) {w : Wait κ}
    (hw : w.callback.number = c.state.registrations)
    (hregs : s'.registrations = c.state.registrations + 1)
    (hwaiters : s'.timer.waiters = P.push c.state.timer.waiters w)
    (hexecs : s'.timer.execs = c.state.timer.execs) :
    Conserved (⟨s', c.trace ++ [.registered w]⟩ : Config _ _) := by
  have hcollected : collected s'.timer = collected c.state.timer := by
    rw [collected, hexecs, collected]
  have hregisters : sumOf Event.registers (c.trace ++ [.registered w])
      = w ::ₘ sumOf Event.registers c.trace := by
    rw [sumOf_append, sumOf_singleton, add_comm]
    rfl
  refine ⟨?_, fun w' hw' => ?_, ?_, fun pc hpc => ?_, onTime_append h.onTime (by simp)⟩
  · have hsum := h.sum
    rw [sum_places] at hsum ⊢
    simp only [places] at hsum
    simp only [places, hregisters, hsum, hwaiters, hcollected, P.elems_push, sumOf_append,
      sumOf_singleton, Event.fires, Event.discards, add_zero, Multiset.cons_add]
  · rw [hregisters, Multiset.mem_cons] at hw'
    rw [hregs]
    rcases hw' with rfl | hmem
    · omega
    · have := h.number w' hmem
      omega
  · -- Its number is higher than those before.
    rw [hregisters, Multiset.nodup_cons]
    refine ⟨fun hmem => ?_, h.nodup⟩
    have := h.number w hmem
    omega
  · rw [hexecs] at hpc
    exact (h.due pc hpc).append _

/-- A tick moves what it collects from `waiters_` to its own list. -/
theorem Conserved.collect (h : Conserved c) {i : ℕ} {now : ℤ}
    (hi : c.state.timer.execs[i]? = some .collect)
    (hregs : s'.registrations = c.state.registrations)
    (hexecs : s'.timer.execs = c.state.timer.execs.set i
      (.unlock now (Timer.collect P now c.state.timer.waiters).1))
    (hwaiters : s'.timer.waiters = (Timer.collect P now c.state.timer.waiters).2) :
    Conserved (⟨s', c.trace ++ [.ticked now]⟩ : Config _ _) := by
  obtain ⟨hdue, helems⟩ := PriorityQueue.popWhile_elems (isDue now) c.state.timer.waiters
  have hcollected := collected_set hi hexecs
  simp only [ExecPc.operations, Multiset.coe_nil, add_zero] at hcollected
  have hregisters := registers_append_of c.trace (e := .ticked now) rfl
  refine ⟨?_, ?_, ?_, ?_, onTime_append h.onTime (by simp)⟩
  · have hsum := h.sum
    rw [sum_places] at hsum ⊢
    simp only [places] at hsum
    simp only [places, hregisters, hsum, hwaiters, hcollected, helems, sumOf_append,
      sumOf_singleton, Event.fires, Event.discards, add_zero, Timer.collect]
    abel
  · rw [hregisters, hregs]
    exact h.number
  · rw [hregisters]
    exact h.nodup
  · refine due_set (fun pc hpc => (h.due pc hpc).append _) ?_ hexecs
    exact ⟨by simp, fun w hw => isDue_eq_true.1 (hdue w hw)⟩

/-- A tick invokes a callback that it has collected. -/
theorem Conserved.fire (h : Conserved c) {i : ℕ} {w : Wait κ} {timePoint : ℤ}
    {operations : List (Wait κ)}
    (hi : c.state.timer.execs[i]? = some (.fire timePoint (w :: operations)))
    (hregs : s'.registrations = c.state.registrations)
    (hexecs : s'.timer.execs = c.state.timer.execs.set i (.callback timePoint operations))
    (hwaiters : s'.timer.waiters = c.state.timer.waiters) :
    Conserved (⟨s', c.trace ++ [.fired ⟨w.callback, w.timePoint, timePoint⟩]⟩ : Config _ _) := by
  obtain ⟨htick, hdue⟩ := h.due _ (List.mem_of_getElem? hi)
  have hset := collected_set hi hexecs
  have hcollected : collected c.state.timer = w ::ₘ collected s'.timer := by
    simp only [ExecPc.operations] at hset
    rw [← Multiset.cons_coe, Multiset.add_cons, ← Multiset.cons_add] at hset
    exact (add_right_cancel hset).symm
  have hregisters := registers_append_of c.trace
    (e := .fired ⟨w.callback, w.timePoint, timePoint⟩) rfl
  refine ⟨?_, ?_, ?_, ?_, allowed_append.2 ⟨h.onTime, fun f hf => ?_, trivial⟩⟩
  · have hsum := h.sum
    rw [sum_places] at hsum ⊢
    simp only [places] at hsum
    simp only [places, hregisters, hsum, hwaiters, hcollected, sumOf_append, sumOf_singleton,
      Event.fires, Event.discards, add_zero]
    rw [← Multiset.singleton_add]
    abel
  · rw [hregisters, hregs]
    exact h.number
  · rw [hregisters]
    exact h.nodup
  · have hrest : (ExecPc.callback timePoint operations).Due
        (c.trace ++ [.fired ⟨w.callback, w.timePoint, timePoint⟩]) :=
      ⟨List.mem_append_left _ htick, fun v hv => hdue v (List.mem_cons_of_mem _ hv)⟩
    exact due_set (fun pc hpc => (h.due pc hpc).append _) hrest hexecs
  · -- What has been collected has been registered.
    obtain rfl := Event.fired.inj hf
    refine ⟨mem_registers.1 ?_, htick, hdue w List.mem_cons_self⟩
    rw [h.sum, sum_places]
    simp only [places, hcollected, Multiset.mem_add, Multiset.mem_cons]
    exact .inl (.inl (.inr (.inl trivial)))

/-- The end of `exec` throws away what is in `waiters_`. -/
theorem Conserved.clear (h : Conserved c) {i : ℕ} (hi : c.state.timer.execs[i]? = some .clear)
    (hregs : s'.registrations = c.state.registrations)
    (hexecs : s'.timer.execs = c.state.timer.execs.set i .destroy)
    (hwaiters : s'.timer.waiters = P.empty) :
    Conserved (⟨s', c.trace ++ [.discarded (P.elems c.state.timer.waiters)]⟩ : Config _ _) := by
  have hset := collected_set hi hexecs
  have hcollected : collected s'.timer = collected c.state.timer := add_right_cancel hset
  have hregisters := registers_append_of c.trace
    (e := .discarded (P.elems c.state.timer.waiters)) rfl
  refine ⟨?_, ?_, ?_, ?_, onTime_append h.onTime (by simp)⟩
  · have hsum := h.sum
    rw [sum_places] at hsum ⊢
    simp only [places] at hsum
    simp only [places, hregisters, hsum, hwaiters, hcollected, P.elems_empty, sumOf_append,
      sumOf_singleton, Event.fires, Event.discards, add_zero, zero_add]
    abel
  · rw [hregisters, hregs]
    exact h.number
  · rw [hregisters]
    exact h.nodup
  · have hrest : (ExecPc.destroy : ExecPc κ).Due
        (c.trace ++ [.discarded (P.elems c.state.timer.waiters)]) := trivial
    exact due_set (fun pc hpc => (h.due pc hpc).append _) hrest hexecs

/-- Every step conserves the waits. -/
theorem Conserved.step [DecidableEq T] {a : Action T κ} (h : Conserved c)
    (hs : Timer.step c.state a = some (s', es)) :
    Conserved (⟨s', c.trace ++ es⟩ : Config _ _) := by
  cases (step_cases hs).effect with
  | quiet hkept hregs hes => exact h.quiet hkept hregs hes
  | register w hw hregs hwaiters hexecs => exact h.register hw hregs hwaiters hexecs
  | exec i now _ hregs heffect =>
    cases heffect with
    | quiet hi hexecs hwaiters hops hdue hes =>
      refine h.quiet (.of_set hi hexecs hwaiters hops hdue) hregs fun e he => ?_
      rcases hes with rfl | ⟨stopped, rfl⟩
      · cases he
      · obtain rfl := List.mem_singleton.1 he
        rfl
    | collect now hi hexecs hwaiters => exact h.collect hi hregs hexecs hwaiters
    | fire w timePoint operations hi hexecs hwaiters => exact h.fire hi hregs hexecs hwaiters
    | clear hi hexecs hwaiters => exact h.clear hi hregs hexecs hwaiters

/-- The waits are conserved in every reachable state. -/
theorem conserved_of_reachable [DecidableEq T] {clock : ℤ}
    (h : Reachable (machine T P) (init T P clock) c) : Conserved c := by
  refine h.invariant_step (I := fun s tr => Conserved ⟨s, tr⟩) ?_
    fun _ _ _ _ _ hI _ hs => hI.step hs
  refine ⟨?_, ?_, ?_, ?_, trivial⟩
  · rw [sum_places]
    simp [places, init, Timer.new, P.elems_empty, collected]
  all_goals simp [init, Timer.new]

/-- What is conserved is accounted for. -/
theorem Conserved.accounted (h : Conserved c) : Accounted c where
  distinct := h.nodup
  once := fun w hw => by
    have hmem := mem_registers.2 hw
    rw [h.sum] at hmem
    obtain ⟨p, -, hp⟩ := Multiset.mem_sum.1 hmem
    exact ⟨p, hp, fun q hq => (nodup_of_sum (h.sum ▸ h.nodup) p).2 w hp q hq⟩
  known := fun p w hw => by
    refine mem_registers.1 ?_
    rw [h.sum]
    exact Multiset.mem_sum.2 ⟨p, Finset.mem_univ p, hw⟩
  nodup := fun p => (nodup_of_sum (h.sum ▸ h.nodup) p).1
  onTime := h.onTime

/-- A step that takes a wait away without invoking it is the clearing at the end of `exec`. -/
theorem goneByClearing [DecidableEq T] {a : Action T κ} : GoneByClearing c a := by
  intro c' hn w hw hpending hcollected hfired
  obtain ⟨s', es, hs, rfl⟩ := next_eq_some _ hn
  simp only [places] at hw hpending hcollected hfired
  -- Where the waits stay, it would be where it was.
  have hstays : Kept c.state.timer s'.timer → False := by
    intro hkept
    rw [hkept.waiters] at hpending
    rw [hkept.collected] at hcollected
    exact hw.elim hpending hcollected
  cases (step_cases hs).effect with
  | quiet hkept => exact absurd hkept hstays
  | register v _ _ hwaiters hexecs =>
    rw [collected, hexecs, ← collected] at hcollected
    rw [hwaiters, P.elems_push] at hpending
    exact absurd hw (not_or.2 ⟨fun hmem => hpending (Multiset.mem_cons_of_mem hmem), hcollected⟩)
  | exec i now ha _ heffect =>
    cases heffect with
    | quiet hi hexecs hwaiters hops hdue _ =>
      exact absurd (Kept.of_set hi hexecs hwaiters hops hdue) hstays
    | collect now hi hexecs hwaiters =>
      obtain ⟨-, helems⟩ := PriorityQueue.popWhile_elems (isDue now) c.state.timer.waiters
      have hset := collected_set hi hexecs
      simp only [ExecPc.operations, Multiset.coe_nil, add_zero] at hset
      rw [hset, Multiset.mem_add] at hcollected
      rw [hwaiters] at hpending
      rw [helems, Multiset.mem_add] at hw
      exact absurd hw (by tauto)
    | fire v timePoint operations hi hexecs hwaiters =>
      have hset := collected_set hi hexecs
      simp only [ExecPc.operations] at hset
      rw [← Multiset.cons_coe, Multiset.add_cons, ← Multiset.cons_add] at hset
      rw [← add_right_cancel hset, Multiset.mem_cons] at hw
      rw [hwaiters] at hpending
      rw [sumOf_append, Multiset.mem_add, sumOf_singleton] at hfired
      rcases hw with hw | rfl | hw
      · exact absurd hw hpending
      · exact absurd (.inr (Multiset.mem_singleton_self _)) hfired
      · exact absurd hw hcollected
    | clear hi => exact ⟨i, now, ha, hi⟩

/-- Whatever the threads do, every registered wait is in exactly one place at any time, it is fired
at most once, with its own time point and not before it, and the only way in which it disappears
unfired is the clearing at the end of `exec`. -/
theorem accounted_always [DecidableEq T] (P : Waiters (Ticket κ)) (clock : ℤ)
    (as : List (Action T κ)) :
    Always (machine T P) Accounted (init T P clock) as ∧
      Steps (machine T P) GoneByClearing (init T P clock) as := by
  refine ⟨always_of_reachable (fun c hc => (conserved_of_reachable hc).accounted) .refl, ?_⟩
  exact steps_of_forall fun c a => goneByClearing

/-- A wait until 5 on a timer that ticks at 7. -/
example : ∃ c, run (machine (Fin 1) ticketWaiters) (init (Fin 1) ticketWaiters 0)
      (.wait (.user 0) 5 1 :: List.replicate 4 (.go (.user 0) false 0) ++ startUp 0 ++
        [.exec 0 2, .exec 0 2, .exec 0 3, .exec 0 7, .exec 0 8, .exec 0 8]) = some c ∧
    c.trace = [.registered ⟨5, ⟨0, 1⟩⟩, .runBegan, .runReturned, .read false, .ticked 7,
      .fired ⟨⟨0, 1⟩, 5, 7⟩] :=
  ⟨_, rfl, rfl⟩

end Spinet.Timer
