import Spinet.Timer.Conservation
import Spinet.Timer.Steps

/-!
# The order in which waits are fired

The top of `waiters_` is the wait with the latest time point. So of two waits that are both pending
and have different time points a tick takes both or none, and it fires the later one first.

`inOrder_of_level` is what is left of an order: in a run in which no tick finds waits with different
time points all due, none is fired before one with an earlier time point. In such a run neither of
the two is fired at all, as a tick that fires one fires both; where both are fired the order is
always the reverse (`fired_in_reverse`).
-/

namespace Spinet.Timer

open Transition

variable {T : Type*} {κ : Type} {P : Waiters (Ticket κ)}

/-- Whatever fires `w'` comes after something that fires `w`. -/
def FiredBefore (w w' : Wait κ) (tr : List (Event κ)) : Prop :=
  Allowed (fun past e => w' ∈ e.fires → w ∈ sumOf Event.fires past) tr

/-- Of two waits that are both pending in the configuration `c` of a run, the one with the earlier
time point is fired first on the way from there to `c'`. -/
def InOrder (c c' : Config (State T κ P) (Event κ)) : Prop :=
  ∀ w ∈ places c .pending, ∀ w' ∈ places c .pending, w.timePoint < w'.timePoint →
    ∀ es, c'.trace = c.trace ++ es → FiredBefore w w' es

/-- The condition on a step: a tick that finds all waits due finds them with one time point. -/
def Level (c : Config (State T κ P) (Event κ)) : Action T κ → Prop
  | .exec i now => c.state.timer.execs[i]? = some .collect →
    (∀ w ∈ P.elems c.state.timer.waiters, w.timePoint ≤ now) →
    ∀ w ∈ P.elems c.state.timer.waiters, ∀ w' ∈ P.elems c.state.timer.waiters,
      w.timePoint = w'.timePoint
  | _ => True

instance [DecidableEq κ] (c : Config (State T κ P) (Event κ)) (a : Action T κ) :
    Decidable (Level c a) := by
  unfold Level
  split <;> infer_instance

variable {c c' : Config (State T κ P) (Event κ)} {w w' : Wait κ}

/-! ## Under the condition -/

/-- A tick that finds waits with different time points, and not all of them due, takes nothing. -/
theorem collect_nothing {now : ℤ} {waiters : P.Q}
    (hlevel : (∀ w ∈ P.elems waiters, w.timePoint ≤ now) →
      ∀ w ∈ P.elems waiters, ∀ w' ∈ P.elems waiters, w.timePoint = w'.timePoint)
    (hw : w ∈ P.elems waiters) (hw' : w' ∈ P.elems waiters) (hlt : w.timePoint < w'.timePoint) :
    Timer.collect P now waiters = ([], waiters) := by
  rcases collect_cases P now waiters with hnothing | ⟨htaken, -⟩
  · exact hnothing
  -- It would take everything only with everything due.
  · obtain ⟨hdue, -⟩ := PriorityQueue.popWhile_elems (isDue now) waiters
    have hall : ∀ v ∈ P.elems waiters, v.timePoint ≤ now := by
      intro v hv
      rw [← htaken] at hv
      exact isDue_eq_true.1 (hdue v hv)
    have := hlevel hall w hw w' hw'
    omega

variable [DecidableEq T] {clock : ℤ}

/-- Two pending waits with different time points stay pending, or the later one is thrown away. -/
def Stays (c : Config (State T κ P) (Event κ)) (w w' : Wait κ) : Prop :=
  (w ∈ places c .pending ∧ w' ∈ places c .pending) ∨ w' ∈ places c .discarded

/-- Every step under the condition leaves the two where they are, or throws them away. -/
theorem Stays.step (h : Stays c w w') (hlt : w.timePoint < w'.timePoint) {a : Action T κ}
    (hC : Level c a) (hn : next (machine T P) c a = some c') : Stays c' w w' := by
  obtain ⟨s', es, hs, rfl⟩ := next_eq_some _ hn
  have hdiscard : w' ∈ places c .discarded → Stays (⟨s', c.trace ++ es⟩ : Config _ _) w w' := by
    intro hmem
    refine .inr ?_
    simp only [places, sumOf_append, Multiset.mem_add]
    exact .inl hmem
  have hsame : s'.timer.waiters = c.state.timer.waiters →
      Stays (⟨s', c.trace ++ es⟩ : Config _ _) w w' := by
    intro hwaiters
    refine h.elim (fun hmem => .inl ?_) hdiscard
    simpa only [places, hwaiters] using hmem
  have hstep : Step c.state a s' es := step_cases hs
  cases hstep with
  | run | stop | wait => exact hsame rfl
  | runGoto _ hrun | runRet _ hrun => exact hsame (by cases hrun <;> rfl)
  | stopGoto _ hstop | stopRet _ hstop => exact hsame (by cases hstop <;> rfl)
  | waitRet _ hwait => exact hsame (by cases hwait; rfl)
  | waitGoto _ hwait =>
    cases hwait with
    | pushFirst | push =>
      refine h.elim (fun hmem => .inl ?_) hdiscard
      simp only [places, State.setCall_timer, P.elems_push]
      exact ⟨Multiset.mem_cons_of_mem hmem.1, Multiset.mem_cons_of_mem hmem.2⟩
    | _ => exact hsame rfl
  | exec _ _ hi hexec =>
    cases hexec with
    | collect =>
      refine h.elim (fun hmem => .inl ?_) hdiscard
      simpa only [places, moveExec, collect_nothing (hC hi) hmem.1 hmem.2 hlt] using hmem
    | clear =>
      refine h.elim (fun hmem => .inr ?_) hdiscard
      simp only [places, sumOf_append, Multiset.mem_add, sumOf_singleton, Event.discards]
      exact .inr hmem.2
    | _ => exact hsame rfl

/-- In every run in which each tick that finds all waits due finds them with one time point, of two
waits that are both pending at some time the one with the later time point is not fired before the
other. The condition leaves nothing that could be out of order, as neither of the two is fired;
where both are fired, it is in the reverse order (`fired_in_reverse`). -/
theorem inOrder_of_level (P : Waiters (Ticket κ)) (clock : ℤ) (as bs : List (Action T κ))
    (c c' : Config (State T κ P) (Event κ))
    (has : run (machine T P) (init T P clock) as = some c)
    (hbs : run (machine T P) c bs = some c') (h : Steps (machine T P) Level c bs) :
    InOrder c c' := by
  have hc : Reachable (machine T P) (init T P clock) c := reachable_of_run has
  have hc' : Reachable (machine T P) (init T P clock) c' := hc.trans (reachable_of_run hbs)
  intro w hw w' hw' hlt es htrace
  have hstays : Stays c' w w' := (h.reachVia hbs).invariant (I := fun c => Stays c w w')
    (.inl ⟨hw, hw'⟩) fun _ _ _ hI hC hn => hI.step hlt hC hn
  -- The later one has never been fired: it is in another place.
  have hnot : w' ∉ places c' .fired := by
    have haccounted := (conserved_of_reachable hc').accounted
    intro hfired
    obtain ⟨p, -, honce⟩ := haccounted.once w' (haccounted.known .fired w' hfired)
    rcases hstays with ⟨-, hpending⟩ | hdiscarded
    · have := (honce _ hfired).trans (honce _ hpending).symm
      cases this
    · have := (honce _ hfired).trans (honce _ hdiscarded).symm
      cases this
  refine allowedFrom_of_forall fun e he past hfires => absurd ?_ hnot
  have hmem : e ∈ c'.trace := by rw [htrace]; exact List.mem_append_right _ he
  exact mem_sumOf.2 ⟨e, hmem, hfires⟩

/-- A thread, and waits until 10 and until 20. -/
def twoWaits (user : T) : List (Action T ℕ) :=
  startUp user ++ .wait (.user user) 10 1 :: List.replicate 4 (.go (.user user) false 0) ++
    .wait (.user user) 20 2 :: List.replicate 3 (.go (.user user) false 0)

/-- A tick at 15 fires neither. -/
theorem inOrder_twoWaits :
    ∃ c c', run (machine (Fin 1) ticketWaiters) (init (Fin 1) ticketWaiters 0)
        (twoWaits 0) = some c ∧
      run (machine (Fin 1) ticketWaiters) c (List.replicate 6 (.exec 0 15)) = some c' ∧
      c'.trace = c.trace ++ [.read false, .ticked 15] ∧ InOrder c c' :=
  ⟨_, _, rfl, rfl, rfl, inOrder_of_level ticketWaiters 0 (twoWaits 0)
    (List.replicate 6 (.exec 0 15)) _ _ rfl rfl (by decide)⟩

/-- A tick at 50 fires the wait until 20, and then the wait until 10. -/
theorem later_fired_first :
    ∃ c c', run (machine (Fin 1) ticketWaiters) (init (Fin 1) ticketWaiters 0)
        (twoWaits 0) = some c ∧
      run (machine (Fin 1) ticketWaiters) c (List.replicate 8 (.exec 0 50)) = some c' ∧
      c'.trace = c.trace ++ [.read false, .ticked 50, .fired ⟨⟨1, 2⟩, 20, 50⟩,
        .fired ⟨⟨0, 1⟩, 10, 50⟩] ∧ ¬ InOrder c c' := by
  refine ⟨_, _, rfl, rfl, rfl, fun h => ?_⟩
  have hfired := h ⟨10, 0, 1⟩ (by decide) ⟨20, 1, 2⟩ (by decide) (by decide) _ rfl
  have hbefore := Allowed.of_mem hfired [.read false, .ticked 50] (.fired ⟨⟨1, 2⟩, 20, 50⟩)
    [.fired ⟨⟨0, 1⟩, 10, 50⟩] rfl
  exact absurd (hbefore (by decide)) (by decide)

/-! ## In reverse -/

/-- Where the operations that a thread has collected after a step are from. -/
inductive From (s s' : State T κ P) (es : List (Event κ)) : List (Wait κ) → Prop
  | none : From s s' es []
  | kept {pc : ExecPc κ} : pc ∈ s.timer.execs → From s s' es pc.operations
  | collect {now : ℤ} : s'.timer.waiters = (Timer.collect P now s.timer.waiters).2 →
    From s s' es (Timer.collect P now s.timer.waiters).1
  | fire {pc : ExecPc κ} {operation : Wait κ} {operations : List (Wait κ)} {timePoint : ℤ} :
    pc ∈ s.timer.execs → pc.operations = operation :: operations →
    es = [.fired ⟨operation.callback, operation.timePoint, timePoint⟩] → From s s' es operations

variable {s s' : State T κ P} {a : Action T κ} {es : List (Event κ)}

omit [DecidableEq T] in
/-- A thread inside `exec` leaves itself what it had collected, or what it collects. -/
theorem ExecStep.origin {tm : Timer (Thread T) κ P} {t : Thread T} {now : ℤ} {pc pc' : ExecPc κ}
    (h : ExecStep s.timer t now pc tm pc' es) (hpc : pc ∈ s.timer.execs)
    (hwaiters : s'.timer.waiters = tm.waiters) : From s s' es pc'.operations := by
  cases h with
  | collect => exact .collect hwaiters
  | fire => exact .fire hpc rfl rfl
  | @unlock timePoint operations => exact @From.kept _ _ _ _ _ _ (.unlock timePoint operations) hpc
  | @callback timePoint operations =>
    exact @From.kept _ _ _ _ _ _ (.callback timePoint operations) hpc
  | _ => exact .none

/-- What is collected after a step is what was, less what has been fired, or what a tick takes. -/
theorem Step.origin (h : Step s a s' es) {pc : ExecPc κ} (hpc : pc ∈ s'.timer.execs) :
    From s s' es pc.operations := by
  have hsame : s'.timer.execs = s.timer.execs → From s s' es pc.operations := by
    intro hexecs
    exact .kept (hexecs ▸ hpc)
  cases h with
  | run | stop | wait => exact .kept hpc
  | runGoto _ hrun =>
    cases hrun with
    | start =>
      rcases List.mem_append.1 hpc with hmem | hnew
      · exact .kept hmem
      · obtain rfl := List.mem_singleton.1 hnew
        exact .none
    | _ => exact hsame rfl
  | runRet _ hrun => exact hsame (by cases hrun <;> rfl)
  | stopGoto _ hstop =>
    cases hstop with
    | notify =>
      obtain ⟨pc₀, hpc₀, rfl⟩ := List.mem_map.1 hpc
      rw [ExecPc.notified_operations]
      exact .kept hpc₀
    | _ => exact hsame rfl
  | stopRet _ hstop => exact hsame (by cases hstop <;> rfl)
  | waitGoto _ hwait =>
    cases hwait with
    | notify =>
      rcases mem_moveExec hpc with rfl | ⟨j, -, hj⟩
      · exact .none
      · exact .kept (List.mem_of_getElem? hj)
    | _ => exact hsame rfl
  | waitRet _ hwait => exact hsame (by cases hwait; rfl)
  | exec _ _ hi hexec =>
    rcases mem_moveExec hpc with rfl | ⟨j, -, hj⟩
    · exact hexec.origin (List.mem_of_getElem? hi) rfl
    · rw [hexec.execs] at hj
      exact .kept (List.mem_of_getElem? hj)

/-- What a step fires was the first of what a thread had collected. -/
theorem Step.fires (h : Step s a s' es) {e : Event κ} (he : e ∈ es) (hw : w ∈ e.fires) :
    es = [e] ∧ ∃ pc ∈ s.timer.execs, ∃ operations, pc.operations = w :: operations := by
  obtain ⟨f, rfl⟩ : ∃ f, e = .fired f := by
    cases e with
    | fired f => exact ⟨f, rfl⟩
    | _ => exact absurd hw (Multiset.notMem_zero w)
  cases h with
  | exec _ _ hi hexec =>
    cases hexec with
    | fire =>
      obtain rfl := Event.fired.inj (List.mem_singleton.1 he)
      obtain rfl := Multiset.mem_singleton.1 hw
      exact ⟨rfl, _, List.mem_of_getElem? hi, _, rfl⟩
    | _ => simp at he
  | _ => simp at he

/-- The waits that a thread has collected are in the order in which they came off the top. -/
def Sorted (s : State T κ P) : Prop :=
  ∀ pc ∈ s.timer.execs, pc.operations.Pairwise fun w w' => WaitOperation.lt w w' = false

/-- Every step keeps that order. -/
theorem Sorted.step (h : Sorted s) (hs : Step s a s' es) : Sorted s' := by
  intro pc hpc
  have hfrom := hs.origin hpc
  generalize pc.operations = operations at hfrom ⊢
  cases hfrom with
  | none => exact .nil
  | kept hpc₀ => exact h _ hpc₀
  | collect => exact PriorityQueue.popWhile_sorted (isDue _) s.timer.waiters
  | fire hpc₀ hops =>
    have := h _ hpc₀
    rw [hops] at this
    exact (List.pairwise_cons.1 this).2

/-- They are in every reachable state. -/
theorem sorted_of_reachable (h : Reachable (machine T P) (init T P clock) c) : Sorted c.state :=
  h.invariant_step (I := fun s _ => Sorted s) (by simp [Sorted, init, Timer.new])
    fun _ _ _ _ _ hI _ hs => hI.step (step_cases hs)

/-- Wherever the earlier of two waits is, the later one is ahead of it. -/
structure Behind (w w' : Wait κ) (s : State T κ P) (tr : List (Event κ)) : Prop where
  /-- Both are pending, or the earlier one is not. -/
  pending : w ∈ P.elems s.timer.waiters → w' ∈ P.elems s.timer.waiters
  /-- A thread that has collected the earlier one has collected the later one as well, if that one
  has not been fired yet. -/
  collected : ∀ pc ∈ s.timer.execs, w ∈ pc.operations →
    w' ∈ pc.operations ∨ w' ∈ sumOf Event.fires tr

/-- What a tick collects, and what it leaves, has both waits or none. -/
theorem collect_both {now : ℤ} {waiters : P.Q} (h : w ∈ P.elems waiters → w' ∈ P.elems waiters) :
    (w ∈ (Timer.collect P now waiters).1 → w' ∈ (Timer.collect P now waiters).1) ∧
      (w ∈ P.elems (Timer.collect P now waiters).2 →
        w' ∈ P.elems (Timer.collect P now waiters).2) := by
  rcases collect_cases P now waiters with hnothing | ⟨htaken, hleft⟩
  · rw [hnothing]
    exact ⟨fun hw => absurd hw List.not_mem_nil, h⟩
  · refine ⟨fun hw => ?_, fun hw => ?_⟩
    · rw [← Multiset.mem_coe, htaken] at hw ⊢
      exact h hw
    · rw [hleft] at hw
      exact absurd hw (Multiset.notMem_zero w)

/-- Every step keeps the later wait ahead. -/
theorem Behind.step {tr : List (Event κ)} (h : Behind w w' s tr)
    (hknown : w.callback.number < s.registrations) (hs : Step s a s' es) :
    Behind w w' s' (tr ++ es) := by
  refine ⟨?_, fun pc hpc hw => ?_⟩
  · have hsame : s'.timer.waiters = s.timer.waiters →
        w ∈ P.elems s'.timer.waiters → w' ∈ P.elems s'.timer.waiters := by
      intro hwaiters
      rw [hwaiters]
      exact h.pending
    cases hs with
    | run | stop | wait => exact hsame rfl
    | runGoto _ hrun | runRet _ hrun => exact hsame (by cases hrun <;> rfl)
    | stopGoto _ hstop | stopRet _ hstop => exact hsame (by cases hstop <;> rfl)
    | waitRet _ hwait => exact hsame (by cases hwait; rfl)
    | waitGoto _ hwait =>
      cases hwait with
      | pushFirst | push =>
        -- What is pushed is neither of them.
        simp only [State.setCall_timer, P.elems_push, Multiset.mem_cons]
        rintro (rfl | hw)
        · exact absurd hknown (Nat.lt_irrefl _)
        · exact .inr (h.pending hw)
      | _ => exact hsame rfl
    | exec _ _ _ hexec =>
      cases hexec with
      | collect => exact (collect_both h.pending).2
      | clear =>
        intro hw
        simp only [moveExec, P.elems_empty] at hw
        exact absurd hw (Multiset.notMem_zero w)
      | _ => exact hsame rfl
  · have hfires : w' ∈ sumOf Event.fires tr → w' ∈ sumOf Event.fires (tr ++ es) := by
      intro hmem
      rw [sumOf_append, Multiset.mem_add]
      exact .inl hmem
    have hfrom := hs.origin hpc
    generalize pc.operations = operations at hfrom hw ⊢
    cases hfrom with
    | none => cases hw
    | kept hpc₀ => exact (h.collected _ hpc₀ hw).imp_right hfires
    | collect => exact .inl ((collect_both h.pending).1 hw)
    | fire hpc₀ hops hes =>
      rcases h.collected _ hpc₀ (hops ▸ List.mem_cons_of_mem _ hw) with hmem | hmem
      · rw [hops] at hmem
        -- Either the later one is fired now, or it stays collected.
        rcases List.mem_cons.1 hmem with rfl | hmem
        · refine .inr ?_
          rw [sumOf_append, hes, sumOf_singleton, Multiset.mem_add]
          exact .inr (Multiset.mem_singleton_self _)
        · exact .inl hmem
      · exact .inr (hfires hmem)

/-- When the earlier wait is fired, the later one has been fired before. -/
theorem Behind.fires {tr : List (Event κ)} (h : Behind w w' s tr) (hsorted : Sorted s)
    (hlt : w.timePoint < w'.timePoint) (hs : Step s a s' es) {e : Event κ} (he : e ∈ es)
    (hw : w ∈ e.fires) : es = [e] ∧ w' ∈ sumOf Event.fires tr := by
  obtain ⟨hes, pc, hpc, operations, hops⟩ := hs.fires he hw
  refine ⟨hes, (h.collected pc hpc (hops ▸ List.mem_cons_self)).resolve_left fun hmem => ?_⟩
  -- It is the first that the thread has collected, so the later one would not be later.
  have hpairwise := hsorted pc hpc
  rw [hops] at hpairwise hmem
  rcases List.mem_cons.1 hmem with rfl | hmem
  · exact absurd hlt (Int.lt_irrefl _)
  · have hfalse := (List.pairwise_cons.1 hpairwise).1 w' hmem
    simp only [WaitOperation.lt, decide_eq_false_iff_not] at hfalse
    exact hfalse hlt

/-- Of two waits with different time points that are both pending at some time of a run, the one
with the later time point is fired first, whatever the ticks find. -/
theorem fired_in_reverse (hc : Reachable (machine T P) (init T P clock) c)
    (hc' : Reachable (machine T P) c c') (hw : w ∈ places c .pending) (hw' : w' ∈ places c .pending)
    (hlt : w.timePoint < w'.timePoint) {es : List (Event κ)} (htrace : c'.trace = c.trace ++ es) :
    FiredBefore w' w es := by
  have haccounted := (conserved_of_reachable hc).accounted
  have honly : ∀ v ∈ places c .pending, ∀ p, v ∈ places c p → p = .pending := by
    intro v hv p hp
    obtain ⟨q, -, honce⟩ := haccounted.once v (haccounted.known _ v hv)
    exact (honce p hp).trans (honce _ hv).symm
  -- The later one is fired from here on.
  have hlater : ∀ es, w' ∈ sumOf Event.fires (c.trace ++ es) → w' ∈ sumOf Event.fires es := by
    intro es hmem
    rw [sumOf_append, Multiset.mem_add] at hmem
    refine hmem.resolve_left fun hfired => ?_
    cases honly w' hw' .fired hfired
  have hinv : Behind w w' c'.state c'.trace ∧
      ∃ es, c'.trace = c.trace ++ es ∧ FiredBefore w' w es := by
    refine hc'.invariant_of (I := fun d => Behind w w' d.state d.trace ∧
        ∃ es, d.trace = c.trace ++ es ∧ FiredBefore w' w es)
      (J := Reachable (machine T P) (init T P clock)) (fun d hd => hc.trans hd) ?_ ?_
    · refine ⟨⟨fun _ => hw', fun pc hpc hmem => ?_⟩, [], (List.append_nil _).symm, trivial⟩
      cases honly w hw .collected (mem_sum_map.2 ⟨pc, hpc, hmem⟩)
    · rintro d a d' hd - ⟨hbehind, es, htrace, hfired⟩ - hn
      obtain ⟨s', es', hs, rfl⟩ := next_eq_some _ hn
      have hknown : w.callback.number < d.state.registrations := by
        refine (conserved_of_reachable hd).number w (mem_registers.2 ?_)
        rw [htrace]
        exact List.mem_append_left _ (haccounted.known _ w hw)
      refine ⟨hbehind.step hknown (step_cases hs), es ++ es', ?_, allowed_append.2 ⟨hfired, ?_⟩⟩
      · rw [htrace, List.append_assoc]
      · by_cases hfires : ∃ e ∈ es', w ∈ e.fires
        · obtain ⟨e, he, hwe⟩ := hfires
          obtain ⟨rfl, hmem⟩ := hbehind.fires (sorted_of_reachable hd) hlt (step_cases hs) he hwe
          exact ⟨fun _ => hlater es (htrace ▸ hmem), trivial⟩
        · push Not at hfires
          exact allowedFrom_of_forall fun e he past hwe => absurd hwe (hfires e he)
  obtain ⟨-, es', htrace', hfired⟩ := hinv
  obtain rfl := List.append_cancel_left (htrace.symm.trans htrace')
  exact hfired

end Spinet.Timer
