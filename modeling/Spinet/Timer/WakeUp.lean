import Spinet.Library.Stacks
import Spinet.Timer.LifeCycle
import Spinet.Timer.Steps

/-!
# The notifications of a timer

The thread of a timer waits without a predicate, and `async_wait_until` notifies only where it has
found `waiters_` empty. What makes this enough is that the thread tests `waiters_` and begins to
wait in one section of `waiter_mtx_`, and that a registration pushes and notifies in one.

So `waiters_` has something while the thread is blocked, and has not been notified, only inside the
section of the registration that has pushed onto the empty queue (`notified_always`), and that one
is about to notify, which can unblock no other thread.
-/

namespace Spinet.Timer

open Transition Stacks

variable {T : Type*} {κ : Type} {P : Waiters (Ticket κ)}

/-- Whether the call is in a section of `waiter_mtx_`. -/
def Call.inSection : Call κ → Bool
  | .wait _ _ .push | .wait _ _ .notify | .wait _ _ .unlock => true
  | _ => false

/-- Whether the thread is in a section of `waiter_mtx_`. -/
def ExecPc.inSection : ExecPc κ → Bool
  | .collect | .unlock _ _ | .test | .woken | .unlockWait _ => true
  | .clear | .destroy | .store | .unlockEnd => true
  | _ => false

/-- Whether thread `i` is in a section of `exec`. -/
def busy (tm : Timer T κ P) (i : ℕ) : Bool := (tm.execs[i]?).any ExecPc.inSection

/-- Whether a thread is in a section of its call, and of `exec`. -/
def State.sections (s : State T κ P) (t : Thread T) : List Bool :=
  [(s.call t).any Call.inSection,
    match t with
    | .user _ => false
    | .timer i => s.timer.busy i]

/-- The thread is blocked in its wait, no notification has unblocked it, and `waiters_` has
something. -/
def Missed (s : State T κ P) (i : ℕ) : Prop :=
  s.timer.execs[i]? = some (.waiting false) ∧ s.timer.isEmpty = false

/-- A registration has pushed, and is about to notify. -/
def Notifying (s : State T κ P) : Prop :=
  ∃ t timePoint callback, s.call t = some (.wait timePoint callback .notify)

/-! ## The sections exclude each other -/

/-- At most one thread is in a section, and it owns `waiter_mtx_`. -/
def Locked (s : State T κ P) [DecidableEq T] : Prop :=
  Guarded id s.timer.waiterMtx s.sections

variable {tm tm' : Timer T κ P} {t : T}

/-- Moving a thread changes whether that one is in a section. -/
theorem busy_moveExec {i : ℕ} {pc pc' : ExecPc κ} (hi : tm.execs[i]? = some pc) (j : ℕ) :
    (tm.moveExec i pc').busy j = if j = i then pc'.inSection else tm.busy j := by
  have hlt : i < tm.execs.length := (List.getElem?_eq_some_iff.1 hi).1
  unfold busy moveExec
  rcases eq_or_ne j i with rfl | hne
  · simp [List.getElem?_set_self hlt]
  · simp [hne, List.getElem?_set_ne hne.symm]

/-- A step of `run` puts no thread into a section of `waiter_mtx_`. -/
theorem RunStep.busy {weak : Bool} {pc : RunPc} {nx : Next RunPc Unit}
    (h : RunStep tm t weak pc tm' nx) :
    tm'.waiterMtx = tm.waiterMtx ∧ ∀ j, tm'.busy j = tm.busy j := by
  cases h with
  | start =>
    refine ⟨rfl, fun j => ?_⟩
    unfold Timer.busy
    simp only [List.getElem?_append, List.getElem?_singleton]
    split
    · rfl
    · rename_i hlt
      rw [List.getElem?_eq_none (Nat.le_of_not_lt hlt)]
      split <;> rfl
  | _ => exact ⟨rfl, fun _ => rfl⟩

/-- A step of `stop` puts no thread into a section of `waiter_mtx_`. -/
theorem StopStep.busy {pc : StopPc} {nx : Next StopPc Unit} (h : StopStep tm t pc tm' nx) :
    tm'.waiterMtx = tm.waiterMtx ∧ ∀ j, tm'.busy j = tm.busy j := by
  cases h with
  | notify =>
    refine ⟨rfl, fun j => ?_⟩
    unfold Timer.busy notifyAll
    rw [List.getElem?_map]
    rcases tm.execs[j]? with _ | pc
    · rfl
    · cases pc <;> rfl
  | _ => exact ⟨rfl, fun _ => rfl⟩

/-- A step of `async_wait_until` puts no thread into a section of `exec`. -/
theorem WaitStep.busy {w : Wait κ} {pc : WaitPc} {nx : Next WaitPc Unit}
    (h : WaitStep tm t w pc tm' nx) (j : ℕ) : tm'.busy j = tm.busy j := by
  cases h with
  | notify hi =>
    rw [busy_moveExec hi]
    split
    · subst j
      simp [Timer.busy, hi, ExecPc.inSection]
    · rfl
  | _ => rfl

section Sections

variable {s s' : State T κ P} {u : Thread T}

/-- What does not change whether threads are in sections of `exec` does not change the sections. -/
theorem sections_of_busy (hcall : s'.call = s.call)
    (hbusy : ∀ j, s'.timer.busy j = s.timer.busy j) : s'.sections = s.sections := by
  funext v
  cases v <;> simp [State.sections, hcall, hbusy]

/-- The sections of a thread are those of its call and of `exec`. -/
theorem exists_sections (s : State T κ P) (u : Thread T) :
    ∃ g, s.sections u = [(s.call u).any Call.inSection, g] := by
  cases u <;> exact ⟨_, rfl⟩

variable [DecidableEq T]

/-- A call changes the sections of its thread only. -/
theorem sections_setCall (s : State T κ P) (u : Thread T) (f : Option (Call κ)) {g : Bool}
    (hg : (s.sections u) = [(s.call u).any Call.inSection, g]) :
    (s.setCall u f).sections = Function.update s.sections u [f.any Call.inSection, g] := by
  funext v
  rcases eq_or_ne v u with rfl | hne
  · cases v <;> simp_all [State.sections, State.setCall]
  · cases v <;> simp [State.sections, State.setCall, hne]

/-- A thread inside `exec` that is in no call changes its own sections only. -/
theorem sections_exec {q : State T κ P} {i : ℕ} {pc' : ExecPc κ} (hcall : q.call = s.call)
    (hno : s.call (.timer i) = none)
    (hbusy : ∀ j, q.timer.busy j = if j = i then pc'.inSection else s.timer.busy j) :
    q.sections = Function.update s.sections (.timer i) [false, pc'.inSection] := by
  funext v
  rcases eq_or_ne v (.timer i) with rfl | hne
  · simp [State.sections, hcall, hno, hbusy]
  · cases v with
    | user v => simp [State.sections, hcall]
    | timer j =>
      have hj : j ≠ i := by rintro rfl; exact hne rfl
      simp [State.sections, hcall, hbusy, hj]

/-- A step of a call that neither enters nor leaves a section. -/
theorem Locked.setCall {q : State T κ P} (h : Locked s) {f : Option (Call κ)}
    (hcall : q.call = s.call) (hmtx : q.timer.waiterMtx = s.timer.waiterMtx)
    (hbusy : ∀ j, q.timer.busy j = s.timer.busy j)
    (hf : f.any Call.inSection = (s.call u).any Call.inSection) : Locked (q.setCall u f) := by
  obtain ⟨g, hg⟩ := exists_sections s u
  have hsame : q.sections = s.sections := sections_of_busy hcall hbusy
  unfold Locked
  rw [sections_setCall q u f (g := g) (by rw [hsame, hg, hcall]), State.setCall_timer, hmtx, hsame]
  exact Guarded.keep h (by rw [hg, hf])

/-- A step of `async_wait_until` keeps the sections apart. -/
theorem Locked.waitStep (h : Locked s) {timePoint : ℤ} {callback : κ} {pc : WaitPc}
    {tm : Timer (Thread T) κ P} {nx : Next WaitPc Unit} {w : Wait κ}
    (hcall : s.call u = some (.wait timePoint callback pc)) (hs : WaitStep s.timer u w pc tm nx)
    {f : Option (Call κ)} {n : ℕ}
    (hf : f.any Call.inSection = decide (pc ≠ .unlock)) :
    Locked ({ s with timer := tm, registrations := n }.setCall u f) := by
  obtain ⟨g, hg⟩ := exists_sections s u
  have hsame : ({ s with timer := tm, registrations := n } : State T κ P).sections = s.sections :=
    sections_of_busy rfl hs.busy
  unfold Locked
  rw [sections_setCall _ u f (g := g) (by rw [hsame, hg]), State.setCall_timer, hsame, hf]
  cases hs with
  | lock hm =>
    have hfree : Guarded id none s.sections := hm ▸ h
    refine hfree.acquire ?_
    cases g <;> simp [hg, hcall, Call.inSection]
  | unlock =>
    refine Guarded.release h ?_
    cases g <;> simp [hg, hcall, Call.inSection]
  | pushFirst | push | notify | notifyNone =>
    exact Guarded.keep h (by simp [hg, hcall, Call.inSection])

/-- A step of a thread inside `exec` keeps the sections apart. -/
theorem Locked.execStep (h : Locked s) {i : ℕ} {now : ℤ} {pc pc' : ExecPc κ}
    {tm : Timer (Thread T) κ P} {es : List (Event κ)} (hno : s.call (.timer i) = none)
    (hi : s.timer.execs[i]? = some pc) (hs : ExecStep s.timer (.timer i) now pc tm pc' es) :
    Locked { s with timer := tm.moveExec i pc', clock := now } := by
  have hold : s.sections (.timer i) = [false, pc.inSection] := by
    simp [State.sections, hno, Timer.busy, hi]
  have hbusy : ∀ j, (tm.moveExec i pc').busy j =
      if j = i then pc'.inSection else s.timer.busy j := by
    intro j
    rw [busy_moveExec (by rw [hs.execs, hi]), Timer.busy, hs.execs, ← Timer.busy]
  unfold Locked
  rw [sections_exec (s := s) (q := { s with timer := tm.moveExec i pc', clock := now }) rfl hno
    hbusy]
  cases hs with
  | lock hm | lockWait hm | relock hm | lockClear hm =>
    have hfree : Guarded id none s.sections := hm ▸ h
    exact hfree.acquire (by simp [hold, ExecPc.inSection])
  | unlock | block | unlockLeave | unlockWait | unlockEnd =>
    exact Guarded.release h (by simp [hold, ExecPc.inSection])
  | _ => exact Guarded.keep h (by simp [hold, ExecPc.inSection])

/-- Every step keeps the sections apart. -/
theorem Locked.step (h : Locked s) {a : Action T κ} {es : List (Event κ)}
    (hs : Step s a s' es) : Locked s' := by
  cases hs with
  | run ht | stop ht | wait ht =>
    exact h.setCall rfl rfl (fun _ => rfl) (by rw [State.call_of_idle ht]; rfl)
  | runGoto hcall hrun =>
    exact h.setCall (q := { s with timer := _ }) rfl hrun.busy.1 hrun.busy.2 (by rw [hcall]; rfl)
  | runRet hcall hrun =>
    exact h.setCall (q := { s with timer := _, returned := true }) rfl hrun.busy.1 hrun.busy.2
      (by rw [hcall]; rfl)
  | stopGoto hcall hstop | stopRet hcall hstop =>
    exact h.setCall (q := { s with timer := _ }) rfl hstop.busy.1 hstop.busy.2
      (by rw [hcall]; rfl)
  | waitGoto hcall hwait =>
    refine h.waitStep hcall hwait ?_
    cases hwait <;> rfl
  | waitRet hcall hwait =>
    refine h.waitStep hcall hwait ?_
    cases hwait
    rfl
  | exec hno _ hi hexec => exact h.execStep hno hi hexec

end Sections

/-! ## What is pushed is notified -/

section Notified

variable [DecidableEq T] {s s' : State T κ P} {u : Thread T} {a : Action T κ}
  {es : List (Event κ)} {c : Config (State T κ P) (Event κ)} {clock : ℤ}

/-- A thread that is before its last store is the only one that can be blocked. -/
def Alone (tm : Timer T κ P) : Prop :=
  ∀ (i : ℕ) (pc : ExecPc κ), tm.execs[i]? = some pc → pc.view ≠ .done →
    ∀ j, j ≠ i → tm.execs[j]? ≠ some (.waiting false)

/-- A registration that is about to notify still is, after a step of another call. -/
theorem Notifying.setCall {q : State T κ P} (h : Notifying s) (hcall : q.call = s.call)
    {f : Option (Call κ)}
    (hu : ∀ timePoint callback, s.call u ≠ some (.wait timePoint callback .notify)) :
    Notifying (q.setCall u f) := by
  obtain ⟨t, timePoint, callback, ht⟩ := h
  have hne : t ≠ u := by rintro rfl; exact hu timePoint callback ht
  exact ⟨t, timePoint, callback, by simp [State.setCall, hne, hcall, ht]⟩

/-- A registration that is about to notify is in its section, and no other call is. -/
theorem Locked.notifying (h : Locked s) {t : Thread T} {timePoint : ℤ} {callback : κ}
    (ht : s.call t = some (.wait timePoint callback .notify)) {f : Call κ}
    (hu : s.call u = some f) (hf : f.inSection = true) : u = t := by
  have hmem : ∀ {v : Thread T} {g : Call κ}, s.call v = some g → g.inSection = true →
      true ∈ s.sections v := by
    intro v g hv hg
    obtain ⟨b, hb⟩ := exists_sections s v
    simp [hb, hv, hg]
  exact Guarded.unique h (hmem hu hf) (hmem ht rfl) rfl rfl

/-- A step of `async_wait_until` leaves no push without its notification. -/
theorem missed_waitStep (h : Locked s) (halone : Alone s.timer)
    (hW : ∀ i, Missed s i → Notifying s) {timePoint : ℤ} {callback : κ} {pc pc' : WaitPc}
    {tm : Timer (Thread T) κ P} {w : Wait κ} {n : ℕ}
    (hcall : s.call u = some (.wait timePoint callback pc))
    (hs : WaitStep s.timer u w pc tm (.goto pc')) {i : ℕ}
    (hm : Missed ({ s with timer := tm, registrations := n }.setCall u
      (some (.wait timePoint callback pc'))) i) :
    Notifying ({ s with timer := tm, registrations := n }.setCall u
      (some (.wait timePoint callback pc'))) := by
  obtain ⟨hi, hne⟩ := hm
  cases hs with
  | lock hfree =>
    exact (hW i ⟨hi, hne⟩).setCall (q := { s with timer := _, registrations := n }) rfl
      (by simp [hcall])
  | pushFirst => exact ⟨u, timePoint, callback, by simp [State.setCall]⟩
  | push hsome =>
    -- A registration that is about to notify would be in its section, as this one is.
    obtain ⟨t, timePoint', callback', ht⟩ := hW i ⟨hi, hsome⟩
    obtain rfl := h.notifying ht hcall rfl
    rw [hcall] at ht
    cases ht
  | @notify j hj =>
    have hij : i ≠ j := by
      rintro rfl
      have hlt : i < s.timer.execs.length := (List.getElem?_eq_some_iff.1 hj).1
      simp [moveExec, List.getElem?_set_self hlt] at hi
    have hi : s.timer.execs[i]? = some (.waiting false) := by
      simpa [moveExec, List.getElem?_set_ne hij.symm] using hi
    exact absurd hi (halone j _ hj (by simp [ExecPc.view]) i hij)
  | notifyNone hnone =>
    have := hnone _ (List.mem_of_getElem? hi)
    simp [ExecPc.blocked] at this

omit [DecidableEq T] in
/-- A step of a thread inside `exec` leaves no push without its notification. -/
theorem missed_execStep (halone : Alone s.timer) (hW : ∀ i, Missed s i → Notifying s) {i : ℕ}
    {now : ℤ} {pc pc' : ExecPc κ} {tm : Timer (Thread T) κ P}
    (hi : s.timer.execs[i]? = some pc) (hs : ExecStep s.timer (.timer i) now pc tm pc' es) {j : ℕ}
    (hm : Missed { s with timer := tm.moveExec i pc', clock := now } j) :
    Notifying { s with timer := tm.moveExec i pc', clock := now } := by
  obtain ⟨hj, hne⟩ := hm
  have hlt : i < tm.execs.length := hs.execs ▸ (List.getElem?_eq_some_iff.1 hi).1
  rcases eq_or_ne j i with rfl | hji
  · -- The thread begins to wait where it has found `waiters_` empty.
    have hpc' : pc' = .waiting false := by
      simpa [moveExec, List.getElem?_set_self hlt] using hj
    subst hpc'
    cases hs with
    | block hempty =>
      have hsome : s.timer.isEmpty = false := hne
      rw [hempty] at hsome
      cases hsome
  · have hblocked : s.timer.execs[j]? = some (.waiting false) := by
      simpa [moveExec, List.getElem?_set_ne hji.symm, hs.execs] using hj
    have hdone : pc.view = .done := by
      by_contra hpc
      exact halone i pc hi hpc j hji hblocked
    cases hs with
    | unlockEnd => exact hW j ⟨hblocked, hne⟩
    | _ => cases hdone

/-- Every step leaves no push without its notification. -/
theorem missed_step (h : Locked s) (halone : Alone s.timer) (hW : ∀ i, Missed s i → Notifying s)
    (hs : Step s a s' es) : ∀ i, Missed s' i → Notifying s' := by
  intro i hm
  cases hs with
  | run ht | stop ht | wait ht => exact (hW i hm).setCall rfl (by simp [State.call_of_idle ht])
  | @runGoto t _ _ _ _ tm hcall hrun =>
    obtain ⟨hi, hne⟩ := hm
    have hold : Missed s i := by
      cases hrun with
      | start =>
        refine ⟨?_, hne⟩
        simp only [State.setCall_timer, List.getElem?_append, List.getElem?_singleton] at hi
        split at hi
        · exact hi
        · split at hi <;> cases hi
      | _ => exact ⟨hi, hne⟩
    exact (hW i hold).setCall (q := { s with timer := tm }) rfl (by simp [hcall])
  | @runRet t _ _ _ tm hcall hrun =>
    have hold : Missed s i := by cases hrun <;> exact hm
    exact (hW i hold).setCall (q := { s with timer := tm, returned := true }) rfl (by simp [hcall])
  | @stopGoto t _ _ _ _ _ tm hcall hstop =>
    have hold : Missed s i := by
      cases hstop with
      | notify =>
        obtain ⟨hi, -⟩ := hm
        simp only [State.setCall_timer, notifyAll, List.getElem?_map, Option.map_eq_some_iff] at hi
        obtain ⟨pc, -, hpc⟩ := hi
        cases pc <;> cases hpc
      | _ => exact hm
    exact (hW i hold).setCall (q := { s with timer := tm }) rfl (by simp [hcall])
  | @stopRet t _ _ _ _ tm hcall hstop =>
    have hold : Missed s i := by cases hstop <;> exact hm
    exact (hW i hold).setCall (q := { s with timer := tm }) rfl (by simp [hcall])
  | waitGoto hcall hwait => exact missed_waitStep h halone hW hcall hwait hm
  | @waitRet t _ _ _ _ pc tm hcall hwait =>
    have hold : Missed s i := by cases hwait; exact hm
    have hpc : pc = .unlock := by cases hwait; rfl
    exact (hW i hold).setCall (q := { s with timer := tm, registrations := _ }) rfl
      (by simp [hcall, hpc])
  | exec _ _ hi hexec => exact missed_execStep halone hW hi hexec hm

/-- In every reachable state the sections are apart, only the thread before its last store can be
blocked, and what has been pushed without a notification is about to be notified. -/
theorem notifying_of_reachable (h : Reachable (machine T P) (init T P clock) c) :
    Locked c.state ∧ Alone c.state.timer ∧ ∀ i, Missed c.state i → Notifying c.state := by
  have halone : ∀ c, Reachable (machine T P) (init T P clock) c → Alone c.state.timer := by
    intro c hc i pc hi hpc j hne hj
    rcases others_ended hc hi hpc hj hne with he | he <;> cases he
  have hboth : Locked c.state ∧ ∀ i, Missed c.state i → Notifying c.state := by
    refine h.invariant_of (I := fun c => Locked c.state ∧ ∀ i, Missed c.state i → Notifying c.state)
      halone ⟨?_, fun i hm => absurd hm.1 (by simp [init, Timer.new])⟩ ?_
    · intro t
      cases t <;> simp [init, Timer.new, State.sections, Timer.busy]
    · rintro c a c' hone - ⟨hL, hW⟩ - hn
      obtain ⟨s', es, hs, rfl⟩ := next_eq_some _ hn
      exact ⟨hL.step (step_cases hs), missed_step hL hone hW (step_cases hs)⟩
  exact ⟨hboth.1, halone c h, hboth.2⟩

/-- A registration owns `waiter_mtx_`, it can take its next step, and whichever thread that
notifies, it unblocks thread `i`. -/
def AboutToNotify (c : Config (State T κ P) (Event κ)) (i : ℕ) : Prop :=
  ∃ t timePoint callback, c.state.call t = some (.wait timePoint callback .notify) ∧
    c.state.timer.waiterMtx = some t ∧
    (∃ c', next (machine T P) c (.go t false i) = some c') ∧
    ∀ weak pick c', next (machine T P) c (.go t weak pick) = some c' →
      c'.state.timer.execs[i]? = some (.waiting true)

/-- The notification of a registration unblocks the thread that is blocked. -/
theorem Notifying.aboutToNotify (h : Notifying c.state) (hL : Locked c.state)
    (halone : Alone c.state.timer) {i : ℕ} (hi : c.state.timer.execs[i]? = some (.waiting false)) :
    AboutToNotify c i := by
  obtain ⟨t, timePoint, callback, ht⟩ := h
  obtain ⟨b, hb⟩ := exists_sections c.state t
  have hown : c.state.timer.waiterMtx = some t :=
    Guarded.owner_eq hL (f := true) (by simp [hb, ht, Call.inSection]) rfl
  refine ⟨t, timePoint, callback, ht, hown, ?_, fun weak pick c' hn => ?_⟩
  · simp [next, machine, step, ht, goWait, waitStep, notifyOne, hi]
  · obtain ⟨s', es, hs, rfl⟩ := next_eq_some _ hn
    have hstep : Step c.state (.go t weak pick) s' es := step_cases hs
    cases hstep with
    | runGoto hcall | runRet hcall | stopGoto hcall | stopRet hcall =>
      rw [ht] at hcall
      cases hcall
    | waitRet hcall hwait =>
      rw [ht] at hcall
      cases hcall
      cases hwait
    | waitGoto hcall hwait =>
      rw [ht] at hcall
      cases hcall
      cases hwait with
      | @notify j hj =>
        have hji : j = i := by
          by_contra hne
          exact halone i _ hi (by simp [ExecPc.view]) j hne hj
        subst hji
        have hlt : j < c.state.timer.execs.length := (List.getElem?_eq_some_iff.1 hi).1
        simp [moveExec, List.getElem?_set_self hlt]
      | notifyNone hnone =>
        have := hnone _ (List.mem_of_getElem? hi)
        simp [ExecPc.blocked] at this

/-- In every run, whenever the thread is blocked in its wait without a notification while `waiters_`
has something, the registration that has pushed onto the empty `waiters_` is still in its section
and about to notify, and its next step unblocks the thread. -/
theorem notified_always (P : Waiters (Ticket κ)) (clock : ℤ) (as : List (Action T κ)) :
    Always (machine T P) (fun c => ∀ i, Missed c.state i → AboutToNotify c i) (init T P clock)
      as := by
  refine always_of_reachable (fun c hc i hm => ?_) .refl
  obtain ⟨hL, halone, hW⟩ := notifying_of_reachable hc
  exact (hW i hm).aboutToNotify hL halone hm.1

end Notified

/-- A registration has pushed onto the empty `waiters_` while the thread is blocked, and has not
notified it yet. -/
theorem pushed_before_notified :
    ∃ c, run (machine (Fin 1) ticketWaiters) (init (Fin 1) ticketWaiters 0)
        (startUp 0 ++ List.replicate 9 (.exec 0 0) ++
          .wait (.user 0) 5 1 :: List.replicate 2 (.go (.user 0) false 0)) = some c ∧
      Missed c.state 0 :=
  ⟨_, rfl, rfl, rfl⟩

end Spinet.Timer
