import Spinet.Lifecycle.Runtime

/-!
# A runtime that only one call at a time may run or stop

What a worker is like while its owner lets one call at a time into its `run` and `stop`: it is idle
or active between such calls, and `InRun` and `InStop` describe it during one. A call of `run` on an
idle worker leaves it active (`InRun.step`), a call of `stop` on an active one leaves it idle
(`InStop.step`), and what its thread does meanwhile changes none of this.
-/

namespace Spinet.Runtime

variable {T : Type*} {r r' : Runtime T} {t : T}

/-- Every thread started has ended, and has been joined. -/
def Resting (r : Runtime T) : Prop := (∀ pc ∈ r.loops, pc = .done) ∧ r.runtimeThread = none

/-- Every thread started but the last has ended, and `runtime_thread_` stands for the last, which is
at `pc`. -/
def LastAt (r : Runtime T) (pc : LoopPc) : Prop :=
  ∃ before, r.loops = before ++ [pc] ∧ (∀ d ∈ before, d = .done) ∧
    r.runtimeThread = some before.length

/-- The last thread is about to begin, or is in its loop without having been asked to stop. -/
def Live (r : Runtime T) : Prop :=
  ∃ pc, r.LastAt pc ∧ (pc = .prologue ∨ (pc = .guard ∨ pc = .body) ∧ r.stopped = false)

/-- The last thread may be anywhere; when it has ended the runtime is not running. -/
def Winding (r : Runtime T) : Prop := ∃ pc, r.LastAt pc ∧ (pc = .done → r.running = false)

/-- A runtime that is not running, outside every call. -/
structure Idle (r : Runtime T) : Prop where
  running : r.running = false
  threadMtx : r.threadMtx = none
  resting : r.Resting

/-- A runtime that is running, outside every call. -/
structure Active (r : Runtime T) : Prop where
  running : r.running = true
  threadMtx : r.threadMtx = none
  live : r.Live

/-- A runtime during the only call of `run` on it, by `t`. -/
def InRun (t : T) : RunPc → Runtime T → Prop
  | .cas, r => r.Idle
  | .lock, r => r.running = true ∧ r.threadMtx = none ∧ r.Resting
  | .unlock, r => r.running = true ∧ r.threadMtx = some t ∧ r.Live
  | _, r => r.running = true ∧ r.threadMtx = some t ∧ r.Resting

/-- A runtime during the only call of `stop` on it, by `t`. -/
def InStop (t : T) : StopPc → Runtime T → Prop
  | .read, r => r.Active
  | .store, r => r.Active
  | .lock, r => r.threadMtx = none ∧ r.Winding
  | .unlock, r => r.running = false ∧ r.threadMtx = some t ∧ r.Resting
  | _, r => r.threadMtx = some t ∧ r.Winding

theorem new_idle : (new : Runtime T).Idle :=
  ⟨rfl, rfl, fun _ h => absurd h List.not_mem_nil, rfl⟩

/-- A live thread has not ended. -/
theorem Live.winding (h : r.Live) : r.Winding := by
  obtain ⟨pc, hlast, hpc⟩ := h
  refine ⟨pc, hlast, ?_⟩
  rintro rfl
  simp at hpc

/-! ## What the threads do -/

/-- If every thread has ended, none takes a step. -/
theorem Resting.not_loopStep (h : r.Resting) {i : ℕ} {read : Option Bool} :
    ¬ LoopStep r i r' read := by
  intro hs
  have hdone : ∀ {pc}, r.loops[i]? = some pc → pc = .done := fun hpc =>
    h.1 _ (List.mem_of_getElem? hpc)
  cases hs <;> (rename_i hpc; have := hdone (by assumption); cases this)

/-- Only the last thread has not ended. -/
theorem LastAt.eq_last {pc pc' : LoopPc} (h : r.LastAt pc) {i : ℕ} (hi : r.loops[i]? = some pc')
    (hpc' : pc' ≠ .done) : pc' = pc ∧ ∀ pc'', (r.moveLoop i pc'').LastAt pc'' := by
  obtain ⟨before, hloops, hbefore, hthread⟩ := h
  rw [hloops] at hi
  rcases Nat.lt_or_ge i before.length with hlt | hge
  · rw [List.getElem?_append_left hlt] at hi
    exact absurd (hbefore _ (List.mem_of_getElem? hi)) hpc'
  · have hi' : i = before.length := by
      by_contra hne
      rw [List.getElem?_eq_none (by simp; omega)] at hi
      cases hi
    subst hi'
    refine ⟨by simpa using hi.symm, fun pc'' => ⟨before, ?_, hbefore, hthread⟩⟩
    simp [hloops]

/-- Where the last thread is does not depend on `running_` and `stopped_`. -/
theorem LastAt.congr {pc : LoopPc} (h : r.LastAt pc) (hloops : r'.loops = r.loops)
    (hthread : r'.runtimeThread = r.runtimeThread) : r'.LastAt pc := by
  obtain ⟨before, h₁, h₂, h₃⟩ := h
  exact ⟨before, by rw [hloops, h₁], h₂, by rw [hthread, h₃]⟩

/-- A thread that is not asked to stop stays in its loop. -/
theorem Live.loopStep (h : r.Live) {i : ℕ} {read : Option Bool} (hs : LoopStep r i r' read) :
    r'.Live ∧ r'.running = r.running ∧ r'.threadMtx = r.threadMtx := by
  obtain ⟨pc, hlast, hpc⟩ := h
  cases hs with
  | prologue hi =>
    obtain ⟨rfl, hmove⟩ := hlast.eq_last hi (by simp)
    exact ⟨⟨.guard, (hmove .guard).congr rfl rfl, .inr ⟨.inl rfl, rfl⟩⟩, rfl, rfl⟩
  | goOn hi hstop =>
    obtain ⟨rfl, hmove⟩ := hlast.eq_last hi (by simp)
    exact ⟨⟨.body, hmove .body, .inr ⟨.inr rfl, hstop⟩⟩, rfl, rfl⟩
  | leave hi hstop =>
    obtain ⟨rfl, hmove⟩ := hlast.eq_last hi (by simp)
    simp [hstop] at hpc
  | body hi =>
    obtain ⟨rfl, hmove⟩ := hlast.eq_last hi (by simp)
    exact ⟨⟨.guard, hmove .guard, .inr ⟨.inl rfl, by simpa using hpc⟩⟩, rfl, rfl⟩
  | release hi =>
    obtain ⟨rfl, hmove⟩ := hlast.eq_last hi (by simp)
    simp at hpc
  | store hi =>
    obtain ⟨rfl, hmove⟩ := hlast.eq_last hi (by simp)
    simp at hpc

/-- A thread ends by storing `running_ = false`. -/
theorem Winding.loopStep (h : r.Winding) {i : ℕ} {read : Option Bool} (hs : LoopStep r i r' read) :
    r'.Winding ∧ r'.threadMtx = r.threadMtx := by
  obtain ⟨pc, hlast, -⟩ := h
  cases hs with
  | prologue hi =>
    exact ⟨⟨.guard, ((hlast.eq_last hi (by simp)).2 .guard).congr rfl rfl, by simp⟩, rfl⟩
  | store hi =>
    exact ⟨⟨.done, ((hlast.eq_last hi (by simp)).2 .done).congr rfl rfl, fun _ => rfl⟩, rfl⟩
  | goOn hi _ | leave hi _ | body hi | release hi =>
    exact ⟨⟨_, (hlast.eq_last hi (by simp)).2 _, by simp⟩, rfl⟩

theorem Idle.loopStep (h : r.Idle) {i : ℕ} {read : Option Bool} (hs : LoopStep r i r' read) :
    r'.Idle := absurd hs h.resting.not_loopStep

theorem Active.loopStep (h : r.Active) {i : ℕ} {read : Option Bool} (hs : LoopStep r i r' read) :
    r'.Active := by
  obtain ⟨hlive, hrunning, hmtx⟩ := h.live.loopStep hs
  exact ⟨hrunning.trans h.running, hmtx.trans h.threadMtx, hlive⟩

/-- What the thread does during a call of `run`. -/
theorem InRun.loopStep {pc : RunPc} (h : InRun t pc r) {i : ℕ} {read : Option Bool}
    (hs : LoopStep r i r' read) : InRun t pc r' := by
  cases pc with
  | cas => exact Idle.loopStep h hs
  | unlock =>
    obtain ⟨hrunning, hmtx, hlive⟩ := h
    obtain ⟨hlive', hrunning', hmtx'⟩ := hlive.loopStep hs
    exact ⟨hrunning'.trans hrunning, hmtx'.trans hmtx, hlive'⟩
  | _ => exact absurd hs h.2.2.not_loopStep

/-- What the thread does during a call of `stop`. -/
theorem InStop.loopStep {pc : StopPc} (h : InStop t pc r) {i : ℕ} {read : Option Bool}
    (hs : LoopStep r i r' read) : InStop t pc r' := by
  cases pc with
  | read => exact Active.loopStep h hs
  | store => exact Active.loopStep h hs
  | unlock => exact absurd hs h.2.2.not_loopStep
  | _ =>
    obtain ⟨hwinding, hmtx⟩ := h.2.loopStep hs
    exact ⟨hmtx.trans h.1, hwinding⟩

/-! ## What the calls do -/

/-- What a call of `run` on an idle worker leaves: it is active, and `run` has succeeded. -/
def AfterRun (t : T) (r' : Runtime T) : Next RunPc (Option String) → Prop
  | .goto pc => InRun t pc r'
  | .ret err => err = none ∧ r'.Active

/-- What a call of `stop` on an active worker leaves: it is idle. -/
def AfterStop (t : T) (r' : Runtime T) : Next StopPc Unit → Prop
  | .goto pc => InStop t pc r'
  | .ret _ => r'.Idle

/-- The steps of `run`. -/
theorem InRun.step {pc : RunPc} {nx : Next RunPc (Option String)} (h : InRun t pc r)
    (hs : RunStep r t false pc r' nx) : AfterRun t r' nx := by
  cases hs with
  | refuse hr =>
    have := Idle.running h
    simp [this] at hr
  | cas =>
    have hidle : r.Idle := h
    exact ⟨rfl, hidle.threadMtx, hidle.resting⟩
  | lock => exact ⟨h.1, rfl, h.2.2⟩
  | joinable hthread => exact absurd h.2.2.2 hthread
  | notJoinable => exact h
  | join hthread =>
    rw [h.2.2.2] at hthread
    cases hthread
  | start =>
    obtain ⟨hrunning, hmtx, hrest⟩ := h
    exact ⟨hrunning, hmtx, .prologue, ⟨r.loops, rfl, hrest.1, rfl⟩, .inl rfl⟩
  | unlock => exact ⟨rfl, h.1, rfl, h.2.2⟩

/-- The steps of `stop`. -/
theorem InStop.step {pc : StopPc} {nx : Next StopPc Unit} (h : InStop t pc r)
    (hs : StopStep r t pc r' nx) : AfterStop t r' nx := by
  cases hs with
  | notRunning hr =>
    rw [Active.running h] at hr
    cases hr
  | read => exact h
  | store =>
    have hactive : r.Active := h
    obtain ⟨pc, hlast, hdone⟩ := hactive.live.winding
    exact ⟨hactive.threadMtx, pc, hlast.congr rfl rfl, hdone⟩
  | lock => exact ⟨rfl, h.2⟩
  | joinable => exact h
  | notJoinable hthread =>
    obtain ⟨-, pc, ⟨before, -, -, hsome⟩, -⟩ := h
    rw [hsome] at hthread
    cases hthread
  | join hthread hended =>
    obtain ⟨hmtx, pc, ⟨before, hloops, hbefore, hsome⟩, hdone⟩ := h
    rw [hsome, Option.some.injEq] at hthread
    obtain rfl : pc = .done := by simpa [hloops, ← hthread] using hended
    refine ⟨hdone rfl, hmtx, fun pc hpc => ?_, rfl⟩
    rw [hloops] at hpc
    rcases List.mem_append.1 hpc with hpc | hpc
    · exact hbefore pc hpc
    · exact List.mem_singleton.1 hpc
  | unlock => exact ⟨h.1, rfl, h.2.2⟩

end Spinet.Runtime
