import Spinet.Socket.Machine

/-!
# The mutexes of a socket and what a step does to one side

A frame is in a section of `read_mtx_` or of `write_mtx_` by where it stands (`Frame.holds`), and
the stacks always agree with the owners of the two mutexes. With that, a step is, for one side of
the socket, one of six things (`Effect`): it leaves the side alone, it locks or unlocks its mutex,
or it unlocks it after appending to the queue, after taking the front off it, or after clearing it.

`frames_step` is how a fact about every frame on every stack passes over a step. `Inv` is what the
rest builds on: the mutexes, and that between `exec` and the end of its section the operation that
was served is still the front of its queue.
-/

namespace Spinet.Socket

open Transition Stacks

variable {T : Type*}

/-- Whether the frame is in a section of the mutex of side `d`. -/
def Frame.holds (d : Dir) : Frame → Bool
  | .submit d' _ _ _ _ pc => decide (d' = d ∧ pc ≠ .lock)
  | .cancel pc => decide (pc = .clear)
  | .close (.drain d' (.test _ _)) => decide (d' = d)
  | .doIo d' .test => decide (d' = d)
  | .doIo d' .exec => decide (d' = d)
  | .doIo d' (.finish _ _ _) => decide (d' = d)
  | _ => false

/-- Whether the frame has found the socket open, in a section of the mutex of side `d`, and may
still touch the queue. -/
def Frame.passed (d : Dir) : Frame → Bool
  | .submit d' _ _ _ _ .push => decide (d' = d)
  | .doIo d' .exec => decide (d' = d)
  | .doIo d' (.finish _ _ _) => decide (d' = d)
  | _ => false

/-- A frame that has found the socket open is in a section. -/
theorem Frame.holds_of_passed {d : Dir} {f : Frame} (h : f.passed d = true) : f.holds d = true := by
  unfold Frame.passed at h
  split at h <;> simp_all [Frame.holds]

/-- The accepted operations of side `d`, in order. -/
def acceptedOf (d : Dir) (tr : List Event) : List OpId :=
  tr.filterMap fun
    | .accepted d' op => if d' = d then some op else none
    | _ => none

/-- The operations that have left the queue of side `d`, in order. -/
def leftOf (d : Dir) (tr : List Event) : List OpId :=
  tr.filterMap fun
    | .left d' op _ => if d' = d then some op else none
    | _ => none

/-- The operations in the queue of side `d`, in order. -/
def queued (d : Dir) (sock : TcpSocket OpId) : List OpId := (sock.queue d).map Prod.snd

/-- Between `exec` and the end of its section the operation that was served is the front of its
queue. -/
def AtFront (sh : Shared T) : Frame → Prop
  | .doIo d (.finish _ _ op) => (queued d sh.sock).head? = some op
  | _ => True

@[simp] theorem acceptedOf_append (d : Dir) (tr es : List Event) :
    acceptedOf d (tr ++ es) = acceptedOf d tr ++ acceptedOf d es := by simp [acceptedOf]

@[simp] theorem leftOf_append (d : Dir) (tr es : List Event) :
    leftOf d (tr ++ es) = leftOf d tr ++ leftOf d es := by simp [leftOf]

/-- An operation accepted on a side has its event. -/
theorem mem_acceptedOf {d : Dir} {op : OpId} {tr : List Event} (h : op ∈ acceptedOf d tr) :
    .accepted d op ∈ tr := by
  obtain ⟨e, he, hop⟩ := List.mem_filterMap.1 h
  split at hop
  · rename_i d' op'
    obtain ⟨rfl, rfl⟩ : d' = d ∧ op' = op := by simpa using hop
    exact he
  · simp at hop

/-- Clearing a queue lets go of all its operations. -/
theorem leftOf_clearEvents (d d' : Dir) (q : List (Task × OpId)) :
    leftOf d (clearEvents d' q) = if d' = d then q.map Prod.snd else [] := by
  induction q with
  | nil => simp [clearEvents, leftOf]
  | cons e q ih =>
    simp only [clearEvents, leftOf, List.map_cons, List.filterMap_cons] at ih ⊢
    by_cases h : d' = d <;> simp_all

theorem acceptedOf_clearEvents (d d' : Dir) (q : List (Task × OpId)) :
    acceptedOf d (clearEvents d' q) = [] := by
  simp [clearEvents, acceptedOf]

/-! ## What a step does to one side -/

/-- What a step that replaces the frame `f` by `fs` does to side `d`: to the owner of its mutex, to
its queue, and to the operations accepted on it and gone from it. -/
inductive Effect (d : Dir) (sh : Shared T) (t : T) (f : Frame) (fs : List Frame) (sh' : Shared T)
    (es : List Event) : Prop
  /-- Nothing. -/
  | none : sh'.owner d = sh.owner d → fs.countP (Frame.holds d) = [f].countP (Frame.holds d) →
    sh'.sock.queue d = sh.sock.queue d → acceptedOf d es = [] → leftOf d es = [] →
    Effect d sh t f fs sh' es
  /-- The thread locks the mutex. -/
  | lock : sh.owner d = .none → sh'.owner d = some t →
    fs.countP (Frame.holds d) = [f].countP (Frame.holds d) + 1 →
    sh'.sock.queue d = sh.sock.queue d → acceptedOf d es = [] → leftOf d es = [] →
    Effect d sh t f fs sh' es
  /-- The thread unlocks the mutex. -/
  | unlock : f.holds d = true → sh'.owner d = .none → fs.countP (Frame.holds d) = 0 →
    sh'.sock.queue d = sh.sock.queue d → acceptedOf d es = [] → leftOf d es = [] →
    Effect d sh t f fs sh' es
  /-- An operation is accepted. -/
  | push (task : Task) (op : OpId) : f.holds d = true → sh'.owner d = .none →
    fs.countP (Frame.holds d) = 0 → sh'.sock.queue d = sh.sock.queue d ++ [(task, op)] →
    acceptedOf d es = [op] → leftOf d es = [] → f.passed d = true → task.Fresh →
    Effect d sh t f fs sh' es
  /-- The front of the queue is taken. -/
  | pop (op : OpId) : f.holds d = true → sh'.owner d = .none → fs.countP (Frame.holds d) = 0 →
    sh'.sock.queue d = (sh.sock.queue d).tail → acceptedOf d es = [] → leftOf d es = [op] →
    (AtFront sh f → (queued d sh.sock).head? = some op) → Effect d sh t f fs sh' es
  /-- The queue is cleared. -/
  | clear : f.holds d = true → sh'.owner d = .none → fs.countP (Frame.holds d) = 0 →
    sh'.sock.queue d = [] → acceptedOf d es = [] → leftOf d es = queued d sh.sock →
    Effect d sh t f fs sh' es

section MutexSteps

variable {sh : Shared T} {t : T} {f : Frame} {fs : List Frame} {es : List Event} {d d' : Dir}

/-- The effect of a step that locks the mutex of side `d'` and does nothing else. -/
theorem Effect.lockMutex (ho : sh.owner d' = .none) (hf : f.holds d = false)
    (hfs : fs.countP (Frame.holds d) = if d' = d then 1 else 0) :
    Effect d sh t f fs (sh.setOwner d' (some t)) [] := by
  have hzero : [f].countP (Frame.holds d) = 0 := by simp [hf]
  rcases eq_or_ne d' d with rfl | hd
  · exact .lock ho (by simp) (by rw [hfs, hzero]; simp) rfl rfl rfl
  · exact .none (by simp [hd.symm]) (by rw [hfs, hzero, if_neg hd]) rfl rfl rfl

/-- The effect of a step that unlocks the mutex of side `d'` and touches no queue. -/
theorem Effect.unlockMutex (hf : f.holds d = decide (d' = d))
    (hfs : fs.countP (Frame.holds d) = 0) (hacc : acceptedOf d es = []) (hleft : leftOf d es = []) :
    Effect d sh t f fs (sh.setOwner d' .none) es := by
  rcases eq_or_ne d' d with rfl | hd
  · exact .unlock (by simpa using hf) (by simp) hfs rfl hacc hleft
  · have hnot : f.holds d = false := by simpa [hd] using hf
    exact .none (by simp [hd.symm]) (by simp [hfs, hnot]) rfl hacc hleft

end MutexSteps

/-- Every step has one of the effects. -/
theorem Advance.effect {sh sh' : Shared T} {t : T} {f : Frame} {fs : List Frame} {es : List Event}
    (h : Advance sh t f fs sh' es) (d : Dir) : Effect d sh t f fs sh' es := by
  cases h with
  | submitLock ho => exact .lockMutex ho (by simp [Frame.holds]) (by simp [Frame.holds])
  | submitReject => exact .unlockMutex (by simp [Frame.holds]) rfl rfl rfl
  | submitTest => exact .none rfl (by simp [Frame.holds]) rfl rfl rfl
  | @submitPush d' op buf size strategy =>
    rcases eq_or_ne d' d with rfl | hd
    · exact .push (Task.new buf size strategy) op (by simp [Frame.holds]) (by simp) rfl (by simp)
        (by simp [acceptedOf]) rfl (by simp [Frame.passed]) (Task.new_fresh buf size strategy)
    · exact .none (by simp [hd.symm]) (by simp [Frame.holds, hd]) (by simp [hd.symm])
        (by simp [acceptedOf, hd]) rfl
  | cancelLock ho => exact .lock (ho d) rfl (by simp [Frame.holds]) rfl rfl rfl
  | cancelClear =>
    refine .clear (by simp [Frame.holds]) rfl rfl rfl ?_ ?_
    · simp [acceptedOf_clearEvents]
    · cases d <;> simp [leftOf_clearEvents, queued]
  | closeLost => exact .none rfl (by simp [Frame.holds]) rfl rfl rfl
  | closeWon => exact .none rfl (by simp [Frame.holds]) rfl rfl rfl
  | closeDeregister => exact .none rfl (by simp [Frame.holds]) rfl rfl rfl
  | closeSys => exact .none rfl (by simp [Frame.holds]) rfl rfl rfl
  | drainLock ho => exact .lockMutex ho (by simp [Frame.holds]) (by simp [Frame.holds])
  | drainRead | drainWrite =>
    exact .unlockMutex (by simp [Frame.holds]) (by simp [Frame.holds]) rfl rfl
  | @drainPop d' _ _ task op rest hq =>
    rcases eq_or_ne d' d with rfl | hd
    · exact .pop op (by simp [Frame.holds]) (by simp) (by simp [Frame.holds]) (by simp [hq]) rfl
        (by simp [leftOf]) (fun _ => by simp [queued, hq])
    · exact .none (by simp [hd.symm]) (by simp [Frame.holds, hd]) (by simp [hd.symm]) rfl
        (by simp [leftOf, hd])
  | drainCall => exact .none rfl (by simp [Frame.holds]) rfl rfl rfl
  | drainRelock ho => exact .lockMutex ho (by simp [Frame.holds]) (by simp [Frame.holds])
  | ioLock ho => exact .lockMutex ho (by simp [Frame.holds]) (by simp [Frame.holds])
  | ioClosed => exact .unlockMutex (by simp [Frame.holds]) rfl rfl rfl
  | ioTest => exact .none rfl (by simp [Frame.holds]) rfl rfl rfl
  | ioEmpty => exact .unlockMutex (by simp [Frame.holds]) rfl rfl rfl
  | @ioExec d' task op rest reply =>
    refine .none rfl (by simp [Frame.holds]) rfl ?_ ?_
    all_goals rcases exec_logIo task d' op sh.desc reply sh.sock.fd with hw | hw <;> rw [hw] <;> rfl
  | ioKeep => exact .unlockMutex (by simp [Frame.holds]) rfl rfl rfl
  | @ioPop d' _ _ op =>
    rcases eq_or_ne d' d with rfl | hd
    · exact .pop op (by simp [Frame.holds]) (by simp) (by simp [Frame.holds]) (by simp) rfl
        (by simp [leftOf]) id
    · exact .none (by simp [hd.symm]) (by simp [Frame.holds, hd]) (by simp [hd.symm]) rfl
        (by simp [leftOf, hd])
  | ioCall => exact .none rfl (by simp [Frame.holds]) rfl rfl rfl

/-! ## The mutexes -/

variable [DecidableEq T]

/-- The stacks agree with the owners of both mutexes. -/
def Locked (s : State T) : Prop := ∀ d, Guarded (Frame.holds d) (s.owner d) s.stack

theorem Call.frame_holds (c : Call) (op : OpId) (d : Dir) : (c.frame op).holds d = false := by
  cases c <;> simp [Call.frame, Frame.holds]

/-- A frame that holds a mutex makes its thread the owner. -/
theorem Locked.owner_eq {s : State T} (h : Locked s) {d : Dir} {t : T} {f : Frame}
    (hf : f ∈ s.stack t) (hh : f.holds d = true) : s.owner d = some t :=
  (h d).owner_eq hf hh

/-- Every step keeps the stacks in agreement with the mutexes. -/
theorem Locked.step {rt : T} {s s' : State T} {es : List Event} (h : Locked s)
    (hs : Step rt s s' es) : Locked s' := by
  intro d
  cases hs with
  | call c _ =>
    refine (h d).keep ?_
    simp [Call.frame_holds]
  | @ret t op rest hst =>
    refine (h d).keep ?_
    simp [hst, Frame.holds]
  | @go t f rest fs sh es hst ha =>
    have hd := h d
    -- Only the new frames of the thread differ, so their counts decide.
    have hnew : (fs ++ rest).countP (Frame.holds d)
        = fs.countP (Frame.holds d) + rest.countP (Frame.holds d) := List.countP_append
    have hold : (s.stack t).countP (Frame.holds d)
        = [f].countP (Frame.holds d) + rest.countP (Frame.holds d) := by
      rw [hst, ← List.countP_append]; rfl
    have hone : f.holds d = true → [f].countP (Frame.holds d) = 1 := fun hf => by simp [hf]
    rcases ha.effect d with ⟨ho, hc, -⟩ | ⟨ho, ho', hc, -⟩ | ⟨hf, ho', hc, -⟩ |
      ⟨-, -, hf, ho', hc, -⟩ | ⟨-, hf, ho', hc, -⟩ | ⟨hf, ho', hc, -⟩
    -- The mutex is left alone, locked, or unlocked; what happens to the queue does not matter.
    · show Guarded _ (sh.owner d) _
      rw [ho]
      exact hd.keep (by omega)
    · show Guarded _ (sh.owner d) _
      rw [ho']
      rw [ho] at hd
      exact hd.acquire (by omega)
    all_goals
      show Guarded _ (sh.owner d) _
      rw [ho']
      have := hone hf
      exact hd.release (by omega)
  | reuse => exact h d

/-- While another frame holds the mutex of a side, a step leaves its queue alone. -/
theorem Locked.queue_eq {s : State T} (h : Locked s) {d : Dir} {t u : T} {f g : Frame}
    {rest fs : List Frame} {sh : Shared T} {es : List Event} (hst : s.stack t = f :: rest)
    (ha : Advance s.toShared t f fs sh es) (hg : g ∈ s.stack u) (hrest : u = t → g ∈ rest)
    (hh : g.holds d = true) : sh.sock.queue d = s.sock.queue d := by
  have hf : f.holds d = false := (h d).only hst hg hrest hh
  rcases ha.effect d with ⟨-, -, hq, -⟩ | ⟨-, -, -, hq, -⟩ | ⟨hf', -⟩ | ⟨-, -, hf', -⟩ |
    ⟨-, hf', -⟩ | ⟨hf', -⟩
  · exact hq
  · exact hq
  all_goals simp [hf] at hf'

/-- Where a frame after a step comes from: it was there, it is the first frame of a call, or it has
replaced the innermost frame of its thread. -/
theorem Step.mem_cases {rt : T} {s s' : State T} {es : List Event} (hs : Step rt s s' es) {u : T}
    {g : Frame} (hg : g ∈ s'.stack u) :
    g ∈ s.stack u ∨ (∃ c : Call, g = c.frame s.nextOp) ∨
      ∃ f rest fs, s.stack u = f :: rest ∧ Advance s.toShared u f fs s'.toShared es ∧ g ∈ fs := by
  cases hs with
  | call c _ =>
    rcases mem_update.1 hg with ⟨rfl, hnew⟩ | ⟨-, hold⟩
    · rcases List.mem_cons.1 hnew with rfl | hold
      · exact .inr (.inl ⟨c, rfl⟩)
      · exact .inl hold
    · exact .inl hold
  | ret hst =>
    rcases mem_update.1 hg with ⟨rfl, hold⟩ | ⟨-, hold⟩
    · exact .inl (by rw [hst]; exact List.mem_cons_of_mem _ hold)
    · exact .inl hold
  | go hst ha =>
    rcases mem_update.1 hg with ⟨rfl, hin⟩ | ⟨-, hold⟩
    · rcases List.mem_append.1 hin with hnew | hold
      · exact .inr (.inr ⟨_, _, _, hst, ha, hnew⟩)
      · exact .inl (by rw [hst]; exact List.mem_cons_of_mem _ hold)
    · exact .inl hold
  | reuse => exact .inl hg

/-- Only a step of an innermost frame emits events. -/
theorem Step.event_cases {rt : T} {s s' : State T} {es : List Event} (hs : Step rt s s' es)
    {e : Event} (he : e ∈ es) :
    ∃ t f rest fs, s.stack t = f :: rest ∧ Advance s.toShared t f fs s'.toShared es := by
  cases hs with
  | call => exact absurd he List.not_mem_nil
  | ret => exact absurd he List.not_mem_nil
  | go hst ha => exact ⟨_, _, _, _, hst, ha⟩
  | reuse => exact absurd he List.not_mem_nil

/-- A fact about every frame on every stack passes over a step. The frames of a call must have it,
the frames that replace a frame must get it, and the other frames must keep it. -/
theorem frames_step {rt : T} {s s' : State T} (tr : List Event) {es : List Event}
    {I : Shared T → List Event → Frame → Prop}
    (h : ∀ t, ∀ f ∈ s.stack t, I s.toShared tr f) (hs : Step rt s s' es)
    (hcall : ∀ c : Call, I s.toShared tr (c.frame s.nextOp))
    (hgo : ∀ t f rest fs sh, s.stack t = f :: rest → Advance s.toShared t f fs sh es →
      (∀ g ∈ fs, I sh (tr ++ es) g) ∧
        ∀ u g, g ∈ s.stack u → (u = t → g ∈ rest) → I s.toShared tr g → I sh (tr ++ es) g)
    (hreuse : ∀ conn f, I s.toShared tr f → I { s.toShared with desc := .other conn } tr f) :
    ∀ t, ∀ f ∈ s'.stack t, I s'.toShared (tr ++ es) f := by
  cases hs with
  | @call t c hm =>
    rw [List.append_nil]
    intro u g hg
    rcases mem_update.1 hg with ⟨rfl, hnew⟩ | ⟨-, hold⟩
    · rcases List.mem_cons.1 hnew with rfl | hold
      · exact hcall c
      · exact h u g hold
    · exact h u g hold
  | @ret t op rest hst =>
    rw [List.append_nil]
    intro u g hg
    rcases mem_update.1 hg with ⟨rfl, hold⟩ | ⟨-, hold⟩
    · exact h u g (by rw [hst]; exact List.mem_cons_of_mem _ hold)
    · exact h u g hold
  | @go t f rest fs sh _ hst ha =>
    obtain ⟨hnew, hold⟩ := hgo t f rest fs sh hst ha
    intro u g hg
    rcases mem_update.1 hg with ⟨rfl, hin⟩ | ⟨hu, hin⟩
    · rcases List.mem_append.1 hin with hin | hin
      · exact hnew g hin
      · have hmem : g ∈ s.stack u := by rw [hst]; exact List.mem_cons_of_mem _ hin
        exact hold u g hmem (fun _ => hin) (h u g hmem)
    · exact hold u g hin (fun e => absurd e hu) (h u g hin)
  | reuse conn =>
    rw [List.append_nil]
    exact fun u g hg => hreuse conn g (h u g hg)

/-! ## What was served is still the front -/

/-- No task in a queue has made any progress. -/
def AllFresh (sock : TcpSocket OpId) : Prop := ∀ d, ∀ e ∈ sock.queue d, e.1.Fresh

omit [DecidableEq T] in
/-- A step keeps the tasks in the queues as they were submitted. -/
theorem Advance.allFresh {sh sh' : Shared T} {t : T} {f : Frame} {fs : List Frame}
    {es : List Event} (h : Advance sh t f fs sh' es) (hfresh : AllFresh sh.sock) :
    AllFresh sh'.sock := by
  intro d e he
  rcases h.effect d with ⟨-, -, hq, -⟩ | ⟨-, -, -, hq, -⟩ | ⟨-, -, -, hq, -⟩ |
    ⟨task, op, -, -, -, hq, -, -, -, hnew⟩ | ⟨-, -, -, -, hq, -⟩ | ⟨-, -, -, hq, -⟩
  iterate 3
    rw [hq] at he
    exact hfresh d e he
  · rw [hq] at he
    rcases List.mem_append.1 he with he | he
    · exact hfresh d e he
    · obtain rfl := List.mem_singleton.1 he
      exact hnew
  · rw [hq] at he
    exact hfresh d e (List.mem_of_mem_tail he)
  · rw [hq] at he
    exact absurd he List.not_mem_nil

/-- What is known of the mutexes and of the queues in every reachable state. -/
structure Inv (s : State T) : Prop where
  /-- The stacks agree with the owners. -/
  locked : Locked s
  /-- What was served is still the front. -/
  front : ∀ t, ∀ f ∈ s.stack t, AtFront s.toShared f
  /-- The tasks in the queues are as they were submitted. -/
  fresh : AllFresh s.sock

/-- Every step keeps the invariant. -/
theorem Inv.step {rt : T} {s s' : State T} {es : List Event} (h : Inv s) (hs : Step rt s s' es) :
    Inv s' := by
  refine ⟨h.locked.step hs, ?_, ?_⟩
  case refine_2 =>
    cases hs with
    | go hst ha => exact ha.allFresh h.fresh
    | _ => exact h.fresh
  refine frames_step [] (I := fun sh _ => AtFront sh) h.front hs ?_ ?_ ?_
  · intro c
    cases c <;> trivial
  · intro t f rest fs sh hst ha
    refine ⟨?_, ?_⟩
    · intro g hg
      cases ha with
      -- Only `exec` makes a frame that was served, and it was served from the front.
      | ioExec reply hq hfits =>
        obtain rfl := List.mem_singleton.1 hg
        simp [AtFront, queued, hq]
      | drainCall =>
        rcases List.mem_cons.1 hg with rfl | hg
        · trivial
        · obtain rfl := List.mem_singleton.1 hg
          trivial
      | _ =>
        first
        | exact absurd hg List.not_mem_nil
        | (obtain rfl := List.mem_singleton.1 hg; trivial)
    · intro u g hg hrest hI
      unfold AtFront at hI ⊢
      split
      · rename_i d task ec op
        -- The frame is in its section, so the step of another frame leaves the queue alone.
        have hholds : (Frame.doIo d (.finish task ec op)).holds d = true := by simp [Frame.holds]
        have hq := h.locked.queue_eq hst ha hg hrest hholds
        unfold queued
        rw [hq]
        exact hI
      · trivial
  · intro conn f hI
    exact hI

/-- A new socket. -/
theorem inv_init (fd : ℕ) : Inv (init T fd).state :=
  ⟨fun _ => Guarded.init fun _ => rfl, fun _ _ hf => absurd hf List.not_mem_nil,
    fun _ _ he => absurd he List.not_mem_nil⟩

/-- The invariant holds in every reachable state. -/
theorem inv_of_reachable {rt : T} {fd : ℕ} {c : Config (State T) Event}
    (h : Reachable (machine rt) (init T fd) c) : Inv c.state :=
  h.invariant_step (I := fun s _ => Inv s) (inv_init fd) fun _ _ _ _ _ hI _ hs =>
    hI.step (step_cases hs)

end Spinet.Socket
