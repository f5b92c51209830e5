import Spinet.Registry.Sections

/-!
# The lifetime of a handle in the event loop

`exec` works with raw pointers, from the events that `epoll_wait` found and from its copy of
`all_sockets_`, across windows in which it holds no lock. `Frame.held` is the list of those that a
frame still has to use. Each of them is `Owned`: by `all_handles_`, by `removable_handles_`, or by
the argument of a `register_handle` in progress.

A pointer gets into `exec` from the interest list or from `all_sockets_`, where the sections keep
only owned handles (`Section.interest_owned`, `Base`). From then on a step may move the ownership
but not end it (`Owned.go`), except where `exec` itself drops it, and there `exec` has no pointer
left, since its frame is the only one of its thread (`Placed`).
-/

namespace Spinet.Registry

open Transition Stacks

variable {H : Type} {T : Type*}

/-- The handles whose pointers the frame still has to use. -/
def Frame.held : Frame H → List H
  | .serve h _ => [h]
  | .exec (.waiting events) | .exec (.dispatch events) => events.map (·.handle)
  | .exec (.sweepRead sockets) => sockets
  | .exec (.sweepWrite h sockets) => h :: sockets
  | _ => []

/-- `all_handles_` or `removable_handles_` has a `shared_ptr` to the handle. -/
def Kept (sh : Shared H T) (h : H) : Prop := (∃ k, sh.allHandles k = some h) ∨ h ∈ sh.removable

/-- The handle is kept, or is the argument of a `register_handle` in progress. -/
def Owned (s : State H T) (h : H) : Prop :=
  Kept s.toShared h ∨ ∃ t pc, Frame.register h pc ∈ s.stack t

/-- Every handle that `exec` still has to use is owned, and when `exec` is about to clear
`removable_handles_` there is none. -/
structure Alive (s : State H T) : Prop where
  owned : ∀ t, ∀ f ∈ s.stack t, ∀ h ∈ f.held, Owned s h
  clear : ∀ t rest, s.stack t = .exec .clear :: rest → ∀ u, ∀ f ∈ s.stack u, f.held = []

/-! ## Where the frames of `exec` are -/

/-- Whether the frame is that of `exec`. -/
def Frame.isExec : Frame H → Bool
  | .exec _ => true
  | _ => false

/-- Whether the frame is that of `exec` or of what it calls on a handle. -/
def Frame.isLoop : Frame H → Bool
  | .exec _ | .serve _ _ => true
  | _ => false

/-- Only the runtime's thread is inside `exec`, and it has called nothing else before. -/
structure Placed (rt : T) (stack : T → List (Frame H)) : Prop where
  onLoop : ∀ t ≠ rt, ∀ f ∈ stack t, f.isLoop = false
  bottom : ∀ t, (stack t).Pairwise fun f _ => f.isExec = false

variable {W : Handles H} {sh sh' : Shared H T} {t rt : T} {f : Frame H} {fs : List (Frame H)}
  {s s' : State H T}

/-- Only frames of `exec` and of what it calls on a handle have pointers to use. -/
theorem held_of_not_isLoop (hf : f.isLoop = false) : f.held = [] := by
  cases f with
  | exec | serve => cases hf
  | register | deregister | close => rfl

/-- While the innermost frame of a thread is `exec` without pointers to use, no frame has any. -/
theorem Placed.held_eq_nil (h : Placed rt s.stack) {rest : List (Frame H)}
    (hst : s.stack t = f :: rest) (hexec : f.isExec = true) (hheld : f.held = []) :
    ∀ u, ∀ g ∈ s.stack u, g.held = [] := by
  have hloop : f.isLoop = true := by
    cases f with
    | exec => rfl
    | _ => cases hexec
  have ht : t = rt := by
    by_contra hne
    have := h.onLoop t hne f (by simp [hst])
    simp [hloop] at this
  have hrest : rest = [] := by
    have hb := h.bottom t
    rw [hst, List.pairwise_cons] at hb
    by_contra hne
    obtain ⟨g, hg⟩ := List.exists_mem_of_ne_nil rest hne
    have := hb.1 g hg
    simp [hexec] at this
  subst hrest
  -- It is the only frame of the runtime's thread, and the other threads are not in the loop.
  intro u g hg
  rcases eq_or_ne u rt with rfl | hu
  · rw [← ht, hst, List.mem_singleton] at hg
    rw [hg, hheld]
  · exact held_of_not_isLoop (h.onLoop u hu g hg)

variable [DecidableEq H]

omit [DecidableEq H] in
/-- The frame of a call other than of `exec` is not one of `exec`. -/
theorem call_frame_isLoop {c : Call H} (hc : c ≠ .exec) : (c.frame W).isLoop = false := by
  cases c with
  | exec => exact absurd rfl hc
  | register | deregister | close => rfl

omit [DecidableEq H] in
/-- A frame of `exec` is one of the loop. -/
theorem isExec_eq_false_of_not_isLoop (hf : f.isLoop = false) : f.isExec = false := by
  cases f with
  | exec => cases hf
  | _ => rfl

omit [DecidableEq H] in
/-- What `exec` calls on a handle is above it, and is not `exec`. -/
theorem serveFrames_placed (h : H) (service : Service) (pc : ExecPc H) :
    (serveFrames W h service ++ [Frame.exec pc]).Pairwise fun g _ => g.isExec = false := by
  have hserve : ∀ g ∈ serveFrames W h service, g.isExec = false := by
    intro g hg
    obtain ⟨_, rfl⟩ | rfl := mem_serveFrames hg <;> rfl
  rw [List.pairwise_append]
  exact ⟨List.pairwise_of_forall_mem_list fun g hg _ _ => hserve g hg, by simp,
    fun g hg _ _ => hserve g hg⟩

/-- The frames that a step puts in the place of one: `exec` is the outermost of them, and they are
frames of `exec` or of its calls only if that one is. -/
theorem Advance.placed (hadv : Advance W sh t f fs sh') :
    (fs.Pairwise fun g _ => g.isExec = false) ∧
      (∀ g ∈ fs, g.isExec = true → f.isExec = true) ∧
      ∀ g ∈ fs, g.isLoop = true → f.isLoop = true := by
  cases hadv with
  | execDispatch | execRead | execWrite =>
    exact ⟨serveFrames_placed _ _ _, fun _ _ _ => rfl, fun _ _ _ => rfl⟩
  | registerClosePrev | closeDeregister => simp [Call.frame, Frame.isExec, Frame.isLoop]
  | _ => simp [Frame.isExec, Frame.isLoop]

variable [DecidableEq T]

omit [DecidableEq H] in
/-- The frames of `exec` stay where they are when the frames of one thread change, if the new ones
are above those below. -/
theorem Placed.update (h : Placed rt s.stack) {l : List (Frame H)}
    (hloop : t ≠ rt → ∀ g ∈ l, g.isLoop = false)
    (hl : l.Pairwise fun g _ => g.isExec = false) : Placed rt (Function.update s.stack t l) := by
  refine ⟨fun u hu g hg => ?_, fun u => ?_⟩
  · rcases mem_update.1 hg with ⟨rfl, hnew⟩ | ⟨-, hold⟩
    · exact hloop hu g hnew
    · exact h.onLoop u hu g hold
  · rcases eq_or_ne u t with rfl | hu
    · rwa [Function.update_self]
    · rw [Function.update_of_ne hu]
      exact h.bottom u

/-- Every step leaves the frames of `exec` where they belong. -/
theorem Placed.step (h : Placed rt s.stack) (hstep : Step W rt s s') : Placed rt s'.stack := by
  cases hstep with
  | @call t c hc =>
    unfold mayCall at hc
    cases hst : s.stack t with
    | nil =>
      rw [hst] at hc
      refine h.update (fun ht g hg => ?_) (by simp)
      rw [List.mem_singleton.1 hg]
      refine call_frame_isLoop fun he => ?_
      simp [he, ht] at hc
    | cons f rest =>
      rw [hst] at hc
      have hcall : (c.frame W).isLoop = false := call_frame_isLoop (by simp_all)
      refine h.update (fun ht g hg => ?_) ?_
      · rcases List.mem_cons.1 hg with rfl | hg
        · exact hcall
        · exact h.onLoop t ht g (hst ▸ hg)
      · rw [List.pairwise_cons, ← hst]
        exact ⟨fun _ _ => isExec_eq_false_of_not_isLoop hcall, h.bottom t⟩
  | @ret t f rest hst hr =>
    have hb := h.bottom t
    rw [hst, List.pairwise_cons] at hb
    exact h.update (fun ht g hg => h.onLoop t ht g (by simp [hst, hg])) hb.2
  | @go t f rest fs sh hst hadv =>
    obtain ⟨hpair, hexec, hloop⟩ := hadv.placed
    have hb := h.bottom t
    rw [hst, List.pairwise_cons] at hb
    refine h.update (fun ht g hg => ?_) ?_
    · rcases List.mem_append.1 hg with hg | hg
      · have hf := h.onLoop t ht f (by simp [hst])
        by_contra hg'
        have := hloop g hg (by simpa using hg')
        simp [hf] at this
      · exact h.onLoop t ht g (by simp [hst, hg])
    · rw [List.pairwise_append]
      refine ⟨hpair, hb.2, fun g hg b hbr => ?_⟩
      by_contra hg'
      have := hexec g hg (by simpa using hg')
      simp [hb.1 b hbr] at this
  | @report t event events rest hst hi =>
    have hb := h.bottom t
    rw [hst, List.pairwise_cons] at hb
    refine h.update (fun ht g hg => ?_) (by rw [List.pairwise_cons]; exact hb)
    have := h.onLoop t ht (.exec (.waiting events)) (by simp [hst])
    simp [Frame.isLoop] at this
  | elsewhere => exact h

/-! ## Ownership -/

omit [DecidableEq H] [DecidableEq T] in
/-- A regular handle is kept. -/
theorem Regular.kept {h : H} (hr : Regular W sh.allHandles h) : Kept sh h := .inl ⟨_, hr⟩

omit [DecidableEq H] [DecidableEq T] in
/-- A pointer in the interest list is kept, or is being registered by the section in progress. -/
theorem Section.interest_owned (hS : Section W sh f) (hf : f.holds = true) {k : ℕ} {h : H}
    (hi : sh.interest k = some h) : Kept sh h ∨ ∃ pc, f = .register h pc := by
  cases f with
  | register x pc =>
    cases pc with
    | setRuntime | lock => cases hf
    | find => exact .inl (Fits.interest hS k h hi).2.kept
    | insert | assign =>
      -- The new handle is in the interest list before it is in `all_handles_`.
      rcases (hS.1.interest k h hi).2 with rfl | ⟨-, hr⟩
      · exact .inr ⟨_, rfl⟩
      · exact .inl hr.kept
    | _ => exact .inl (hS.1.interest k h hi).2.kept
  | deregister x pc =>
    cases pc with
    | lock => cases hf
    | find | unlock => exact .inl (Fits.interest hS k h hi).2.kept
    | push | erase => exact .inl (hS.1.interest k h hi).2.2.kept
    | _ => exact .inl (hS.1.interest k h hi).2.kept
  | exec pc =>
    cases pc with
    | copy | clear | clearing | releaseReset => exact .inl (Fits.interest hS k h hi).2.kept
    | releaseHandles | droppingHandles | releaseSockets | releaseRemovable | droppingRemovable =>
      exact absurd (Fits.interest hS k h hi).2 id
    | _ => cases hf
  | close | serve => cases hf

omit [DecidableEq H] in
/-- A pointer in the interest list is owned. -/
theorem Orderly.interest_owned (ho : Orderly W s) {k : ℕ} {h : H} (hi : s.interest k = some h) :
    Owned s h := by
  cases hm : s.mtx with
  | none => exact .inl ((ho.base hm).interest k h hi).2.kept
  | some u =>
    have hg := ho.guarded
    rw [hm] at hg
    obtain ⟨f, hmem, hf⟩ := hg.exists_holds
    rcases (ho.sections u f hmem).interest_owned hf hi with hk | ⟨pc, rfl⟩
    · exact .inl hk
    · exact .inr ⟨u, pc, hmem⟩

/-- Whether the frame is about to drop `shared_ptr`s. -/
def Frame.frees : Frame H → Bool
  | .exec .clear | .exec .releaseHandles | .exec .releaseRemovable => true
  | _ => false

omit [DecidableEq H] [DecidableEq T] in
/-- A step outside the sections leaves handles kept. -/
theorem Kept.untouched {h : H} (hk : Kept sh h) (hu : Untouched sh sh') : Kept sh' h := by
  unfold Kept
  rw [hu.allHandles, hu.removable]
  exact hk

omit [DecidableEq H] [DecidableEq T] in
/-- A step that changes one descriptor of `all_handles_` leaves handles kept, if the one that it
takes out is in `removable_handles_`. -/
theorem Kept.setHandle {h : H} (hk : Kept sh h) {fd : ℕ} {o : Option H}
    (hout : ∀ g, sh.allHandles fd = some g → g ∈ sh.removable) : Kept (sh.setHandle fd o) h := by
  rcases hk with ⟨k, hk⟩ | hk
  · rcases eq_or_ne k fd with rfl | hne
    · exact .inr (hout h hk)
    · refine .inl ⟨k, ?_⟩
      show Function.update sh.allHandles fd o k = some h
      rwa [Function.update_of_ne hne]
  · exact .inr hk

omit [DecidableEq T] in
/-- A step that drops no `shared_ptr`s leaves handles kept. -/
theorem Advance.kept (hadv : Advance W sh t f fs sh') (hS : Section W sh f)
    (hf : f.frees = false) {h : H} (hk : Kept sh h) : Kept sh' h := by
  cases hadv with
  | registerInsert => exact hk.setHandle (by simp [hS.2])
  -- What is overwritten in or erased from `all_handles_` has gone to `removable_handles_` before.
  | registerAssign =>
    obtain ⟨prev, hmem, hprev⟩ := hS.2
    refine hk.setHandle fun g hg => ?_
    rw [hprev, Option.some.injEq] at hg
    exact hg ▸ hmem
  | deregisterErase =>
    refine hk.setHandle fun g hg => ?_
    rw [hS.2.1, Option.some.injEq] at hg
    exact hg ▸ hS.2.2
  | registerPushPrev | deregisterPush =>
    exact hk.imp_right fun hk => List.mem_append_left _ hk
  | registerInsertSocket | registerUpdateSocket | registerAdd | registerModify
  | registerErasePrev | deregisterEraseSocket => simpa [Kept] using hk
  | execClear | execReleaseHandles | execReleaseRemovable => cases hf
  | _ => exact hk

omit [DecidableEq T] in
/-- A `register_handle` in progress stays so, or the handle is kept. -/
theorem Advance.register {h : H} {pc : RegisterPc H}
    (hadv : Advance W sh t (.register h pc) fs sh') (hS : RegisterSection W sh h pc) :
    (∃ pc', .register h pc' ∈ fs) ∨ Kept sh' h := by
  cases hadv with
  | registerUnlock => exact .inr (.inl ⟨_, hS.2⟩)
  | registerClosePrev => exact .inl ⟨_, List.mem_cons_of_mem _ (List.mem_singleton.2 rfl)⟩
  | _ => exact .inl ⟨_, List.mem_singleton.2 rfl⟩

/-- A step of a frame that drops no `shared_ptr`s leaves handles owned. -/
theorem Owned.go (ho : Orderly W s) {rest : List (Frame H)} (hst : s.stack t = f :: rest)
    (hadv : Advance W s.toShared t f fs sh') (hf : f.frees = false) {h : H} (hown : Owned s h) :
    Owned { s with toShared := sh', stack := Function.update s.stack t (fs ++ rest) } h := by
  have hS : Section W s.toShared f := ho.sections t f (by simp [hst])
  rcases hown with hk | ⟨u, pc, hmem⟩
  · exact .inl (hadv.kept hS hf hk)
  · -- A `register_handle` of the handle is in progress. It ends with the handle registered.
    rcases eq_or_ne u t with rfl | hu
    · rw [hst] at hmem
      rcases List.mem_cons.1 hmem with rfl | hmem
      · rcases hadv.register hS with ⟨pc', hpc⟩ | hk
        · exact .inr ⟨u, pc', mem_update.2 (.inl ⟨rfl, by simp [hpc]⟩)⟩
        · exact .inl hk
      · exact .inr ⟨u, pc, mem_update.2 (.inl ⟨rfl, by simp [hmem]⟩)⟩
    · exact .inr ⟨u, pc, mem_update.2 (.inr ⟨hu, hmem⟩)⟩

omit [DecidableEq H] in
/-- Replacing frames that are not of `register_handle` leaves handles owned. -/
theorem Owned.update {l : List (Frame H)} {h : H} (hown : Owned s h)
    (hl : ∀ x pc, Frame.register x pc ∈ s.stack t → Frame.register x pc ∈ l) :
    Owned { s with stack := Function.update s.stack t l } h := by
  rcases hown with hk | ⟨u, pc, hmem⟩
  · exact .inl hk
  · rcases eq_or_ne u t with rfl | hu
    · exact .inr ⟨u, pc, mem_update.2 (.inl ⟨rfl, hl h pc hmem⟩)⟩
    · exact .inr ⟨u, pc, mem_update.2 (.inr ⟨hu, hmem⟩)⟩

/-! ## Where the pointers come from -/

omit [DecidableEq T] in
/-- The pointers that the frames after a step have to use are those before it, or kept. -/
theorem Advance.held (hadv : Advance W sh t f fs sh') (hS : Section W sh f) :
    ∀ g ∈ fs, ∀ h ∈ g.held, h ∈ f.held ∨ Kept sh h := by
  have hserve : ∀ (x : H) (service : Service), ∀ g ∈ serveFrames W x service, ∀ h ∈ g.held,
      h = x := by
    intro x service g hg h hh
    obtain ⟨pc, rfl⟩ | rfl := mem_serveFrames hg
    · simp [Frame.held] at hh
    · simpa [Frame.held] using hh
  cases hadv with
  | execCopy =>
    -- The copy is made inside a section, where the members of `all_sockets_` are registered.
    intro g hg h hh
    rw [List.mem_singleton.1 hg] at hh
    exact .inr (Fits.sockets hS h hh).2.kept
  | execReturn =>
    intro g hg h hh
    rw [List.mem_singleton.1 hg] at hh
    exact .inl hh
  | execDispatch | execRead | execWrite =>
    intro g hg h hh
    left
    rcases List.mem_append.1 hg with hg | hg
    · simp [Frame.held, hserve _ _ g hg h hh]
    · rw [List.mem_singleton.1 hg] at hh
      first | exact List.mem_cons_of_mem _ hh | exact hh
  | registerClosePrev | closeDeregister => simp [Call.frame, Frame.held]
  | _ => simp [Frame.held]

omit [DecidableEq T] in
/-- A step that drops `shared_ptr`s leaves a frame without pointers to use. -/
theorem Advance.held_of_frees (hadv : Advance W sh t f fs sh') (hf : f.frees = true) :
    f.isExec = true ∧ f.held = [] ∧ ∀ g ∈ fs, g.held = [] := by
  cases hadv with
  | execClear | execReleaseHandles | execReleaseRemovable => simp [Frame.isExec, Frame.held]
  | _ => cases hf

/-- The step lemma: what `exec` has to use stays owned. -/
theorem owned_step (ho : Orderly W s) (hp : Placed rt s.stack)
    (h : ∀ u, ∀ g ∈ s.stack u, ∀ x ∈ g.held, Owned s x) (hstep : Step W rt s s') :
    ∀ u, ∀ g ∈ s'.stack u, ∀ x ∈ g.held, Owned s' x := by
  cases hstep with
  | @call t c hc =>
    have hold : ∀ x, Owned s x → Owned { s with
        stack := Function.update s.stack t (c.frame W :: s.stack t) } x :=
      fun x hx => hx.update fun _ _ hmem => List.mem_cons_of_mem _ hmem
    intro u g hg x hx
    rcases mem_update.1 hg with ⟨rfl, hnew⟩ | ⟨-, hstay⟩
    · rcases List.mem_cons.1 hnew with rfl | hstay
      · cases c <;> simp [Call.frame, Frame.held] at hx
      · exact hold x (h u g hstay x hx)
    · exact hold x (h u g hstay x hx)
  | @ret t f rest hst hr =>
    have hold : ∀ x, Owned s x → Owned { s with stack := Function.update s.stack t rest } x := by
      refine fun x hx => hx.update fun y pc hmem => ?_
      rw [hst] at hmem
      rcases List.mem_cons.1 hmem with rfl | hmem
      · cases hr
      · exact hmem
    intro u g hg x hx
    rcases mem_update.1 hg with ⟨rfl, hnew⟩ | ⟨-, hstay⟩
    · exact hold x (h u g (by simp [hst, hnew]) x hx)
    · exact hold x (h u g hstay x hx)
  | @go t f rest fs sh hst hadv =>
    have hS : Section W s.toShared f := ho.sections t f (by simp [hst])
    cases hf : f.frees with
    | false =>
      have hold := fun x => Owned.go (h := x) ho hst hadv hf
      intro u g hg x hx
      rcases mem_update.1 hg with ⟨rfl, hnew⟩ | ⟨-, hstay⟩
      · rcases List.mem_append.1 hnew with hnew | hstay
        · rcases hadv.held hS g hnew x hx with hx | hk
          · exact hold x (h u f (by simp [hst]) x hx)
          · exact hold x (.inl hk)
        · exact hold x (h u g (by simp [hst, hstay]) x hx)
      · exact hold x (h u g hstay x hx)
    | true =>
      -- Ownership ends here, but there is no pointer left.
      obtain ⟨hexec, hheld, hfs⟩ := hadv.held_of_frees hf
      have hnil := hp.held_eq_nil hst hexec hheld
      intro u g hg x hx
      rcases mem_update.1 hg with ⟨rfl, hnew⟩ | ⟨-, hstay⟩
      · rcases List.mem_append.1 hnew with hnew | hstay
        · simp [hfs g hnew] at hx
        · simp [hnil u g (by simp [hst, hstay])] at hx
      · simp [hnil u g hstay] at hx
  | @report t event events rest hst hi =>
    have hold : ∀ x, Owned s x → Owned { s with
        stack := Function.update s.stack t (.exec (.waiting (events ++ [event])) :: rest) } x := by
      refine fun x hx => hx.update fun y pc hmem => ?_
      rw [hst] at hmem
      rcases List.mem_cons.1 hmem with hmem | hmem
      · cases hmem
      · exact List.mem_cons_of_mem _ hmem
    intro u g hg x hx
    rcases mem_update.1 hg with ⟨rfl, hnew⟩ | ⟨-, hstay⟩
    · rcases List.mem_cons.1 hnew with rfl | hstay
      · simp only [Frame.held, List.map_append, List.map_cons, List.map_nil, List.mem_append,
          List.mem_singleton] at hx
        -- What `epoll_wait` finds next is in the interest list.
        rcases hx with hx | rfl
        · exact hold x (h u (.exec (.waiting events)) (by simp [hst]) x hx)
        · exact hold _ (ho.interest_owned hi)
      · exact hold x (h u g (by simp [hst, hstay]) x hx)
    · exact hold x (h u g hstay x hx)
  | elsewhere => exact h

/-- In every reachable state the frames of `exec` are where they belong. -/
theorem placed_reachable {c : Config (State H T) Empty}
    (h : Reachable (machine W rt) (init H T) c) : Placed rt c.state.stack := by
  refine h.invariant_step (I := fun s _ => Placed rt s.stack) ?_ ?_
  · exact ⟨fun _ _ _ hf => absurd hf List.not_mem_nil, fun _ => List.Pairwise.nil⟩
  · intro s _ a s' es hI _ hs
    exact hI.step (step_cases hs)

/-- In every reachable state, what `exec` has to use is owned. -/
theorem owned_reachable {c : Config (State H T) Empty}
    (h : Reachable (machine W rt) (init H T) c) :
    ∀ t, ∀ f ∈ c.state.stack t, ∀ x ∈ f.held, Owned c.state x := by
  refine h.invariant_of (I := fun c => ∀ t, ∀ f ∈ c.state.stack t, ∀ x ∈ f.held, Owned c.state x)
    (J := fun c => Orderly W c.state ∧ Placed rt c.state.stack)
    (fun c hc => ⟨orderly_reachable hc, placed_reachable hc⟩)
    (fun _ _ hf => absurd hf List.not_mem_nil) ?_
  rintro c a c' ⟨ho, hp⟩ - hI - hn
  obtain ⟨s', es, hs, rfl⟩ := next_eq_some _ hn
  exact owned_step ho hp hI (step_cases hs)

/-- Along every run, every handle whose pointer `exec` still has to use is owned, and where `exec`
is about to clear `removable_handles_` there is none. -/
theorem alive_always (W : Handles H) (rt : T) (as : List (Action H T)) :
    Always (machine W rt) (fun c => Alive c.state) (init H T) as := by
  refine always_of_reachable (fun c hc => ⟨owned_reachable hc, fun t rest hst => ?_⟩) .refl
  exact (placed_reachable hc).held_eq_nil hst rfl rfl

end Spinet.Registry
