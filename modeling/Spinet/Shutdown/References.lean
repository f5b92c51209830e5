import Spinet.Shutdown.Machine

/-!
# What references and `close` keep

Three facts hold of every socket in every reachable state (`Inv`). One that has been made and is
open has a reference, or is about to be closed by its destructor. One that is closed has had its
descriptor closed and has no operation left (`Shut`), or a `close` of it is under way. And an
operation that it has accepted is still in its queue, has had its callback invoked, or has been
cancelled.
-/

namespace Spinet.Shutdown

open Transition Stacks
open Registry (Handles ClosePc)

variable {H : Type} {T : Type*} [DecidableEq H]

/-- The descriptor of the handle has been closed, and no operation is left in its queues. -/
def Shut (s : Shared H) (tr : List (Event H)) (h : H) : Prop :=
  .sysClose h ∈ tr ∧ ∀ op ∈ s.pending, op.socket ≠ h

/-! ## What a step does -/

@[simp] theorem deregister_pending (sh : Shared H) (h : H) :
    (sh.deregister h).pending = sh.pending := by unfold Shared.deregister; split <;> rfl

@[simp] theorem deregister_closed (sh : Shared H) (h : H) :
    (sh.deregister h).closed = sh.closed := by unfold Shared.deregister; split <;> rfl

@[simp] theorem deregister_made (sh : Shared H) (h : H) :
    (sh.deregister h).made = sh.made := by unfold Shared.deregister; split <;> rfl

@[simp] theorem deregister_user (sh : Shared H) (h : H) :
    (sh.deregister h).user = sh.user := by unfold Shared.deregister; split <;> rfl

@[simp] theorem deregister_pc (sh : Shared H) (h : H) :
    (sh.deregister h).pc = sh.pc := by unfold Shared.deregister; split <;> rfl

namespace Shared.HasRef

variable {sh sh' : Shared H} {h : H}

omit [DecidableEq H] in
/-- A registered handle has a reference. -/
theorem registered (hr : h ∈ sh.allHandles) : sh.HasRef h := .inl hr

omit [DecidableEq H] in
/-- A handle in `removable_handles_` has a reference. -/
theorem removed (hr : h ∈ sh.removable) : sh.HasRef h := .inr (.inl hr)

omit [DecidableEq H] in
/-- A handle in a variable of user code has a reference. -/
theorem used (hr : h ∈ sh.user) : sh.HasRef h := .inr (.inr (.inl hr))

omit [DecidableEq H] in
/-- A handle that a pending operation has captured has a reference. -/
theorem captured {op : Op H} (hop : op ∈ sh.pending) (hcap : h ∈ op.captures) : sh.HasRef h :=
  .inr (.inr (.inr ⟨op, hop, hcap⟩))

omit [DecidableEq H] in
/-- References stay where nothing is taken away. -/
theorem mono (hr : sh.HasRef h) (hall : sh.allHandles ⊆ sh'.allHandles)
    (hrem : sh.removable ⊆ sh'.removable) (huser : sh.user ⊆ sh'.user)
    (hpend : sh.pending ⊆ sh'.pending) : sh'.HasRef h := by
  rcases hr with hr | hr | hr | ⟨op, hop, hcap⟩
  · exact .registered (hall hr)
  · exact .removed (hrem hr)
  · exact .used (huser hr)
  · exact .captured (hpend hop) hcap

/-- When an operation is taken from its queue, it takes along what its callback has captured. -/
theorem erase (hr : sh.HasRef h) (op : Op H) :
    Shared.HasRef { sh with pending := sh.pending.erase op } h ∨ h ∈ op.captures := by
  rcases hr with hr | hr | hr | ⟨o, ho, hcap⟩
  · exact .inl (.registered hr)
  · exact .inl (.removed hr)
  · exact .inl (.used hr)
  · rcases eq_or_ne o op with rfl | hne
    · exact .inr hcap
    · exact .inl (.captured ((List.mem_erase_of_ne hne).2 ho) hcap)

/-- A reference in `all_handles_` is kept there or goes to `removable_handles_`. -/
theorem deregister (hr : sh.HasRef h) (x : H) : (sh.deregister x).HasRef h := by
  unfold Shared.deregister
  split
  · rcases hr with hr | hr | hr | ⟨op, hop, hcap⟩
    · rcases eq_or_ne h x with rfl | hne
      · exact .removed (List.mem_append_right _ (List.mem_singleton_self _))
      · exact .registered ((List.mem_erase_of_ne hne).2 hr)
    · exact .removed (List.mem_append_left _ hr)
    · exact .used hr
    · exact .captured hop hcap
  · exact hr

/-- A reference to the handle whose place in `all_handles_` another one takes goes to
`removable_handles_`. -/
theorem registerPrev (hr : sh.HasRef h) (x prev : H) : (sh.registerPrev x prev).HasRef h := by
  rcases hr with hr | hr | hr | ⟨op, hop, hcap⟩
  · rcases eq_or_ne h prev with rfl | hne
    · exact .removed (List.mem_append_right _ (List.mem_singleton_self _))
    · exact .registered (List.mem_map.2 ⟨h, hr, if_neg hne⟩)
  · exact .removed (List.mem_append_left _ hr)
  · exact .used hr
  · exact .captured hop hcap

end Shared.HasRef

variable [DecidableEq T] {W : Handles H} {rt t : T} {s s' : State H T} {a : Action H T}
  {old new : List (Frame H)} {sh : Shared H} {es tr : List (Event H)} {h : H}

/-- A closed socket stays closed. -/
theorem Effect.closed_mono (he : Effect W rt s a t old new sh es) (hc : s.closed h = true) :
    sh.closed h = true := by
  cases he with
  | @casWon _ x _ =>
    show Function.update s.closed _ true h = true
    rcases eq_or_ne h x with rfl | hne
    · exact Function.update_self _ _ _
    · rwa [Function.update_of_ne hne]
  | lockDeregister => simpa using hc
  | _ => exact hc

/-- A handle that has been made has been made. -/
theorem Effect.made_mono (he : Effect W rt s a t old new sh es) (hm : s.made h = true) :
    sh.made h = true := by
  cases he with
  | @create _ x _ =>
    show Function.update s.made _ true h = true
    rcases eq_or_ne h x with rfl | hne
    · exact Function.update_self _ _ _
    · rwa [Function.update_of_ne hne]
  | lockDeregister => simpa using hm
  | _ => exact hm

/-- A socket is closed by the step of a `close` that finds it open. -/
theorem Effect.closed_cases (he : Effect W rt s a t old new sh es) (hc : sh.closed h = true) :
    s.closed h = true ∨ .close h .lockRuntime ∈ new := by
  cases he with
  | @casWon _ x _ =>
    rcases eq_or_ne h x with rfl | hne
    · exact .inr (by simp)
    · left
      have hc : Function.update s.closed x true h = true := hc
      rwa [Function.update_of_ne hne] at hc
  | lockDeregister => exact .inl (by simpa using hc)
  | _ => exact .inl hc

/-- The operations after a step are those before it, but for the one that an open socket accepts. -/
theorem Effect.pending_cases (he : Effect W rt s a t old new sh es) :
    ∀ op ∈ sh.pending, op ∈ s.pending ∨
      W.isSocket op.socket = true ∧ s.closed op.socket = false ∧
        (∀ g ∈ op.socket :: op.captures, g ∈ s.usable t) ∧
        a = .call t (.async op.dir op.socket op.captures) := by
  intro op hop
  cases he with
  | accepted hs hcap hc =>
    rcases List.mem_append.1 hop with hop | hop
    · exact .inl hop
    · rw [List.mem_singleton.1 hop]
      exact .inr ⟨hs, hc, hcap, rfl⟩
  | cancel => exact .inl (List.mem_filter.1 hop).1
  | drain | serve => exact .inl (List.mem_of_mem_erase hop)
  | lockDeregister => exact .inl (by simpa using hop)
  | _ => exact .inl hop

/-- An operation stays in its queue, or its callback is invoked, or it is cancelled. -/
theorem Effect.fate (he : Effect W rt s a t old new sh es) :
    ∀ op ∈ s.pending, op ∈ sh.pending ∨ .invoked op.id ∈ es ∨ .cancelled op.id ∈ es := by
  intro op hop
  cases he with
  | accepted => exact .inl (List.mem_append_left _ hop)
  | @cancel _ x _ =>
    by_cases hx : op.socket = x
    · exact .inr (.inr (List.mem_map.2 ⟨op, List.mem_filter.2 ⟨hop, by simpa using hx⟩, rfl⟩))
    · exact .inl (List.mem_filter.2 ⟨hop, by simpa using hx⟩)
  | @drain _ _ op' _ _ | @serve _ _ op' _ _ =>
    rcases eq_or_ne op op' with rfl | hne
    · exact .inr (.inl (by simp))
    · exact .inl ((List.mem_erase_of_ne hne).2 hop)
  | lockDeregister => exact .inl (by simpa using hop)
  | _ => exact .inl hop

/-- A reference that is not on a stack stays, or goes to the new frames. -/
theorem Effect.hasRef (he : Effect W rt s a t old new sh es) (hr : s.HasRef h) :
    sh.HasRef h ∨ ∃ f ∈ new, h ∈ f.refs := by
  cases he with
  | create | copy =>
    exact .inl (hr.mono (.refl _) (.refl _) (List.subset_cons_self _ _) (.refl _))
  | accepted =>
    exact .inl (hr.mono (.refl _) (.refl _) (.refl _) (List.subset_append_left _ _))
  | registerNew =>
    exact .inl (hr.mono (List.subset_append_left _ _) (.refl _) (.refl _) (.refl _))
  | registerPrev => exact .inl (hr.registerPrev _ _)
  | lockDeregister => exact .inl (hr.deregister _)
  | drain | serve => exact (hr.erase _).imp_right fun hcap => ⟨_, List.mem_cons_self, hcap⟩
  -- The rest take references away, and put them into a frame of destructors.
  | @drop _ x _ =>
    rcases hr with hr | hr | hr | ⟨o, ho, hcap⟩
    · exact .inl (.registered hr)
    · exact .inl (.removed hr)
    · rcases eq_or_ne h x with rfl | hne
      · exact .inr ⟨_, List.mem_singleton_self _, List.mem_singleton_self _⟩
      · exact .inl (.used ((List.mem_erase_of_ne hne).2 hr))
    · exact .inl (.captured ho hcap)
  | @cancel _ x _ =>
    rcases hr with hr | hr | hr | ⟨o, ho, hcap⟩
    · exact .inl (.registered hr)
    · exact .inl (.removed hr)
    · exact .inl (.used hr)
    · by_cases hx : o.socket = x
      · refine .inr ⟨_, List.mem_singleton_self _, List.mem_flatMap.2 ⟨o, ?_, hcap⟩⟩
        exact List.mem_filter.2 ⟨ho, by simpa using hx⟩
      · exact .inl (.captured (List.mem_filter.2 ⟨ho, by simpa using hx⟩) hcap)
  | clear | releaseRemovable =>
    rcases hr with hr | hr | hr | ⟨o, ho, hcap⟩
    · exact .inl (.registered hr)
    · exact .inr ⟨_, List.mem_singleton_self _, hr⟩
    · exact .inl (.used hr)
    · exact .inl (.captured ho hcap)
  | releaseHandles =>
    rcases hr with hr | hr | hr | ⟨o, ho, hcap⟩
    · exact .inr ⟨_, List.mem_singleton_self _, hr⟩
    · exact .inl (.removed hr)
    · exact .inl (.used hr)
    · exact .inl (.captured ho hcap)
  | _ => exact .inl hr

/-- The one reference that a step drops is the first of a `drop`. -/
theorem Effect.refs (he : Effect W rt s a t old new sh es) {f : Frame H} (hf : f ∈ old)
    (hr : h ∈ f.refs) : (∃ g ∈ new, h ∈ g.refs) ∨ ∃ refs, f = .drop (h :: refs) := by
  cases he with
  | ret =>
    rw [List.mem_singleton.1 hf] at hr
    exact .inl ⟨_, List.mem_singleton_self _, hr⟩
  | dropNil =>
    rw [List.mem_singleton.1 hf] at hr
    cases hr
  | dropKeep | dropLast =>
    rw [List.mem_singleton.1 hf] at hr ⊢
    rcases List.mem_cons.1 hr with rfl | hr
    · exact .inr ⟨_, rfl⟩
    · exact .inl ⟨.drop _, by simp, hr⟩
  | casLost | casWon | lockDeregister | lockAlone | sysSocket | sysAcceptor | drained | drain =>
    rw [List.mem_singleton.1 hf] at hr
    cases hr
  | _ => cases hf

omit [DecidableEq H] in
/-- A frame of the old stack is among those taken off, or stays. -/
theorem mem_stack_cases (new : List (Frame H)) {rest : List (Frame H)}
    (hst : s.stack t = old ++ rest) {u : T} {f : Frame H} (hf : f ∈ s.stack u) :
    f ∈ old ∨ f ∈ Function.update s.stack t (new ++ rest) u := by
  rcases eq_or_ne u t with rfl | hu
  · rw [hst] at hf
    refine (List.mem_append.1 hf).imp_right fun hf => ?_
    exact mem_update.2 (.inl ⟨rfl, List.mem_append_right _ hf⟩)
  · exact .inr (mem_update.2 (.inr ⟨hu, hf⟩))

/-- A referenced handle stays so, or is a socket that is about to be closed by its destructor, or an
acceptor. -/
theorem Step.referenced (hs : Step W rt s a s' es) (hr : s.Referenced h)
    (hsock : W.isSocket h = true) : s'.Referenced h ∨ ∃ u, .close h .cas ∈ s'.stack u := by
  obtain ⟨hst, he⟩ := hs
  rename_i t old new rest sh
  have hnew : ∀ f ∈ new, f ∈ Function.update s.stack t (new ++ rest) t := fun f hf =>
    mem_update.2 (.inl ⟨rfl, List.mem_append_left _ hf⟩)
  rcases hr with hr | ⟨u, f, hf, hr⟩
  · rcases he.hasRef hr with hr | ⟨f, hf, hr⟩
    · exact .inl (.inl hr)
    · exact .inl (.inr ⟨t, f, hnew f hf, hr⟩)
  · rcases mem_stack_cases new hst hf with hold | hstay
    · rcases he.refs hold hr with ⟨g, hg, hr⟩ | ⟨refs, rfl⟩
      · exact .inl (.inr ⟨t, g, hnew g hg, hr⟩)
      · -- The destructor of this reference runs. If it is the last one, it calls `close`.
        cases he with
        | @dropKeep _ _ _ rest' hst' hk =>
          obtain ⟨rfl, rfl⟩ : h = _ ∧ refs = _ := by simpa using hold
          obtain rfl : rest' = rest := by
            have := hst'.symm.trans hst
            simpa using this
          rcases hk with hk | hk
          · exact .inl hk
          · simp [hk] at hsock
        | dropLast =>
          obtain ⟨rfl, rfl⟩ : h = _ ∧ refs = _ := by simpa using hold
          exact .inr ⟨t, hnew _ List.mem_cons_self⟩
        | _ => simp at hold
    · exact .inl (.inr ⟨u, f, hstay, hr⟩)

/-! ## The frames of `close` -/

omit [DecidableEq H] [DecidableEq T] in
/-- A frame of `closeFrame` that is one of a socket is at the test of `closed_`. -/
theorem pc_of_closeFrame {x : H} {pc : ClosePc} (hsock : W.isSocket h = true)
    (hf : Frame.close h pc = closeFrame W x) : pc = .cas := by
  unfold closeFrame at hf
  obtain ⟨rfl, rfl⟩ := Frame.close.inj hf
  exact if_pos hsock

/-- Behind the test of `closed_`, a `close` of a socket is one that has found it open, or was there
before. -/
theorem Effect.close_new (he : Effect W rt s a t old new sh es) (hsock : W.isSocket h = true)
    {pc : ClosePc} (hf : .close h pc ∈ new) :
    pc = .cas ∨ sh.closed h = true ∨ ∃ pc', pc' ≠ .cas ∧ .close h pc' ∈ old := by
  cases he with
  | close | registerPrev | execClose =>
    exact .inl (pc_of_closeFrame hsock (List.mem_singleton.1 hf))
  | dropLast =>
    simp only [List.mem_cons, Frame.close.injEq, reduceCtorEq, List.not_mem_nil, or_false] at hf
    exact .inl hf.2
  | casWon =>
    obtain ⟨rfl, rfl⟩ := Frame.close.inj (List.mem_singleton.1 hf)
    exact .inr (.inl (Function.update_self _ _ _))
  | lockDeregister | lockAlone =>
    obtain ⟨rfl, rfl⟩ := Frame.close.inj (List.mem_singleton.1 hf)
    exact .inr (.inr ⟨.lockRuntime, by simp, by simp⟩)
  | sysSocket =>
    obtain ⟨rfl, rfl⟩ := Frame.close.inj (List.mem_singleton.1 hf)
    exact .inr (.inr ⟨.sysClose, by simp, by simp⟩)
  | drain =>
    simp only [List.mem_cons, Frame.close.injEq, reduceCtorEq, List.not_mem_nil, or_false,
      false_or] at hf
    obtain ⟨rfl, rfl⟩ := hf
    exact .inr (.inr ⟨.drain, by simp, by simp⟩)
  | _ => simp at hf

/-- A `close` of a socket is under way: it has closed `closed_`, and has closed the descriptor
before it takes the operations. -/
def Closing (tr : List (Event H)) (h : H) (f : Frame H) : Prop :=
  ∃ pc, f = .close h pc ∧ pc ≠ .cas ∧ (pc = .drain → .sysClose h ∈ tr)

/-- A `close` that is under way stays so until the socket is shut. -/
theorem Effect.closing (he : Effect W rt s a t old new sh es) (hsock : W.isSocket h = true)
    {f : Frame H} (hf : f ∈ old) (hc : Closing tr h f) :
    (∃ g ∈ new, Closing (tr ++ es) h g) ∨ Shut sh (tr ++ es) h := by
  obtain ⟨pc, rfl, hpc, hdrain⟩ := hc
  cases he with
  | casLost | casWon =>
    obtain ⟨rfl, rfl⟩ := Frame.close.inj (List.mem_singleton.1 hf)
    exact absurd rfl hpc
  | lockDeregister | lockAlone =>
    obtain ⟨rfl, rfl⟩ := Frame.close.inj (List.mem_singleton.1 hf)
    exact .inl ⟨_, List.mem_singleton_self _, .sysClose, rfl, by simp, by simp⟩
  | sysSocket =>
    obtain ⟨rfl, rfl⟩ := Frame.close.inj (List.mem_singleton.1 hf)
    exact .inl ⟨_, List.mem_singleton_self _, .drain, rfl, by simp, by simp⟩
  | sysAcceptor hacc =>
    obtain ⟨rfl, rfl⟩ := Frame.close.inj (List.mem_singleton.1 hf)
    simp [hacc] at hsock
  | drained hnone =>
    obtain ⟨rfl, rfl⟩ := Frame.close.inj (List.mem_singleton.1 hf)
    exact .inr ⟨List.mem_append_left _ (hdrain rfl), hnone⟩
  | drain =>
    obtain ⟨rfl, rfl⟩ := Frame.close.inj (List.mem_singleton.1 hf)
    exact .inl ⟨_, List.mem_cons_of_mem _ (List.mem_singleton_self _), .drain, rfl, by simp,
      fun _ => List.mem_append_left _ (hdrain rfl)⟩
  | _ => simp at hf

/-- The test of `closed_` leaves the socket closed. -/
theorem Effect.closed_of_cas (he : Effect W rt s a t old new sh es) (hf : .close h .cas ∈ old) :
    sh.closed h = true := by
  cases he with
  | casLost hc =>
    obtain ⟨rfl, -⟩ := Frame.close.inj (List.mem_singleton.1 hf)
    exact hc
  | casWon =>
    obtain ⟨rfl, -⟩ := Frame.close.inj (List.mem_singleton.1 hf)
    exact Function.update_self _ _ _
  | _ => simp at hf

/-- A descriptor is closed by a `close` that is there. -/
theorem Effect.sysClose_mem (he : Effect W rt s a t old new sh es) (hev : .sysClose h ∈ es) :
    .close h .sysClose ∈ old := by
  cases he with
  | sysSocket | sysAcceptor => simpa using hev
  | cancel => simp at hev
  | _ => simp at hev

/-- An operation that is accepted is pending then. -/
theorem Effect.accepted_mem (he : Effect W rt s a t old new sh es) {op : ℕ}
    (hev : .accepted op h ∈ es) : ∃ o ∈ sh.pending, o.id = op ∧ o.socket = h := by
  cases he with
  | accepted =>
    obtain ⟨rfl, rfl⟩ := Event.accepted.inj (List.mem_singleton.1 hev)
    exact ⟨_, List.mem_append_right _ (List.mem_singleton_self _), rfl, rfl⟩
  | cancel => simp at hev
  | _ => simp at hev

/-- A handle that is made is given to user code. -/
theorem Effect.made_cases (he : Effect W rt s a t old new sh es) (hm : sh.made h = true) :
    s.made h = true ∨ h ∈ sh.user := by
  cases he with
  | @create _ x _ =>
    rcases eq_or_ne h x with rfl | hne
    · exact .inr List.mem_cons_self
    · have hm : Function.update s.made x true h = true := hm
      rw [Function.update_of_ne hne] at hm
      exact .inl hm
  | lockDeregister => exact .inl (by simpa using hm)
  | _ => exact .inl hm

/-! ## Every reachable state -/

/-- What holds of the sockets in every reachable state. -/
structure Inv (W : Handles H) (s : State H T) (tr : List (Event H)) : Prop where
  /-- Only sockets accept operations. -/
  sockets : ∀ op ∈ s.pending, W.isSocket op.socket = true
  /-- A socket that is open has a reference, or its destructor is about to close it. -/
  open_referenced : ∀ h, W.isSocket h = true → s.made h = true → s.closed h = false →
    s.Referenced h ∨ ∃ t, .close h .cas ∈ s.stack t
  /-- Behind the test of `closed_`, the socket is closed. -/
  past_cas : ∀ t h pc, W.isSocket h = true → .close h pc ∈ s.stack t → pc ≠ .cas →
    s.closed h = true
  /-- A socket whose descriptor has been closed is closed. -/
  sysClose_closed : ∀ h, W.isSocket h = true → .sysClose h ∈ tr → s.closed h = true
  /-- A closed socket is shut, or a `close` of it is under way. -/
  closed_shut : ∀ h, W.isSocket h = true → s.closed h = true →
    Shut s.toShared tr h ∨ ∃ t, ∃ f ∈ s.stack t, Closing tr h f
  /-- An accepted operation is pending, or has had its callback invoked, or has been cancelled. -/
  fate : ∀ op h, .accepted op h ∈ tr → (∃ o ∈ s.pending, o.id = op ∧ o.socket = h) ∨
    .invoked op ∈ tr ∨ .cancelled op ∈ tr

/-- A socket that is shut stays shut, if it is closed. -/
theorem Effect.shut (he : Effect W rt s a t old new sh es) (hsh : Shut s.toShared tr h)
    (hclosed : W.isSocket h = true → s.closed h = true) : Shut sh (tr ++ es) h := by
  refine ⟨List.mem_append_left _ hsh.1, fun op hop hsock => ?_⟩
  rcases he.pending_cases op hop with hop | ⟨hs, hopen, -, -⟩
  · exact hsh.2 op hop hsock
  · rw [hsock] at hs hopen
    simp [hclosed hs] at hopen

/-- Every step keeps what holds of the sockets. -/
theorem Inv.step (hi : Inv W s tr) (hs : Step W rt s a s' es) : Inv W s' (tr ++ es) := by
  have href := fun (x : H) => hs.referenced (h := x)
  obtain ⟨hst, he⟩ := hs
  rename_i t old new rest sh
  have hnew : ∀ f ∈ new, f ∈ Function.update s.stack t (new ++ rest) t := fun f hf =>
    mem_update.2 (.inl ⟨rfl, List.mem_append_left _ hf⟩)
  constructor
  case sockets =>
    intro op hop
    rcases he.pending_cases op hop with hop | ⟨hs, -⟩
    · exact hi.sockets op hop
    · exact hs
  case open_referenced =>
    intro x hsock hm hopen
    have hopen₀ : s.closed x = false := by
      by_contra hc
      have := he.closed_mono (by simpa using hc)
      simp [this] at hopen
    rcases he.made_cases hm with hm | huser
    · rcases hi.open_referenced x hsock hm hopen₀ with hr | ⟨u, hf⟩
      · exact href x hr hsock
      · -- The `close` that its destructor has called stays at the test, or closes it.
        rcases mem_stack_cases new hst hf with hold | hstay
        · have := he.closed_of_cas hold
          simp [this] at hopen
        · exact .inr ⟨u, hstay⟩
    · exact .inl (.inl (.used huser))
  case past_cas =>
    intro u x pc hsock hf hpc
    rcases mem_update.1 hf with ⟨rfl, hin⟩ | ⟨-, hother⟩
    · rcases List.mem_append.1 hin with hin | hrest
      · rcases he.close_new hsock hin with hcas | hc | ⟨pc', hpc', hold⟩
        · exact absurd hcas hpc
        · exact hc
        · exact he.closed_mono (hi.past_cas u x pc' hsock (by simp [hst, hold]) hpc')
      · exact he.closed_mono (hi.past_cas u x pc hsock (by simp [hst, hrest]) hpc)
    · exact he.closed_mono (hi.past_cas u x pc hsock hother hpc)
  case sysClose_closed =>
    intro x hsock hev
    rcases List.mem_append.1 hev with hev | hev
    · exact he.closed_mono (hi.sysClose_closed x hsock hev)
    · -- `::close` is called behind the test of `closed_`.
      have hold := he.sysClose_mem hev
      exact he.closed_mono (hi.past_cas t x .sysClose hsock (by simp [hst, hold]) (by simp))
  case closed_shut =>
    intro x hsock hc
    rcases he.closed_cases hc with hc | hf
    · rcases hi.closed_shut x hsock hc with hshut | ⟨u, f, hf, hclosing⟩
      · exact .inl (he.shut hshut fun _ => hc)
      · rcases mem_stack_cases new hst hf with hold | hstay
        · rcases he.closing hsock hold hclosing with ⟨g, hg, hclosing⟩ | hshut
          · exact .inr ⟨t, g, hnew g hg, hclosing⟩
          · exact .inl hshut
        · obtain ⟨pc, rfl, hpc, hdrain⟩ := hclosing
          exact .inr ⟨u, _, hstay, pc, rfl, hpc, fun h => List.mem_append_left _ (hdrain h)⟩
    · -- It has just been closed, by a `close` that goes on from here.
      exact .inr ⟨t, _, hnew _ hf, .lockRuntime, rfl, by simp, by simp⟩
  case fate =>
    intro op x hev
    rcases List.mem_append.1 hev with hev | hev
    · rcases hi.fate op x hev with ⟨o, ho, rfl, hx⟩ | hev | hev
      · rcases he.fate o ho with ho | hev | hev
        · exact .inl ⟨o, ho, rfl, hx⟩
        · exact .inr (.inl (List.mem_append_right _ hev))
        · exact .inr (.inr (List.mem_append_right _ hev))
      · exact .inr (.inl (List.mem_append_left _ hev))
      · exact .inr (.inr (List.mem_append_left _ hev))
    · exact .inl (he.accepted_mem hev)

/-- What holds of the sockets does so in every reachable state. -/
theorem inv_of_reachable [Fintype T] {c : Config (State H T) (Event H)}
    (h : Reachable (machine W rt) (init H T) c) : Inv W c.state c.trace := by
  refine h.invariant_step (I := fun s tr => Inv W s tr) ?_ ?_
  · refine ⟨?_, ?_, ?_, ?_, ?_, ?_⟩ <;> simp [init]
  · intro s tr a s' es hi _ hs
    exact hi.step (step_cases hs)

end Spinet.Shutdown
