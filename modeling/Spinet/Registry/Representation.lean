import Spinet.Registry.Lifetime

/-!
# How a Runtime represents its handles

A handle that is registered is in up to four places: under its descriptor in `all_handles_`, in
`all_sockets_` if it is a socket, in its own `runtime_`, and not in `removable_handles_`.
`Represents` says that the four agree. It holds whenever `handles_mtx_` is free, in every run that
registers each handle at most once (`represents_of_run`).

In a section the four differ. `Mirrors` says by how much: the handles of `X` may have lost their
`runtime_` or be in `removable_handles_` already, and `all_sockets_` has the sockets of `S`.
`Mirror` gives both for every point of every section.

That a handle is registered once is what makes a handle new. From its call on until it is put into
`all_handles_`, a call of `register_handle` is `pending`; there is one at most for a handle, and the
handle is in no container (`Fresh`). Handles that have ever been in one are among those `seen`.
-/

namespace Spinet.Registry

open Transition Stacks

variable {H : Type} {T : Type*}

/-- What all the places in which a handle is registered say together. -/
structure Represents (W : Handles H) (sh : Shared H T) : Prop where
  keys : ∀ k g, sh.allHandles k = some g → W.fd g = k
  sockets : ∀ g, g ∈ sh.allSockets ↔ W.isSocket g = true ∧ ∃ k, sh.allHandles k = some g
  runtimeRef : ∀ k g, sh.allHandles k = some g → sh.runtimeRef g = true
  removable : ∀ k g, sh.allHandles k = some g → g ∉ sh.removable

/-- The places agree, except that the handles of `X` may be on their way out, and that
`all_sockets_` has the sockets of `S`. -/
structure Mirrors (W : Handles H) (sh : Shared H T) (X S : H → Prop) : Prop where
  keys : ∀ k g, sh.allHandles k = some g → W.fd g = k
  sockets : ∀ g, g ∈ sh.allSockets ↔ W.isSocket g = true ∧ S g
  runtimeRef : ∀ g, Regular W sh.allHandles g → sh.runtimeRef g = true ∨ X g
  removable : ∀ g ∈ sh.removable, Regular W sh.allHandles g → X g

/-- What holds while `handles_mtx_` is free. -/
abbrev Mirrored (W : Handles H) (sh : Shared H T) : Prop :=
  Mirrors W sh (fun _ => False) (Regular W sh.allHandles)

/-- The handle has the descriptor of `h`. -/
def SharesFd (W : Handles H) (h g : H) : Prop := W.fd g = W.fd h

/-- What holds in the section of `register_handle`. -/
def RegisterMirror (W : Handles H) (sh : Shared H T) (h : H) : RegisterPc H → Prop
  | .setRuntime | .lock => True
  | .find | .insertSocket | .pushPrev _ | .unlock => Mirrored W sh
  | .add | .insert => Mirrors W sh (fun _ => False) (NewOrRegular W sh.allHandles h)
  | .resetPrev _ | .closePrev _ | .erasePrev _ =>
    Mirrors W sh (SharesFd W h) (Regular W sh.allHandles)
  | .updateSocket => Mirrors W sh (SharesFd W h) (RegularBeside W sh.allHandles h)
  | .modify | .assign => Mirrors W sh (SharesFd W h) (NewOrRegular W sh.allHandles h)

/-- What holds in the section of `deregister_handle`. -/
def DeregisterMirror (W : Handles H) (sh : Shared H T) (h : H) : DeregisterPc → Prop
  | .lock => True
  | .find | .reset | .unlock => Mirrored W sh
  | .eraseSocket => Mirrors W sh (SharesFd W h) (Regular W sh.allHandles)
  | .delete | .push | .erase => Mirrors W sh (SharesFd W h) (RegularBeside W sh.allHandles h)

/-- What holds in the sections of `exec`. -/
def ExecMirror (W : Handles H) (sh : Shared H T) : ExecPc H → Prop
  | .copy | .clear | .clearing | .releaseReset => Mirrored W sh
  | .releaseHandles => Mirrors W sh (fun _ => True) (Regular W sh.allHandles)
  | .droppingHandles | .releaseSockets => ∀ k, sh.allHandles k = none
  | .releaseRemovable | .droppingRemovable => (∀ k, sh.allHandles k = none) ∧ sh.allSockets = []
  | _ => True

/-- What holds in the section that the frame is in. -/
def Mirror (W : Handles H) (sh : Shared H T) : Frame H → Prop
  | .register h pc => RegisterMirror W sh h pc
  | .deregister h pc => DeregisterMirror W sh h pc
  | .exec pc => ExecMirror W sh pc
  | _ => True

variable {W : Handles H} {sh sh' : Shared H T} {X X' S S' : H → Prop} {t : T} {f : Frame H}
  {fs : List (Frame H)}

/-- Outside the sections nothing is asked. -/
theorem mirror_of_not_holds (hf : f.holds = false) : Mirror W sh f := by
  cases f with
  | register x pc => cases pc <;> trivial
  | deregister x pc => cases pc <;> trivial
  | exec pc => cases pc <;> trivial
  | close | serve => trivial

/-- While the mutex is free the places agree. -/
theorem Mirrors.represents (h : Mirrored W sh) : Represents W sh where
  keys := h.keys
  sockets g := by
    rw [h.sockets g]
    refine and_congr_right fun _ => ⟨fun hg => ⟨_, hg⟩, ?_⟩
    rintro ⟨k, hg⟩
    have hk := h.keys k g hg
    unfold Regular
    rw [hk, hg]
  runtimeRef k g hg := by
    have hk := h.keys k g hg
    refine (h.runtimeRef g ?_).resolve_right id
    unfold Regular
    rw [hk, hg]
  removable k g hg hmem := by
    have hk := h.keys k g hg
    refine h.removable g hmem ?_
    unfold Regular
    rw [hk, hg]

/-- Without handles and sockets the places agree. -/
theorem mirrored_of_empty (hnone : ∀ k, sh.allHandles k = none) (hnil : sh.allSockets = []) :
    Mirrored W sh where
  keys k g hg := by rw [hnone k] at hg; cases hg
  sockets g := by simp [hnil, Regular, hnone]
  runtimeRef g hg := by unfold Regular at hg; rw [hnone] at hg; cases hg
  removable g _ hg := by unfold Regular at hg; rw [hnone] at hg; cases hg

/-! ## Steps outside the sections -/

/-- The step leaves the containers alone, and no handle that is registered loses its `runtime_`. -/
structure Spares (W : Handles H) (sh sh' : Shared H T) : Prop where
  allHandles : sh'.allHandles = sh.allHandles
  allSockets : sh'.allSockets = sh.allSockets
  removable : sh'.removable = sh.removable
  runtimeRef : ∀ g, Regular W sh.allHandles g → sh.runtimeRef g = true → sh'.runtimeRef g = true

/-- `Mirrors` survives a step that leaves the containers alone. -/
theorem Mirrors.spares (h : Mirrors W sh X S) (hs : Spares W sh sh') : Mirrors W sh' X S where
  keys k g hg := h.keys k g (hs.allHandles ▸ hg)
  sockets g := by rw [hs.allSockets]; exact h.sockets g
  runtimeRef g hg := by
    rw [hs.allHandles] at hg
    exact (h.runtimeRef g hg).imp_left (hs.runtimeRef g hg)
  removable g hmem hg := by
    rw [hs.removable] at hmem
    rw [hs.allHandles] at hg
    exact h.removable g hmem hg

/-- What holds of a section survives a step that leaves the containers alone. -/
theorem Mirror.spares (h : Mirror W sh f) (hs : Spares W sh sh') : Mirror W sh' f := by
  cases f with
  | register x pc =>
    cases pc <;> simp only [Mirror, RegisterMirror, Mirrored, hs.allHandles] at h ⊢
    all_goals exact h.spares hs
  | deregister x pc =>
    cases pc <;> simp only [Mirror, DeregisterMirror, Mirrored, hs.allHandles] at h ⊢
    all_goals exact h.spares hs
  | exec pc =>
    cases pc <;>
      simp only [Mirror, ExecMirror, Mirrored, hs.allHandles, hs.allSockets] at h ⊢
    case copy | clear | clearing | releaseReset | releaseHandles => exact h.spares hs
    all_goals exact h
  | close | serve => trivial

/-- Outside the sections a step resets no `runtime_`. -/
theorem Advance.spares [DecidableEq H] (h : Advance W sh t f fs sh') (hf : f.holds = false) :
    Spares W sh sh' := by
  have hu := h.untouched hf
  refine ⟨hu.allHandles, hu.allSockets, hu.removable, fun g _ hg => ?_⟩
  cases h with
  | @registerSet x =>
    rcases eq_or_ne g x with rfl | hne
    · simp [Shared.setRuntimeRef]
    · simpa [Shared.setRuntimeRef, hne] using hg
  | registerLock | deregisterLock | execCopyLock | execClearLock | execReleaseLock | closeSocket
  | closeAcceptor | closeLost | closeWon | closeDeregister | closeAlone | execWait | execLeave
  | execReturn | execDispatched | execDispatch | execSwept | execRead | execWrite => exact hg
  | _ => cases hf

/-! ## Steps of a section -/

@[simp] theorem epollAdd_runtimeRef (fd : ℕ) (h : H) (ok : Bool) :
    (sh.epollAdd fd h ok).runtimeRef = sh.runtimeRef := by unfold Shared.epollAdd; split <;> rfl

@[simp] theorem epollMod_runtimeRef (fd : ℕ) (h : H) :
    (sh.epollMod fd h).runtimeRef = sh.runtimeRef := by unfold Shared.epollMod; split <;> rfl

/-- `EPOLL_CTL_ADD` leaves the containers alone. -/
theorem spares_epollAdd (fd : ℕ) (h : H) (ok : Bool) : Spares W sh (sh.epollAdd fd h ok) :=
  ⟨by simp, by simp, by simp, fun g _ hg => by simpa using hg⟩

/-- `EPOLL_CTL_MOD` leaves the containers alone. -/
theorem spares_epollMod (fd : ℕ) (h : H) : Spares W sh (sh.epollMod fd h) :=
  ⟨by simp, by simp, by simp, fun g _ hg => by simpa using hg⟩

/-- `EPOLL_CTL_DEL` leaves the containers alone. -/
theorem spares_setInterest (fd : ℕ) (h : Option H) : Spares W sh (sh.setInterest fd h) :=
  ⟨rfl, rfl, rfl, fun _ _ hg => hg⟩

/-- A step that changes the owner of the mutex leaves the containers alone. -/
theorem spares_mtx (o : Option T) : Spares W sh { sh with mtx := o } :=
  ⟨rfl, rfl, rfl, fun _ _ hg => hg⟩

/-- The handle under the descriptor of `h` has that descriptor. -/
theorem Mirrors.sharesFd (hm : Mirrors W sh X S) {h prev : H}
    (hprev : sh.allHandles (W.fd h) = some prev) : SharesFd W h prev := hm.keys _ _ hprev

/-- Pushing a handle to `removable_handles_` that may be there. -/
theorem Mirrors.push (hm : Mirrors W sh X S) {prev : H} (hX : ∀ g, X g → X' g) (hprev : X' prev) :
    Mirrors W { sh with removable := sh.removable ++ [prev] } X' S where
  keys := hm.keys
  sockets := hm.sockets
  runtimeRef g hg := (hm.runtimeRef g hg).imp_right (hX g)
  removable g hmem hg := by
    rcases List.mem_append.1 hmem with hmem | hmem
    · exact hX g (hm.removable g hmem hg)
    · rw [List.mem_singleton.1 hmem]
      exact hprev

/-- Putting the new handle into `all_handles_` ends the exceptions made for its descriptor. -/
theorem Mirrors.setHandle_some {h : H} (hm : Mirrors W sh X (NewOrRegular W sh.allHandles h))
    (hX : ∀ g, X g → SharesFd W h g) (hnew : h ∉ sh.removable) (href : sh.runtimeRef h = true) :
    Mirrored W (sh.setHandle (W.fd h) (some h)) where
  keys k g hg := by
    rcases eq_or_ne k (W.fd h) with rfl | hk
    · have hg : h = g := by simpa [Shared.setHandle] using hg
      rw [hg]
    · exact hm.keys k g (by simpa [Shared.setHandle, hk] using hg)
  sockets g := (hm.sockets g).trans (and_congr_right fun _ => regular_update_some.symm)
  runtimeRef g hg := by
    rcases regular_update_some.1 hg with rfl | ⟨hfd, hg⟩
    · exact .inl href
    · exact (hm.runtimeRef g hg).imp_right fun hx => hfd (hX g hx)
  removable g hmem hg := by
    rcases regular_update_some.1 hg with rfl | ⟨hfd, hg⟩
    · exact hnew hmem
    · exact hfd (hX g (hm.removable g hmem hg))

/-- Taking the descriptor out of `all_handles_` ends the exceptions made for it. -/
theorem Mirrors.setHandle_none {h : H}
    (hm : Mirrors W sh (SharesFd W h) (RegularBeside W sh.allHandles h)) :
    Mirrored W (sh.setHandle (W.fd h) none) where
  keys k g hg := by
    rcases eq_or_ne k (W.fd h) with rfl | hk
    · simp [Shared.setHandle] at hg
    · exact hm.keys k g (by simpa [Shared.setHandle, hk] using hg)
  sockets g := (hm.sockets g).trans (and_congr_right fun _ => regular_update_none.symm)
  runtimeRef g hg := by
    obtain ⟨hfd, hg⟩ := regular_update_none.1 hg
    exact (hm.runtimeRef g hg).imp_right hfd
  removable g hmem hg := by
    obtain ⟨hfd, hg⟩ := regular_update_none.1 hg
    exact hfd (hm.removable g hmem hg)

variable [DecidableEq H]

@[simp] theorem insertSocket_runtimeRef (h : H) :
    (sh.insertSocket W h).runtimeRef = sh.runtimeRef := by unfold Shared.insertSocket; split <;> rfl

@[simp] theorem eraseSocket_runtimeRef (h : H) :
    (sh.eraseSocket W h).runtimeRef = sh.runtimeRef := by unfold Shared.eraseSocket; split <;> rfl

/-- Inserting a handle into `all_sockets_`. -/
theorem Mirrors.insertSocket (hm : Mirrors W sh X S) {h : H} (hS : ∀ g, S' g ↔ g = h ∨ S g) :
    Mirrors W (sh.insertSocket W h) X S' where
  keys k g hg := hm.keys k g (by simpa using hg)
  sockets g := by
    rw [mem_insertSocket, hm.sockets g, hS g, and_or_left, or_comm]
    refine or_congr_left ⟨?_, ?_⟩
    · rintro ⟨rfl, hs⟩
      exact ⟨hs, rfl⟩
    · rintro ⟨hs, rfl⟩
      exact ⟨rfl, hs⟩
  runtimeRef g hg := by
    rw [insertSocket_allHandles] at hg
    rw [insertSocket_runtimeRef]
    exact hm.runtimeRef g hg
  removable g hmem hg := by
    rw [insertSocket_allHandles] at hg
    rw [insertSocket_removable] at hmem
    exact hm.removable g hmem hg

/-- Erasing the handle of a descriptor from `all_sockets_` leaves those of the others. -/
theorem Mirrors.eraseSocket (hm : Mirrors W sh X (Regular W sh.allHandles)) {h prev : H}
    (hprev : sh.allHandles (W.fd h) = some prev) :
    Mirrors W (sh.eraseSocket W prev) X (RegularBeside W sh.allHandles h) where
  keys k g hg := hm.keys k g (by simpa using hg)
  sockets g := by
    rw [mem_eraseSocket, hm.sockets g, and_assoc]
    refine and_congr_right fun hs => ⟨?_, ?_⟩
    · rintro ⟨hreg, hne⟩
      refine ⟨hreg.fd_ne ?_, hreg⟩
      rw [hprev]
      rintro ⟨rfl⟩
      exact hne hs rfl
    · rintro ⟨hfd, hreg⟩
      refine ⟨hreg, ?_⟩
      rintro - rfl
      exact hfd (hm.sharesFd hprev)
  runtimeRef g hg := by
    rw [eraseSocket_allHandles] at hg
    rw [eraseSocket_runtimeRef]
    exact hm.runtimeRef g hg
  removable g hmem hg := by
    rw [eraseSocket_allHandles] at hg
    rw [eraseSocket_removable] at hmem
    exact hm.removable g hmem hg

/-- Resetting `runtime_` of a handle that may be without. -/
theorem Mirrors.reset (hm : Mirrors W sh X S) {prev : H} (hX : ∀ g, X g → X' g)
    (hprev : X' prev) : Mirrors W (sh.setRuntimeRef prev false) X' S where
  keys := hm.keys
  sockets := hm.sockets
  runtimeRef g hg := by
    rcases eq_or_ne g prev with rfl | hne
    · exact .inr hprev
    · simpa [Shared.setRuntimeRef, hne] using (hm.runtimeRef g hg).imp_right (hX g)
  removable g hmem hg := hX g (hm.removable g hmem hg)

/-- What a call of `register_handle` knows of its handle until it has put it into `all_handles_`:
it is in no container, and once `runtime_` is set it stays so. -/
structure IsNew (sh : Shared H T) (h : H) (pc : RegisterPc H) : Prop where
  kept : ¬ Kept sh h
  runtimeRef : pc ≠ .setRuntime → sh.runtimeRef h = true

/-- The steps of `register_handle` keep what holds in its section. -/
theorem advanceRegister_mirror {h : H} {pc : RegisterPc H}
    (hadv : Advance W sh t (.register h pc) fs sh') (hS : RegisterSection W sh h pc)
    (hM : RegisterMirror W sh h pc) (hB : sh.mtx = none → Mirrored W sh)
    (hnew : pc ≠ .unlock → IsNew sh h pc) : ∀ g ∈ fs, Mirror W sh' g := by
  -- The places in which the new handle is put one after the other.
  have hassign : ∀ X : H → Prop, (∀ g, X g → SharesFd W h g) → pc ≠ .unlock → pc ≠ .setRuntime →
      Mirrors W sh X (NewOrRegular W sh.allHandles h) →
      Mirrored W (sh.setHandle (W.fd h) (some h)) := fun X hX hne hset hm =>
    hm.setHandle_some hX (fun hmem => (hnew hne).kept (.inr hmem)) ((hnew hne).runtimeRef hset)
  cases hadv with
  | registerSet => simp [Mirror, RegisterMirror]
  | registerLock hm => simpa [Mirror, RegisterMirror] using (hB hm).spares (spares_mtx _)
  | registerNew => simpa [Mirror, RegisterMirror] using hM
  | registerInsertSocket =>
    obtain ⟨-, hnone⟩ := hS
    simp only [List.mem_singleton, forall_eq, Mirror, RegisterMirror]
    refine Mirrors.insertSocket hM fun g => ?_
    simp only [insertSocket_allHandles, NewOrRegular]
    refine or_congr_right (and_iff_right_of_imp fun hg => hg.fd_ne ?_)
    simp [hnone]
  | registerAdd ok =>
    simpa [Mirror, RegisterMirror] using Mirrors.spares hM (spares_epollAdd _ _ ok)
  | registerInsert =>
    simpa [Mirror, RegisterMirror] using
      hassign _ (fun _ => False.elim) (by simp) (by simp) hM
  | registerPrev => simpa [Mirror, RegisterMirror] using hM
  | registerPushPrev =>
    obtain ⟨-, hprev⟩ := hS
    simpa [Mirror, RegisterMirror] using
      Mirrors.push hM (fun _ => False.elim) (Mirrors.sharesFd hM hprev)
  | registerResetPrev =>
    obtain ⟨-, -, hprev⟩ := hS
    simp only [List.mem_singleton, forall_eq]
    exact Mirrors.reset hM (fun _ => id) (Mirrors.sharesFd hM hprev)
  | @registerClosePrev _ prev =>
    -- The frame of `close` goes on top of the section, and is itself outside of one.
    have hc : Mirror W sh ((Call.close prev).frame W) := mirror_of_not_holds (by simp)
    simpa [hc] using show Mirror W sh (.register h (.erasePrev prev)) from hM
  | registerErasePrev =>
    obtain ⟨-, -, hprev⟩ := hS
    simpa [Mirror, RegisterMirror] using Mirrors.eraseSocket hM hprev
  | registerUpdateSocket =>
    simp only [List.mem_singleton, forall_eq, Mirror, RegisterMirror]
    refine Mirrors.insertSocket hM fun g => ?_
    simp only [insertSocket_allHandles]
    exact Iff.rfl
  | registerModify =>
    simpa [Mirror, RegisterMirror] using Mirrors.spares hM (spares_epollMod _ _)
  | registerAssign =>
    simpa [Mirror, RegisterMirror] using hassign _ (fun _ => id) (by simp) (by simp) hM
  | registerUnlock => simp

/-- The steps of `deregister_handle` keep what holds in its section. -/
theorem advanceDeregister_mirror {h : H} {pc : DeregisterPc}
    (hadv : Advance W sh t (.deregister h pc) fs sh') (hS : DeregisterSection W sh h pc)
    (hM : DeregisterMirror W sh h pc) (hB : sh.mtx = none → Mirrored W sh) :
    ∀ g ∈ fs, Mirror W sh' g := by
  cases hadv with
  | deregisterLock hm => simpa [Mirror, DeregisterMirror] using (hB hm).spares (spares_mtx _)
  | deregisterFound | deregisterOther => simpa [Mirror, DeregisterMirror] using hM
  | deregisterReset =>
    simp only [List.mem_singleton, forall_eq]
    exact Mirrors.reset hM (fun _ => False.elim) rfl
  | deregisterEraseSocket =>
    simpa [Mirror, DeregisterMirror] using Mirrors.eraseSocket hM hS.2
  | deregisterDelete =>
    simp only [List.mem_singleton, forall_eq]
    exact Mirrors.spares hM (spares_setInterest _ _)
  | deregisterPush => simpa [Mirror, DeregisterMirror] using Mirrors.push hM (fun _ => id) rfl
  | deregisterErase => simpa [Mirror, DeregisterMirror] using Mirrors.setHandle_none hM
  | deregisterUnlock => simp

/-- The steps of `exec` keep what holds in its sections. -/
theorem advanceExec_mirror {pc : ExecPc H} (hadv : Advance W sh t (.exec pc) fs sh')
    (hM : ExecMirror W sh pc) (hB : sh.mtx = none → Mirrored W sh) : ∀ g ∈ fs, Mirror W sh' g := by
  cases hadv with
  | execCopyLock hm | execClearLock hm | execReleaseLock hm =>
    simpa [Mirror, ExecMirror] using (hB hm).spares (spares_mtx _)
  | execClear =>
    simp only [List.mem_singleton, forall_eq]
    exact ⟨hM.keys, hM.sockets, hM.runtimeRef, fun g hmem => absurd hmem List.not_mem_nil⟩
  | execReleaseReset =>
    simp only [List.mem_singleton, forall_eq]
    exact ⟨hM.keys, hM.sockets, fun _ _ => .inr trivial, fun _ _ _ => trivial⟩
  | execReleaseHandles => simp [Mirror, ExecMirror]
  | execHandlesDropped => simpa [Mirror, ExecMirror] using hM
  | execReleaseSockets => simpa [Mirror, ExecMirror] using hM
  | execReleaseRemovable => simpa [Mirror, ExecMirror] using hM
  | execDispatch | execRead | execWrite =>
    intro g hg
    rcases List.mem_append.1 hg with hg | hg
    · exact mirror_of_not_holds (serveFrames_holds hg)
    · rw [List.mem_singleton.1 hg]
      trivial
  | _ => simp [Mirror, ExecMirror]

/-- What is known of the handle that a frame registers. -/
def Novel (sh : Shared H T) : Frame H → Prop
  | .register _ .unlock => True
  | .register h pc => IsNew sh h pc
  | _ => True

/-- A step keeps what holds in the section of its frame, and enters a section where that holds. -/
theorem Advance.mirror (hadv : Advance W sh t f fs sh') (hS : Section W sh f)
    (hM : Mirror W sh f) (hN : Novel sh f) (hB : sh.mtx = none → Mirrored W sh) :
    ∀ g ∈ fs, Mirror W sh' g := by
  cases f with
  | register x pc =>
    refine advanceRegister_mirror hadv hS hM hB fun hne => ?_
    cases pc with
    | unlock => exact absurd rfl hne
    | _ => exact hN
  | deregister => exact advanceDeregister_mirror hadv hS hM hB
  | exec => exact advanceExec_mirror hadv hM hB
  | serve => cases hadv
  | close =>
    cases hadv with
    | closeDeregister => simp [Mirror, DeregisterMirror]
    | closeLost | closeAcceptor => simp
    | closeWon | closeAlone | closeSocket => simp [Mirror]

/-- A step that leaves a section does so where the places agree. -/
theorem Advance.mirrored (hadv : Advance W sh t f fs sh') (hM : Mirror W sh f)
    (hf : f.holds = true) (hfs : ∀ g ∈ fs, g.holds = false) : Mirrored W sh' := by
  cases hadv with
  | registerUnlock | deregisterUnlock | execCopy | execCleared =>
    exact Mirrors.spares hM (spares_mtx _)
  | execRemovableDropped => exact mirrored_of_empty hM.1 hM.2
  -- The section goes on below the `close` that it calls.
  | registerClosePrev => simp [Frame.holds] at hfs
  | registerSet | registerLock | deregisterLock | closeLost | closeWon | closeDeregister
  | closeAlone | closeSocket | closeAcceptor | execWait | execLeave | execReturn | execDispatched
  | execDispatch | execCopyLock | execSwept | execRead | execWrite | execClearLock
  | execReleaseLock => cases hf
  | _ => simp [Frame.holds] at hfs

/-! ## Handles are new when they are registered -/

/-- Whether the frame is a call of `register_handle` that has not put the handle into `all_handles_`
yet. -/
def Frame.pending (h : H) : Frame H → Bool
  | .register _ .unlock => false
  | .register g _ => decide (g = h)
  | _ => false

/-- What is pending is a call of `register_handle`. -/
theorem pending_cases {h : H} (hf : f.pending h = true) :
    ∃ pc, f = .register h pc ∧ pc ≠ .unlock := by
  cases f with
  | register g pc =>
    cases pc with
    | unlock => cases hf
    | _ =>
      obtain rfl : g = h := by simpa [Frame.pending] using hf
      exact ⟨_, rfl, by simp⟩
  | _ => cases hf

/-- A call of `register_handle` that is not about to return is pending. -/
theorem pending_register {h : H} {pc : RegisterPc H} (hpc : pc ≠ .unlock) :
    (Frame.register h pc).pending h = true := by
  cases pc with
  | unlock => exact absurd rfl hpc
  | _ => simp [Frame.pending]

/-- Each handle has one pending call at most, which knows it as new, and the handles of the calls
and of the containers are among those seen. -/
structure Fresh [DecidableEq T] (seen : List H) (s : State H T) : Prop where
  pending : ∀ h, ∃ o, Guarded (Frame.pending h) o s.stack
  novel : ∀ t, ∀ f ∈ s.stack t, Novel s.toShared f
  calls : ∀ t h pc, .register h pc ∈ s.stack t → h ∈ seen
  kept : ∀ h, Kept s.toShared h → h ∈ seen

/-- A step does not begin to register a handle, and it ends that by putting the handle into
`all_handles_`. -/
theorem Advance.pending (hadv : Advance W sh t f fs sh') (h : H) :
    fs.countP (Frame.pending h) = [f].countP (Frame.pending h) ∨
      fs.countP (Frame.pending h) + 1 = [f].countP (Frame.pending h) := by
  have hclose : ∀ x, ((Call.close x).frame W).pending h = false := fun _ => rfl
  cases hadv with
  | @registerInsert x | @registerAssign x =>
    rcases eq_or_ne x h with rfl | hne
    · right; simp [Frame.pending]
    · left; simp [Frame.pending, hne]
  | execDispatch | execRead | execWrite =>
    left
    rw [List.countP_append, List.countP_eq_zero.2 fun g hg => ?_]
    · rfl
    · obtain ⟨pc, rfl⟩ | rfl := mem_serveFrames hg <;> simp [Frame.pending]
  | registerClosePrev =>
    left
    rw [List.countP_cons_of_neg (by simp [hclose])]
    rfl
  | _ => exact .inl rfl

omit [DecidableEq H] in
/-- Containers that have lost handles have no new ones. -/
theorem Kept.of_subset {h : H} (hk : Kept sh' h)
    (hh : ∀ k, sh'.allHandles k = some h → sh.allHandles k = some h)
    (hr : h ∈ sh'.removable → h ∈ sh.removable) : Kept sh h := by
  rcases hk with ⟨k, hk⟩ | hmem
  · exact .inl ⟨k, hh k hk⟩
  · exact .inr (hr hmem)

/-- A step puts no handle into the containers that was in none of them, except by the end of a
pending call. -/
theorem Advance.kept_of_kept (hadv : Advance W sh t f fs sh') (hS : Section W sh f) {h : H}
    (hk : Kept sh' h) : Kept sh h ∨ f = .register h .insert ∨ f = .register h .assign := by
  cases hadv with
  | @registerInsert x | @registerAssign x =>
    rcases hk with ⟨k, hk⟩ | hmem
    · rcases eq_or_ne k (W.fd x) with rfl | hne
      · obtain rfl : x = h := by simpa [Shared.setHandle] using hk
        simp
      · exact .inl (.inl ⟨k, by simpa [Shared.setHandle, hne] using hk⟩)
    · exact .inl (.inr hmem)
  | @registerPushPrev x prev =>
    rcases hk with ⟨k, hk⟩ | hmem
    · exact .inl (.inl ⟨k, hk⟩)
    · rcases List.mem_append.1 hmem with hmem | hmem
      · exact .inl (.inr hmem)
      · rw [List.mem_singleton.1 hmem]
        exact .inl (.inl ⟨_, hS.2⟩)
  | deregisterPush =>
    rcases hk with ⟨k, hk⟩ | hmem
    · exact .inl (.inl ⟨k, hk⟩)
    · rcases List.mem_append.1 hmem with hmem | hmem
      · exact .inl (.inr hmem)
      · rw [List.mem_singleton.1 hmem]
        exact .inl (.inl ⟨_, hS.2⟩)
  | @deregisterErase x =>
    refine .inl (hk.of_subset (fun k hk => ?_) id)
    rcases eq_or_ne k (W.fd x) with rfl | hne
    · simp [Shared.setHandle] at hk
    · simpa [Shared.setHandle, hne] using hk
  | execReleaseHandles => exact .inl (hk.of_subset (fun k hk => by cases hk) id)
  | execClear | execReleaseRemovable =>
    exact .inl (hk.of_subset (fun _ => id) fun hmem => absurd hmem List.not_mem_nil)
  | registerInsertSocket | registerErasePrev | registerUpdateSocket | deregisterEraseSocket
  | registerAdd | registerModify =>
    exact .inl (hk.of_subset (fun k hk => by simpa using hk) fun hmem => by simpa using hmem)
  | _ => exact .inl (hk.of_subset (fun _ => id) id)

/-- A step resets `runtime_` of a handle only if it is in a container. -/
theorem Advance.runtimeRef (hadv : Advance W sh t f fs sh') (hS : Section W sh f) {h : H}
    (hk : ¬ Kept sh h) (href : sh.runtimeRef h = true) : sh'.runtimeRef h = true := by
  cases hadv with
  | @registerSet x =>
    rcases eq_or_ne h x with rfl | hne
    · simp [Shared.setRuntimeRef]
    · simpa [Shared.setRuntimeRef, hne] using href
  | @registerResetPrev x prev =>
    have hne : h ≠ prev := by rintro rfl; exact hk (.inl ⟨_, hS.2.2⟩)
    simpa [Shared.setRuntimeRef, hne] using href
  | @deregisterReset x =>
    have hne : h ≠ x := by rintro rfl; exact hk (.inl ⟨_, hS.2⟩)
    simpa [Shared.setRuntimeRef, hne] using href
  | execReleaseReset =>
    have hne : sh.allHandles (W.fd h) ≠ some h := fun he => hk (.inl ⟨_, he⟩)
    simpa [Shared.releaseReset, hne] using href
  | registerInsertSocket | registerErasePrev | registerUpdateSocket | deregisterEraseSocket
  | registerAdd | registerModify => simpa using href
  | _ => exact href

/-- The calls of `register_handle` among the frames after a step are the one that takes it. -/
theorem Advance.register_of_mem (hadv : Advance W sh t f fs sh') {h : H} {pc : RegisterPc H}
    (hmem : .register h pc ∈ fs) : ∃ pc', f = .register h pc' := by
  have hserve : ∀ x service, Frame.register h pc ∉ serveFrames W x service := by
    intro x service hmem
    obtain ⟨pc', he⟩ | he := mem_serveFrames hmem <;> cases he
  cases f with
  | register x pcx =>
    suffices h = x from ⟨pcx, by rw [this]⟩
    cases hadv with
    | registerClosePrev =>
      rcases List.mem_cons.1 hmem with he | hmem
      · cases he
      · simp_all
    | _ => simp_all
  | deregister | close => cases hadv <;> simp at hmem
  | serve => cases hadv
  | exec => cases hadv <;> simp [hserve] at hmem

/-- What a call knows of its handle it knows after a step that does not put that into
`all_handles_`. -/
theorem IsNew.step {h : H} {pc : RegisterPc H} (hn : IsNew sh h pc)
    (hadv : Advance W sh t f fs sh') (hS : Section W sh f) (hinsert : f ≠ .register h .insert)
    (hassign : f ≠ .register h .assign) : IsNew sh' h pc where
  kept hk := by
    rcases hadv.kept_of_kept hS hk with hk | he | he
    · exact hn.kept hk
    · exact hinsert he
    · exact hassign he
  runtimeRef hpc := hadv.runtimeRef hS hn.kept (hn.runtimeRef hpc)

omit [DecidableEq H] in
/-- What is known of a new handle is what is asked of its frame. -/
theorem IsNew.novel {h : H} {pc : RegisterPc H} (hn : IsNew sh h pc) :
    Novel sh (.register h pc) := by
  cases pc with
  | unlock => trivial
  | _ => exact hn

omit [DecidableEq H] in
/-- What is asked of the frame of a call is what is known of its handle, until the call returns. -/
theorem Novel.isNew {h : H} {pc : RegisterPc H} (hN : Novel sh (.register h pc))
    (hpc : pc ≠ .unlock) : IsNew sh h pc := by
  cases pc with
  | unlock => exact absurd rfl hpc
  | _ => exact hN

/-- What the call that takes a step knows after it. -/
theorem Advance.novel (hadv : Advance W sh t f fs sh') (hS : Section W sh f) (hN : Novel sh f) :
    ∀ g ∈ fs, Novel sh' g := by
  intro g hg
  cases g with
  | register h pc =>
    obtain ⟨pc', rfl⟩ := hadv.register_of_mem hg
    by_cases hlast : pc' = .insert ∨ pc' = .assign
    · -- The handle is in its place, and the call is about to return.
      obtain rfl : pc = .unlock := by
        rcases hlast with rfl | rfl <;> cases hadv <;> simpa using hg
      trivial
    · have hne : pc' ≠ .unlock := by rintro rfl; cases hadv; cases hg
      obtain ⟨hinsert, hassign⟩ := not_or.1 hlast
      have hn : IsNew sh' h pc' := (hN.isNew hne).step hadv hS (by simpa) (by simpa)
      refine IsNew.novel ⟨hn.kept, fun _ => ?_⟩
      by_cases hset : pc' = .setRuntime
      · subst hset
        cases hadv
        simp [Shared.setRuntimeRef]
      · exact hn.runtimeRef hset
  | _ => trivial

/-- A handle keeps its places, and is not put into `removable_handles_`. -/
structure KeepsPlaces (sh sh' : Shared H T) (g : H) : Prop where
  allHandles : ∀ k, sh.allHandles k = some g → sh'.allHandles k = some g
  allSockets : g ∈ sh.allSockets → g ∈ sh'.allSockets
  runtimeRef : sh.runtimeRef g = true → sh'.runtimeRef g = true
  removable : g ∈ sh'.removable → g ∈ sh.removable

/-- No step of `deregister_handle` takes another handle than its own out of its places. -/
theorem Advance.keepsPlaces {h g : H} {pc : DeregisterPc}
    (hadv : Advance W sh t (.deregister h pc) fs sh') (hS : DeregisterSection W sh h pc)
    (hne : g ≠ h) : KeepsPlaces sh sh' g := by
  cases hadv with
  | deregisterReset =>
    exact ⟨fun _ => id, id, fun href => by simpa [Shared.setRuntimeRef, hne] using href, id⟩
  | deregisterEraseSocket =>
    refine ⟨fun k hk => by simpa using hk, fun hmem => ?_, fun href => by simpa using href,
      fun hmem => by simpa using hmem⟩
    exact mem_eraseSocket.2 ⟨hmem, fun _ => hne⟩
  | deregisterPush => exact ⟨fun _ => id, id, id, fun hmem => by simpa [hne] using hmem⟩
  | deregisterErase =>
    refine ⟨fun k hk => ?_, id, id, id⟩
    -- What is erased is the handle itself: `find` has seen it there, and the section goes on.
    obtain ⟨-, hh, -⟩ := hS
    have hk' : k ≠ W.fd h := by
      rintro rfl
      rw [hh] at hk
      exact hne (Option.some.inj hk).symm
    simpa [Shared.setHandle, hk'] using hk
  | _ => exact ⟨fun _ => id, id, id, id⟩

/-! ## Every run -/

variable [DecidableEq T] {rt : T} {s s' : State H T} {seen seen' : List H}

/-- A step of the innermost frame of a thread keeps what is known of new handles. -/
theorem Fresh.go (hf : Fresh seen s) (ho : Orderly W s) {rest : List (Frame H)}
    (hst : s.stack t = f :: rest) (hadv : Advance W s.toShared t f fs sh') :
    Fresh seen { s with toShared := sh', stack := Function.update s.stack t (fs ++ rest) } := by
  have hmem : f ∈ s.stack t := by simp [hst]
  have hS : Section W s.toShared f := ho.sections t f hmem
  refine ⟨fun h => ?_, fun u g hg => ?_, fun u h pc hg => ?_, fun h hk => ?_⟩
  · obtain ⟨o, hguard⟩ := hf.pending h
    have hcount : (s.stack t).countP (Frame.pending h)
        = [f].countP (Frame.pending h) + rest.countP (Frame.pending h) := by
      rw [hst, ← List.countP_append, List.singleton_append]
    rcases hadv.pending h with hc | hc
    · exact ⟨o, hguard.keep (by rw [hcount, List.countP_append, hc])⟩
    · exact ⟨none, hguard.release (by rw [hcount, List.countP_append]; omega)⟩
  · rcases mem_replace hst hg with ⟨-, hnew⟩ | ⟨hg, hrest⟩
    · exact hadv.novel hS (hf.novel _ _ hmem) g hnew
    · cases g with
      | register h pc =>
        by_cases hpc : pc = .unlock
        · subst hpc
          trivial
        · -- A frame that stays is the only one that registers its handle.
          obtain ⟨o, hguard⟩ := hf.pending h
          have hnot := hguard.only hst hg hrest (pending_register hpc)
          refine (((hf.novel u _ hg).isNew hpc).step hadv hS ?_ ?_).novel <;>
          · rintro rfl
            simp [Frame.pending] at hnot
      | _ => trivial
  · rcases mem_replace hst hg with ⟨-, hnew⟩ | ⟨hg, -⟩
    · obtain ⟨pc', rfl⟩ := hadv.register_of_mem hnew
      exact hf.calls t h pc' hmem
    · exact hf.calls u h pc hg
  · rcases hadv.kept_of_kept hS hk with hk | rfl | rfl
    · exact hf.kept h hk
    · exact hf.calls t h _ hmem
    · exact hf.calls t h _ hmem

omit [DecidableEq T] in
/-- What is known of a new handle survives a step that leaves the containers alone. -/
theorem Novel.spares (hN : Novel sh f) (hk : ∀ h, Kept sh' h → Kept sh h)
    (href : ∀ h pc, f = .register h pc → sh.runtimeRef h = true → sh'.runtimeRef h = true) :
    Novel sh' f := by
  cases f with
  | register h pc =>
    by_cases hpc : pc = .unlock
    · subst hpc
      trivial
    · have hn := hN.isNew hpc
      exact IsNew.novel
        ⟨fun h' => hn.kept (hk h h'), fun hset => href h pc rfl (hn.runtimeRef hset)⟩
  | _ => trivial

/-- A step that changes only frames of a thread that are not calls of `register_handle` keeps what
is known of new handles. -/
theorem Fresh.update (hf : Fresh seen s) {l : List (Frame H)}
    (hl : ∀ h, l.countP (Frame.pending h) = (s.stack t).countP (Frame.pending h))
    (hmem : ∀ h pc, .register h pc ∈ l → .register h pc ∈ s.stack t) :
    Fresh seen { s with stack := Function.update s.stack t l } where
  pending h := by
    obtain ⟨o, hguard⟩ := hf.pending h
    exact ⟨o, hguard.keep (hl h)⟩
  novel u g hg := by
    cases g with
    | register h pc =>
      rcases mem_update.1 hg with ⟨-, hg⟩ | ⟨-, hg⟩
      · exact hf.novel t _ (hmem h pc hg)
      · exact hf.novel u _ hg
    | _ => trivial
  calls u h pc hg := by
    rcases mem_update.1 hg with ⟨-, hg⟩ | ⟨-, hg⟩
    · exact hf.calls t h pc (hmem h pc hg)
    · exact hf.calls u h pc hg
  kept := hf.kept

/-- The call of `register_handle` with a handle not seen before is the only one pending. -/
theorem Fresh.register (hf : Fresh seen s) {h : H} (hh : h ∉ seen) :
    Fresh (seen ++ [h]) { s with
      stack := Function.update s.stack t (.register h .setRuntime :: s.stack t) } where
  pending g := by
    obtain ⟨o, hguard⟩ := hf.pending g
    rcases eq_or_ne h g with rfl | hne
    · -- No call with the handle has been made.
      cases o with
      | none => exact ⟨some t, hguard.acquire (by simp [Frame.pending])⟩
      | some u =>
        obtain ⟨f, hmem, hp⟩ := hguard.exists_holds
        obtain ⟨pc, rfl, -⟩ := pending_cases hp
        exact absurd (hf.calls u h pc hmem) hh
    · exact ⟨o, hguard.keep (by simp [Frame.pending, hne])⟩
  novel u f hmem := by
    have hold : ∀ u, f ∈ s.stack u → Novel s.toShared f := fun u hmem => hf.novel u f hmem
    rcases mem_update.1 hmem with ⟨-, hmem⟩ | ⟨-, hmem⟩
    · rcases List.mem_cons.1 hmem with rfl | hmem
      · exact ⟨fun hk => hh (hf.kept h hk), fun hset => absurd rfl hset⟩
      · exact hold t hmem
    · exact hold u hmem
  calls u g pc hmem := by
    rw [List.mem_append, List.mem_singleton]
    rcases mem_update.1 hmem with ⟨-, hmem⟩ | ⟨-, hmem⟩
    · rcases List.mem_cons.1 hmem with he | hmem
      · exact .inr (Frame.register.inj he).1
      · exact .inl (hf.calls t g pc hmem)
    · exact .inl (hf.calls u g pc hmem)
  kept g hk := List.mem_append_left _ (hf.kept g hk)

/-- A handle that another runtime registers is none of those seen here. -/
theorem Fresh.elsewhere (hf : Fresh seen s) {h : H} (hh : h ∉ seen) :
    Fresh (seen ++ [h]) { s with toShared := s.toShared.setRuntimeRef h false } where
  pending := hf.pending
  novel u f hmem := by
    refine (hf.novel u f hmem).spares (fun _ => id) ?_
    rintro g pc rfl href
    have hne : g ≠ h := by rintro rfl; exact hh (hf.calls u g pc hmem)
    simpa [Shared.setRuntimeRef, hne] using href
  calls u g pc hmem := List.mem_append_left _ (hf.calls u g pc hmem)
  kept g hk := List.mem_append_left _ (hf.kept g hk)

/-- What a run knows: which handles are new, and that in each section, and outside of them, the
places in which a handle is registered are as they should be. -/
structure Mapped (W : Handles H) (seen : List H) (s : State H T) : Prop where
  fresh : Fresh seen s
  mirrored : s.mtx = none → Mirrored W s.toShared
  sections : ∀ t, ∀ f ∈ s.stack t, Mirror W s.toShared f

/-- A step of the innermost frame of a thread keeps the places as they should be. -/
theorem Mapped.go (h : Mapped W seen s) (ho : Orderly W s) {rest : List (Frame H)}
    (hst : s.stack t = f :: rest) (hadv : Advance W s.toShared t f fs sh')
    (ho' : Orderly W { s with toShared := sh', stack := Function.update s.stack t (fs ++ rest) }) :
    Mapped W seen { s with toShared := sh', stack := Function.update s.stack t (fs ++ rest) } := by
  have hmem : f ∈ s.stack t := by simp [hst]
  have hS : Section W s.toShared f := ho.sections t f hmem
  have hM : Mirror W s.toShared f := h.sections t f hmem
  refine ⟨h.fresh.go ho hst hadv, fun hm => ?_, fun u g hg => ?_⟩
  · have hm : sh'.mtx = none := hm
    have hguarded : Guarded Frame.holds none (Function.update s.stack t (fs ++ rest)) :=
      hm ▸ ho'.guarded
    have hfs : ∀ g ∈ fs, g.holds = false := fun g hg =>
      hguarded.not_holds_of_free (t := t) (by simp [hg])
    cases hf : f.holds with
    | true => exact hadv.mirrored hM hf hfs
    | false =>
      have hsp := hadv.spares hf
      simpa only [Mirrored, hsp.allHandles] using (h.mirrored (hadv.free_before hf hm)).spares hsp
  · rcases mem_replace hst hg with ⟨-, hnew⟩ | ⟨hg, hrest⟩
    · exact hadv.mirror hS hM (h.fresh.novel _ f hmem) h.mirrored g hnew
    · -- A frame that stays keeps its section: if it is inside one, the step is outside of it.
      cases hh : g.holds with
      | false => exact mirror_of_not_holds hh
      | true => exact (h.sections u g hg).spares (hadv.spares (ho.guarded.only hst hg hrest hh))

/-- A step that changes only frames of a thread that are outside the sections, and no calls of
`register_handle`, keeps the places as they should be. -/
theorem Mapped.update (h : Mapped W seen s) {l : List (Frame H)}
    (hl : ∀ h, l.countP (Frame.pending h) = (s.stack t).countP (Frame.pending h))
    (hold : ∀ g ∈ l, g.holds = false ∧ (∀ x pc, g ≠ .register x pc) ∨ g ∈ s.stack t) :
    Mapped W seen { s with stack := Function.update s.stack t l } := by
  refine ⟨h.fresh.update hl fun x pc hmem => ?_, h.mirrored, fun u g hg => ?_⟩
  · exact (hold _ hmem).resolve_left fun hg => hg.2 x pc rfl
  · rcases mem_update.1 hg with ⟨-, hg⟩ | ⟨-, hg⟩
    · rcases hold g hg with ⟨hh, -⟩ | hg
      · exact mirror_of_not_holds hh
      · exact h.sections t g hg
    · exact h.sections u g hg

/-- The handle that an action begins to register, here or with another runtime. -/
def registers : Action H T → Option H
  | .thread _ (.call (.register h)) | .elsewhere h => some h
  | _ => none

/-- The call of `register_handle` with a handle not seen before keeps the places as they should
be. -/
theorem Mapped.register (h : Mapped W seen s) {x : H} (hx : x ∉ seen) :
    Mapped W (seen ++ [x]) { s with
      stack := Function.update s.stack t (.register x .setRuntime :: s.stack t) } := by
  refine ⟨h.fresh.register hx, h.mirrored, fun u g hg => ?_⟩
  rcases mem_update.1 hg with ⟨-, hg⟩ | ⟨-, hg⟩
  · rcases List.mem_cons.1 hg with rfl | hg
    · trivial
    · exact h.sections t g hg
  · exact h.sections u g hg

/-- That another runtime registers a handle not seen before leaves the places as they should be. -/
theorem Mapped.elsewhere (h : Mapped W seen s) {x : H} (hx : x ∉ seen) :
    Mapped W (seen ++ [x]) { s with toShared := s.toShared.setRuntimeRef x false } := by
  have hsp : Spares W s.toShared (s.toShared.setRuntimeRef x false) := by
    refine ⟨rfl, rfl, rfl, fun g hg href => ?_⟩
    have hne : g ≠ x := by rintro rfl; exact hx (h.fresh.kept g hg.kept)
    simpa [Shared.setRuntimeRef, hne] using href
  exact ⟨h.fresh.elsewhere hx, fun hm => (h.mirrored hm).spares hsp,
    fun u g hg => (h.sections u g hg).spares hsp⟩

/-- Every step keeps the places as they should be, if it registers no handle seen before. -/
theorem Mapped.step (h : Mapped W seen s) (ho : Orderly W s) {a : Action H T} {es : List Empty}
    (hs : (machine W rt).step s a = some (s', es)) (hnew : ∀ x, registers a = some x → x ∉ seen) :
    Mapped W (seen ++ (registers a).toList) s' := by
  have ho' : Orderly W s' := ho.step (step_cases hs)
  cases a with
  | thread t ch =>
    cases ch with
    | call c =>
      simp only [machine, Registry.step, Option.ite_none_right_eq_some, Option.some.injEq,
        Prod.mk.injEq] at hs
      obtain ⟨-, rfl, -⟩ := hs
      cases c with
      | register x => exact h.register (hnew x rfl)
      | deregister | close | exec =>
        simp only [registers, Option.toList_none, List.append_nil]
        refine h.update (by simp [Call.frame, Frame.pending]) fun g hg => ?_
        rcases List.mem_cons.1 hg with rfl | hg
        · exact .inl ⟨by simp, by simp [Call.frame]⟩
        · exact .inr hg
    | ret =>
      simp only [registers, Option.toList_none, List.append_nil]
      simp only [machine, Registry.step] at hs
      split at hs
      case h_2 => cases hs
      rename_i f rest hst
      simp only [Option.ite_none_right_eq_some, Option.some.injEq, Prod.mk.injEq] at hs
      obtain ⟨hr, rfl, -⟩ := hs
      have hf : ∀ x, f.pending x = false := by
        cases f with
        | serve | close => exact fun _ => rfl
        | register | deregister | exec => cases hr
      exact h.update (by simp [hst, hf]) fun g hg => .inr (by simp [hst, hg])
    | go ok =>
      simp only [registers, Option.toList_none, List.append_nil]
      simp only [machine, Registry.step] at hs
      split at hs
      case h_2 => cases hs
      rename_i f rest hst
      simp only [Option.map_eq_some_iff, Prod.mk.injEq] at hs
      obtain ⟨⟨fs, sh⟩, hadv, rfl, -⟩ := hs
      exact h.go ho hst (advance_cases hadv) ho'
  | report t event =>
    simp only [registers, Option.toList_none, List.append_nil]
    simp only [machine, Registry.step] at hs
    split at hs
    case h_2 => cases hs
    rename_i events rest hst
    simp only [Option.ite_none_right_eq_some, Option.some.injEq, Prod.mk.injEq] at hs
    obtain ⟨-, rfl, -⟩ := hs
    refine h.update (by simp [hst, Frame.pending]) fun g hg => ?_
    rcases List.mem_cons.1 hg with rfl | hg
    · exact .inl ⟨rfl, by simp⟩
    · exact .inr (by simp [hst, hg])
  | elsewhere x =>
    simp only [machine, Registry.step, Option.some.injEq, Prod.mk.injEq] at hs
    obtain ⟨rfl, -⟩ := hs
    exact h.elsewhere (hnew x rfl)

/-- After every run that registers each handle once the places are as they should be. -/
theorem mapped_of_run {as : List (Action H T)} {c : Config (State H T) Empty}
    (hrun : run (machine W rt) (init H T) as = some c) (honce : (as.filterMap registers).Nodup) :
    Mapped W (as.filterMap registers) c.state := by
  refine run_invariant (I := fun as c => (as.filterMap registers).Nodup →
    Mapped W (as.filterMap registers) c.state) (fun _ => ?_) ?_ hrun honce
  · exact ⟨⟨fun h => ⟨none, Guarded.init fun _ => rfl⟩, fun _ _ hf => absurd hf List.not_mem_nil,
      fun _ _ _ hf => absurd hf List.not_mem_nil, by simp [init, Kept]⟩,
      fun _ => mirrored_of_empty (fun _ => rfl) rfl, fun _ _ hf => absurd hf List.not_mem_nil⟩
  · intro as c a c' hc hI hn honce
    obtain ⟨s', es, hs, rfl⟩ := next_eq_some _ hn
    have hsingle : [a].filterMap registers = (registers a).toList := by
      cases hr : registers a <;> simp [hr]
    rw [List.filterMap_append, hsingle] at honce ⊢
    obtain ⟨hnodup, -, hdisj⟩ := List.nodup_append.1 honce
    refine (hI hnodup).step (orderly_reachable hc) hs fun x hx hmem => ?_
    exact hdisj x hmem x (by simp [hx]) rfl

/-- After every run that registers each handle at most once: while `handles_mtx_` is free the places
in which handles are registered agree, and the next step of a `deregister_handle`, of whatever
handle, leaves every other handle in its places. -/
theorem represents_of_run (W : Handles H) (rt : T) (as : List (Action H T))
    (c : Config (State H T) Empty) (hrun : run (machine W rt) (init H T) as = some c)
    (honce : (as.filterMap registers).Nodup) :
    (c.state.mtx = none → Represents W c.state.toShared) ∧
      ∀ t h pc rest ok c', c.state.stack t = .deregister h pc :: rest →
        next (machine W rt) c (.thread t (.go ok)) = some c' →
        ∀ g ≠ h, KeepsPlaces c.state.toShared c'.state.toShared g := by
  refine ⟨fun hm => ((mapped_of_run hrun honce).mirrored hm).represents, ?_⟩
  intro t h pc rest ok c' hst hn g hne
  have ho : Orderly W c.state := orderly_reachable (reachable_of_run hrun)
  have hS : DeregisterSection W c.state.toShared h pc :=
    ho.sections t (.deregister h pc) (by simp [hst])
  obtain ⟨s', es, hs, rfl⟩ := next_eq_some _ hn
  simp only [machine, Registry.step, hst, Option.map_eq_some_iff, Prod.mk.injEq] at hs
  obtain ⟨⟨fs, sh⟩, hadv, rfl, -⟩ := hs
  exact (advance_cases hadv).keepsPlaces hS hne

/-- Two sockets with the number 5. -/
def sameNumber : Handles Bool := { fd := fun _ => 5, isSocket := fun _ => true }

/-- The steps of a thread. -/
def goes (t : Bool) (n : ℕ) : List (Action Bool Bool) := List.replicate n (.thread t (.go true))

/-- A socket is registered, another one takes its number, and the first one is deregistered. -/
def staleDeregister : List (Action Bool Bool) :=
  .thread true (.call (.register false)) :: goes true 7 ++
    .thread true (.call (.register true)) :: goes true 9 ++ .thread true .ret :: goes true 5 ++
    .thread true (.call (.deregister false)) :: goes true 3

/-- The stale call finds the newer socket and leaves it there. -/
theorem represents_of_run_staleDeregister :
    ∃ c, run (machine sameNumber false) (init Bool Bool) staleDeregister = some c ∧
      c.state.allHandles 5 = some true ∧ Represents sameNumber c.state.toShared :=
  ⟨_, rfl, by decide, (represents_of_run sameNumber false staleDeregister _ rfl (by decide)).1 rfl⟩

end Spinet.Registry
