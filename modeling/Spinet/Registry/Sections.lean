import Spinet.Registry.Machine

/-!
# What the sections of a Runtime keep

`handles_mtx_` guards `all_handles_`, `all_sockets_`, and `removable_handles_`. While it is free,
every pointer of the interest list and every socket of `all_sockets_` is the handle that
`all_handles_` has for its descriptor (`Fits` with `Regular`). Inside a section that is not so, and
`Section` says for each step of each section how far the interest list and `all_sockets_` deviate:
by the new handle, or by the descriptor that is being taken out.

A thread outside the sections can only remove entries from the interest list (`Untouched`), so the
statement about a section in progress survives the steps of the other threads, and of the calls that
the section itself makes.
-/

namespace Spinet.Registry

open Transition Stacks

variable {H : Type} {T : Type*}

/-- Whether the frame is inside a section of `handles_mtx_`. -/
def Frame.holds : Frame H → Bool
  | .register _ .setRuntime | .register _ .lock => false
  | .register _ _ => true
  | .deregister _ .lock => false
  | .deregister _ _ => true
  | .exec .copy | .exec .clear | .exec .clearing => true
  | .exec .releaseReset | .exec .releaseHandles | .exec .droppingHandles => true
  | .exec .releaseSockets | .exec .releaseRemovable | .exec .droppingRemovable => true
  | _ => false

/-- The handle is the one that `all_handles` has for its descriptor. -/
def Regular (W : Handles H) (allHandles : ℕ → Option H) (g : H) : Prop :=
  allHandles (W.fd g) = some g

/-- The handle is the new one `h`, or a regular one with another descriptor. -/
def NewOrRegular (W : Handles H) (allHandles : ℕ → Option H) (h g : H) : Prop :=
  g = h ∨ W.fd g ≠ W.fd h ∧ Regular W allHandles g

/-- The handle is a regular one with another descriptor than that of `h`. -/
def RegularBeside (W : Handles H) (allHandles : ℕ → Option H) (h g : H) : Prop :=
  W.fd g ≠ W.fd h ∧ Regular W allHandles g

/-- Every pointer of the interest list is under the descriptor of its handle and satisfies `I`, and
every member of `all_sockets_` is a socket and satisfies `S`. -/
structure Fits (W : Handles H) (sh : Shared H T) (I S : H → Prop) : Prop where
  interest : ∀ k g, sh.interest k = some g → W.fd g = k ∧ I g
  sockets : ∀ g ∈ sh.allSockets, W.isSocket g = true ∧ S g

/-- What holds while `handles_mtx_` is free. -/
abbrev Base (W : Handles H) (sh : Shared H T) : Prop :=
  Fits W sh (Regular W sh.allHandles) (Regular W sh.allHandles)

/-- The handle under the descriptor of `h` is one that `removable_handles_` keeps. -/
def PrevKept (W : Handles H) (sh : Shared H T) (h : H) : Prop :=
  ∃ prev ∈ sh.removable, sh.allHandles (W.fd h) = some prev

/-- What holds in the section of `register_handle`. -/
def RegisterSection (W : Handles H) (sh : Shared H T) (h : H) : RegisterPc H → Prop
  | .setRuntime | .lock => True
  | .find => Base W sh
  | .insertSocket => Base W sh ∧ sh.allHandles (W.fd h) = none
  | .add => Fits W sh (Regular W sh.allHandles) (NewOrRegular W sh.allHandles h) ∧
    sh.allHandles (W.fd h) = none
  | .insert => Fits W sh (NewOrRegular W sh.allHandles h) (NewOrRegular W sh.allHandles h) ∧
    sh.allHandles (W.fd h) = none
  | .pushPrev prev => Base W sh ∧ sh.allHandles (W.fd h) = some prev
  | .resetPrev prev | .closePrev prev | .erasePrev prev =>
    Base W sh ∧ prev ∈ sh.removable ∧ sh.allHandles (W.fd h) = some prev
  | .updateSocket => Fits W sh (Regular W sh.allHandles) (RegularBeside W sh.allHandles h) ∧
    PrevKept W sh h
  | .modify => Fits W sh (Regular W sh.allHandles) (NewOrRegular W sh.allHandles h) ∧
    PrevKept W sh h
  | .assign => Fits W sh (NewOrRegular W sh.allHandles h) (NewOrRegular W sh.allHandles h) ∧
    PrevKept W sh h
  | .unlock => Base W sh ∧ sh.allHandles (W.fd h) = some h

/-- What holds in the section of `deregister_handle`. -/
def DeregisterSection (W : Handles H) (sh : Shared H T) (h : H) : DeregisterPc → Prop
  | .lock => True
  | .find | .unlock => Base W sh
  | .reset | .eraseSocket => Base W sh ∧ sh.allHandles (W.fd h) = some h
  | .delete => Fits W sh (Regular W sh.allHandles) (RegularBeside W sh.allHandles h) ∧
    sh.allHandles (W.fd h) = some h
  | .push => Fits W sh (RegularBeside W sh.allHandles h) (RegularBeside W sh.allHandles h) ∧
    sh.allHandles (W.fd h) = some h
  | .erase => Fits W sh (RegularBeside W sh.allHandles h) (RegularBeside W sh.allHandles h) ∧
    sh.allHandles (W.fd h) = some h ∧ h ∈ sh.removable

/-- What holds in the sections of `exec`. -/
def ExecSection (W : Handles H) (sh : Shared H T) : ExecPc H → Prop
  | .copy | .clear | .clearing | .releaseReset => Base W sh
  | .releaseHandles => Fits W sh (fun _ => False) (Regular W sh.allHandles)
  | .droppingHandles | .releaseSockets => Fits W sh (fun _ => False) (fun _ => True)
  | .releaseRemovable | .droppingRemovable => Fits W sh (fun _ => False) (fun _ => False)
  | _ => True

/-- What holds in the section that the frame is in. -/
def Section (W : Handles H) (sh : Shared H T) : Frame H → Prop
  | .register h pc => RegisterSection W sh h pc
  | .deregister h pc => DeregisterSection W sh h pc
  | .exec pc => ExecSection W sh pc
  | _ => True

variable {W : Handles H} {sh sh' : Shared H T} {I I' S S' : H → Prop} {t : T} {f : Frame H}
  {fs : List (Frame H)}

/-- Outside the sections nothing is asked. -/
theorem section_of_not_holds (hf : f.holds = false) : Section W sh f := by
  cases f with
  | register x pc => cases pc <;> trivial
  | deregister x pc => cases pc <;> trivial
  | exec pc => cases pc <;> trivial
  | close | serve => trivial

/-- `Fits` may ask less. -/
theorem Fits.imp (h : Fits W sh I S) (hI : ∀ g, I g → I' g) (hS : ∀ g, S g → S' g) :
    Fits W sh I' S' where
  interest k g hg := And.imp_right (hI g) (h.interest k g hg)
  sockets g hg := And.imp_right (hS g) (h.sockets g hg)

/-! ## Steps outside the sections -/

/-- The step leaves what the mutex guards alone, and adds nothing to the interest list. -/
structure Untouched (sh sh' : Shared H T) : Prop where
  allHandles : sh'.allHandles = sh.allHandles
  allSockets : sh'.allSockets = sh.allSockets
  removable : sh'.removable = sh.removable
  interest : ∀ k g, sh'.interest k = some g → sh.interest k = some g

/-- `Fits` survives a step that leaves everything alone. -/
theorem Fits.untouched (h : Fits W sh I S) (hu : Untouched sh sh') : Fits W sh' I S where
  interest k g hg := h.interest k g (hu.interest k g hg)
  sockets g hg := h.sockets g (hu.allSockets ▸ hg)

/-- What holds of a section survives a step that leaves everything alone. -/
theorem Section.untouched (h : Section W sh f) (hu : Untouched sh sh') : Section W sh' f := by
  -- Each statement is one `Fits` and facts on `all_handles_` and `removable_handles_`.
  cases f with
  | register x pc =>
    cases pc <;>
      simp only [Section, RegisterSection, Base, PrevKept, hu.allHandles, hu.removable] at h ⊢
    case find => exact h.untouched hu
    all_goals exact ⟨h.1.untouched hu, h.2⟩
  | deregister x pc =>
    cases pc <;>
      simp only [Section, DeregisterSection, Base, hu.allHandles, hu.removable] at h ⊢
    case find | unlock => exact h.untouched hu
    all_goals exact ⟨h.1.untouched hu, h.2⟩
  | exec pc =>
    cases pc <;> simp only [Section, ExecSection, Base, hu.allHandles] at h ⊢
    all_goals exact h.untouched hu
  | close | serve => trivial

/-- A step that changes the owner of the mutex leaves everything alone. -/
theorem untouched_mtx (o : Option T) : Untouched sh { sh with mtx := o } :=
  ⟨rfl, rfl, rfl, fun _ _ hg => hg⟩

/-- A step that removes an entry from the interest list leaves everything else alone. -/
theorem untouched_removeInterest (fd : ℕ) : Untouched sh (sh.setInterest fd none) := by
  refine ⟨rfl, rfl, rfl, fun k g hg => ?_⟩
  by_cases hk : k = fd
  · subst hk; simp [Shared.setInterest] at hg
  · simpa [Shared.setInterest, hk] using hg

/-- A step that changes `runtime_` of a handle leaves everything alone. -/
theorem untouched_setRuntimeRef [DecidableEq H] (h : H) (b : Bool) :
    Untouched sh (sh.setRuntimeRef h b) := ⟨rfl, rfl, rfl, fun _ _ hg => hg⟩

/-- Outside the sections every step leaves what the mutex guards alone. -/
theorem Advance.untouched [DecidableEq H] (h : Advance W sh t f fs sh') (hf : f.holds = false) :
    Untouched sh sh' := by
  cases h with
  | registerSet => exact untouched_setRuntimeRef _ _
  | registerLock | deregisterLock | execCopyLock | execClearLock | execReleaseLock =>
    exact untouched_mtx _
  | closeSocket | closeAcceptor => exact untouched_removeInterest _
  | closeLost | closeWon | closeDeregister | closeAlone | execWait | execLeave | execReturn
  | execDispatched | execDispatch | execSwept | execRead | execWrite =>
    exact ⟨rfl, rfl, rfl, fun _ _ hg => hg⟩
  | _ => cases hf

/-! ## Steps of a section -/

/-- A regular handle that `all_handles_` does not have for the descriptor of `h` has another one. -/
theorem Regular.fd_ne {m : ℕ → Option H} {g h : H} (hg : Regular W m g)
    (hne : m (W.fd h) ≠ some g) : W.fd g ≠ W.fd h :=
  fun he => hne (he ▸ hg)

/-- Once the new handle is in `all_handles_`, it is a regular one, and takes the place of the one
that was there. -/
theorem regular_update_some {m : ℕ → Option H} {g h : H} :
    Regular W (Function.update m (W.fd h) (some h)) g ↔ NewOrRegular W m h g := by
  unfold Regular NewOrRegular
  by_cases hfd : W.fd g = W.fd h
  · rw [hfd, Function.update_self]
    simp [eq_comm]
  · rw [Function.update_of_ne hfd]
    have hne : g ≠ h := by rintro rfl; exact hfd rfl
    simp [hfd, hne, Regular]

/-- Taking a descriptor out of `all_handles_` leaves the handles of the others regular, and no
others. -/
theorem regular_update_none {m : ℕ → Option H} {g h : H} :
    Regular W (Function.update m (W.fd h) none) g ↔ RegularBeside W m h g := by
  unfold Regular RegularBeside
  by_cases hfd : W.fd g = W.fd h
  · rw [hfd, Function.update_self]
    simp
  · rw [Function.update_of_ne hfd]
    simp [hfd, Regular]

@[simp] theorem epollAdd_allHandles (fd : ℕ) (h : H) (ok : Bool) :
    (sh.epollAdd fd h ok).allHandles = sh.allHandles := by unfold Shared.epollAdd; split <;> rfl

@[simp] theorem epollAdd_allSockets (fd : ℕ) (h : H) (ok : Bool) :
    (sh.epollAdd fd h ok).allSockets = sh.allSockets := by unfold Shared.epollAdd; split <;> rfl

@[simp] theorem epollAdd_removable (fd : ℕ) (h : H) (ok : Bool) :
    (sh.epollAdd fd h ok).removable = sh.removable := by unfold Shared.epollAdd; split <;> rfl

@[simp] theorem epollMod_allHandles (fd : ℕ) (h : H) :
    (sh.epollMod fd h).allHandles = sh.allHandles := by unfold Shared.epollMod; split <;> rfl

@[simp] theorem epollMod_allSockets (fd : ℕ) (h : H) :
    (sh.epollMod fd h).allSockets = sh.allSockets := by unfold Shared.epollMod; split <;> rfl

@[simp] theorem epollMod_removable (fd : ℕ) (h : H) :
    (sh.epollMod fd h).removable = sh.removable := by unfold Shared.epollMod; split <;> rfl

/-- What is in the interest list after `EPOLL_CTL_ADD`. -/
theorem epollAdd_interest {fd k : ℕ} {h g : H} {ok : Bool}
    (hg : (sh.epollAdd fd h ok).interest k = some g) : sh.interest k = some g ∨ k = fd ∧ g = h := by
  unfold Shared.epollAdd at hg
  split at hg
  · by_cases hk : k = fd
    · subst hk
      right
      simpa [Shared.setInterest, eq_comm] using hg
    · left
      simpa [Shared.setInterest, hk] using hg
  · exact .inl hg

/-- What is in the interest list after `EPOLL_CTL_MOD`. -/
theorem epollMod_interest {fd k : ℕ} {h g : H} (hg : (sh.epollMod fd h).interest k = some g) :
    k ≠ fd ∧ sh.interest k = some g ∨ k = fd ∧ g = h := by
  unfold Shared.epollMod at hg
  by_cases hk : k = fd
  · subst hk
    right
    split at hg
    · simpa [Shared.setInterest, eq_comm] using hg
    · rename_i hn
      simp [hg] at hn
  · left
    split at hg
    · exact ⟨hk, by simpa [Shared.setInterest, hk] using hg⟩
    · exact ⟨hk, hg⟩

variable [DecidableEq H]

@[simp] theorem insertSocket_allHandles (h : H) :
    (sh.insertSocket W h).allHandles = sh.allHandles := by unfold Shared.insertSocket; split <;> rfl

@[simp] theorem insertSocket_interest (h : H) :
    (sh.insertSocket W h).interest = sh.interest := by unfold Shared.insertSocket; split <;> rfl

@[simp] theorem insertSocket_removable (h : H) :
    (sh.insertSocket W h).removable = sh.removable := by unfold Shared.insertSocket; split <;> rfl

@[simp] theorem eraseSocket_allHandles (h : H) :
    (sh.eraseSocket W h).allHandles = sh.allHandles := by unfold Shared.eraseSocket; split <;> rfl

@[simp] theorem eraseSocket_interest (h : H) :
    (sh.eraseSocket W h).interest = sh.interest := by unfold Shared.eraseSocket; split <;> rfl

@[simp] theorem eraseSocket_removable (h : H) :
    (sh.eraseSocket W h).removable = sh.removable := by unfold Shared.eraseSocket; split <;> rfl

/-- The members of `all_sockets_` after an insertion. -/
theorem mem_insertSocket {g h : H} : g ∈ (sh.insertSocket W h).allSockets ↔
    g ∈ sh.allSockets ∨ g = h ∧ W.isSocket h = true := by
  unfold Shared.insertSocket
  split
  case isTrue hs =>
    rw [List.mem_insert_iff]
    simp [hs, or_comm]
  case isFalse hs => simp [hs]

/-- The members of `all_sockets_` after an erasure. -/
theorem mem_eraseSocket {g h : H} : g ∈ (sh.eraseSocket W h).allSockets ↔
    g ∈ sh.allSockets ∧ (W.isSocket h = true → g ≠ h) := by
  unfold Shared.eraseSocket
  split
  case isTrue hs => simp [List.mem_filter, hs]
  case isFalse hs => simp [hs]

/-- Inserting the new handle into `all_sockets_`. -/
theorem Fits.insertSocket {h : H} (hf : Fits W sh I S)
    (hS : ∀ g, S g → NewOrRegular W sh.allHandles h g) :
    Fits W (sh.insertSocket W h) I (NewOrRegular W sh.allHandles h) where
  interest k g hg := hf.interest k g (by simpa using hg)
  sockets g hg := by
    rcases mem_insertSocket.1 hg with hg | ⟨rfl, hs⟩
    · exact ⟨(hf.sockets g hg).1, hS g (hf.sockets g hg).2⟩
    · exact ⟨hs, .inl rfl⟩

/-- Erasing the handle of a descriptor from `all_sockets_` leaves those of the others. -/
theorem Fits.eraseSocket {h prev : H} (hf : Base W sh)
    (hprev : sh.allHandles (W.fd h) = some prev) :
    Fits W (sh.eraseSocket W prev) (Regular W sh.allHandles)
      (RegularBeside W sh.allHandles h) where
  interest k g hg := hf.interest k g (by simpa using hg)
  sockets g hg := by
    obtain ⟨hg, hne⟩ := mem_eraseSocket.1 hg
    obtain ⟨hs, hreg⟩ := hf.sockets g hg
    refine ⟨hs, hreg.fd_ne ?_, hreg⟩
    -- The regular handle under this descriptor is `prev`, which is no longer there.
    rw [hprev]
    rintro ⟨rfl⟩
    exact hne hs rfl

omit [DecidableEq H] in
/-- `EPOLL_CTL_ADD` for a descriptor that has no handle. -/
theorem Fits.epollAdd {h : H} {ok : Bool} (hf : Fits W sh (Regular W sh.allHandles) S)
    (hnone : sh.allHandles (W.fd h) = none) :
    Fits W (sh.epollAdd (W.fd h) h ok) (NewOrRegular W sh.allHandles h) S where
  interest k g hg := by
    rcases epollAdd_interest hg with hg | ⟨rfl, rfl⟩
    · obtain ⟨hk, hreg⟩ := hf.interest k g hg
      exact ⟨hk, .inr ⟨hreg.fd_ne (by simp [hnone]), hreg⟩⟩
    · exact ⟨rfl, .inl rfl⟩
  sockets g hg := hf.sockets g (by simpa using hg)

omit [DecidableEq H] in
/-- `EPOLL_CTL_MOD` for a descriptor. -/
theorem Fits.epollMod {h : H} (hf : Fits W sh (Regular W sh.allHandles) S) :
    Fits W (sh.epollMod (W.fd h) h) (NewOrRegular W sh.allHandles h) S where
  interest k g hg := by
    rcases epollMod_interest hg with ⟨hne, hg⟩ | ⟨rfl, rfl⟩
    · obtain ⟨rfl, hreg⟩ := hf.interest k g hg
      exact ⟨rfl, .inr ⟨hne, hreg⟩⟩
    · exact ⟨rfl, .inl rfl⟩
  sockets g hg := hf.sockets g (by simpa using hg)

omit [DecidableEq H] in
/-- `EPOLL_CTL_DEL` for a descriptor. -/
theorem Fits.epollDel {h : H} (hf : Fits W sh (Regular W sh.allHandles) S) :
    Fits W (sh.setInterest (W.fd h) none) (RegularBeside W sh.allHandles h) S where
  interest k g hg := by
    have hk : k ≠ W.fd h := by rintro rfl; simp [Shared.setInterest] at hg
    obtain ⟨rfl, hreg⟩ := hf.interest k g (by simpa [Shared.setInterest, hk] using hg)
    exact ⟨rfl, hk, hreg⟩
  sockets g hg := hf.sockets g hg

omit [DecidableEq H] in
/-- Putting the new handle into `all_handles_` ends the exception made for it. -/
theorem Fits.setHandle_some {h : H}
    (hf : Fits W sh (NewOrRegular W sh.allHandles h) (NewOrRegular W sh.allHandles h)) :
    Base W (sh.setHandle (W.fd h) (some h)) where
  interest k g hg := And.imp_right regular_update_some.2 (hf.interest k g hg)
  sockets g hg := And.imp_right regular_update_some.2 (hf.sockets g hg)

omit [DecidableEq H] in
/-- Taking the descriptor out of `all_handles_` ends the exception made for it. -/
theorem Fits.setHandle_none {h : H}
    (hf : Fits W sh (RegularBeside W sh.allHandles h) (RegularBeside W sh.allHandles h)) :
    Base W (sh.setHandle (W.fd h) none) where
  interest k g hg := And.imp_right regular_update_none.2 (hf.interest k g hg)
  sockets g hg := And.imp_right regular_update_none.2 (hf.sockets g hg)

/-- `release_all_handles` empties the interest list. -/
theorem Fits.releaseReset (hf : Base W sh) :
    Fits W (sh.releaseReset W) (fun _ => False) (Regular W sh.allHandles) where
  interest k g hg := by
    simp only [Shared.releaseReset] at hg
    split at hg
    · cases hg
    · rename_i hn
      -- Only an entry whose descriptor has no handle would be left.
      obtain ⟨rfl, hreg⟩ := hf.interest k g hg
      rw [hreg] at hn
      exact absurd rfl hn
  sockets g hg := hf.sockets g hg

/-- The steps of `register_handle` keep what holds in its section. -/
theorem advanceRegister_section {h : H} {pc : RegisterPc H}
    (hadv : Advance W sh t (.register h pc) fs sh') (hS : RegisterSection W sh h pc)
    (hB : sh.mtx = none → Base W sh) : ∀ g ∈ fs, Section W sh' g := by
  cases hadv with
  | registerSet => simp [Section, RegisterSection]
  | registerLock hm => simpa [Section, RegisterSection] using (hB hm).untouched (untouched_mtx _)
  | registerNew hnone => simpa [Section, RegisterSection] using And.intro hS hnone
  | registerInsertSocket =>
    obtain ⟨hf, hnone⟩ := hS
    simpa [Section, RegisterSection, hnone] using
      hf.insertSocket fun g hg => .inr ⟨hg.fd_ne (by simp [hnone]), hg⟩
  | registerAdd ok =>
    obtain ⟨hf, hnone⟩ := hS
    simpa [Section, RegisterSection, hnone] using hf.epollAdd hnone
  | registerInsert =>
    obtain ⟨hf, -⟩ := hS
    simpa [Section, RegisterSection, Shared.setHandle] using hf.setHandle_some
  | registerPrev hprev => simpa [Section, RegisterSection] using And.intro hS hprev
  | registerPushPrev =>
    obtain ⟨hf, hprev⟩ := hS
    simp only [List.mem_singleton, forall_eq]
    exact ⟨⟨hf.interest, hf.sockets⟩, by simp, hprev⟩
  | registerResetPrev =>
    obtain ⟨hf, hprev⟩ := hS
    simp only [List.mem_singleton, forall_eq]
    exact ⟨hf.untouched (untouched_setRuntimeRef _ _), hprev⟩
  | @registerClosePrev _ prev =>
    -- The frame of `close` goes on top of the section, and is itself outside of one.
    have hc : Section W sh ((Call.close prev).frame W) := section_of_not_holds (by
      unfold Call.frame; split <;> rfl)
    simpa [hc] using show Section W sh (.register h (.erasePrev prev)) from hS
  | registerErasePrev =>
    -- What `close` of `prev` did was outside the section: `prev` still has its place.
    obtain ⟨hf, hmem, hprev⟩ := hS
    simpa [Section, RegisterSection, PrevKept, hprev, hmem] using hf.eraseSocket hprev
  | registerUpdateSocket =>
    obtain ⟨hf, hprev⟩ := hS
    simpa [Section, RegisterSection, PrevKept] using
      And.intro (hf.insertSocket fun g hg => .inr hg) hprev
  | registerModify =>
    obtain ⟨hf, hprev⟩ := hS
    simpa [Section, RegisterSection, PrevKept] using And.intro (hf.epollMod (h := h)) hprev
  | registerAssign =>
    obtain ⟨hf, -⟩ := hS
    simpa [Section, RegisterSection, Shared.setHandle] using hf.setHandle_some
  | registerUnlock => simp

/-- The steps of `deregister_handle` keep what holds in its section. -/
theorem advanceDeregister_section {h : H} {pc : DeregisterPc}
    (hadv : Advance W sh t (.deregister h pc) fs sh') (hS : DeregisterSection W sh h pc)
    (hB : sh.mtx = none → Base W sh) : ∀ g ∈ fs, Section W sh' g := by
  cases hadv with
  | deregisterLock hm =>
    simpa [Section, DeregisterSection] using (hB hm).untouched (untouched_mtx _)
  | deregisterFound hh => simpa [Section, DeregisterSection] using And.intro hS hh
  | deregisterOther => simpa [Section, DeregisterSection] using hS
  | deregisterReset =>
    obtain ⟨hf, hh⟩ := hS
    simp only [List.mem_singleton, forall_eq]
    exact ⟨hf.untouched (untouched_setRuntimeRef _ _), hh⟩
  | deregisterEraseSocket =>
    obtain ⟨hf, hh⟩ := hS
    simpa [Section, DeregisterSection, hh] using hf.eraseSocket hh
  | deregisterDelete =>
    obtain ⟨hf, hh⟩ := hS
    simp only [List.mem_singleton, forall_eq]
    exact ⟨hf.epollDel, hh⟩
  | deregisterPush =>
    obtain ⟨hf, hh⟩ := hS
    simp only [List.mem_singleton, forall_eq]
    exact ⟨⟨hf.interest, hf.sockets⟩, hh, by simp⟩
  | deregisterErase =>
    obtain ⟨hf, -⟩ := hS
    simpa [Section, DeregisterSection] using hf.setHandle_none
  | deregisterUnlock => simp

omit [DecidableEq H] in
/-- The frame of a call is outside the sections. -/
@[simp] theorem call_frame_holds (c : Call H) : (c.frame W).holds = false := by
  unfold Call.frame
  cases c with
  | close h => cases W.isSocket h <;> rfl
  | register | deregister | exec => rfl

omit [DecidableEq H] in
/-- The frames of what `exec` calls on a handle: the call, and a `close` of the handle. -/
theorem mem_serveFrames {h : H} {service : Service} {g : Frame H}
    (hg : g ∈ serveFrames W h service) : (∃ pc, g = .close h pc) ∨ g = .serve h service := by
  cases service <;> simp only [serveFrames, List.mem_cons, List.not_mem_nil, or_false] at hg
  case close =>
    refine hg.imp_left ?_
    rintro rfl
    exact ⟨_, rfl⟩
  all_goals exact .inr hg

omit [DecidableEq H] in
/-- The frames of what `exec` calls on a handle are outside the sections. -/
theorem serveFrames_holds {h : H} {service : Service} {g : Frame H}
    (hg : g ∈ serveFrames W h service) : g.holds = false := by
  obtain ⟨pc, rfl⟩ | rfl := mem_serveFrames hg <;> rfl

/-- The steps of `exec` keep what holds in its sections. -/
theorem advanceExec_section {pc : ExecPc H} (hadv : Advance W sh t (.exec pc) fs sh')
    (hS : ExecSection W sh pc) (hB : sh.mtx = none → Base W sh) : ∀ g ∈ fs, Section W sh' g := by
  cases hadv with
  | execCopyLock hm | execClearLock hm | execReleaseLock hm =>
    simpa [Section, ExecSection] using (hB hm).untouched (untouched_mtx _)
  | execClear | execHandlesDropped | execReleaseRemovable =>
    simp only [List.mem_singleton, forall_eq]
    exact ⟨hS.interest, hS.sockets⟩
  | execReleaseReset =>
    simp only [List.mem_singleton, forall_eq]
    exact hS.releaseReset
  | execReleaseHandles =>
    simp only [List.mem_singleton, forall_eq]
    exact ⟨hS.interest, fun g hg => ⟨(hS.sockets g hg).1, trivial⟩⟩
  | execReleaseSockets =>
    simp only [List.mem_singleton, forall_eq]
    exact ⟨hS.interest, fun g hg => absurd hg List.not_mem_nil⟩
  | execDispatch | execRead | execWrite =>
    intro g hg
    rcases List.mem_append.1 hg with hg | hg
    · exact section_of_not_holds (serveFrames_holds hg)
    · rw [List.mem_singleton.1 hg]
      trivial
  | _ => simp [Section, ExecSection]

/-- A step keeps what holds in the section of its frame, and enters a section where that holds. -/
theorem Advance.section (hadv : Advance W sh t f fs sh') (hS : Section W sh f)
    (hB : sh.mtx = none → Base W sh) : ∀ g ∈ fs, Section W sh' g := by
  cases f with
  | register => exact advanceRegister_section hadv hS hB
  | deregister => exact advanceDeregister_section hadv hS hB
  | exec => exact advanceExec_section hadv hS hB
  | serve => cases hadv
  | close =>
    cases hadv with
    | closeDeregister => simp [Section, DeregisterSection]
    | closeLost | closeAcceptor => simp
    | closeWon | closeAlone | closeSocket => simp [Section]

/-- A step that leaves a section does so where what holds outside of them does. -/
theorem Advance.base (hadv : Advance W sh t f fs sh') (hS : Section W sh f)
    (hf : f.holds = true) (hfs : ∀ g ∈ fs, g.holds = false) : Base W sh' := by
  cases hadv with
  | registerUnlock => exact hS.1.untouched (untouched_mtx _)
  | deregisterUnlock | execCopy | execCleared =>
    exact Fits.untouched hS (untouched_mtx _)
  | execRemovableDropped =>
    exact (Fits.imp hS (fun _ => False.elim) fun _ => False.elim).untouched (untouched_mtx _)
  -- The section goes on below the `close` that it calls.
  | registerClosePrev => simp [Frame.holds] at hfs
  | registerSet | registerLock | deregisterLock | closeLost | closeWon | closeDeregister
  | closeAlone | closeSocket | closeAcceptor | execWait | execLeave | execReturn | execDispatched
  | execDispatch | execCopyLock | execSwept | execRead | execWrite | execClearLock
  | execReleaseLock => cases hf
  | _ => simp [Frame.holds] at hfs

/-- What a step does to the mutex: it keeps it, takes it, or gives it up. -/
theorem Advance.mtx (hadv : Advance W sh t f fs sh') :
    (fs.countP Frame.holds = [f].countP Frame.holds ∧ sh'.mtx = sh.mtx) ∨
    (sh.mtx = none ∧ sh'.mtx = some t ∧ fs.countP Frame.holds = [f].countP Frame.holds + 1) ∨
    (sh'.mtx = none ∧ fs.countP Frame.holds + 1 = [f].countP Frame.holds) := by
  cases hadv with
  | registerLock hm | deregisterLock hm | execCopyLock hm | execClearLock hm
  | execReleaseLock hm => exact .inr (.inl ⟨hm, rfl, rfl⟩)
  | registerUnlock | deregisterUnlock | execCopy | execCleared | execRemovableDropped =>
    exact .inr (.inr ⟨rfl, rfl⟩)
  | execDispatch | execRead | execWrite =>
    refine .inl ⟨?_, rfl⟩
    rw [List.countP_append, List.countP_eq_zero.2 fun g hg => by simp [serveFrames_holds hg]]
    rfl
  | registerInsertSocket | registerUpdateSocket =>
    refine .inl ⟨rfl, ?_⟩
    unfold Shared.insertSocket
    split <;> rfl
  | registerErasePrev | deregisterEraseSocket =>
    refine .inl ⟨rfl, ?_⟩
    unfold Shared.eraseSocket
    split <;> rfl
  | registerAdd =>
    refine .inl ⟨rfl, ?_⟩
    unfold Shared.epollAdd
    split <;> rfl
  | registerModify =>
    refine .inl ⟨rfl, ?_⟩
    unfold Shared.epollMod
    split <;> rfl
  | @registerClosePrev _ prev =>
    exact .inl ⟨by rw [List.countP_cons_of_neg (by simp)]; rfl, rfl⟩
  | _ => exact .inl ⟨rfl, rfl⟩

/-- A mutex that is free after a step outside the sections was free before it. -/
theorem Advance.free_before (hadv : Advance W sh t f fs sh') (hf : f.holds = false)
    (hm : sh'.mtx = none) : sh.mtx = none := by
  rcases hadv.mtx with ⟨-, hm'⟩ | ⟨hm', -⟩ | ⟨-, hc⟩
  · rw [← hm', hm]
  · exact hm'
  · simp [hf] at hc

/-! ## Every reachable state -/

variable [DecidableEq T] {rt : T} {s s' : State H T}

/-- The sections exclude each other, and what holds in each of them, and outside of them, does. -/
structure Orderly (W : Handles H) (s : State H T) : Prop where
  guarded : Guarded Frame.holds s.mtx s.stack
  base : s.mtx = none → Base W s.toShared
  sections : ∀ t, ∀ f ∈ s.stack t, Section W s.toShared f

/-- A step of the innermost frame of a thread keeps the sections in order. -/
theorem Orderly.go (h : Orderly W s) {rest : List (Frame H)} (hst : s.stack t = f :: rest)
    (hadv : Advance W s.toShared t f fs sh') :
    Orderly W { s with toShared := sh', stack := Function.update s.stack t (fs ++ rest) } := by
  have hS : Section W s.toShared f := h.sections t f (by simp [hst])
  have hcount : (s.stack t).countP Frame.holds
      = [f].countP Frame.holds + rest.countP Frame.holds :=
    calc (s.stack t).countP Frame.holds = ([f] ++ rest).countP Frame.holds := by
          rw [hst, List.singleton_append]
      _ = [f].countP Frame.holds + rest.countP Frame.holds := List.countP_append
  have hguarded : Guarded Frame.holds sh'.mtx (Function.update s.stack t (fs ++ rest)) := by
    rcases hadv.mtx with ⟨hc, hm⟩ | ⟨hm, hm', hc⟩ | ⟨hm, hc⟩
    · rw [hm]
      exact h.guarded.keep (by rw [hcount, List.countP_append, hc])
    · have hg := h.guarded
      rw [hm] at hg
      rw [hm']
      exact hg.acquire (by rw [hcount, List.countP_append, hc]; omega)
    · rw [hm]
      exact h.guarded.release (by rw [hcount, List.countP_append]; omega)
  refine ⟨hguarded, fun hm => ?_, fun u g hg => ?_⟩
  · have hm : sh'.mtx = none := hm
    rw [hm] at hguarded
    have hfs : ∀ g ∈ fs, g.holds = false := fun g hg =>
      hguarded.not_holds_of_free (t := t) (by simp [hg])
    cases hf : f.holds with
    -- The mutex is free because the step has given it up, or because it was free before.
    | true => exact hadv.base hS hf hfs
    | false =>
      have hu := hadv.untouched hf
      simpa only [Base, hu.allHandles] using (h.base (hadv.free_before hf hm)).untouched hu
  · rcases mem_replace hst hg with ⟨-, hnew⟩ | ⟨hg, hrest⟩
    · exact hadv.section hS h.base g hnew
    · -- A frame that stays keeps its section: if it is inside one, the step is outside of it.
      cases hh : g.holds with
      | false => exact section_of_not_holds hh
      | true =>
        exact (h.sections u g hg).untouched (hadv.untouched (h.guarded.only hst hg hrest hh))

omit [DecidableEq H] in
/-- A step that changes the frames of a thread that are outside the sections, and nothing that is
shared, keeps the sections in order. -/
theorem Orderly.update (h : Orderly W s) {l : List (Frame H)}
    (hl : l.countP Frame.holds = (s.stack t).countP Frame.holds)
    (hsec : ∀ g ∈ l, g.holds = true → g ∈ s.stack t) :
    Orderly W { s with stack := Function.update s.stack t l } := by
  refine ⟨h.guarded.keep hl, h.base, fun u g hg => ?_⟩
  rcases mem_update.1 hg with ⟨rfl, hnew⟩ | ⟨-, hold⟩
  · cases hh : g.holds with
    | false => exact section_of_not_holds hh
    | true => exact h.sections u g (hsec g hnew hh)
  · exact h.sections u g hold

/-- Every step keeps the sections in order. -/
theorem Orderly.step (h : Orderly W s) (hstep : Step W rt s s') : Orderly W s' := by
  cases hstep with
  | @call t c hc =>
    refine h.update (by simp) fun g hg hh => ?_
    rcases List.mem_cons.1 hg with rfl | hg
    · simp at hh
    · exact hg
  | @ret t f rest hst hr =>
    have hf : f.holds = false := by
      cases f with
      | serve => rfl
      | close x pc => rfl
      | register | deregister | exec => cases hr
    exact h.update (by simp [hst, hf]) fun g hg _ => by simp [hst, hg]
  | go hst hadv => exact h.go hst hadv
  | report hst hi =>
    refine h.update (by simp [hst, Frame.holds]) fun g hg hh => ?_
    rcases List.mem_cons.1 hg with rfl | hg
    · simp [Frame.holds] at hh
    · simp [hst, hg]
  | elsewhere x =>
    have hu : Untouched s.toShared _ := untouched_setRuntimeRef x false
    exact ⟨h.guarded, fun hm => (h.base hm).untouched hu,
      fun u g hg => (h.sections u g hg).untouched hu⟩

/-- The sections are in order in every reachable state. -/
theorem orderly_reachable {c : Config (State H T) Empty}
    (h : Reachable (machine W rt) (init H T) c) : Orderly W c.state := by
  refine h.invariant_step (I := fun s _ => Orderly W s) ?_ ?_
  · exact ⟨Guarded.init fun _ => rfl, fun _ => ⟨by simp [init], by simp [init]⟩,
      fun _ _ hf => absurd hf List.not_mem_nil⟩
  · intro s _ a s' es hI _ hs
    exact hI.step (step_cases hs)

end Spinet.Registry
