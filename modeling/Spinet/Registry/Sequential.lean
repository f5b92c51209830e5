import Spinet.Registry.Sections

/-!
# The registry and the interest list, one call after another

`register_handle`, `deregister_handle`, `close`, and `release_all_handles` of one runtime as whole
calls, on what `Spinet.Registry.Machine` calls `Shared`. Here the kernel also knows which descriptor
numbers are open: `epoll_ctl` fails on one that is not, and `::close` frees the number and drops its
entry.

`agrees_always_iff` says when the interest list has exactly the pairs of `all_handles_` after every
call, and every handle an open descriptor when it has been registered. What breaks this is a
`::close` of a number under which another handle is registered: by the branch of `register_handle`
that takes the place of an older handle, which closes that one first, and by a `close` of a handle
that is registered no more.
-/

namespace Spinet.Registry

open Transition

/-- A runtime with its handles, and the descriptors of the process. -/
structure World (H : Type) extends Shared H Unit where
  /-- Whether a descriptor number is open. -/
  opened : ℕ → Bool

namespace World

variable {H : Type}

/-- `EPOLL_CTL_ADD`. -/
def epollAdd (w : World H) (fd : ℕ) (h : H) : World H :=
  { w with toShared := w.toShared.epollAdd fd h (w.opened fd) }

/-- `EPOLL_CTL_MOD`. -/
def epollMod (w : World H) (fd : ℕ) (h : H) : World H :=
  if w.opened fd then { w with toShared := w.toShared.epollMod fd h } else w

/-- `EPOLL_CTL_DEL`. -/
def epollDel (w : World H) (fd : ℕ) : World H :=
  if w.opened fd then { w with toShared := w.toShared.setInterest fd none } else w

/-- `::close`. -/
def sysClose (w : World H) (fd : ℕ) : World H :=
  { w with toShared := w.toShared.setInterest fd none, opened := Function.update w.opened fd false }

variable [DecidableEq H]

/-- `Runtime::deregister_handle`. -/
def deregisterHandle (W : Handles H) (w : World H) (h : H) : World H :=
  if w.allHandles (W.fd h) = some h then
    let w := { w with toShared := (w.toShared.setRuntimeRef h false).eraseSocket W h }
    let w := w.epollDel (W.fd h)
    { w with toShared :=
      { w.toShared with removable := w.removable ++ [h] }.setHandle (W.fd h) none }
  else w

/-- `Handle::close`. -/
def handleClose (W : Handles H) (w : World H) (h : H) : World H :=
  (if w.runtimeRef h then w.deregisterHandle W h else w).sysClose (W.fd h)

/-- `close`, which `TcpSocket` overrides; what it does with its queues does not show here. -/
def close (W : Handles H) (w : World H) (h : H) : World H :=
  if W.isSocket h then
    if w.closed h then w
    else { w with closed := Function.update w.closed h true }.handleClose W h
  else w.handleClose W h

/-- The branch of `Runtime::register_handle` that inserts. -/
def insertHandle (W : Handles H) (w : World H) (h : H) : World H :=
  let w := { w with toShared := w.toShared.insertSocket W h }.epollAdd (W.fd h) h
  { w with toShared := w.toShared.setHandle (W.fd h) (some h) }

/-- What `register_handle` does with an older handle before it closes that. -/
def retire (w : World H) (prev : H) : World H :=
  { w with toShared :=
    { w.toShared with removable := w.removable ++ [prev] }.setRuntimeRef prev false }

/-- The branch of `Runtime::register_handle` that takes the place of an older handle. -/
def replaceHandle (W : Handles H) (w : World H) (prev h : H) : World H :=
  let w := (w.retire prev).close W prev
  let w := { w with toShared := (w.toShared.eraseSocket W prev).insertSocket W h }.epollMod
    (W.fd h) h
  { w with toShared := w.toShared.setHandle (W.fd h) (some h) }

/-- `Runtime::register_handle`. -/
def registerHandle (W : Handles H) (w : World H) (h : H) : World H :=
  let w := { w with toShared := w.toShared.setRuntimeRef h true }
  match w.allHandles (W.fd h) with
  | none => w.insertHandle W h
  | some prev => w.replaceHandle W prev h

/-- The destructor of a handle: that of a socket closes it, and that of an acceptor does nothing. -/
def destroy (W : Handles H) (w : World H) (h : H) : World H :=
  if W.isSocket h then w.close W h else w

/-- The first loop of `Runtime::release_all_handles`. -/
def releaseReset (W : Handles H) (w : World H) : World H :=
  { w with
    runtimeRef := fun h => if w.allHandles (W.fd h) = some h then false else w.runtimeRef h
    interest := fun fd =>
      if (w.allHandles fd).isSome && w.opened fd then none else w.interest fd }

/-- `Runtime::release_all_handles`; `dying` are those of the handles that nothing else refers
to. -/
def releaseAllHandles (W : Handles H) (w : World H) (dying : List H) : World H :=
  let released := fun h => decide (w.allHandles (W.fd h) = some h) || decide (h ∈ w.removable)
  let w := w.releaseReset W
  let w := { w with allHandles := fun _ => none, allSockets := [], removable := [] }
  (dying.filter released).foldl (destroy W) w

end World

namespace Sequential

variable {H : Type}

/-- A call, or a new descriptor. -/
inductive Action (H : Type)
  /-- `socket()` or `accept()` returns a number. -/
  | obtain (fd : ℕ)
  /-- `register_handle`. -/
  | register (h : H)
  /-- `deregister_handle`. -/
  | deregister (h : H)
  /-- `close`. -/
  | close (h : H)
  /-- `release_all_handles`. -/
  | release (dying : List H)
deriving DecidableEq, Repr

/-- A handle has been registered; `isOpen` says whether its descriptor was open afterwards. -/
inductive Event (H : Type)
  | registered (h : H) (isOpen : Bool)
deriving DecidableEq, Repr

variable [DecidableEq H]

/-- The step of an action. -/
def step (W : Handles H) (w : World H) : Action H → Option (World H × List (Event H))
  | .obtain fd =>
    if w.opened fd then none else some ({ w with opened := Function.update w.opened fd true }, [])
  | .register h =>
    let w' := w.registerHandle W h
    some (w', [.registered h (w'.opened (W.fd h))])
  | .deregister h => some (w.deregisterHandle W h, [])
  | .close h => some (w.close W h, [])
  | .release dying => some (w.releaseAllHandles W dying, [])

/-- The machine of one runtime. -/
def machine (W : Handles H) : Machine (World H) (Action H) (Event H) := ⟨step W⟩

/-- A new runtime, in a process whose open descriptors are these. -/
def init (H : Type) (opened : ℕ → Bool) : Config (World H) (Event H) :=
  { state :=
      { allHandles := fun _ => none, allSockets := [], removable := [], interest := fun _ => none,
        runtimeRef := fun _ => false, closed := fun _ => false, mtx := none, opened := opened }
    trace := [] }

/-- The interest list has exactly the pairs of `all_handles_`, and every handle had an open
descriptor when it had been registered. -/
structure Agrees (c : Config (World H) (Event H)) : Prop where
  /-- The interest list and the map are the same. -/
  interest : ∀ fd, c.state.interest fd = c.state.allHandles fd
  /-- What has been registered had an open descriptor. -/
  isOpen : ∀ h isOpen, .registered h isOpen ∈ c.trace → isOpen = true

/-- The condition on a call: a handle is registered with an open descriptor, under whose number
there is no handle or a socket that has been closed; and a handle is closed that has been closed
before, or under whose number no other handle is registered. -/
def Unshared (W : Handles H) (c : Config (World H) (Event H)) : Action H → Prop
  | .register h => c.state.opened (W.fd h) = true ∧ ∀ prev ∈ c.state.allHandles (W.fd h),
      W.isSocket prev = true ∧ c.state.closed prev = true
  | .close h => (W.isSocket h = true ∧ c.state.closed h = true) ∨
      ∀ other ∈ c.state.allHandles (W.fd h), other = h
  | _ => True

instance (W : Handles H) (c : Config (World H) (Event H)) (a : Action H) :
    Decidable (Unshared W c a) := by
  unfold Unshared
  split <;> infer_instance

/-! ## What the parts of a call change -/

variable {W : Handles H} {w : World H} {sh : Shared H Unit} {h other : H} {fd : ℕ}

@[simp] theorem insertSocket_runtimeRef (h : H) :
    (sh.insertSocket W h).runtimeRef = sh.runtimeRef := by unfold Shared.insertSocket; split <;> rfl

@[simp] theorem insertSocket_closed (h : H) : (sh.insertSocket W h).closed = sh.closed := by
  unfold Shared.insertSocket; split <;> rfl

@[simp] theorem eraseSocket_runtimeRef (h : H) :
    (sh.eraseSocket W h).runtimeRef = sh.runtimeRef := by unfold Shared.eraseSocket; split <;> rfl

@[simp] theorem eraseSocket_closed (h : H) : (sh.eraseSocket W h).closed = sh.closed := by
  unfold Shared.eraseSocket; split <;> rfl

/-- What holds between the calls. -/
structure Good (W : Handles H) (w : World H) : Prop where
  /-- The interest list and the map are the same. -/
  interest : ∀ fd, w.interest fd = w.allHandles fd
  /-- A handle is registered under its own number. -/
  fd : ∀ fd h, w.allHandles fd = some h → W.fd h = fd
  /-- The number of a registered handle is open. -/
  isOpen : ∀ fd h, w.allHandles fd = some h → w.opened fd = true
  /-- A registered handle knows its runtime, unless it is a socket that has been closed. -/
  runtime : ∀ fd h, w.allHandles fd = some h →
    (W.isSocket h = true ∧ w.closed h = true) ∨ w.runtimeRef h = true

omit [DecidableEq H] in
/-- What holds between the calls survives where no runtime is forgotten and no socket is reopened.
-/
theorem Good.congr {w' : World H} (hg : Good W w) (hinterest : w'.interest = w.interest)
    (hall : w'.allHandles = w.allHandles) (hopened : w'.opened = w.opened)
    (hclosed : ∀ x, w.closed x = true → w'.closed x = true)
    (hruntime : ∀ x, w.runtimeRef x = true → w'.runtimeRef x = true) : Good W w' := by
  refine ⟨fun fd => ?_, fun fd x hx => hg.fd fd x (hall ▸ hx), fun fd x hx => ?_, fun fd x hx => ?_⟩
  · rw [hinterest, hall]
    exact hg.interest fd
  · rw [hopened]
    exact hg.isOpen fd x (hall ▸ hx)
  · rcases hg.runtime fd x (hall ▸ hx) with ⟨hsocket, hc⟩ | href
    · exact .inl ⟨hsocket, hclosed x hc⟩
    · exact .inr (hruntime x href)

/-- A handle is taken from the map and its entry from the interest list; it forgets its runtime. -/
theorem Good.remove {w' : World H} (hg : Good W w)
    (hinterest : w'.interest = Function.update w.interest (W.fd h) none)
    (hall : w'.allHandles = Function.update w.allHandles (W.fd h) none)
    (hopened : w'.opened = w.opened) (hclosed : w'.closed = w.closed)
    (hruntime : w'.runtimeRef = Function.update w.runtimeRef h false) : Good W w' := by
  have hold : ∀ fd x, w'.allHandles fd = some x → fd ≠ W.fd h ∧ w.allHandles fd = some x := by
    intro fd x hx
    rw [hall, Function.update_apply] at hx
    split at hx
    · cases hx
    · exact ⟨‹_›, hx⟩
  refine ⟨fun fd => ?_, fun fd x hx => hg.fd fd x (hold fd x hx).2, fun fd x hx => ?_,
    fun fd x hx => ?_⟩
  · rw [hinterest, hall, Function.update_apply, Function.update_apply, hg.interest]
  · rw [hopened]
    exact hg.isOpen fd x (hold fd x hx).2
  · obtain ⟨hne, hx⟩ := hold fd x hx
    have hxh : x ≠ h := by
      rintro rfl
      exact hne (hg.fd fd x hx).symm
    rw [hclosed, hruntime, Function.update_of_ne hxh]
    exact hg.runtime fd x hx

/-- `deregister_handle` keeps it, takes the handle from the map, and puts none there. -/
theorem Good.deregister (hg : Good W w) (h : H) :
    Good W (w.deregisterHandle W h) ∧ (w.deregisterHandle W h).allHandles (W.fd h) ≠ some h ∧
      ∀ fd x, (w.deregisterHandle W h).allHandles fd = some x → w.allHandles fd = some x := by
  unfold World.deregisterHandle
  split
  · rename_i hreg
    have hopen := hg.isOpen _ _ hreg
    have hall : ∀ w' : World H, w'.allHandles = Function.update w.allHandles (W.fd h) none →
        w'.allHandles (W.fd h) ≠ some h ∧
          ∀ fd x, w'.allHandles fd = some x → w.allHandles fd = some x := by
      intro w' hw'
      refine ⟨by simp [hw'], fun fd x hx => ?_⟩
      rw [hw', Function.update_apply] at hx
      split at hx
      · cases hx
      · exact hx
    refine ⟨hg.remove (h := h) ?_ ?_ ?_ ?_ ?_, hall _ ?_⟩
    all_goals
      simp [World.epollDel, hopen, Shared.setRuntimeRef, Shared.setInterest, Shared.setHandle]
  · exact ⟨hg, ‹_›, fun _ _ hx => hx⟩

omit [DecidableEq H] in
/-- `::close` keeps it while no handle is registered under the number. -/
theorem Good.sysClose (hg : Good W w) (hnone : w.allHandles fd = none) :
    Good W (w.sysClose fd) := by
  refine ⟨fun fd' => ?_, hg.fd, fun fd' x hx => ?_, hg.runtime⟩
  · simp only [World.sysClose, Shared.setInterest, Function.update_apply]
    split
    · subst fd'
      exact hnone.symm
    · exact hg.interest fd'
  · have hne : fd' ≠ fd := by
      rintro rfl
      rw [World.sysClose, Shared.setInterest, hnone] at hx
      cases hx
    have hopened : (w.sysClose fd).opened fd' = w.opened fd' := Function.update_of_ne hne ..
    rw [hopened]
    exact hg.isOpen fd' x hx

/-- `Handle::close` keeps it if no other handle is registered under the number. -/
theorem Good.handleClose (hg : Good W w)
    (hself : ∀ x, w.allHandles (W.fd h) = some x → x = h ∧ w.runtimeRef h = true) :
    Good W (w.handleClose W h) := by
  unfold World.handleClose
  split
  · obtain ⟨hg', hnot, hsub⟩ := hg.deregister h
    refine hg'.sysClose (Option.eq_none_iff_forall_ne_some.2 fun x hx => ?_)
    obtain ⟨rfl, -⟩ := hself x (hsub _ x hx)
    exact hnot hx
  · rename_i href
    refine hg.sysClose (Option.eq_none_iff_forall_ne_some.2 fun x hx => ?_)
    exact href (hself x hx).2

/-- `close` keeps it under the condition. -/
theorem Good.close (hg : Good W w) (hC : (W.isSocket h = true ∧ w.closed h = true) ∨
    ∀ other ∈ w.allHandles (W.fd h), other = h) : Good W (w.close W h) := by
  have hself : ¬ (W.isSocket h = true ∧ w.closed h = true) →
      ∀ x, w.allHandles (W.fd h) = some x → x = h ∧ w.runtimeRef h = true := by
    intro hnot x hx
    obtain rfl := hC.resolve_left hnot x hx
    exact ⟨rfl, (hg.runtime _ x hx).resolve_left hnot⟩
  unfold World.close
  split
  · rename_i hsocket
    split
    · exact hg
    · rename_i hclosed
      have hg' : Good W { w with closed := Function.update w.closed h true } := by
        refine hg.congr rfl rfl rfl (fun x hx => ?_) fun _ href => href
        rcases eq_or_ne x h with rfl | hne
        · simp
        · simpa [hne] using hx
      exact hg'.handleClose (hself fun hboth => hclosed hboth.2)
  · rename_i hsocket
    exact hg.handleClose (hself fun hboth => hsocket hboth.1)

/-- The `Handle::close` of a handle under whose number another one is registered drops the entry of
that one. -/
theorem handleClose_of_other (hreg : w.allHandles (W.fd h) = some other) (hne : other ≠ h) :
    (w.handleClose W h).interest (W.fd h) = none ∧
      (w.handleClose W h).allHandles (W.fd h) = some other := by
  have hnot : w.deregisterHandle W h = w := by
    refine if_neg fun hself => hne ?_
    exact Option.some.inj (hreg.symm.trans hself)
  unfold World.handleClose
  rw [hnot, ite_self]
  exact ⟨Function.update_self .., hreg⟩

/-- So does `close`, unless it is that of a socket that has been closed. -/
theorem close_of_other (hreg : w.allHandles (W.fd h) = some other) (hne : other ≠ h)
    (hnot : ¬ (W.isSocket h = true ∧ w.closed h = true)) :
    (w.close W h).interest (W.fd h) = none ∧ (w.close W h).allHandles (W.fd h) = some other := by
  unfold World.close
  split
  · rename_i hsocket
    rw [if_neg fun hclosed => hnot ⟨hsocket, hclosed⟩]
    exact handleClose_of_other (w := { w with closed := Function.update w.closed h true }) hreg hne
  · exact handleClose_of_other hreg hne

omit [DecidableEq H] in
/-- A handle is put into the map, and its pointer into the interest list. -/
theorem Good.put {w' : World H} (hg : Good W w)
    (hinterest : w'.interest = Function.update w.interest (W.fd h) (some h))
    (hall : w'.allHandles = Function.update w.allHandles (W.fd h) (some h))
    (hopened : w'.opened = w.opened) (hclosed : w'.closed = w.closed)
    (hopen : w.opened (W.fd h) = true)
    (hself : (W.isSocket h = true ∧ w.closed h = true) ∨ w'.runtimeRef h = true)
    (hruntime : ∀ x, W.fd x ≠ W.fd h → w'.runtimeRef x = w.runtimeRef x) : Good W w' := by
  have hold : ∀ fd x, w'.allHandles fd = some x →
      (fd = W.fd h ∧ x = h) ∨ (fd ≠ W.fd h ∧ w.allHandles fd = some x) := by
    intro fd x hx
    rw [hall, Function.update_apply] at hx
    split at hx
    · exact .inl ⟨‹_›, (Option.some.inj hx).symm⟩
    · exact .inr ⟨‹_›, hx⟩
  refine ⟨fun fd => ?_, fun fd x hx => ?_, fun fd x hx => ?_, fun fd x hx => ?_⟩
  · rw [hinterest, hall, Function.update_apply, Function.update_apply, hg.interest]
  · rcases hold fd x hx with ⟨rfl, rfl⟩ | ⟨-, hx⟩
    · rfl
    · exact hg.fd fd x hx
  · rw [hopened]
    rcases hold fd x hx with ⟨rfl, rfl⟩ | ⟨-, hx⟩
    · exact hopen
    · exact hg.isOpen fd x hx
  · rw [hclosed]
    rcases hold fd x hx with ⟨rfl, rfl⟩ | ⟨hne, hx⟩
    · exact hself
    · rw [hruntime x (by rw [hg.fd fd x hx]; exact hne)]
      exact hg.runtime fd x hx

/-- What the branch that inserts changes. -/
theorem insertHandle_eq (w : World H) (h : H) :
    (w.insertHandle W h).allHandles = Function.update w.allHandles (W.fd h) (some h) ∧
    (w.insertHandle W h).interest =
      (if w.opened (W.fd h) && (w.interest (W.fd h)).isNone then
        Function.update w.interest (W.fd h) (some h) else w.interest) ∧
    (w.insertHandle W h).opened = w.opened ∧ (w.insertHandle W h).closed = w.closed ∧
    (w.insertHandle W h).runtimeRef = w.runtimeRef := by
  refine ⟨?_, ?_, rfl, ?_, ?_⟩
  · simp [World.insertHandle, World.epollAdd, Shared.setHandle]
  · simp only [World.insertHandle, World.epollAdd, Shared.setHandle, Shared.epollAdd,
      insertSocket_interest]
    split <;> simp [Shared.setInterest]
  · simp only [World.insertHandle, World.epollAdd, Shared.setHandle, Shared.epollAdd]
    split <;> simp [Shared.setInterest]
  · simp only [World.insertHandle, World.epollAdd, Shared.setHandle, Shared.epollAdd]
    split <;> simp [Shared.setInterest]

/-- What the branch that takes the place of an older handle changes, where `w₁` is what the `close`
of that leaves. -/
theorem replaceHandle_eq (h : H) {prev : H} {w₁ : World H}
    (hclose : (w.retire prev).close W prev = w₁) :
    (w.replaceHandle W prev h).allHandles = Function.update w₁.allHandles (W.fd h) (some h) ∧
    (w.replaceHandle W prev h).interest =
      (if w₁.opened (W.fd h) && (w₁.interest (W.fd h)).isSome then
        Function.update w₁.interest (W.fd h) (some h) else w₁.interest) ∧
    (w.replaceHandle W prev h).opened = w₁.opened ∧
    (w.replaceHandle W prev h).closed = w₁.closed ∧
    (w.replaceHandle W prev h).runtimeRef = w₁.runtimeRef := by
  have heq : w.replaceHandle W prev h =
      let w := { w₁ with toShared := (w₁.toShared.eraseSocket W prev).insertSocket W h }.epollMod
        (W.fd h) h
      { w with toShared := w.toShared.setHandle (W.fd h) (some h) } := by
    rw [← hclose]
    rfl
  rw [heq]
  by_cases hopen : w₁.opened (W.fd h) = true
  · cases hint : w₁.interest (W.fd h) <;>
      simp [World.epollMod, Shared.epollMod, hopen, hint, Shared.setHandle, Shared.setInterest]
  · simp [World.epollMod, hopen, Shared.setHandle]

/-- The `Handle::close` of a handle that has forgotten its runtime is no more than `::close`. -/
theorem handleClose_of_forgotten (href : w.runtimeRef h = false) :
    w.handleClose W h = w.sysClose (W.fd h) := by
  rw [World.handleClose, href]
  rfl

/-- The `close` of such a handle closes its number, unless it is a socket that has been closed. -/
theorem close_of_forgotten (href : w.runtimeRef h = false)
    (hnot : ¬ (W.isSocket h = true ∧ w.closed h = true)) :
    (w.close W h).interest (W.fd h) = none ∧ (w.close W h).opened (W.fd h) = false := by
  unfold World.close
  split
  · rename_i hsocket
    rw [if_neg fun hclosed => hnot ⟨hsocket, hclosed⟩,
      handleClose_of_forgotten (w := { w with closed := Function.update w.closed h true }) href]
    exact ⟨Function.update_self .., Function.update_self ..⟩
  · rw [handleClose_of_forgotten href]
    exact ⟨Function.update_self .., Function.update_self ..⟩

/-- A handle that is registered knows its runtime then. -/
theorem Good.setRuntime (hg : Good W w) (h : H) :
    Good W { w with toShared := w.toShared.setRuntimeRef h true } := by
  refine hg.congr rfl rfl rfl (fun _ hc => hc) fun x href => ?_
  simp only [Shared.setRuntimeRef, Function.update_apply]
  split
  · rfl
  · exact href

/-- `register_handle` of a handle under whose number there is none. -/
theorem registerHandle_of_none (hall : w.allHandles (W.fd h) = none) : w.registerHandle W h =
    World.insertHandle W { w with toShared := w.toShared.setRuntimeRef h true } h := by
  simp only [World.registerHandle, Shared.setRuntimeRef, hall]

/-- `register_handle` of a handle under whose number there is one. -/
theorem registerHandle_of_some {prev : H} (hall : w.allHandles (W.fd h) = some prev) :
    w.registerHandle W h =
      World.replaceHandle W { w with toShared := w.toShared.setRuntimeRef h true } prev h := by
  simp only [World.registerHandle, Shared.setRuntimeRef, hall]

/-- `register_handle` keeps it under the condition, and the descriptor is open then. -/
theorem Good.register (hg : Good W w) (hopen : w.opened (W.fd h) = true)
    (hprev : ∀ prev ∈ w.allHandles (W.fd h), W.isSocket prev = true ∧ w.closed prev = true) :
    Good W (w.registerHandle W h) ∧ (w.registerHandle W h).opened (W.fd h) = true := by
  have hg₁ := hg.setRuntime h
  cases hall : w.allHandles (W.fd h) with
  | none =>
    obtain ⟨hmap, hlist, hopened, hclosed, hruntime⟩ :=
      insertHandle_eq (W := W) { w with toShared := w.toShared.setRuntimeRef h true } h
    have hentry : w.interest (W.fd h) = none := (hg.interest _).trans hall
    rw [registerHandle_of_none hall]
    refine ⟨hg₁.put ?_ hmap hopened hclosed hopen (.inr ?_) fun x _ => ?_, by rwa [hopened]⟩
    · rw [hlist]
      exact if_pos (by simp [Shared.setRuntimeRef, hopen, hentry])
    · rw [hruntime]
      exact Function.update_self ..
    · rw [hruntime]
  | some prev =>
    obtain ⟨hsocket, hc⟩ := hprev prev hall
    -- The older handle has been closed, so nothing happens to the number.
    have hclose : World.close W (World.retire
        { w with toShared := w.toShared.setRuntimeRef h true } prev) prev =
        World.retire { w with toShared := w.toShared.setRuntimeRef h true } prev := by
      simp [World.close, World.retire, Shared.setRuntimeRef, hsocket, hc]
    obtain ⟨hmap, hlist, hopened, hclosed, hruntime⟩ := replaceHandle_eq (W := W) h hclose
    have hentry : w.interest (W.fd h) = some prev := (hg.interest _).trans hall
    rw [registerHandle_of_some hall]
    refine ⟨hg₁.put ?_ hmap hopened hclosed hopen ?_ fun x hx => ?_, ?_⟩
    · rw [hlist]
      exact if_pos (by simp [World.retire, Shared.setRuntimeRef, hopen, hentry])
    · rw [hruntime]
      rcases eq_or_ne h prev with rfl | hne
      · exact .inl ⟨hsocket, hc⟩
      · refine .inr ?_
        simp [World.retire, Shared.setRuntimeRef, hne]
    · rw [hruntime]
      have hne : x ≠ prev := by
        rintro rfl
        exact hx (hg.fd _ _ hall)
      exact Function.update_of_ne hne ..
    · rw [hopened]
      exact hopen

/-- Against the condition `register_handle` breaks it. -/
theorem register_breaks (hg : Good W w) (hnot : ¬ (w.opened (W.fd h) = true ∧
      ∀ prev ∈ w.allHandles (W.fd h), W.isSocket prev = true ∧ w.closed prev = true)) :
    (w.registerHandle W h).interest (W.fd h) ≠ (w.registerHandle W h).allHandles (W.fd h) := by
  cases hall : w.allHandles (W.fd h) with
  | none =>
    -- The number is not open, so the handle gets no entry.
    have hopen : w.opened (W.fd h) = false := by
      by_contra hopen
      exact hnot ⟨by simpa using hopen, fun prev hprev => by rw [hall] at hprev; cases hprev⟩
    obtain ⟨hmap, hlist, -⟩ :=
      insertHandle_eq (W := W) { w with toShared := w.toShared.setRuntimeRef h true } h
    have hentry : w.interest (W.fd h) = none := (hg.interest _).trans hall
    rw [registerHandle_of_none hall, hmap, hlist, if_neg (by simp [hopen]), Function.update_self]
    simp [Shared.setRuntimeRef, hentry]
  | some prev =>
    -- The older handle is closed, and the number and its entry with it.
    have hfd : W.fd prev = W.fd h := hg.fd _ _ hall
    have hlive : ¬ (W.isSocket prev = true ∧ w.closed prev = true) := by
      intro hboth
      refine hnot ⟨hg.isOpen _ _ hall, fun x hx => ?_⟩
      obtain rfl : prev = x := Option.some.inj (hall.symm.trans hx)
      exact hboth
    have hgone := close_of_forgotten (W := W) (h := prev)
      (w := World.retire { w with toShared := w.toShared.setRuntimeRef h true } prev)
      (Function.update_self ..) hlive
    rw [hfd] at hgone
    have hclose : (World.retire { w with toShared := w.toShared.setRuntimeRef h true } prev).close W
        prev = _ := rfl
    obtain ⟨hmap, hlist, -⟩ := replaceHandle_eq (W := W) h hclose
    rw [registerHandle_of_some hall, hmap, hlist, if_neg (by simp [hgone]), Function.update_self,
      hgone.1]
    simp

/-- Nothing is registered, and the interest list is empty. -/
def Bare (w : World H) : Prop := (∀ fd, w.interest fd = none) ∧ ∀ fd, w.allHandles fd = none

omit [DecidableEq H] in
/-- That holds between the calls, too. -/
theorem Bare.good (hb : Bare w) : Good W w := by
  have hno : ∀ fd x, w.allHandles fd ≠ some x := by
    intro fd x hx
    rw [hb.2 fd] at hx
    cases hx
  exact ⟨fun fd => (hb.1 fd).trans (hb.2 fd).symm, fun fd x hx => absurd hx (hno fd x),
    fun fd x hx => absurd hx (hno fd x), fun fd x hx => absurd hx (hno fd x)⟩

/-- A destructor leaves it so. -/
theorem Bare.destroy (hb : Bare w) (h : H) : Bare (w.destroy W h) := by
  have hclose : ∀ w' : World H, Bare w' → Bare (w'.handleClose W h) := by
    intro w' hb'
    have hnot : w'.deregisterHandle W h = w' := by
      refine if_neg ?_
      rw [hb'.2]
      simp
    unfold World.handleClose
    rw [hnot, ite_self]
    refine ⟨fun fd => ?_, hb'.2⟩
    simp only [World.sysClose, Shared.setInterest, Function.update_apply]
    split
    · rfl
    · exact hb'.1 fd
  unfold World.destroy World.close
  split_ifs
  · exact hb
  · exact hclose _ hb
  · exact hb

/-- So do the destructors of any number of handles. -/
theorem Bare.foldl : ∀ (hs : List H) {w : World H}, Bare w → Bare (hs.foldl (World.destroy W) w)
  | [], _, hb => hb
  | h :: hs, _, hb => Bare.foldl hs (hb.destroy h)

/-- `release_all_handles` leaves nothing registered. -/
theorem Good.release (hg : Good W w) (dying : List H) : Bare (w.releaseAllHandles W dying) := by
  have hempty : Bare ({ w.releaseReset W with
      allHandles := fun _ => none, allSockets := [], removable := [] } : World H) := by
    refine ⟨fun fd => ?_, fun _ => rfl⟩
    simp only [World.releaseReset]
    split
    · rfl
    · rename_i hnot
      rw [hg.interest]
      by_contra hne
      obtain ⟨x, hx⟩ := Option.ne_none_iff_exists'.1 hne
      exact hnot (by simp [hx, hg.isOpen fd x hx])
  exact hempty.foldl _

/-! ## Runs -/

variable {c c' : Config (World H) (Event H)} {a : Action H}

/-- What holds between the calls, with what has been registered. -/
def Inv (W : Handles H) (c : Config (World H) (Event H)) : Prop := Good W c.state

/-- Every call under the condition keeps it, and the lists agree. -/
theorem step_keeps (hI : Inv W c) (hA : Agrees c) (hC : Unshared W c a)
    (hn : next (machine W) c a = some c') : Inv W c' ∧ Agrees c' := by
  obtain ⟨w', es, hs, rfl⟩ := next_eq_some _ hn
  have hquiet : ∀ w' : World H, Good W w' →
      Inv W ⟨w', c.trace ++ []⟩ ∧ Agrees ⟨w', c.trace ++ []⟩ := by
    intro w' hg
    refine ⟨hg, hg.interest, fun h isOpen hmem => hA.isOpen h isOpen ?_⟩
    simpa using hmem
  cases a with
  | obtain fd =>
    obtain ⟨hfree, hs⟩ := Option.ite_none_left_eq_some.1 hs
    obtain ⟨rfl, rfl⟩ := Prod.mk.inj (Option.some.inj hs)
    refine hquiet _ ⟨hI.interest, hI.fd, fun fd' x hx => ?_, hI.runtime⟩
    have hopen := hI.isOpen fd' x hx
    simp only [Function.update_apply]
    split
    · rfl
    · exact hopen
  | register h =>
    obtain ⟨rfl, rfl⟩ := Prod.mk.inj (Option.some.inj hs)
    obtain ⟨hg, hopen⟩ := Good.register hI hC.1 hC.2
    refine ⟨hg, hg.interest, fun x isOpen hmem => ?_⟩
    rcases List.mem_append.1 hmem with hmem | hmem
    · exact hA.isOpen x isOpen hmem
    · obtain ⟨rfl, rfl⟩ := Event.registered.inj (List.mem_singleton.1 hmem)
      exact hopen
  | deregister h =>
    obtain ⟨rfl, rfl⟩ := Prod.mk.inj (Option.some.inj hs)
    exact hquiet _ (Good.deregister hI h).1
  | close h =>
    obtain ⟨rfl, rfl⟩ := Prod.mk.inj (Option.some.inj hs)
    exact hquiet _ (Good.close hI hC)
  | release dying =>
    obtain ⟨rfl, rfl⟩ := Prod.mk.inj (Option.some.inj hs)
    exact hquiet _ (Good.release hI dying).good

/-- A call against the condition leaves the lists different. -/
theorem step_breaks (hI : Inv W c) (hC : ¬ Unshared W c a) (hn : next (machine W) c a = some c') :
    ¬ Agrees c' := by
  obtain ⟨w', es, hs, rfl⟩ := next_eq_some _ hn
  intro hA
  cases a with
  | obtain fd | deregister h | release dying => exact hC trivial
  | register h =>
    obtain ⟨rfl, rfl⟩ := Prod.mk.inj (Option.some.inj hs)
    exact register_breaks hI hC (hA.interest (W.fd h))
  | close h =>
    obtain ⟨rfl, rfl⟩ := Prod.mk.inj (Option.some.inj hs)
    obtain ⟨hnot, hother⟩ := not_or.1 hC
    obtain ⟨other, hreg, hne⟩ : ∃ other, c.state.allHandles (W.fd h) = some other ∧ other ≠ h := by
      simpa using hother
    obtain ⟨hentry, hmap⟩ := close_of_other hreg hne hnot
    have hsame := hA.interest (W.fd h)
    rw [hentry, hmap] at hsame
    cases hsame

/-- After every call of a run the interest list has exactly the pairs of `all_handles_`, and what
has been registered has an open descriptor, exactly when every handle is registered with an open
descriptor, under whose number there is no handle or a socket that has been closed, and no handle is
closed, not having been before, under whose number another one is registered. -/
theorem agrees_always_iff (W : Handles H) (opened : ℕ → Bool) (as : List (Action H)) :
    Always (machine W) Agrees (init H opened) as ↔
      Steps (machine W) (Unshared W) (init H opened) as := by
  have hbare : Bare (init H opened).state := ⟨fun _ => rfl, fun _ => rfl⟩
  refine always_iff_steps (I := Inv W) (fun c a c' hI hA hC hn => step_keeps hI hA hC hn)
    (fun c a c' hI _ hC hn => step_breaks hI hC hn) hbare.good ⟨fun _ => rfl, fun h b hmem => ?_⟩
  cases hmem

/-- Two sockets that have the same number. -/
def twins : Handles (Fin 2) := { fd := fun _ => 5, isSocket := fun _ => true }

/-- A socket takes the number of another one that is registered: it is closed with that one, and is
registered with neither a descriptor nor an entry. -/
theorem register_closes_own_descriptor :
    ∃ c, run (machine twins) (init (Fin 2) fun _ => false) [.obtain 5, .register 0, .register 1] =
        some c ∧ c.trace = [.registered 0 true, .registered 1 false] ∧
      c.state.allHandles 5 = some 1 ∧ c.state.interest 5 = none ∧ ¬ Agrees c := by
  refine ⟨_, rfl, rfl, rfl, rfl, fun h => ?_⟩
  have hopen := h.isOpen 1 false (by decide)
  cases hopen

/-- A socket that is closed and has its number taken over in the ordinary way. -/
example : Steps (machine twins) (Unshared twins) (init (Fin 2) fun _ => false)
    [.obtain 5, .register 0, .close 0, .obtain 5, .register 1, .deregister 1, .release [0]] := by
  decide

end Sequential

end Spinet.Registry
