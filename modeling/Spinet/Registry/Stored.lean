import Mathlib.Data.Set.Card
import Mathlib.Tactic.Tauto
import Spinet.Registry.Sequential
import Spinet.Table.Answers

/-!
# The registry as it is stored

`register_handle`, `deregister_handle`, `close`, and `release_all_handles` as whole calls, with
`all_handles_` and `all_sockets_` as the hash tables that they are: a `robin_map` from descriptors,
whose hashes are the descriptors themselves, and a `robin_set` of pointers, whose hashes are the
addresses. `Spinet.Registry.Sequential` has the same calls on a function and on a list.

`stored_run` says that nothing is lost by that: as long as a call that registers finds less than
32767 values in each table, every call on the tables does what the call on the function and the list
does, or throws `std::length_error` where a table cannot grow. The iterators that the calls keep
while they change the other table, or call `close`, stay valid.
-/

namespace Spinet.Registry

open Transition Spinet.Table
open RobinHash (mem_elements lt_of_full bucket_setBucket)

/-- What never changes about the handles, with what the tables need. -/
structure Storage (H : Type) extends Handles H where
  /-- The address of a handle. -/
  address : H → ℕ
  /-- `max_size()` of the bucket array of `all_handles_`. -/
  maxHandles : ℕ
  /-- `max_size()` of the bucket array of `all_sockets_`. -/
  maxSockets : ℕ

/-- `tsl::robin_map<int, std::shared_ptr<Handle>>`. An arithmetic key with its default hash is not
stored. -/
def Storage.handles {H : Type} (W : Storage H) : Traits ℕ (ℕ × H) :=
  ⟨Prod.fst, id, false, W.maxHandles⟩

/-- `tsl::robin_set<BaseSocket*>`. The hash of a pointer takes no room in its bucket, and so it is
stored. -/
def Storage.sockets {H : Type} (W : Storage H) : Traits H H := ⟨id, W.address, true, W.maxSockets⟩

/-- A runtime with its handles, and the descriptors of the process. -/
structure Stored (H : Type) where
  /-- `all_handles_`. -/
  allHandles : RobinHash (ℕ × H)
  /-- `all_sockets_`. -/
  allSockets : RobinHash H
  /-- `removable_handles_`. -/
  removable : List H
  /-- The epoll interest list: the pointer registered for a descriptor. -/
  interest : ℕ → Option H
  /-- Whether `runtime_` of a handle refers to this runtime. -/
  runtimeRef : H → Bool
  /-- `closed_` of a socket. -/
  closed : H → Bool
  /-- Whether a descriptor number is open. -/
  opened : ℕ → Bool

namespace Stored

variable {H : Type}

/-- `EPOLL_CTL_ADD`. -/
def epollAdd (s : Stored H) (fd : ℕ) (h : H) : Stored H :=
  if s.opened fd && (s.interest fd).isNone then
    { s with interest := Function.update s.interest fd (some h) }
  else s

/-- `EPOLL_CTL_MOD`. -/
def epollMod (s : Stored H) (fd : ℕ) (h : H) : Stored H :=
  if s.opened fd && (s.interest fd).isSome then
    { s with interest := Function.update s.interest fd (some h) }
  else s

/-- `EPOLL_CTL_DEL`. -/
def epollDel (s : Stored H) (fd : ℕ) : Stored H :=
  if s.opened fd then { s with interest := Function.update s.interest fd none } else s

/-- `::close`. -/
def sysClose (s : Stored H) (fd : ℕ) : Stored H :=
  { s with
    interest := Function.update s.interest fd none
    opened := Function.update s.opened fd false }

section Calls

variable [DecidableEq H]

/-- Sets or resets `runtime_` of a handle. -/
def setRuntimeRef (s : Stored H) (h : H) (b : Bool) : Stored H :=
  { s with runtimeRef := Function.update s.runtimeRef h b }

/-- Inserts into `all_sockets_` if the handle is a socket. -/
def insertSocket (W : Storage H) (s : Stored H) (h : H) : Except Fault (Stored H) :=
  if W.isSocket h then
    (s.allSockets.insertImpl W.sockets h).map fun r => { s with allSockets := r.1 }
  else .ok s

/-- Erases from `all_sockets_` if the handle is a socket. -/
def eraseSocket (W : Storage H) (s : Stored H) (h : H) : Except Fault (Stored H) :=
  if W.isSocket h then
    (s.allSockets.erase W.sockets h).map fun r => { s with allSockets := r.1 }
  else .ok s

/-- `second` of an iterator of `all_handles_`. -/
def second (s : Stored H) (i : ℕ) : Option H := (s.allHandles.bucket i).value.map Prod.snd

/-- `Runtime::deregister_handle`. -/
def deregisterHandle (W : Storage H) (s : Stored H) (h : H) : Except Fault (Stored H) := do
  match ← s.allHandles.findImpl W.handles (W.fd h) with
  | none => return s
  | some find =>
    if s.second find = some h then
      let s ← (s.setRuntimeRef h false).eraseSocket W h
      let s := s.epollDel (W.fd h)
      let allHandles ← s.allHandles.eraseAt find
      return { s with removable := s.removable ++ [h], allHandles := allHandles }
    else return s

/-- `Handle::close`. -/
def handleClose (W : Storage H) (s : Stored H) (h : H) : Except Fault (Stored H) :=
  (if s.runtimeRef h then s.deregisterHandle W h else .ok s).map (·.sysClose (W.fd h))

/-- `close`, which `TcpSocket` overrides; what it does with its queues does not show here. -/
def close (W : Storage H) (s : Stored H) (h : H) : Except Fault (Stored H) :=
  if W.isSocket h then
    if s.closed h then .ok s
    else { s with closed := Function.update s.closed h true }.handleClose W h
  else s.handleClose W h

/-- The branch of `Runtime::register_handle` that inserts. -/
def insertHandle (W : Storage H) (s : Stored H) (h : H) : Except Fault (Stored H) := do
  let s ← s.insertSocket W h
  let s := s.epollAdd (W.fd h) h
  let r ← s.allHandles.insertImpl W.handles (W.fd h, h)
  return { s with allHandles := r.1 }

/-- The branch of `Runtime::register_handle` that takes the place of an older handle, with the
iterator to that one. -/
def replaceHandle (W : Storage H) (s : Stored H) (prev : ℕ) (prevHandle h : H) :
    Except Fault (Stored H) := do
  let s := { s with removable := s.removable ++ [prevHandle] }.setRuntimeRef prevHandle false
  let s ← s.close W prevHandle
  let s ← s.eraseSocket W prevHandle
  let s ← s.insertSocket W h
  let s := s.epollMod (W.fd h) h
  return { s with allHandles := s.allHandles.assignAt prev (W.fd h, h) }

/-- `Runtime::register_handle`. -/
def registerHandle (W : Storage H) (s : Stored H) (h : H) : Except Fault (Stored H) := do
  let s := s.setRuntimeRef h true
  match ← s.allHandles.findImpl W.handles (W.fd h) with
  | none => s.insertHandle W h
  | some prev =>
    match s.second prev with
    | none => return s
    | some prevHandle => s.replaceHandle W prev prevHandle h

/-- The destructor of a handle. -/
def destroy (W : Storage H) (s : Stored H) (h : H) : Except Fault (Stored H) :=
  if W.isSocket h then s.close W h else .ok s

/-- What the first loop of `Runtime::release_all_handles` does with a pair of `all_handles_`. -/
def releaseOne (s : Stored H) (pair : ℕ × H) : Stored H :=
  (s.setRuntimeRef pair.2 false).epollDel pair.1

/-- `Runtime::release_all_handles`; `dying` are those of the handles that nothing else refers
to. -/
def releaseAllHandles (W : Storage H) (s : Stored H) (dying : List H) : Except Fault (Stored H) :=
  let released := fun h => decide (h ∈ s.allHandles.visit.map Prod.snd) || decide (h ∈ s.removable)
  let s := s.allHandles.visit.foldl releaseOne s
  let s := { s with
    allHandles := RobinHash.init _, allSockets := RobinHash.init _, removable := [] }
  (dying.filter released).foldlM (destroy W) s

/-- `Runtime::current_load`. -/
def currentLoad (s : Stored H) : ℕ := s.allHandles.nbElements

/-- What a call leaves. -/
def call (W : Storage H) (s : Stored H) : Sequential.Action H → Except Fault (Stored H)
  | .obtain fd => .ok { s with opened := Function.update s.opened fd true }
  | .register h => s.registerHandle W h
  | .deregister h => s.deregisterHandle W h
  | .close h => s.close W h
  | .release dying => s.releaseAllHandles W dying

/-- The step of an action: a call that returns, or a number that was free. -/
def step (W : Storage H) (s : Stored H) (a : Sequential.Action H) :
    Option (Stored H × List (Sequential.Event H)) :=
  match a, s.call W a with
  | .obtain fd, .ok s' => if s.opened fd then none else some (s', [])
  | .register h, .ok s' => some (s', [.registered h (s'.opened (W.fd h))])
  | _, .ok s' => some (s', [])
  | _, .error _ => none

/-- The machine of one runtime. -/
def machine (W : Storage H) : Machine (Stored H) (Sequential.Action H) (Sequential.Event H) :=
  ⟨step W⟩

/-- A new runtime, in a process whose open descriptors are these. -/
def init (H : Type) (opened : ℕ → Bool) : Config (Stored H) (Sequential.Event H) :=
  { state :=
      { allHandles := RobinHash.init _, allSockets := RobinHash.init _, removable := [],
        interest := fun _ => none, runtimeRef := fun _ => false, closed := fun _ => false,
        opened := opened }
    trace := [] }

/-- The condition on an action: a call that registers finds room in both tables. -/
def Fits (c : Config (Stored H) (Sequential.Event H)) : Sequential.Action H → Prop
  | .register _ => c.state.allHandles.nbElements < 32767 ∧ c.state.allSockets.nbElements < 32767
  | _ => True

instance (c : Config (Stored H) (Sequential.Event H)) :
    ∀ a : Sequential.Action H, Decidable (Fits c a)
  | .register _ => inferInstanceAs (Decidable (_ ∧ _))
  | .obtain _ | .deregister _ | .close _ | .release _ => .isTrue trivial

end Calls

/-! ## What the parts of a call do -/

/-- The computation returns something with the property, or throws `std::length_error`. -/
def Returns {α : Type} (r : Except Fault α) (P : α → Prop) : Prop :=
  (∃ a, r = .ok a ∧ P a) ∨ ∃ what, r = .error (.lengthError what)

/-- A value is returned. -/
theorem Returns.ok {α : Type} {a : α} {P : α → Prop} (h : P a) : Returns (.ok a) P :=
  .inl ⟨a, rfl, h⟩

/-- One computation after another. -/
theorem Returns.bind {α β : Type} {r : Except Fault α} {f : α → Except Fault β} {P : α → Prop}
    {Q : β → Prop} (hr : Returns r P) (hf : ∀ a, P a → Returns (f a) Q) : Returns (r >>= f) Q := by
  rcases hr with ⟨a, rfl, ha⟩ | ⟨what, rfl⟩
  · exact hf a ha
  · exact .inr ⟨what, rfl⟩

/-- A computation after one that has returned. -/
theorem Returns.after {α β : Type} {r : Except Fault α} {a : α} {f : α → Except Fault β}
    {Q : β → Prop} (hr : r = .ok a) (hf : Returns (f a) Q) : Returns (r >>= f) Q := by
  rw [hr]
  exact hf

/-- A weaker property. -/
theorem Returns.imp {α : Type} {r : Except Fault α} {P Q : α → Prop} (hr : Returns r P)
    (h : ∀ a, P a → Q a) : Returns r Q := by
  rcases hr with ⟨a, rfl, ha⟩ | ⟨what, rfl⟩
  · exact .ok (h a ha)
  · exact .inr ⟨what, rfl⟩

/-- The tables hold what the function and the list of `Spinet.Registry.Sequential` hold, and the
rest is the same. -/
structure Represents (W : Storage H) (s : Stored H) (w : World H) : Prop where
  /-- The map is laid out. -/
  handles : Valid W.handles s.allHandles
  /-- So is the set. -/
  sockets : Valid W.sockets s.allSockets
  /-- The distances of the map fit. -/
  handlesSize : s.allHandles.elements.length ≤ 32767
  /-- So do those of the set. -/
  socketsSize : s.allSockets.elements.length ≤ 32767
  /-- The pairs of the map. -/
  lookup : ∀ fd h, (fd, h) ∈ s.allHandles.elements ↔ w.allHandles fd = some h
  /-- The members of the set. -/
  members : ∀ h, h ∈ s.allSockets.elements ↔ h ∈ w.allSockets
  /-- A handle is registered under its own number. -/
  keyed : ∀ fd h, w.allHandles fd = some h → W.fd h = fd
  /-- `removable_handles_`. -/
  removable : s.removable = w.removable
  /-- The interest list. -/
  interest : s.interest = w.interest
  /-- `runtime_` of the handles. -/
  runtimeRef : s.runtimeRef = w.runtimeRef
  /-- `closed_` of the sockets. -/
  closed : s.closed = w.closed
  /-- The open numbers. -/
  opened : s.opened = w.opened

variable {W : Storage H} {s s' : Stored H} {w w' : World H} {h prev : H} {i d x fd : ℕ}

namespace Represents

/-- `find` in the map. -/
theorem find (hr : Represents W s w) (fd : ℕ) :
    (∃ i d x h, s.allHandles.findImpl W.handles fd = .ok (some i) ∧
      s.allHandles.bucket i = .full d x (fd, h) ∧ w.allHandles fd = some h) ∨
    (s.allHandles.findImpl W.handles fd = .ok none ∧ w.allHandles fd = none) := by
  obtain ⟨q, hqm, hq⟩ := hr.handles.vacant
  rcases findImpl_spec hr.handles.toLayout hr.handlesSize hqm hq fd with
    ⟨i, d, x, ⟨fd', h⟩, hfind, hb, hkey⟩ | ⟨hfind, hnone⟩
  · obtain rfl : fd' = fd := hkey
    exact .inl ⟨i, d, x, h, hfind, hb, (hr.lookup fd' h).1 (mem_elements.2 ⟨i, d, x, hb⟩)⟩
  · refine .inr ⟨hfind, ?_⟩
    cases hfd : w.allHandles fd with
    | none => rfl
    | some h => exact absurd rfl (hnone (fd, h) ((hr.lookup fd h).2 hfd))

/-- The tables are not touched. -/
theorem frame (hr : Represents W s w) (hhandles : s'.allHandles = s.allHandles)
    (hsockets : s'.allSockets = s.allSockets) (hall : w'.allHandles = w.allHandles)
    (hset : w'.allSockets = w.allSockets) (hremovable : s'.removable = w'.removable)
    (hinterest : s'.interest = w'.interest) (hruntime : s'.runtimeRef = w'.runtimeRef)
    (hclosed : s'.closed = w'.closed) (hopened : s'.opened = w'.opened) : Represents W s' w' := by
  refine ⟨?_, ?_, ?_, ?_, ?_, ?_, ?_, hremovable, hinterest, hruntime, hclosed, hopened⟩
  · rw [hhandles]
    exact hr.handles
  · rw [hsockets]
    exact hr.sockets
  · rw [hhandles]
    exact hr.handlesSize
  · rw [hsockets]
    exact hr.socketsSize
  · rw [hhandles, hall]
    exact hr.lookup
  · rw [hsockets, hset]
    exact hr.members
  · rw [hall]
    exact hr.keyed

/-- `EPOLL_CTL_ADD`. -/
theorem epollAdd (hr : Represents W s w) (fd : ℕ) (h : H) :
    Represents W (s.epollAdd fd h) (w.epollAdd fd h) := by
  unfold Stored.epollAdd World.epollAdd Shared.epollAdd
  rw [hr.opened, hr.interest]
  split
  · exact hr.frame rfl rfl rfl rfl hr.removable rfl hr.runtimeRef hr.closed rfl
  · exact hr.frame rfl rfl rfl rfl hr.removable hr.interest hr.runtimeRef hr.closed hr.opened

/-- `EPOLL_CTL_MOD`. -/
theorem epollMod (hr : Represents W s w) (fd : ℕ) (h : H) :
    Represents W (s.epollMod fd h) (w.epollMod fd h) := by
  unfold Stored.epollMod World.epollMod Shared.epollMod
  rw [hr.opened, hr.interest]
  by_cases hopen : w.opened fd = true
  · rw [hopen, Bool.true_and, if_pos rfl]
    split
    · exact hr.frame rfl rfl rfl rfl hr.removable rfl hr.runtimeRef hr.closed rfl
    · exact hr
  · rw [if_neg (by simp [hopen]), if_neg hopen]
    exact hr

/-- `EPOLL_CTL_DEL`. -/
theorem epollDel (hr : Represents W s w) (fd : ℕ) :
    Represents W (s.epollDel fd) (w.epollDel fd) := by
  unfold Stored.epollDel World.epollDel
  rw [hr.opened, hr.interest]
  split
  · exact hr.frame rfl rfl rfl rfl hr.removable rfl hr.runtimeRef hr.closed rfl
  · exact hr

/-- `::close`. -/
theorem sysClose (hr : Represents W s w) (fd : ℕ) :
    Represents W (s.sysClose fd) (w.sysClose fd) := by
  refine hr.frame rfl rfl rfl rfl hr.removable ?_ hr.runtimeRef hr.closed ?_
  · simp only [Stored.sysClose, World.sysClose, Shared.setInterest, hr.interest]
  · simp only [Stored.sysClose, World.sysClose, hr.opened]

/-- A new pair is put into the map. -/
theorem insertPair (hr : Represents W s w) (hroom : s.allHandles.elements.length < 32767)
    (hnone : w.allHandles (W.fd h) = none) :
    Returns (s.allHandles.insertImpl W.handles (W.fd h, h)) fun r =>
      Represents W { s with allHandles := r.1 }
        { w with toShared := w.toShared.setHandle (W.fd h) (some h) } := by
  rcases insertImpl_spec hr.handles hroom (W.fd h, h) with ⟨i, d, x, ⟨fd', g⟩, hins, hb, hkey⟩ |
    ⟨-, ⟨what, hins⟩ | ⟨t', i, hins, hv', hperm, -⟩⟩
  · obtain rfl : fd' = W.fd h := hkey
    have hmem := (hr.lookup _ g).1 (mem_elements.2 ⟨i, d, x, hb⟩)
    rw [hnone] at hmem
    cases hmem
  · exact .inr ⟨what, hins⟩
  · have hlength := hperm.length_eq
    rw [List.length_cons] at hlength
    refine .inl ⟨_, hins, hv', hr.sockets, by show t'.elements.length ≤ 32767; omega,
      hr.socketsSize, fun fd g => ?_, hr.members, fun fd g => ?_, hr.removable, hr.interest,
      hr.runtimeRef, hr.closed, hr.opened⟩
    · simp only [Shared.setHandle, Function.update_apply, hperm.mem_iff, List.mem_cons,
        Prod.mk.injEq, hr.lookup]
      split
      · rename_i heq
        rw [heq, hnone]
        simp [eq_comm]
      · rename_i hne
        simp [hne]
    · simp only [Shared.setHandle, Function.update_apply]
      split
      · rename_i heq
        rintro ⟨⟩
        exact heq.symm
      · exact hr.keyed fd g

/-- The pair of an iterator is erased from the map. -/
theorem erasePair (hr : Represents W s w) (hb : s.allHandles.bucket i = .full d x (fd, h)) :
    ∃ t', s.allHandles.eraseAt i = .ok t' ∧
      Represents W { s with allHandles := t' }
        { w with toShared := w.toShared.setHandle fd none } := by
  obtain ⟨t', herase, hv', hperm⟩ := eraseAt_spec hr.handles hb
  have hlength := hperm.length_eq
  rw [List.length_cons] at hlength
  have hkeys := hr.handles.keys
  rw [(hperm.map W.handles.key).nodup_iff, List.map_cons, List.nodup_cons] at hkeys
  refine ⟨t', herase, hv', hr.sockets, ?_, hr.socketsSize, fun fd' g => ?_, hr.members,
    fun fd' g => ?_, hr.removable, hr.interest, hr.runtimeRef, hr.closed, hr.opened⟩
  · have := hr.handlesSize
    show t'.elements.length ≤ 32767
    omega
  · have hg := hr.lookup fd' g
    rw [hperm.mem_iff, List.mem_cons, Prod.mk.injEq] at hg
    simp only [Shared.setHandle, Function.update_apply]
    split
    · rename_i heq
      simp only [reduceCtorEq, iff_false]
      intro hmem
      exact hkeys.1 (List.mem_map.2 ⟨(fd', g), hmem, heq⟩)
    · rename_i hne
      rw [← hg]
      simp [hne]
  · simp only [Shared.setHandle, Function.update_apply]
    split
    · rintro ⟨⟩
    · exact hr.keyed fd' g

/-- The handle of an iterator is replaced by another with the same number. -/
theorem assignPair (hr : Represents W s w) (hb : s.allHandles.bucket i = .full d x (W.fd h, prev)) :
    Represents W { s with allHandles := s.allHandles.assignAt i (W.fd h, h) }
      { w with toShared := w.toShared.setHandle (W.fd h) (some h) } := by
  obtain ⟨hv', hperm⟩ := assignAt_spec (w := (W.fd h, h)) hr.handles hb rfl
  have hlength := hperm.length_eq
  rw [List.length_cons, List.length_cons] at hlength
  have hprev := (hr.lookup _ _).1 (mem_elements.2 ⟨i, d, x, hb⟩)
  -- No other handle has the number.
  have hnew : (W.fd h, h) ∈ (s.allHandles.assignAt i (W.fd h, h)).elements := by
    refine mem_elements.2 ⟨i, d, x, ?_⟩
    simp only [RobinHash.assignAt, hb]
    rw [bucket_setBucket (lt_of_full hb), if_pos rfl]
  refine ⟨hv', hr.sockets, ?_, hr.socketsSize, fun fd' g => ?_, hr.members, fun fd' g => ?_,
    hr.removable, hr.interest, hr.runtimeRef, hr.closed, hr.opened⟩
  · have := hr.handlesSize
    show (s.allHandles.assignAt i (W.fd h, h)).elements.length ≤ 32767
    omega
  · simp only [Shared.setHandle, Function.update_apply]
    split
    · rename_i heq
      subst heq
      constructor
      · intro hmem
        have := List.inj_on_of_nodup_map hv'.keys hmem hnew rfl
        rw [Prod.mk.injEq] at this
        rw [this.2]
      · rintro ⟨⟩
        exact hnew
    · rename_i hne
      rw [← hr.lookup]
      have hmem := hperm.mem_iff (a := (fd', g))
      simp only [List.mem_cons, Prod.mk.injEq, hne, false_and, false_or] at hmem
      exact hmem
  · simp only [Shared.setHandle, Function.update_apply]
    split
    · rename_i heq
      rintro ⟨⟩
      exact heq.symm
    · exact hr.keyed fd' g

/-- A handle is put into `removable_handles_`. -/
theorem pushRemovable (hr : Represents W s w) (h : H) :
    Represents W { s with removable := s.removable ++ [h] }
      { w with toShared := { w.toShared with removable := w.removable ++ [h] } } := by
  refine hr.frame rfl rfl rfl rfl ?_ hr.interest hr.runtimeRef hr.closed hr.opened
  rw [hr.removable]

variable [DecidableEq H]

/-- `runtime_` of a handle is set or reset. -/
theorem setRuntimeRef (hr : Represents W s w) (h : H) (b : Bool) :
    Represents W (s.setRuntimeRef h b) { w with toShared := w.toShared.setRuntimeRef h b } := by
  refine hr.frame rfl rfl rfl rfl hr.removable hr.interest ?_ hr.closed hr.opened
  simp only [Stored.setRuntimeRef, Shared.setRuntimeRef, hr.runtimeRef]

/-- A socket is taken from the set. -/
theorem eraseSocket (hr : Represents W s w) (h : H) :
    ∃ s', s.eraseSocket W h = .ok s' ∧ s'.allHandles = s.allHandles ∧
      s'.allSockets.elements.length ≤ s.allSockets.elements.length ∧
      Represents W s' { w with toShared := w.toShared.eraseSocket W.toHandles h } := by
  unfold Stored.eraseSocket Shared.eraseSocket
  split
  case isFalse =>
    exact ⟨s, rfl, rfl, le_rfl, hr⟩
  rcases erase_spec hr.sockets hr.socketsSize h with ⟨t', v, herase, hv', hkey, hperm⟩ |
    ⟨herase, hnone⟩
  · obtain rfl : v = h := hkey
    have hlength := hperm.length_eq
    rw [List.length_cons] at hlength
    have hkeys := hr.sockets.keys
    rw [(hperm.map W.sockets.key).nodup_iff, List.map_cons, List.nodup_cons] at hkeys
    have hshorter : t'.elements.length ≤ s.allSockets.elements.length := by omega
    refine ⟨{ s with allSockets := t' }, by rw [herase]; rfl, rfl, hshorter, hr.handles, hv',
      hr.handlesSize, hshorter.trans hr.socketsSize, hr.lookup, fun y => ?_, hr.keyed,
      hr.removable, hr.interest, hr.runtimeRef, hr.closed, hr.opened⟩
    · have hy := hr.members y
      rw [hperm.mem_iff, List.mem_cons] at hy
      simp only [List.mem_filter, decide_eq_true_eq, ne_eq, ← hy]
      constructor
      · intro hmem
        refine ⟨.inr hmem, ?_⟩
        rintro rfl
        exact hkeys.1 (List.mem_map_of_mem hmem)
      · rintro ⟨rfl | hmem, hne⟩
        · exact absurd rfl hne
        · exact hmem
  · refine ⟨s, by rw [herase]; rfl, rfl, le_rfl, hr.handles, hr.sockets, hr.handlesSize,
      hr.socketsSize, hr.lookup, fun y => ?_, hr.keyed, hr.removable, hr.interest, hr.runtimeRef,
      hr.closed, hr.opened⟩
    simp only [List.mem_filter, decide_eq_true_eq, ne_eq, ← hr.members]
    exact ⟨fun hmem => ⟨hmem, hnone y hmem⟩, fun hmem => hmem.1⟩

/-- A socket is put into the set. -/
theorem insertSocket (hr : Represents W s w) (hroom : s.allSockets.elements.length < 32767)
    (h : H) :
    Returns (s.insertSocket W h) fun s' => s'.allHandles = s.allHandles ∧
      Represents W s' { w with toShared := w.toShared.insertSocket W.toHandles h } := by
  unfold Stored.insertSocket Shared.insertSocket
  split
  case isFalse =>
    exact .ok ⟨rfl, hr⟩
  rcases insertImpl_spec hr.sockets hroom h with ⟨i, d, x, v, hins, hb, hkey⟩ |
    ⟨hnone, ⟨what, hins⟩ | ⟨t', i, hins, hv', hperm, -⟩⟩
  · obtain rfl : v = h := hkey
    have hmem := (hr.members v).1 (mem_elements.2 ⟨i, d, x, hb⟩)
    refine .inl ⟨s, by rw [hins]; rfl, rfl, hr.frame rfl rfl rfl ?_ hr.removable hr.interest
      hr.runtimeRef hr.closed hr.opened⟩
    exact List.insert_of_mem hmem
  · exact .inr ⟨what, by rw [hins]; rfl⟩
  · have hlength := hperm.length_eq
    rw [List.length_cons] at hlength
    refine .inl ⟨{ s with allSockets := t' }, by rw [hins]; rfl, rfl, hr.handles, hv',
      hr.handlesSize, ?_, hr.lookup, fun y => ?_, hr.keyed, hr.removable, hr.interest,
      hr.runtimeRef, hr.closed, hr.opened⟩
    · show t'.elements.length ≤ 32767
      omega
    · simp only [List.mem_insert_iff, ← hr.members, hperm.mem_iff, List.mem_cons]

/-- A socket is marked as closed. -/
theorem setClosed (hr : Represents W s w) (h : H) :
    Represents W { s with closed := Function.update s.closed h true }
      { w with closed := Function.update w.closed h true } := by
  refine hr.frame rfl rfl rfl rfl hr.removable hr.interest hr.runtimeRef ?_ hr.opened
  rw [hr.closed]

/-! ## Whole calls -/

/-- `deregister_handle`, whose iterator stays valid while the set is changed. -/
theorem deregisterHandle (hr : Represents W s w) (h : H) :
    ∃ s', s.deregisterHandle W h = .ok s' ∧
      Represents W s' (w.deregisterHandle W.toHandles h) := by
  unfold Stored.deregisterHandle World.deregisterHandle
  rcases hr.find (W.fd h) with ⟨i, d, x, g, hfind, hb, hg⟩ | ⟨hfind, hnone⟩
  · have hsecond : s.second i = some g := by
      simp only [second, hb, Bucket.value, Option.map_some]
    simp only [hfind, bind, Except.bind]
    rw [hsecond, hg]
    split
    case isFalse =>
      exact ⟨s, rfl, hr⟩
    rename_i heq
    obtain rfl := Option.some.inj heq
    obtain ⟨s₁, hs₁, hsame, -, hr₁⟩ := (hr.setRuntimeRef g false).eraseSocket g
    have hr₂ := (hr₁.epollDel (W.fd g)).pushRemovable g
    have hb₂ : (s₁.epollDel (W.fd g)).allHandles.bucket i = .full d x (W.fd g, g) := by
      have hkeep : (s₁.epollDel (W.fd g)).allHandles = s.allHandles := by
        unfold Stored.epollDel
        split <;> exact hsame
      rw [hkeep, hb]
    obtain ⟨t', herase, hr₃⟩ := hr₂.erasePair hb₂
    exact ⟨_, by simp only [hs₁, herase]; rfl, hr₃⟩
  · simp only [hfind, bind, Except.bind]
    rw [hnone, if_neg (by simp)]
    exact ⟨s, rfl, hr⟩

/-- `Handle::close`. -/
theorem handleClose (hr : Represents W s w) (h : H) :
    ∃ s', s.handleClose W h = .ok s' ∧ Represents W s' (w.handleClose W.toHandles h) := by
  unfold Stored.handleClose World.handleClose
  rw [hr.runtimeRef]
  split
  · obtain ⟨s', hs', hr'⟩ := hr.deregisterHandle h
    exact ⟨_, by rw [hs']; rfl, hr'.sysClose (W.fd h)⟩
  · exact ⟨_, rfl, hr.sysClose (W.fd h)⟩

/-- `close`. -/
theorem close (hr : Represents W s w) (h : H) :
    ∃ s', s.close W h = .ok s' ∧ Represents W s' (w.close W.toHandles h) := by
  unfold Stored.close World.close
  rw [hr.closed]
  split
  · split
    · exact ⟨s, rfl, hr⟩
    · have hr' := (hr.setClosed h).handleClose h
      rw [hr.closed] at hr'
      exact hr'
  · exact hr.handleClose h

/-- A handle that knows no runtime leaves the tables alone when it is closed. -/
theorem tables_of_close (hknown : s.runtimeRef h = false) (hs' : s.close W h = .ok s') :
    s'.allHandles = s.allHandles ∧ s'.allSockets = s.allSockets := by
  unfold Stored.close Stored.handleClose at hs'
  simp only [hknown, Bool.false_eq_true, if_false, Except.map] at hs'
  split_ifs at hs' <;> cases hs' <;> exact ⟨rfl, rfl⟩

/-- The branch of `register_handle` that inserts. -/
theorem insertHandle (hr : Represents W s w) (hroom : s.allHandles.elements.length < 32767)
    (hroom' : s.allSockets.elements.length < 32767) (hnone : w.allHandles (W.fd h) = none) :
    Returns (s.insertHandle W h) fun s' => Represents W s' (w.insertHandle W.toHandles h) := by
  unfold Stored.insertHandle World.insertHandle
  refine (hr.insertSocket hroom' h).bind fun s₁ ⟨hsame, hr₁⟩ => ?_
  have hr₂ := hr₁.epollAdd (W.fd h) h
  have hkeep : (s₁.epollAdd (W.fd h) h).allHandles = s.allHandles := by
    unfold Stored.epollAdd
    split <;> exact hsame
  have hnone₂ : (({ w with toShared := w.toShared.insertSocket W.toHandles h } :
      World H).epollAdd (W.fd h) h).allHandles (W.fd h) = none := by
    have hall : (w.toShared.insertSocket W.toHandles h).allHandles = w.allHandles := by
      unfold Shared.insertSocket
      split <;> rfl
    unfold World.epollAdd Shared.epollAdd Shared.setInterest
    split <;> simp only [hall, hnone]
  refine (hr₂.insertPair (by rw [hkeep]; exact hroom) hnone₂).bind fun r hr₃ => .ok hr₃

/-- The branch of `register_handle` that takes the place of an older handle: its iterator stays
valid, because the older handle knows no runtime when it is closed. -/
theorem replaceHandle (hr : Represents W s w) (hroom : s.allSockets.elements.length < 32767)
    (hb : s.allHandles.bucket i = .full d x (W.fd h, prev)) :
    Returns (s.replaceHandle W i prev h) fun s' =>
      Represents W s' (w.replaceHandle W.toHandles prev h) := by
  unfold Stored.replaceHandle World.replaceHandle World.retire
  have hr₁ := (hr.pushRemovable prev).setRuntimeRef prev false
  obtain ⟨s₂, hs₂, hr₂⟩ := hr₁.close prev
  obtain ⟨hhandles, hsockets⟩ := tables_of_close (Function.update_self ..) hs₂
  obtain ⟨s₃, hs₃, hsame₃, hshorter, hr₃⟩ := hr₂.eraseSocket prev
  refine Returns.after hs₂ (Returns.after hs₃ ?_)
  have hroom₃ : s₃.allSockets.elements.length < 32767 := by
    rw [hsockets] at hshorter
    exact lt_of_le_of_lt hshorter hroom
  refine (hr₃.insertSocket hroom₃ h).bind fun s₄ ⟨hsame₄, hr₄⟩ => ?_
  have hr₅ := hr₄.epollMod (W.fd h) h
  have hkeep : (s₄.epollMod (W.fd h) h).allHandles = s.allHandles := by
    have htables : s₄.allHandles = s.allHandles := hsame₄.trans (hsame₃.trans hhandles)
    unfold Stored.epollMod
    split <;> exact htables
  exact .ok (hr₅.assignPair (by rw [hkeep]; exact hb))

/-- `register_handle`. -/
theorem registerHandle (hr : Represents W s w) (hroom : s.allHandles.elements.length < 32767)
    (hroom' : s.allSockets.elements.length < 32767) (h : H) :
    Returns (s.registerHandle W h) fun s' =>
      Represents W s' (w.registerHandle W.toHandles h) := by
  unfold Stored.registerHandle World.registerHandle
  have hr₁ := hr.setRuntimeRef h true
  rcases hr₁.find (W.fd h) with ⟨i, d, x, prev, hfind, hb, hprev⟩ | ⟨hfind, hnone⟩
  · have hsecond : (s.setRuntimeRef h true).second i = some prev := by
      simp only [second, hb, Bucket.value, Option.map_some]
    simp only [hfind, bind, Except.bind]
    rw [hsecond, hprev]
    exact hr₁.replaceHandle hroom' hb
  · simp only [hfind, bind, Except.bind]
    rw [hnone]
    exact hr₁.insertHandle hroom hroom' hnone

/-- The destructors of some handles. -/
theorem destroyAll : ∀ (hs : List H) {s : Stored H} {w : World H}, Represents W s w →
    ∃ s', hs.foldlM (destroy W) s = .ok s' ∧
      Represents W s' (hs.foldl (World.destroy W.toHandles) w) := by
  intro hs
  induction hs with
  | nil => exact fun hr => ⟨_, rfl, hr⟩
  | cons h hs ih =>
    intro s w hr
    have hone : ∃ s', destroy W s h = .ok s' ∧
        Represents W s' (w.destroy W.toHandles h) := by
      unfold destroy World.destroy
      split
      · exact hr.close h
      · exact ⟨s, rfl, hr⟩
    obtain ⟨s₁, hs₁, hr₁⟩ := hone
    obtain ⟨s₂, hs₂, hr₂⟩ := ih hr₁
    exact ⟨s₂, by rw [List.foldlM_cons, hs₁]; exact hs₂, hr₂⟩

end Represents

variable [DecidableEq H]

/-- What the first loop of `release_all_handles` does with one pair. -/
theorem releaseOne_eq (s : Stored H) (pair : ℕ × H) :
    s.releaseOne pair = { s with
      runtimeRef := Function.update s.runtimeRef pair.2 false
      interest := fun fd => if fd = pair.1 ∧ s.opened fd = true then none else s.interest fd } := by
  unfold releaseOne Stored.epollDel Stored.setRuntimeRef
  split
  · rename_i hopen
    replace hopen : s.opened pair.1 = true := hopen
    congr 1
    funext fd
    by_cases hfd : fd = pair.1 <;> simp [hfd, hopen]
  · rename_i hopen
    replace hopen : ¬ s.opened pair.1 = true := hopen
    congr 1
    funext fd
    by_cases hfd : fd = pair.1 <;> simp [hfd, hopen]

/-- What it does with all of them. -/
theorem foldl_releaseOne : ∀ (pairs : List (ℕ × H)) (s : Stored H),
    pairs.foldl releaseOne s = { s with
      runtimeRef := fun h => if h ∈ pairs.map Prod.snd then false else s.runtimeRef h
      interest := fun fd =>
        if fd ∈ pairs.map Prod.fst ∧ s.opened fd = true then none else s.interest fd } := by
  intro pairs
  induction pairs with
  | nil => exact fun s => by simp
  | cons pair pairs ih =>
    intro s
    rw [List.foldl_cons, ih, releaseOne_eq]
    congr 1
    · funext fd
      simp only [List.map_cons, List.mem_cons]
      split_ifs <;> first | rfl | tauto
    · funext h
      simp only [List.map_cons, List.mem_cons, Function.update_apply]
      split_ifs <;> first | rfl | tauto

/-- `release_all_handles`. -/
theorem Represents.releaseAllHandles (hr : Represents W s w) (dying : List H) :
    ∃ s', s.releaseAllHandles W dying = .ok s' ∧
      Represents W s' (w.releaseAllHandles W.toHandles dying) := by
  -- A handle of the map is one whose number leads to it.
  have hmem : ∀ h, h ∈ s.allHandles.visit.map Prod.snd ↔ w.allHandles (W.fd h) = some h := by
    intro h
    rw [visit_eq_elements]
    constructor
    · intro hh
      obtain ⟨⟨fd, g⟩, hpair, rfl⟩ := List.mem_map.1 hh
      have hfd := (hr.lookup fd g).1 hpair
      rw [hr.keyed fd g hfd]
      exact hfd
    · exact fun hh => List.mem_map.2 ⟨(W.fd h, h), (hr.lookup _ _).2 hh, rfl⟩
  have hkey : ∀ fd, fd ∈ s.allHandles.visit.map Prod.fst ↔ (w.allHandles fd).isSome := by
    intro fd
    rw [visit_eq_elements, Option.isSome_iff_exists]
    constructor
    · intro hfd
      obtain ⟨⟨fd', g⟩, hpair, rfl⟩ := List.mem_map.1 hfd
      exact ⟨g, (hr.lookup _ g).1 hpair⟩
    · rintro ⟨g, hg⟩
      exact List.mem_map.2 ⟨(fd, g), (hr.lookup fd g).2 hg, rfl⟩
  have hreleased : (fun h => decide (h ∈ s.allHandles.visit.map Prod.snd) ||
      decide (h ∈ s.removable)) =
      fun h => decide (w.allHandles (W.fd h) = some h) || decide (h ∈ w.removable) := by
    funext h
    rw [decide_eq_decide.2 (hmem h), hr.removable]
  unfold Stored.releaseAllHandles World.releaseAllHandles
  simp only [hreleased, foldl_releaseOne]
  refine Represents.destroyAll _ ⟨valid_init _, valid_init _, by simp [RobinHash.elements,
    RobinHash.init], by simp [RobinHash.elements, RobinHash.init], fun fd h => ?_, fun h => ?_,
    fun fd h hh => ?_, rfl, ?_, ?_, ?_, ?_⟩
  · simp [RobinHash.elements, RobinHash.init]
  · simp [RobinHash.elements, RobinHash.init]
  · cases hh
  · funext fd
    simp only [World.releaseReset, hkey, hr.opened, hr.interest, Bool.and_eq_true]
  · funext h
    simp only [World.releaseReset, hmem, hr.runtimeRef]
  · exact hr.closed
  · exact hr.opened

/-! ## Every run -/

/-- A call that finds room returns what the call on the function and the list leaves, or throws
`std::length_error`. -/
theorem Represents.call (hr : Represents W s w) (a : Sequential.Action H)
    (hroom : ∀ h, a = .register h → s.allHandles.nbElements < 32767 ∧
      s.allSockets.nbElements < 32767) :
    Returns (s.call W a) fun s' =>
      ∀ w' es, Sequential.step W.toHandles w a = some (w', es) → Represents W s' w' := by
  cases a with
  | obtain fd =>
    refine .ok fun w' es hstep => ?_
    obtain ⟨-, hstep⟩ := Option.ite_none_left_eq_some.1 hstep
    obtain ⟨rfl, -⟩ := Prod.mk.inj (Option.some.inj hstep)
    refine hr.frame rfl rfl rfl rfl hr.removable hr.interest hr.runtimeRef hr.closed ?_
    rw [hr.opened]
  | register h =>
    obtain ⟨hroom, hroom'⟩ := hroom h rfl
    rw [hr.handles.count] at hroom
    rw [hr.sockets.count] at hroom'
    refine (hr.registerHandle hroom hroom' h).imp fun s' hr' w' es hstep => ?_
    obtain ⟨rfl, -⟩ := Prod.mk.inj (Option.some.inj hstep)
    exact hr'
  | deregister h =>
    obtain ⟨s', hs', hr'⟩ := hr.deregisterHandle h
    refine .inl ⟨s', hs', fun w' es hstep => ?_⟩
    obtain ⟨rfl, -⟩ := Prod.mk.inj (Option.some.inj hstep)
    exact hr'
  | close h =>
    obtain ⟨s', hs', hr'⟩ := hr.close h
    refine .inl ⟨s', hs', fun w' es hstep => ?_⟩
    obtain ⟨rfl, -⟩ := Prod.mk.inj (Option.some.inj hstep)
    exact hr'
  | release dying =>
    obtain ⟨s', hs', hr'⟩ := hr.releaseAllHandles dying
    refine .inl ⟨s', hs', fun w' es hstep => ?_⟩
    obtain ⟨rfl, -⟩ := Prod.mk.inj (Option.some.inj hstep)
    exact hr'

variable {c c' : Config (Stored H) (Sequential.Event H)}
  {c₁ : Config (World H) (Sequential.Event H)} {a : Sequential.Action H}

/-- The two machines have come to the same: the tables hold what the function and the list hold, and
the same has been seen. -/
structure Matches (W : Storage H) (c : Config (Stored H) (Sequential.Event H))
    (c₁ : Config (World H) (Sequential.Event H)) : Prop where
  /-- The state of the one represents that of the other. -/
  represents : Represents W c.state c₁.state
  /-- The traces are equal. -/
  trace : c.trace = c₁.trace

omit [DecidableEq H] in
/-- What `Fits` says of a call that registers. -/
theorem Fits.register (hf : Fits c a) {h : H} (ha : a = .register h) :
    c.state.allHandles.nbElements < 32767 ∧ c.state.allSockets.nbElements < 32767 := by
  subst ha
  exact hf

/-- A step on the tables is one on the function and the list. -/
theorem Matches.step (hm : Matches W c c₁) (hf : Fits c a)
    (hn : next (machine W) c a = some c') :
    ∃ c₂, next (Sequential.machine W.toHandles) c₁ a = some c₂ ∧ Matches W c' c₂ := by
  obtain ⟨s', es, hstep, rfl⟩ := next_eq_some _ hn
  have hcall := hm.represents.call a fun h ha => hf.register ha
  have hopened := hm.represents.opened
  -- The call has returned, because there was a step.
  rcases hcall with ⟨s₁, hs₁, hr'⟩ | ⟨what, hthrow⟩
  case inr =>
    simp only [machine, Stored.step, hthrow] at hstep
    cases hstep
  -- The other machine has the step, with the same event.
  have hboth : s₁ = s' ∧ ∃ w', Sequential.step W.toHandles c₁.state a = some (w', es) := by
    cases a with
    | obtain fd =>
      simp only [machine, Stored.step, hs₁, Option.ite_none_left_eq_some, Option.some.injEq,
        Prod.mk.injEq] at hstep
      obtain ⟨hfree, rfl, rfl⟩ := hstep
      rw [hopened] at hfree
      exact ⟨rfl, _, if_neg hfree⟩
    | register h =>
      simp only [machine, Stored.step, hs₁, Option.some.injEq, Prod.mk.injEq] at hstep
      obtain ⟨rfl, rfl⟩ := hstep
      rw [(hr' _ _ rfl).opened]
      exact ⟨rfl, _, rfl⟩
    | deregister h | close h | release dying =>
      simp only [machine, Stored.step, hs₁, Option.some.injEq, Prod.mk.injEq] at hstep
      obtain ⟨rfl, rfl⟩ := hstep
      exact ⟨rfl, _, rfl⟩
  obtain ⟨rfl, w', hw'⟩ := hboth
  refine ⟨⟨w', c₁.trace ++ es⟩, ?_, hr' w' es hw', ?_⟩
  · simp only [next, Sequential.machine, hw', Option.map_some]
  · show c.trace ++ es = c₁.trace ++ es
    rw [hm.trace]

omit [DecidableEq H] in
/-- A new runtime with its tables is one with its function and its list. -/
theorem matches_init (W : Storage H) (opened : ℕ → Bool) :
    Matches W (init H opened) (Sequential.init H opened) := by
  refine ⟨⟨valid_init _, valid_init _, ?_, ?_, fun fd h => ?_, fun h => ?_, nofun, rfl, rfl, rfl,
    rfl, rfl⟩, rfl⟩ <;>
    simp [init, Sequential.init, RobinHash.elements, RobinHash.init]

/-- A run on the tables is one on the function and the list. -/
theorem matches_run (W : Storage H) (opened : ℕ → Bool) {as : List (Sequential.Action H)}
    (hsteps : Steps (machine W) Fits (init H opened) as)
    (hrun : run (machine W) (init H opened) as = some c) :
    ∃ c₁, run (Sequential.machine W.toHandles) (Sequential.init H opened) as = some c₁ ∧
      Matches W c c₁ :=
  hsteps.simulated (R := Matches W) (fun _ _ _ _ hm hf hn => hm.step hf hn) hrun
    (matches_init W opened)

/-- Every run on the tables, in which every call that registers finds room, is a run on the function
and the list, with the same calls; and the next call that finds room returns or throws
`std::length_error`. -/
theorem stored_run (W : Storage H) (opened : ℕ → Bool) {as : List (Sequential.Action H)}
    (hsteps : Steps (machine W) Fits (init H opened) as)
    (hrun : run (machine W) (init H opened) as = some c) :
    (∃ c₁, run (Sequential.machine W.toHandles) (Sequential.init H opened) as = some c₁ ∧
      Matches W c c₁) ∧
    ∀ a, Fits c a → Returns (c.state.call W a) fun _ => True := by
  obtain ⟨c₁, hrun₁, hm⟩ := matches_run W opened hsteps hrun
  exact ⟨⟨c₁, hrun₁, hm⟩, fun a hf =>
    (hm.represents.call a fun h ha => hf.register ha).imp fun _ _ => trivial⟩

/-- Three sockets, of which the last one has the number of the first. -/
def trio : Storage (Fin 3) :=
  { fd := fun h => if h = 1 then 7 else 5
    isSocket := fun _ => true
    address := fun h => 4096 + 64 * h
    maxHandles := 64
    maxSockets := 64 }

/-- Calls among which a socket takes the place of another in both tables. -/
def succession : List (Sequential.Action (Fin 3)) :=
  [.obtain 5, .register 0, .obtain 7, .register 1, .close 0, .obtain 5, .register 2]

/-- What these calls come to. -/
theorem stored_run_succession :
    ∃ c, run (machine trio) (init (Fin 3) fun _ => false) succession = some c ∧
      c.state.allHandles.visit = [(5, 2), (7, 1)] ∧ c.state.allSockets.visit = [1, 2] ∧
      (∃ c₁, run (Sequential.machine trio.toHandles) (Sequential.init (Fin 3) fun _ => false)
          succession = some c₁ ∧ Matches trio c c₁) ∧
      ∀ a, Fits c a → Returns (c.state.call trio a) fun _ => True := by
  have hfits : Steps (machine trio) Fits (init (Fin 3) fun _ => false) succession := by decide
  exact ⟨_, rfl, by decide, by decide, stored_run trio _ hfits rfl⟩

/-! ## What is seen from outside -/

omit [DecidableEq H] in
/-- `current_load` is the number of descriptors that have a handle. -/
theorem Represents.currentLoad (hr : Represents W s w) :
    s.currentLoad = {fd | (w.allHandles fd).isSome}.ncard := by
  have hset : {fd | (w.allHandles fd).isSome} = (s.allHandles.elements.map Prod.fst).toFinset := by
    ext fd
    simp only [Set.mem_ofPred_eq, List.coe_toFinset, List.mem_map, Prod.exists, exists_and_right,
      exists_eq_right, hr.lookup, Option.isSome_iff_exists]
  have hkeys : (s.allHandles.elements.map Prod.fst).Nodup := hr.handles.keys
  rw [hset, Set.ncard_coe_finset, List.toFinset_card_of_nodup hkeys, List.length_map]
  exact hr.handles.count

omit [DecidableEq H] in
/-- The loop of `exec` over its copy of `all_sockets_` visits every socket once. -/
theorem Represents.sweep (hr : Represents W s w) :
    s.allSockets.visit.Nodup ∧ ∀ h, h ∈ s.allSockets.visit ↔ h ∈ w.allSockets := by
  rw [visit_eq_elements]
  refine ⟨?_, hr.members⟩
  have hkeys := hr.sockets.keys
  rwa [show W.sockets.key = id from rfl, List.map_id] at hkeys

/-- After every run of calls that find room, `current_load` is the number of descriptors that have a
handle, and the loop of `exec` over `all_sockets_` visits every socket of it exactly once. -/
theorem load_and_sweep (W : Storage H) (opened : ℕ → Bool) {as : List (Sequential.Action H)}
    (hsteps : Steps (machine W) Fits (init H opened) as)
    (hrun : run (machine W) (init H opened) as = some c) :
    ∃ c₁, run (Sequential.machine W.toHandles) (Sequential.init H opened) as = some c₁ ∧
      c.state.currentLoad = {fd | (c₁.state.allHandles fd).isSome}.ncard ∧
      c.state.allSockets.visit.Nodup ∧
      ∀ h, h ∈ c.state.allSockets.visit ↔ h ∈ c₁.state.allSockets := by
  obtain ⟨c₁, hrun₁, hm⟩ := matches_run W opened hsteps hrun
  exact ⟨c₁, hrun₁, hm.represents.currentLoad, hm.represents.sweep.1, hm.represents.sweep.2⟩

/-- The two sockets that are left after `succession`. -/
theorem load_and_sweep_succession :
    ∃ c c₁, run (machine trio) (init (Fin 3) fun _ => false) succession = some c ∧
      c.state.currentLoad = 2 ∧
      run (Sequential.machine trio.toHandles) (Sequential.init (Fin 3) fun _ => false)
        succession = some c₁ ∧
      c.state.currentLoad = {fd | (c₁.state.allHandles fd).isSome}.ncard ∧
      ∀ h, h ∈ c.state.allSockets.visit ↔ h ∈ c₁.state.allSockets := by
  have hfits : Steps (machine trio) Fits (init (Fin 3) fun _ => false) succession := by decide
  obtain ⟨c₁, hrun₁, hload, -, hsweep⟩ := load_and_sweep trio _ hfits rfl
  exact ⟨_, c₁, rfl, rfl, hrun₁, hload, hsweep⟩

end Stored

end Spinet.Registry
