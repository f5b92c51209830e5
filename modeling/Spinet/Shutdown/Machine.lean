import Mathlib.Data.Fintype.Basic
import Mathlib.Logic.Function.Basic
import Spinet.Core.TcpSocket
import Spinet.Library.Machine
import Spinet.Library.Stacks
import Spinet.Registry.Machine

/-!
# References to handles, and what destroys them

A handle lives while a `shared_ptr` refers to it: in `all_handles_` or `removable_handles_`, in a
variable of user code, or in what the callback of a pending operation has captured. When the last of
them goes, the destructor runs: `~TcpSocket` calls `close`, which invokes the callbacks of the
operations left with `EBADF` and destroys them, so that the references that these have captured go
as well; `~TcpAcceptor` does nothing.

The steps here are the ones that make, move, or drop references, and those of `close`. A step of
`register_handle` or `deregister_handle` is the whole section of `handles_mtx_`, which is not
entered while `exec` holds that mutex. What `exec` does in its loop is not followed in detail: it
may take the operation at the front of a queue and invoke its callback, close a handle, and clear
`removable_handles_`. What follows its loop, `release_all_handles`, is. `user` are the references
that user code has in variables, in arguments of calls in progress, and in what an accept callback
has captured.

Each thread has a stack of frames. A thread may make a call when it is not inside one, or when its
innermost frame is a callback; the runtime's thread `rt` also when `exec` is in its loop, where it
runs the accept callbacks.
-/

namespace Spinet.Shutdown

open Transition
open Registry (Handles ClosePc)

/-- An operation that a socket has accepted, with the references that its callback has captured. -/
structure Op (H : Type) where
  /-- Its name. -/
  id : ℕ
  /-- The socket. -/
  socket : H
  /-- Its queue. -/
  dir : Dir
  /-- What the callback has captured. -/
  captures : List H
deriving DecidableEq, Repr

/-- A call in progress. -/
inductive Frame (H : Type)
  /-- The destructors of these `shared_ptr`s. -/
  | drop (refs : List H)
  /-- `close` of a handle. -/
  | close (h : H) (pc : ClosePc)
  /-- The callback of an operation, which is destroyed when it returns. -/
  | callback (op : Op H)
deriving DecidableEq, Repr

/-- Where `exec` stands, with the handles that were registered when it left its loop. -/
inductive ExecPc (H : Type)
  /-- Not running. -/
  | idle
  /-- In the loop. -/
  | loop
  /-- Clearing `removable_handles_`. -/
  | clearing
  /-- In `release_all_handles`, about to swap out `all_handles_`. -/
  | releaseHandles (handles : List H)
  /-- About to swap out `removable_handles_`. -/
  | releaseRemovable (handles : List H)
  /-- About to return. -/
  | releaseUnlock (handles : List H)
deriving DecidableEq, Repr

/-- What the threads share. -/
structure Shared (H : Type) where
  /-- The handles in `all_handles_`. -/
  allHandles : List H
  /-- `removable_handles_`. -/
  removable : List H
  /-- The references that user code has. -/
  user : List H
  /-- The handles that have been made. -/
  made : H → Bool
  /-- Whether `runtime_` of a handle refers to this runtime. -/
  runtimeRef : H → Bool
  /-- `closed_` of a socket. -/
  closed : H → Bool
  /-- The operations in the queues of all sockets, oldest first. -/
  pending : List (Op H)
  /-- The name of the next operation. -/
  nextOp : ℕ
  /-- Where `exec` stands. -/
  pc : ExecPc H

/-- The state: what is shared, and the stack of every thread, innermost frame first. -/
structure State (H : Type) (T : Type*) extends Shared H where
  /-- The stacks. -/
  stack : T → List (Frame H)

/-- What is recorded. -/
inductive Event (H : Type)
  /-- A socket has accepted an operation. -/
  | accepted (op : ℕ) (h : H)
  /-- The callback of an operation is invoked. -/
  | invoked (op : ℕ)
  /-- An operation is cancelled. -/
  | cancelled (op : ℕ)
  /-- `::close(fd_)` of a handle. -/
  | sysClose (h : H)
  /-- `release_all_handles` has finished; `handles` were registered when `exec` left its loop. -/
  | released (handles : List H)
deriving DecidableEq, Repr

/-- What user code does. -/
inductive Call (H : Type)
  /-- Makes a handle, and keeps a reference to it. -/
  | create (h : H)
  /-- Copies a reference into a variable. -/
  | copy (h : H)
  /-- Drops a reference that a variable has. -/
  | drop (h : H)
  /-- An `async_*` call, with a callback that captures references. -/
  | async (dir : Dir) (h : H) (captures : List H)
  /-- `cancel`. -/
  | cancel (h : H)
  /-- `close`. -/
  | close (h : H)
  /-- `register_handle`. -/
  | register (h : H)
deriving DecidableEq, Repr

/-- What `exec` does. -/
inductive Move (H : Type)
  /-- It starts. -/
  | start
  /-- It takes the operation at the front of a queue. -/
  | serve (h : H) (dir : Dir)
  /-- It closes a handle. -/
  | close (h : H)
  /-- It clears `removable_handles_`. -/
  | clear
  /-- It leaves its loop. -/
  | leave
  /-- It goes on after destructors, or in `release_all_handles`. -/
  | go
deriving DecidableEq, Repr

/-- A step of the system. -/
inductive Action (H : Type) (T : Type*)
  /-- User code on a thread makes a call. -/
  | call (t : T) (c : Call H)
  /-- The innermost callback of a thread returns. -/
  | ret (t : T)
  /-- The innermost frame of a thread takes a step. -/
  | go (t : T)
  /-- `exec` takes a step. -/
  | exec (m : Move H)
deriving DecidableEq, Repr

/-- The references that a frame has. -/
def Frame.refs {H : Type} : Frame H → List H
  | .drop refs => refs
  | .close _ _ => []
  | .callback op => op.captures

/-- Whether `exec` holds `handles_mtx_`. -/
def ExecPc.locked {H : Type} : ExecPc H → Bool
  | .idle | .loop => false
  | _ => true

variable {H : Type} {T : Type*} [DecidableEq H]

namespace Shared

/-- A reference that is not on a stack. -/
def HasRef (sh : Shared H) (h : H) : Prop :=
  h ∈ sh.allHandles ∨ h ∈ sh.removable ∨ h ∈ sh.user ∨ ∃ op ∈ sh.pending, h ∈ op.captures

instance (sh : Shared H) (h : H) : Decidable (sh.HasRef h) :=
  inferInstanceAs (Decidable (_ ∨ _ ∨ _ ∨ ∃ op ∈ sh.pending, h ∈ op.captures))

/-- The operation that `close` of a socket takes next: reads first. -/
def nextPending (sh : Shared H) (h : H) : Option (Op H) :=
  sh.pending.find? (fun op => op.socket = h ∧ op.dir = .read) <|>
    sh.pending.find? (fun op => op.socket = h)

/-- The section of `deregister_handle`. -/
def deregister (sh : Shared H) (h : H) : Shared H :=
  if h ∈ sh.allHandles then
    { sh with
      allHandles := sh.allHandles.erase h, removable := sh.removable ++ [h],
      runtimeRef := Function.update sh.runtimeRef h false }
  else sh

/-- The section of `register_handle` for a descriptor that has no handle. -/
def registerNew (sh : Shared H) (h : H) : Shared H :=
  { sh with
    allHandles := sh.allHandles ++ [h], runtimeRef := Function.update sh.runtimeRef h true }

/-- The section of `register_handle` for a descriptor that has a handle, but for the `close` of that
handle. -/
def registerPrev (sh : Shared H) (h prev : H) : Shared H :=
  { sh with
    allHandles := sh.allHandles.map fun g => if g = prev then h else g
    removable := sh.removable ++ [prev]
    runtimeRef := Function.update (Function.update sh.runtimeRef h true) prev false }

end Shared

/-- The first frame of a call of `close`. `TcpSocket` overrides it, and the acceptors do not. -/
def closeFrame (W : Handles H) (h : H) : Frame H :=
  .close h (if W.isSocket h then .cas else .lockRuntime)

namespace State

/-- A reference to the handle exists. -/
def Referenced (s : State H T) (h : H) : Prop :=
  s.HasRef h ∨ ∃ t, ∃ f ∈ s.stack t, h ∈ f.refs

instance [Fintype T] (s : State H T) (h : H) : Decidable (s.Referenced h) :=
  inferInstanceAs (Decidable (_ ∨ ∃ t, ∃ f ∈ s.stack t, h ∈ f.refs))

variable [DecidableEq T]

/-- The state with another stack of a thread. -/
def setStack (s : State H T) (t : T) (frames : List (Frame H)) : State H T :=
  { s with stack := Function.update s.stack t frames }

/-- The references that user code on a thread can use. -/
def usable (s : State H T) (t : T) : List H :=
  match s.stack t with
  | .callback op :: _ => op.captures ++ s.user
  | _ => s.user

/-- Whether user code on a thread may make a call. -/
def mayCall (s : State H T) (rt t : T) : Bool :=
  match s.stack t with
  | .callback _ :: _ => true
  | [] => t ≠ rt || s.pc = .loop
  | _ => false

end State

variable [DecidableEq T]

/-- A call by user code on a thread. -/
def perform (W : Handles H) (s : State H T) (t : T) : Call H → Option (State H T × List (Event H))
  | .create h =>
    if s.made h then none
    else some ({ s with made := Function.update s.made h true, user := h :: s.user }, [])
  | .copy h => if h ∈ s.usable t then some ({ s with user := h :: s.user }, []) else none
  | .drop h =>
    if h ∈ s.user then
      some ({ s with user := s.user.erase h }.setStack t (.drop [h] :: s.stack t), [])
    else none
  | .async dir h captures =>
    if W.isSocket h ∧ h ∈ s.usable t ∧ ∀ g ∈ captures, g ∈ s.usable t then
      if s.closed h then some (s, [])
      else some ({ s with
        pending := s.pending ++ [⟨s.nextOp, h, dir, captures⟩], nextOp := s.nextOp + 1 },
        [.accepted s.nextOp h])
    else none
  | .cancel h =>
    if W.isSocket h ∧ h ∈ s.usable t then
      let ops := s.pending.filter fun op => op.socket = h
      some ({ s with pending := s.pending.filter fun op => op.socket ≠ h }.setStack t
        (.drop (ops.flatMap Op.captures) :: s.stack t), ops.map fun op => .cancelled op.id)
    else none
  | .close h =>
    if h ∈ s.usable t then some (s.setStack t (closeFrame W h :: s.stack t), []) else none
  | .register h =>
    if h ∈ s.usable t ∧ s.pc.locked = false then
      match s.allHandles.find? fun g => W.fd g = W.fd h with
      | none => some ({ s with toShared := s.registerNew h }, [])
      | some prev =>
        some ({ s with toShared := s.registerPrev h prev }.setStack t
          (closeFrame W prev :: s.stack t), [])
    else none

/-- The step of a `close` in progress on a thread, with the frames below. -/
def advanceClose (W : Handles H) (s : State H T) (t : T) (rest : List (Frame H)) (h : H) :
    ClosePc → Option (State H T × List (Event H))
  | .cas =>
    if s.closed h then some (s.setStack t rest, [])
    else some ({ s with closed := Function.update s.closed h true }.setStack t
      (.close h .lockRuntime :: rest), [])
  | .lockRuntime =>
    if s.runtimeRef h then
      if s.pc.locked then none
      else some ({ s with toShared := s.deregister h }.setStack t (.close h .sysClose :: rest), [])
    else some (s.setStack t (.close h .sysClose :: rest), [])
  | .sysClose =>
    some (s.setStack t (if W.isSocket h then .close h .drain :: rest else rest), [.sysClose h])
  | .drain =>
    match s.nextPending h with
    | none => some (s.setStack t rest, [])
    | some op =>
      some ({ s with pending := s.pending.erase op }.setStack t
        (.callback op :: .close h .drain :: rest), [.invoked op.id])

/-- The step of the innermost frame of a thread. A `shared_ptr` that is the last one runs the
destructor of its handle. -/
def advance [Fintype T] (W : Handles H) (s : State H T) (t : T) :
    List (Frame H) → Option (State H T × List (Event H))
  | .drop [] :: rest => some (s.setStack t rest, [])
  | .drop (h :: refs) :: rest =>
    let s' := s.setStack t (.drop refs :: rest)
    if s'.Referenced h ∨ W.isSocket h = false then some (s', [])
    else some (s.setStack t (.close h .cas :: .drop refs :: rest), [])
  | .close h pc :: rest => advanceClose W s t rest h pc
  | .callback _ :: _ => none
  | [] => none

/-- A step of `exec` on thread `rt`, which is inside no other call. -/
def execute (W : Handles H) (rt : T) (s : State H T) :
    Move H → ExecPc H → Option (State H T × List (Event H))
  | .start, .idle => some ({ s with pc := .loop }, [])
  | .serve h dir, .loop =>
    if (h ∈ s.allHandles ∨ h ∈ s.removable) ∧ s.closed h = false then
      (s.pending.find? fun op => op.socket = h ∧ op.dir = dir).map fun op =>
        ({ s with pending := s.pending.erase op }.setStack rt [.callback op], [.invoked op.id])
    else none
  | .close h, .loop =>
    if h ∈ s.allHandles ∨ h ∈ s.removable then some (s.setStack rt [closeFrame W h], []) else none
  | .clear, .loop =>
    some ({ s with pc := .clearing, removable := [] }.setStack rt [.drop s.removable], [])
  | .leave, .loop =>
    some ({ s with
      pc := .releaseHandles s.allHandles
      runtimeRef := fun h => if h ∈ s.allHandles then false else s.runtimeRef h }, [])
  | .go, .clearing => some ({ s with pc := .loop }, [])
  | .go, .releaseHandles handles =>
    some ({ s with pc := .releaseRemovable handles, allHandles := [] }.setStack rt
      [.drop s.allHandles], [])
  | .go, .releaseRemovable handles =>
    some ({ s with pc := .releaseUnlock handles, removable := [] }.setStack rt
      [.drop s.removable], [])
  | .go, .releaseUnlock handles => some ({ s with pc := .idle }, [.released handles])
  | _, _ => none

/-- The step of an action. -/
def step [Fintype T] (W : Handles H) (rt : T) (s : State H T) :
    Action H T → Option (State H T × List (Event H))
  | .call t c => if s.mayCall rt t then perform W s t c else none
  | .ret t =>
    match s.stack t with
    | .callback op :: rest => some (s.setStack t (.drop op.captures :: rest), [])
    | _ => none
  | .go t => advance W s t (s.stack t)
  | .exec m => if s.stack rt = [] then execute W rt s m s.pc else none

/-- The machine of one runtime and the handles that it may have. -/
def machine [Fintype T] (W : Handles H) (rt : T) :
    Machine (State H T) (Action H T) (Event H) := ⟨step W rt⟩

/-- Before anything has been made. -/
def init (H : Type) (T : Type*) : Config (State H T) (Event H) :=
  { state :=
      { allHandles := [], removable := [], user := [], made := fun _ => false,
        runtimeRef := fun _ => false, closed := fun _ => false, pending := [], nextOp := 0,
        pc := .idle, stack := fun _ => [] },
    trace := [] }

/-! ## The steps as a relation -/

/-- The steps, one constructor each: the action, the thread, the frames that it takes off the stack
of the thread and those that it puts there, what is shared after it, and what is recorded. -/
inductive Effect (W : Handles H) (rt : T) (s : State H T) :
    Action H T → T → List (Frame H) → List (Frame H) → Shared H → List (Event H) → Prop
  | create {t h} : s.made h = false →
    Effect W rt s (.call t (.create h)) t [] []
      { s.toShared with made := Function.update s.made h true, user := h :: s.user } []
  | copy {t h} : h ∈ s.usable t →
    Effect W rt s (.call t (.copy h)) t [] [] { s.toShared with user := h :: s.user } []
  | drop {t h} : h ∈ s.user →
    Effect W rt s (.call t (.drop h)) t [] [.drop [h]]
      { s.toShared with user := s.user.erase h } []
  | refused {t dir h captures} : s.closed h = true →
    Effect W rt s (.call t (.async dir h captures)) t [] [] s.toShared []
  | accepted {t dir h captures} : W.isSocket h = true → (∀ g ∈ h :: captures, g ∈ s.usable t) →
    s.closed h = false →
    Effect W rt s (.call t (.async dir h captures)) t [] []
      { s.toShared with
        pending := s.pending ++ [⟨s.nextOp, h, dir, captures⟩], nextOp := s.nextOp + 1 }
      [.accepted s.nextOp h]
  | cancel {t h} : h ∈ s.usable t →
    Effect W rt s (.call t (.cancel h)) t []
      [.drop ((s.pending.filter fun op => op.socket = h).flatMap Op.captures)]
      { s.toShared with pending := s.pending.filter fun op => op.socket ≠ h }
      ((s.pending.filter fun op => op.socket = h).map fun op => .cancelled op.id)
  | close {t h} : h ∈ s.usable t →
    Effect W rt s (.call t (.close h)) t [] [closeFrame W h] s.toShared []
  | registerNew {t h} : h ∈ s.usable t → s.pc.locked = false →
    Effect W rt s (.call t (.register h)) t [] [] (s.registerNew h) []
  | registerPrev {t h prev} : h ∈ s.usable t → s.pc.locked = false → prev ∈ s.allHandles →
    Effect W rt s (.call t (.register h)) t [] [closeFrame W prev] (s.registerPrev h prev) []
  | ret {t op} : Effect W rt s (.ret t) t [.callback op] [.drop op.captures] s.toShared []
  | dropNil {t} : Effect W rt s (.go t) t [.drop []] [] s.toShared []
  | dropKeep {t h refs rest} : s.stack t = .drop (h :: refs) :: rest →
    (s.setStack t (.drop refs :: rest)).Referenced h ∨ W.isSocket h = false →
    Effect W rt s (.go t) t [.drop (h :: refs)] [.drop refs] s.toShared []
  | dropLast {t h refs rest} : s.stack t = .drop (h :: refs) :: rest →
    ¬ (s.setStack t (.drop refs :: rest)).Referenced h → W.isSocket h = true →
    Effect W rt s (.go t) t [.drop (h :: refs)] [.close h .cas, .drop refs] s.toShared []
  | casLost {t h} : s.closed h = true →
    Effect W rt s (.go t) t [.close h .cas] [] s.toShared []
  | casWon {t h} : s.closed h = false →
    Effect W rt s (.go t) t [.close h .cas] [.close h .lockRuntime]
      { s.toShared with closed := Function.update s.closed h true } []
  | lockDeregister {t h} : s.runtimeRef h = true → s.pc.locked = false →
    Effect W rt s (.go t) t [.close h .lockRuntime] [.close h .sysClose] (s.deregister h) []
  | lockAlone {t h} : s.runtimeRef h = false →
    Effect W rt s (.go t) t [.close h .lockRuntime] [.close h .sysClose] s.toShared []
  | sysSocket {t h} : W.isSocket h = true →
    Effect W rt s (.go t) t [.close h .sysClose] [.close h .drain] s.toShared [.sysClose h]
  | sysAcceptor {t h} : W.isSocket h = false →
    Effect W rt s (.go t) t [.close h .sysClose] [] s.toShared [.sysClose h]
  | drained {t h} : (∀ op ∈ s.pending, op.socket ≠ h) →
    Effect W rt s (.go t) t [.close h .drain] [] s.toShared []
  | drain {t h op} : op ∈ s.pending → op.socket = h →
    Effect W rt s (.go t) t [.close h .drain] [.callback op, .close h .drain]
      { s.toShared with pending := s.pending.erase op } [.invoked op.id]
  | start : s.pc = .idle →
    Effect W rt s (.exec .start) rt [] [] { s.toShared with pc := .loop } []
  | serve {h dir op} : s.pc = .loop → op ∈ s.pending →
    Effect W rt s (.exec (.serve h dir)) rt [] [.callback op]
      { s.toShared with pending := s.pending.erase op } [.invoked op.id]
  | execClose {h} : s.pc = .loop →
    Effect W rt s (.exec (.close h)) rt [] [closeFrame W h] s.toShared []
  | clear : s.pc = .loop →
    Effect W rt s (.exec .clear) rt [] [.drop s.removable]
      { s.toShared with pc := .clearing, removable := [] } []
  | leave : s.pc = .loop →
    Effect W rt s (.exec .leave) rt [] []
      { s.toShared with
        pc := .releaseHandles s.allHandles
        runtimeRef := fun h => if h ∈ s.allHandles then false else s.runtimeRef h } []
  | cleared : s.pc = .clearing →
    Effect W rt s (.exec .go) rt [] [] { s.toShared with pc := .loop } []
  | releaseHandles {handles} : s.pc = .releaseHandles handles →
    Effect W rt s (.exec .go) rt [] [.drop s.allHandles]
      { s.toShared with pc := .releaseRemovable handles, allHandles := [] } []
  | releaseRemovable {handles} : s.pc = .releaseRemovable handles →
    Effect W rt s (.exec .go) rt [] [.drop s.removable]
      { s.toShared with pc := .releaseUnlock handles, removable := [] } []
  | releaseUnlock {handles} : s.pc = .releaseUnlock handles → s.stack rt = [] →
    Effect W rt s (.exec .go) rt [] [] { s.toShared with pc := .idle } [.released handles]

/-- A step replaces frames of one thread. -/
inductive Step (W : Handles H) (rt : T) (s : State H T) (a : Action H T) :
    State H T → List (Event H) → Prop
  | intro {t : T} {old new rest : List (Frame H)} {sh : Shared H} {es : List (Event H)} :
    s.stack t = old ++ rest → Effect W rt s a t old new sh es →
    Step W rt s a { s with toShared := sh, stack := Function.update s.stack t (new ++ rest) } es

omit [DecidableEq T] in
/-- The operation that `close` takes next is one of the socket. -/
theorem nextPending_eq_some {sh : Shared H} {h : H} {op : Op H} (hop : sh.nextPending h = some op) :
    op ∈ sh.pending ∧ op.socket = h := by
  unfold Shared.nextPending at hop
  rcases (Option.orElse_eq_some _ _ _).1 hop with hop | ⟨-, hop⟩
  · have hp := List.find?_some hop
    simp only [decide_eq_true_eq] at hp
    exact ⟨List.mem_of_find?_eq_some hop, hp.1⟩
  · exact ⟨List.mem_of_find?_eq_some hop, by simpa using List.find?_some hop⟩

/-- `close` takes no operation when the socket has none. -/
theorem nextPending_eq_none {sh : Shared H} {h : H} (hop : sh.nextPending h = none) :
    ∀ op ∈ sh.pending, op.socket ≠ h := by
  unfold Shared.nextPending at hop
  have hnone := ((Option.orElse_eq_none _ _).1 hop).2
  simpa using List.find?_eq_none.1 hnone

variable {W : Handles H} {rt t : T} {s s' : State H T} {sh : Shared H} {a : Action H T}
  {es : List (Event H)}

/-- A step that puts frames on the stack of a thread. -/
theorem Step.push {new : List (Frame H)} (h : Effect W rt s a t [] new sh es) :
    Step W rt s a { s with toShared := sh, stack := Function.update s.stack t (new ++ s.stack t) }
      es :=
  .intro rfl h

/-- A step that leaves the stacks alone. -/
theorem Step.shared (h : Effect W rt s a t [] [] sh es) :
    Step W rt s a { s with toShared := sh } es := by
  have hpush := Step.push h
  rwa [List.nil_append, Function.update_eq_self] at hpush

/-- The steps of user code. -/
theorem perform_cases {c : Call H} (h : perform W s t c = some (s', es)) :
    Step W rt s (.call t c) s' es := by
  cases c with
  | create x =>
    simp only [perform, Option.ite_none_left_eq_some, Option.some.injEq, Prod.mk.injEq] at h
    obtain ⟨hm, rfl, rfl⟩ := h
    exact .shared (.create (by simpa using hm))
  | copy x =>
    simp only [perform, Option.ite_none_right_eq_some, Option.some.injEq, Prod.mk.injEq] at h
    obtain ⟨hu, rfl, rfl⟩ := h
    exact .shared (.copy hu)
  | drop x =>
    simp only [perform, Option.ite_none_right_eq_some, Option.some.injEq, Prod.mk.injEq] at h
    obtain ⟨hu, rfl, rfl⟩ := h
    exact .push (.drop hu)
  | async dir x captures =>
    simp only [perform, Option.ite_none_right_eq_some] at h
    obtain ⟨⟨hs, hu, hcap⟩, h⟩ := h
    split at h
    · rename_i hc
      simp only [Option.some.injEq, Prod.mk.injEq] at h
      obtain ⟨rfl, rfl⟩ := h
      exact .shared (.refused hc)
    · rename_i hc
      simp only [Option.some.injEq, Prod.mk.injEq] at h
      obtain ⟨rfl, rfl⟩ := h
      exact .shared (.accepted hs (List.forall_mem_cons.2 ⟨hu, hcap⟩) (by simpa using hc))
  | cancel x =>
    simp only [perform, Option.ite_none_right_eq_some, Option.some.injEq, Prod.mk.injEq] at h
    obtain ⟨⟨-, hu⟩, rfl, rfl⟩ := h
    exact .push (.cancel hu)
  | close x =>
    simp only [perform, Option.ite_none_right_eq_some, Option.some.injEq, Prod.mk.injEq] at h
    obtain ⟨hu, rfl, rfl⟩ := h
    exact .push (.close hu)
  | register x =>
    simp only [perform, Option.ite_none_right_eq_some] at h
    obtain ⟨⟨hu, hl⟩, h⟩ := h
    split at h
    · simp only [Option.some.injEq, Prod.mk.injEq] at h
      obtain ⟨rfl, rfl⟩ := h
      exact .shared (.registerNew hu hl)
    · rename_i prev hprev
      simp only [Option.some.injEq, Prod.mk.injEq] at h
      obtain ⟨rfl, rfl⟩ := h
      exact .push (.registerPrev hu hl (List.mem_of_find?_eq_some hprev))

/-- The steps of `close`. -/
theorem advanceClose_cases {x : H} {pc : ClosePc} {rest : List (Frame H)}
    (hst : s.stack t = .close x pc :: rest) (h : advanceClose W s t rest x pc = some (s', es)) :
    Step W rt s (.go t) s' es := by
  have hst' : s.stack t = [.close x pc] ++ rest := hst
  cases pc with
  | cas =>
    simp only [advanceClose] at h
    split at h
    · rename_i hc
      simp only [Option.some.injEq, Prod.mk.injEq] at h
      obtain ⟨rfl, rfl⟩ := h
      exact .intro hst' (.casLost hc)
    · rename_i hc
      simp only [Option.some.injEq, Prod.mk.injEq] at h
      obtain ⟨rfl, rfl⟩ := h
      exact .intro hst' (.casWon (by simpa using hc))
  | lockRuntime =>
    simp only [advanceClose] at h
    split at h
    · rename_i hr
      simp only [Option.ite_none_left_eq_some, Option.some.injEq, Prod.mk.injEq] at h
      obtain ⟨hl, rfl, rfl⟩ := h
      exact .intro hst' (.lockDeregister hr (by simpa using hl))
    · rename_i hr
      simp only [Option.some.injEq, Prod.mk.injEq] at h
      obtain ⟨rfl, rfl⟩ := h
      exact .intro hst' (.lockAlone (by simpa using hr))
  | sysClose =>
    simp only [advanceClose, Option.some.injEq, Prod.mk.injEq] at h
    obtain ⟨rfl, rfl⟩ := h
    split
    · rename_i hs
      exact .intro hst' (.sysSocket hs)
    · rename_i hs
      exact .intro hst' (.sysAcceptor (by simpa using hs))
  | drain =>
    simp only [advanceClose] at h
    split at h
    · rename_i hn
      simp only [Option.some.injEq, Prod.mk.injEq] at h
      obtain ⟨rfl, rfl⟩ := h
      exact .intro hst' (.drained (nextPending_eq_none hn))
    · rename_i op hop
      simp only [Option.some.injEq, Prod.mk.injEq] at h
      obtain ⟨rfl, rfl⟩ := h
      exact .intro hst' (.drain (nextPending_eq_some hop).1 (nextPending_eq_some hop).2)

/-- The steps of the innermost frame. -/
theorem advance_cases [Fintype T] (h : advance W s t (s.stack t) = some (s', es)) :
    Step W rt s (.go t) s' es := by
  rcases hst : s.stack t with _ | ⟨f, rest⟩
  · rw [hst] at h
    cases h
  rw [hst] at h
  cases f with
  | close x pc => exact advanceClose_cases hst h
  | callback op => cases h
  | drop refs =>
    cases refs with
    | nil =>
      simp only [advance, Option.some.injEq, Prod.mk.injEq] at h
      obtain ⟨rfl, rfl⟩ := h
      exact .intro hst .dropNil
    | cons x refs =>
      simp only [advance] at h
      split at h
      · rename_i hk
        simp only [Option.some.injEq, Prod.mk.injEq] at h
        obtain ⟨rfl, rfl⟩ := h
        exact .intro hst (.dropKeep hst hk)
      · rename_i hk
        simp only [Option.some.injEq, Prod.mk.injEq] at h
        obtain ⟨rfl, rfl⟩ := h
        simp only [not_or, Bool.not_eq_false] at hk
        exact .intro hst (.dropLast hst hk.1 hk.2)

/-- The steps of `exec`. -/
theorem execute_cases {m : Move H} (hst : s.stack rt = [])
    (h : execute W rt s m s.pc = some (s', es)) : Step W rt s (.exec m) s' es := by
  have hpush : ∀ {new sh es}, Effect W rt s (.exec m) rt [] new sh es →
      Step W rt s (.exec m)
        { s with toShared := sh, stack := Function.update s.stack rt new } es := by
    intro new sh es he
    have := Step.push he
    rwa [hst, List.append_nil] at this
  unfold execute at h
  split at h
  case h_10 => cases h
  case h_2 =>
    rename_i x dir hpc
    simp only [Option.ite_none_right_eq_some, Option.map_eq_some_iff, Prod.mk.injEq] at h
    obtain ⟨-, op, hop, rfl, rfl⟩ := h
    exact hpush (.serve hpc (List.mem_of_find?_eq_some hop))
  case h_3 =>
    rename_i x hpc
    simp only [Option.ite_none_right_eq_some, Option.some.injEq, Prod.mk.injEq] at h
    obtain ⟨-, rfl, rfl⟩ := h
    exact hpush (.execClose hpc)
  all_goals
    simp only [Option.some.injEq, Prod.mk.injEq] at h
    obtain ⟨rfl, rfl⟩ := h
  case h_1 hpc => exact .shared (.start hpc)
  case h_4 hpc => exact hpush (.clear hpc)
  case h_5 hpc => exact .shared (.leave hpc)
  case h_6 hpc => exact .shared (.cleared hpc)
  case h_7 hpc => exact hpush (.releaseHandles hpc)
  case h_8 hpc => exact hpush (.releaseRemovable hpc)
  case h_9 hpc => exact .shared (.releaseUnlock hpc hst)

/-- Every step of the machine is one of these. -/
theorem step_cases [Fintype T] (h : (machine W rt).step s a = some (s', es)) :
    Step W rt s a s' es := by
  cases a with
  | call t c =>
    simp only [machine, step, Option.ite_none_right_eq_some] at h
    exact perform_cases h.2
  | ret t =>
    simp only [machine, step] at h
    split at h
    case h_2 => cases h
    rename_i op rest hst
    simp only [Option.some.injEq, Prod.mk.injEq] at h
    obtain ⟨rfl, rfl⟩ := h
    exact .intro hst .ret
  | go t => exact advance_cases h
  | exec m =>
    simp only [machine, step, Option.ite_none_right_eq_some] at h
    exact execute_cases h.1 h.2

end Spinet.Shutdown
