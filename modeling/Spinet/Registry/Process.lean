import Mathlib.Data.List.Nodup
import Spinet.Registry.Machine

/-!
# The descriptors of a process

All the servers, clients, and runtimes of a process, as far as descriptors go: `socket` and `accept`
return numbers that are not open, each for a handle that is yet to be made; `tcp_connect`,
`do_accept`, and `listen_tcp_endpoint` give up the descriptors that they have obtained, or register
a handle for each; sockets are closed by anyone, acceptors by the loop of their runtime; and a loop
that ends releases what is registered. A thread that runs user code inside of one of these may make
further calls; here such a call is one of another caller, and may come at any time.

`register_handle` and `deregister_handle` each have one section of `handles_mtx_`, which is one step
here; `Spinet.Registry.Machine` takes them apart. That of `release_all_handles` is taken apart here
also. `all_sockets_` and `removable_handles_`, which do not matter to descriptors, are left out.

`live_always` says that what is registered with a runtime is open and its own, where the runtime has
an owner and `release_all_handles` is not in its section. Inside the section the sockets have lost
their `runtime_` but are still in `all_handles_`, and a `close` that comes then, or after the last
owner is gone, closes the descriptor and leaves the handle there.
-/

namespace Spinet.Process

open Transition Registry

/-- What never changes about the handles of all runtimes. -/
structure Objects (H R : Type) extends Handles H where
  /-- The runtime that the handle is registered with. -/
  home : H → R

/-- What an open descriptor has been opened for. -/
inductive Use (H : Type)
  /-- For a handle. -/
  | handle (h : H)
  /-- For something else than a handle. -/
  | other
deriving DecidableEq, Repr

/-- Where a call of `close` stands. -/
inductive ClosePc
  /-- `TcpSocket::close`, about to compare and exchange `closed_`. -/
  | cas
  /-- `Handle::close`, about to lock `runtime_`. -/
  | lockRuntime
  /-- In `deregister_handle`, about to enter its section. -/
  | deregister
  /-- About to call `::close(fd_)`. -/
  | sysClose
deriving DecidableEq, Repr

/-- Where the thread inside `exec` stands. -/
inductive ExecPc (H : Type)
  /-- About to read `stopped_`. -/
  | guard
  /-- In `epoll_wait`, which has found these events so far. -/
  | waiting (events : List (EpollEvent H))
  /-- About to handle the next of the events. -/
  | dispatch (events : List (EpollEvent H))
  /-- In a call of `close`, with these events left. -/
  | closing (h : H) (pc : ClosePc) (events : List (EpollEvent H))
  /-- Behind the loop, about to lock `handles_mtx_`. -/
  | releaseLock
  /-- Resetting `runtime_` of the handles, with `EPOLL_CTL_DEL` for each. -/
  | releaseReset
  /-- About to swap out `all_handles_`. -/
  | releaseHandles
  /-- About to leave the section, and to reset `running_`. -/
  | unlock
deriving DecidableEq, Repr

/-- Where a caller stands. -/
inductive Pc (H R : Type)
  /-- In no call. -/
  | idle
  /-- Has obtained descriptors for these handles. -/
  | opening (hs : List H)
  /-- Has failed, and is about to close these descriptors. -/
  | failed (hs : List H)
  /-- About to call `register_handle` for these handles. -/
  | registering (hs : List H)
  /-- In `register_handle`, about to enter its section, with these handles left. -/
  | register (h : H) (hs : List H)
  /-- In a call of `TcpSocket::close`. -/
  | close (h : H) (pc : ClosePc)
  /-- In `exec`. -/
  | exec (r : R) (pc : ExecPc H)
deriving DecidableEq, Repr

/-- A runtime. -/
structure RuntimeState (H : Type) where
  /-- `all_handles_`. -/
  allHandles : ℕ → Option H
  /-- The epoll interest list. -/
  interest : ℕ → Option H
  /-- Whether `release_all_handles` holds `handles_mtx_`. -/
  mtx : Bool
  /-- `running_`. -/
  running : Bool
  /-- Whether anyone owns it; `runtime_.lock()` fails otherwise. -/
  owned : Bool

/-- What the callers share. -/
structure Shared (H R : Type) where
  /-- The open descriptors. -/
  opened : ℕ → Option (Use H)
  /-- Whether a descriptor has been obtained for a handle. -/
  obtained : H → Bool
  /-- Whether a handle has been registered. -/
  registered : H → Bool
  /-- Whether `runtime_` of a handle is set. -/
  runtimeRef : H → Bool
  /-- `closed_` of a socket. -/
  closed : H → Bool
  /-- The runtimes. -/
  runtime : R → RuntimeState H

/-- The state: what is shared, and where every caller stands. -/
structure State (H R T : Type) where
  /-- What is shared. -/
  shared : Shared H R
  /-- Where the callers stand. -/
  pc : T → Pc H R

/-- What a caller does next, or what happens to it. -/
inductive Choice (H : Type)
  /-- `socket` or `accept` returns the descriptor of this handle. -/
  | obtain (h : H)
  /-- A call fails. -/
  | fail
  /-- All descriptors have been obtained. -/
  | done
  /-- A call of `close` on a socket, by its user or by its destructor. -/
  | close (h : H)
  /-- `stopped_` is set. -/
  | stop
  /-- `epoll_wait` finds an event. -/
  | event (e : EpollEvent H)
  /-- `release_all_handles` resets `runtime_` of one of the handles. -/
  | reset (fd : ℕ)
  /-- The next step; `ok` says whether `EPOLL_CTL_ADD` succeeds. -/
  | go (ok : Bool)
deriving DecidableEq, Repr

/-- A step of the process. -/
inductive Action (H R T : Type)
  /-- A caller takes a step. -/
  | caller (t : T) (choice : Choice H)
  /-- A caller becomes the thread of a runtime, which is about to run. -/
  | run (t : T) (r : R)
  /-- Something else opens a descriptor. -/
  | openOther (fd : ℕ)
  /-- And closes one. -/
  | closeOther (fd : ℕ)
  /-- The last owner of a runtime is gone. -/
  | disown (r : R)
deriving DecidableEq, Repr

/-- `register_handle` has taken the place of an older handle. -/
inductive Event (H : Type)
  | replaced (h : H)
deriving DecidableEq, Repr

variable {H R T : Type} [DecidableEq H] [DecidableEq R] [DecidableEq T]

namespace Shared

/-- Changes one runtime. -/
def setRuntime (sh : Shared H R) (r : R) (f : RuntimeState H → RuntimeState H) : Shared H R :=
  { sh with runtime := Function.update sh.runtime r (f (sh.runtime r)) }

/-- A runtime has an owner, and `release_all_handles` is not in its section. -/
def Available (sh : Shared H R) (r : R) : Prop :=
  (sh.runtime r).owned = true ∧ (sh.runtime r).mtx = false

instance (sh : Shared H R) (r : R) : Decidable (sh.Available r) := instDecidableAnd

/-- Opens a descriptor. -/
def openFor (sh : Shared H R) (fd : ℕ) (use : Use H) : Shared H R :=
  { sh with opened := Function.update sh.opened fd (some use) }

/-- `::close`, which drops the entries of the descriptor. -/
def sysClose (sh : Shared H R) (fd : ℕ) : Shared H R :=
  { sh with
    opened := Function.update sh.opened fd none
    runtime := fun r =>
      { sh.runtime r with interest := Function.update (sh.runtime r).interest fd none } }

/-- The section of `deregister_handle`. -/
def deregisterHandle (W : Objects H R) (sh : Shared H R) (h : H) : Shared H R :=
  if (sh.runtime (W.home h)).allHandles (W.fd h) = some h then
    { sh with runtimeRef := Function.update sh.runtimeRef h false }.setRuntime (W.home h) fun rt =>
      { rt with
        interest := Function.update rt.interest (W.fd h) none
        allHandles := Function.update rt.allHandles (W.fd h) none }
  else sh

/-- The branch of `register_handle` that inserts. -/
def insertHandle (W : Objects H R) (sh : Shared H R) (h : H) (ok : Bool) : Shared H R :=
  { sh with registered := Function.update sh.registered h true }.setRuntime (W.home h) fun rt =>
    { rt with
      interest :=
        if ok && (sh.opened (W.fd h)).isSome && (rt.interest (W.fd h)).isNone then
          Function.update rt.interest (W.fd h) (some h)
        else rt.interest
      allHandles := Function.update rt.allHandles (W.fd h) (some h) }

/-- What `register_handle` does with an older handle; what `close` does with its queues does not
show here. -/
def closePrev (W : Objects H R) (sh : Shared H R) (prev : H) : Shared H R :=
  let sh := { sh with runtimeRef := Function.update sh.runtimeRef prev false }
  if W.isSocket prev then
    if sh.closed prev then sh
    else { sh with closed := Function.update sh.closed prev true }.sysClose (W.fd prev)
  else sh.sysClose (W.fd prev)

/-- The branch of `register_handle` that takes the place of an older handle. -/
def replaceHandle (W : Objects H R) (sh : Shared H R) (prev h : H) : Shared H R :=
  let sh := sh.closePrev W prev
  { sh with registered := Function.update sh.registered h true }.setRuntime (W.home h) fun rt =>
    { rt with
      interest :=
        if (sh.opened (W.fd h)).isSome && (rt.interest (W.fd h)).isSome then
          Function.update rt.interest (W.fd h) (some h)
        else rt.interest
      allHandles := Function.update rt.allHandles (W.fd h) (some h) }

/-- The section of `register_handle`. -/
def registerHandle (W : Objects H R) (sh : Shared H R) (h : H) (ok : Bool) :
    Shared H R × List (Event H) :=
  match (sh.runtime (W.home h)).allHandles (W.fd h) with
  | none => (sh.insertHandle W h ok, [])
  | some prev => (sh.replaceHandle W prev h, [.replaced h])

/-- `release_all_handles` resets `runtime_` of handles that are registered with a runtime, with
`EPOLL_CTL_DEL` for each. -/
def resetWhere (W : Objects H R) (sh : Shared H R) (r : R) (p : ℕ → Bool) : Shared H R :=
  { sh with
    runtimeRef := fun h =>
      if (sh.runtime r).allHandles (W.fd h) = some h && p (W.fd h) then false
      else sh.runtimeRef h }.setRuntime r fun rt =>
    { rt with
      interest := fun fd =>
        if (rt.allHandles fd).isSome && p fd then none else rt.interest fd }

/-- A step of a call of `close`, with where it stands then; it has returned if that is `none`. -/
def stepClose (W : Objects H R) (sh : Shared H R) (h : H) :
    ClosePc → Option (Shared H R × Option ClosePc)
  | .cas =>
    if sh.closed h then some (sh, none)
    else some ({ sh with closed := Function.update sh.closed h true }, some .lockRuntime)
  | .lockRuntime =>
    if sh.runtimeRef h && (sh.runtime (W.home h)).owned then some (sh, some .deregister)
    else some (sh, some .sysClose)
  | .deregister =>
    if (sh.runtime (W.home h)).mtx then none
    else some (sh.deregisterHandle W h, some .sysClose)
  | .sysClose => some (sh.sysClose (W.fd h), none)

end Shared

/-- Where `close` of a handle begins. -/
def closeStart (W : Objects H R) (h : H) : ClosePc := if W.isSocket h then .cas else .lockRuntime

/-- What `exec` does with an event; of its calls only `close` shows here. -/
def dispatchEvent (W : Objects H R) (e : EpollEvent H) (events : List (EpollEvent H)) : ExecPc H :=
  if e.input || (W.isSocket e.handle && e.output) then .dispatch events
  else .closing e.handle (closeStart W e.handle) events

/-- The step of a thread inside `exec`, with where it stands then, which is not inside if that is
`none`. -/
def stepExec (W : Objects H R) (sh : Shared H R) (r : R) :
    ExecPc H → Choice H → Option (Shared H R × Option (ExecPc H))
  | .guard, .stop => some (sh, some .releaseLock)
  | .guard, .go _ => some (sh, some (.waiting []))
  | .waiting events, .event e =>
    -- An entry is reported once at most.
    if (sh.runtime r).interest (W.fd e.handle) = some e.handle ∧
        e.handle ∉ events.map EpollEvent.handle then
      some (sh, some (.waiting (events ++ [e])))
    else none
  | .waiting events, .go _ => some (sh, some (.dispatch events))
  | .dispatch (e :: events), .go _ => some (sh, some (dispatchEvent W e events))
  | .dispatch [], .go _ => some (sh, some .guard)
  | .closing h pc events, .go _ =>
    (sh.stepClose W h pc).map fun (sh, pc) =>
      (sh, some (match pc with | some pc => .closing h pc events | none => .dispatch events))
  | .releaseLock, .go _ =>
    if (sh.runtime r).mtx then none
    else some (sh.setRuntime r fun rt => { rt with mtx := true }, some .releaseReset)
  | .releaseReset, .reset fd => some (sh.resetWhere W r (· == fd), some .releaseReset)
  | .releaseReset, .go _ => some (sh.resetWhere W r fun _ => true, some .releaseHandles)
  | .releaseHandles, .go _ =>
    some (sh.setRuntime r fun rt => { rt with allHandles := fun _ => none }, some .unlock)
  | .unlock, .go _ =>
    some (sh.setRuntime r fun rt => { rt with mtx := false, running := false }, none)
  | _, _ => none

/-- The step of a caller, with where it stands then. -/
def stepCaller (W : Objects H R) (sh : Shared H R) :
    Pc H R → Choice H → Option (Shared H R × Pc H R × List (Event H))
  | .idle, .obtain h =>
    if (sh.opened (W.fd h)).isNone ∧ sh.obtained h = false then
      some ({ sh with obtained := Function.update sh.obtained h true }.openFor (W.fd h) (.handle h),
        .opening [h], [])
    else none
  | .opening hs, .obtain h =>
    if (sh.opened (W.fd h)).isNone ∧ sh.obtained h = false then
      some ({ sh with obtained := Function.update sh.obtained h true }.openFor (W.fd h) (.handle h),
        .opening (hs ++ [h]), [])
    else none
  | .opening hs, .fail => some (sh, .failed hs, [])
  | .opening hs, .done => some (sh, .registering hs, [])
  | .failed (h :: hs), .go _ => some (sh.sysClose (W.fd h), .failed hs, [])
  | .failed [], .go _ => some (sh, .idle, [])
  | .registering (h :: hs), .go _ =>
    some ({ sh with runtimeRef := Function.update sh.runtimeRef h true }, .register h hs, [])
  | .registering [], .go _ => some (sh, .idle, [])
  | .register h hs, .go ok =>
    -- Whoever registers a handle has the runtime for as long.
    if sh.Available (W.home h) then
      some ((sh.registerHandle W h ok).1, .registering hs, (sh.registerHandle W h ok).2)
    else none
  | .idle, .close h =>
    if W.isSocket h && sh.registered h then some (sh, .close h .cas, []) else none
  | .close h pc, .go _ =>
    (sh.stepClose W h pc).map fun (sh, pc) =>
      (sh, match pc with | some pc => .close h pc | none => .idle, [])
  | .exec r pc, choice =>
    (stepExec W sh r pc choice).map fun (sh, pc) =>
      (sh, match pc with | some pc => .exec r pc | none => .idle, [])
  | _, _ => none

/-- The step of an action. -/
def step (W : Objects H R) (s : State H R T) : Action H R T → Option (State H R T × List (Event H))
  | .caller t choice =>
    (stepCaller W s.shared (s.pc t) choice).map fun (sh, pc, es) =>
      (⟨sh, Function.update s.pc t pc⟩, es)
  | .run t r =>
    if s.pc t = .idle ∧ (s.shared.runtime r).running = false then
      some (⟨s.shared.setRuntime r fun rt => { rt with running := true },
        Function.update s.pc t (.exec r .guard)⟩, [])
    else none
  | .openOther fd =>
    if (s.shared.opened fd).isNone then some ({ s with shared := s.shared.openFor fd .other }, [])
    else none
  | .closeOther fd =>
    if s.shared.opened fd = some .other then some ({ s with shared := s.shared.sysClose fd }, [])
    else none
  | .disown r => some
    ({ s with shared := s.shared.setRuntime r fun rt => { rt with owned := false } }, [])

/-- The machine of a process. -/
def machine (W : Objects H R) : Machine (State H R T) (Action H R T) (Event H) := ⟨step W⟩

/-- A process at its start, whose open descriptors are these. -/
def init (H R T : Type) (opened : ℕ → Bool) : Config (State H R T) (Event H) :=
  { state :=
      { shared :=
          { opened := fun fd => if opened fd then some .other else none
            obtained := fun _ => false, registered := fun _ => false, runtimeRef := fun _ => false
            closed := fun _ => false
            runtime := fun _ =>
              { allHandles := fun _ => none, interest := fun _ => none, mtx := false
                running := false, owned := true } }
        pc := fun _ => .idle }
    trace := [] }

/-- What is registered with a runtime is open and its own, and no call takes the place of an older
handle; but of a runtime without an owner, or in the section of `release_all_handles`, the first is
not said. -/
structure Live (W : Objects H R) (c : Config (State H R T) (Event H)) : Prop where
  /-- A registered descriptor is open, for exactly the handle under it. -/
  key : ∀ r, c.state.shared.Available r → ∀ fd h,
    (c.state.shared.runtime r).allHandles fd = some h → c.state.shared.opened fd = some (.handle h)
  /-- No descriptor is registered with two runtimes. -/
  unique : ∀ r r', c.state.shared.Available r → c.state.shared.Available r' → ∀ fd h h',
    (c.state.shared.runtime r).allHandles fd = some h →
      (c.state.shared.runtime r').allHandles fd = some h' → r = r'
  /-- `register_handle` is not called with a registered descriptor. -/
  new : ∀ t h hs, c.state.pc t = .registering (h :: hs) ∨ c.state.pc t = .register h hs →
    c.state.shared.Available (W.home h) →
      (c.state.shared.runtime (W.home h)).allHandles (W.fd h) = none
  /-- No call has taken the place of an older handle. -/
  replaced : ∀ h, .replaced h ∉ c.trace

end Spinet.Process
