import Spinet.Core.Address
import Spinet.Lifecycle.Owner
import Spinet.Registry.Sequential

/-!
# Server: listen_tcp_endpoint

`listen_tcp_endpoint` opens one listening descriptor for each worker, and registers an acceptor for
each once it has them all. Each of `socket`, `bind`, and `listen` may fail for each worker; `Kernel`
says which do. The call is one of a thread that holds `mtx_`, and nothing else happens meanwhile.

`listenTcpEndpoint_allOrNothing` says that an error leaves everything as it was, and that otherwise
there is one more acceptor for each worker and nothing else.
-/

namespace Spinet.Listen

open Registry

/-- What the kernel knows of an open descriptor of a socket. -/
structure Descriptor where
  /-- The address that it has been bound to. -/
  bound : Option SockaddrIn
  /-- Whether `listen` has been called. -/
  listening : Bool
  /-- `O_NONBLOCK`. -/
  nonblock : Bool
  /-- `SO_REUSEPORT`. -/
  reusePort : Bool

/-- A server with its workers, and the open descriptors of the process. -/
@[ext]
structure Server (H : Type) where
  /-- `running_`. -/
  running : Bool
  /-- `settings_`. -/
  settings : Option Settings
  /-- `workers_`. -/
  workers : List (Shared H Unit)
  /-- The open descriptors. -/
  descriptors : ℕ → Option Descriptor
  /-- The entries of an interest list are of open descriptors. -/
  interest_open : ∀ worker ∈ workers, ∀ fd, (worker.interest fd).isSome →
    (descriptors fd).isSome

/-- Of the entries of an interest list those whose descriptors are open. -/
def lasting {H : Type} (descriptors : ℕ → Option Descriptor) (worker : Shared H Unit) :
    Shared H Unit :=
  { worker with interest := fun fd => if (descriptors fd).isSome then worker.interest fd else none }

namespace Server

variable {H : Type}

/-- Whether a number is one of an open descriptor. -/
def isOpen (s : Server H) (fd : ℕ) : Bool := (s.descriptors fd).isSome

/-- Other workers and descriptors; what has been closed falls out of the interest lists. -/
def put (s : Server H) (workers : List (Shared H Unit)) (descriptors : ℕ → Option Descriptor) :
    Server H :=
  { s with
    workers := workers.map (lasting descriptors)
    descriptors := descriptors
    interest_open := by
      intro worker hworker fd hentry
      obtain ⟨worker, -, rfl⟩ := List.mem_map.1 hworker
      by_contra hclosed
      simp [lasting, hclosed] at hentry }

/-- A descriptor becomes another, or is opened or closed. -/
def setDescriptor (s : Server H) (fd : ℕ) (d : Option Descriptor) : Server H :=
  s.put s.workers (Function.update s.descriptors fd d)

/-- What a call does with an open descriptor. -/
def modify (s : Server H) (fd : ℕ) (f : Descriptor → Descriptor) : Server H :=
  s.setDescriptor fd ((s.descriptors fd).map f)

/-- `::socket` has returned `fd`. -/
def socket (s : Server H) (fd : ℕ) : Server H :=
  s.setDescriptor fd
    (some { bound := none, listening := false, nonblock := false, reusePort := false })

/-- `set_reuse_port`. -/
def setReusePort (s : Server H) (fd : ℕ) : Server H :=
  s.modify fd fun d => { d with reusePort := true }

/-- `::bind` has succeeded. -/
def bind (s : Server H) (fd : ℕ) (address : SockaddrIn) : Server H :=
  s.modify fd fun d => { d with bound := some address }

/-- `::listen` has succeeded. -/
def listen (s : Server H) (fd : ℕ) : Server H := s.modify fd fun d => { d with listening := true }

/-- `set_nonblock`. -/
def setNonblock (s : Server H) (fd : ℕ) : Server H :=
  s.modify fd fun d => { d with nonblock := true }

/-- `::close`. -/
def sysClose (s : Server H) (fd : ℕ) : Server H := s.setDescriptor fd none

/-- `workers_[i]->register_handle(h)`. -/
def registerHandle [DecidableEq H] (W : Handles H) (s : Server H) (i : ℕ) (h : H) : Server H :=
  match s.workers[i]? with
  | some worker =>
    let w := World.registerHandle W { worker with opened := s.isOpen } h
    s.put (s.workers.set i w.toShared) fun fd => if w.opened fd then s.descriptors fd else none
  | none => s

end Server

/-- The calls that may fail. -/
inductive SysCall
  | socket
  | bind
  | listen
deriving DecidableEq, Repr

/-- What the kernel does when it is called for worker `i`. -/
structure Kernel where
  /-- What `socket` returns, by what is open. -/
  socket : ℕ → (ℕ → Bool) → Option ℕ
  /-- It returns no number that is open. -/
  socket_new : ∀ i isOpen fd, socket i isOpen = some fd → isOpen fd = false
  /-- Whether `bind` succeeds. -/
  bind : ℕ → Bool
  /-- Whether `listen` succeeds. -/
  listen : ℕ → Bool
  /-- What `strerror` says of a call that has failed. -/
  reason : ℕ → SysCall → String
  /-- What `strerror` says when an address cannot be parsed. -/
  parseReason : String
  /-- What there is behind `socket_address`. -/
  beyond : Beyond

/-- What `new TcpAcceptor` gives, of accept callbacks in `CB`. -/
structure Acceptors {H : Type} (W : Handles H) (CB : Type) where
  /-- The acceptor of a descriptor, with `bind_address_`, `settings_`, and `accept_callback_`. -/
  new : ℕ → Address → Settings → CB → H
  /-- `fd_` is the descriptor. -/
  fd_new : ∀ fd address settings callback, W.fd (new fd address settings callback) = fd
  /-- It is no socket. -/
  isSocket_new : ∀ fd address settings callback,
    W.isSocket (new fd address settings callback) = false

/-- A call in progress. -/
structure Call (H : Type) where
  /-- The server. -/
  server : Server H
  /-- `listen_fds`. -/
  listenFds : List ℕ
  /-- What `::socket` has returned. -/
  opened : List ℕ
  /-- What `::close` has been called with. -/
  closed : List ℕ

variable {H : Type}

namespace Call

/-- `::close`. -/
def sysClose (c : Call H) (fd : ℕ) : Call H :=
  { c with server := c.server.sysClose fd, closed := c.closed ++ [fd] }

/-- The loop of an error. -/
def closeListenFds (c : Call H) : Call H := c.listenFds.foldl sysClose c

/-- `::socket` has returned `fd`, which becomes one of `listen_fds`. -/
def socket (c : Call H) (fd : ℕ) : Call H :=
  { c with
    server := (c.server.socket fd).setReusePort fd
    listenFds := c.listenFds ++ [fd]
    opened := c.opened ++ [fd] }

/-- One round of the first loop, for worker `i`. -/
def openListenFd (k : Kernel) (inet : Inet) (address : SockaddrIn) (i : ℕ) (c : Call H) :
    Call H × Option String :=
  match k.socket i c.server.isOpen with
  | none => (c.closeListenFds, some ("socket cannot open, reason:" ++ k.reason i .socket))
  | some fd =>
    let c := c.socket fd
    if !k.bind i then
      (c.closeListenFds, some ("socket cannot bind with address " ++
        fromSockaddrIn inet k.beyond address ++ ":" ++ toString (ntohs address.sinPort).toNat ++
        ", reason:" ++ k.reason i .bind))
    else
      let c := { c with server := c.server.bind fd address }
      if !k.listen i then
        (c.closeListenFds, some ("socket cannot be listened, reason:" ++ k.reason i .listen))
      else ({ c with server := (c.server.listen fd).setNonblock fd }, none)

/-- The first loop. -/
def openListenFds (k : Kernel) (inet : Inet) (address : SockaddrIn) :
    List ℕ → Call H → Call H × Option String
  | [], c => (c, none)
  | i :: is, c =>
    match c.openListenFd k inet address i with
    | (c, some err) => (c, some err)
    | (c, none) => openListenFds k inet address is c

end Call

/-- The second loop, from worker `i` on. -/
def registerAcceptors [DecidableEq H] (W : Handles H) (new : ℕ → H) :
    ℕ → List ℕ → Server H → Server H
  | _, [], s => s
  | i, fd :: fds, s => registerAcceptors W new (i + 1) fds (s.registerHandle W i (new fd))

/-- `Server::listen_tcp_endpoint`, with what it returns. -/
def listenTcpEndpoint [DecidableEq H] {W : Handles H} {CB : Type} (A : Acceptors W CB) (k : Kernel)
    (inet : Inet) (s : Server H) (address : Address) (acceptCallback : CB) :
    Call H × Option String :=
  let c := { server := s, listenFds := [], opened := [], closed := [] }
  if s.running then (c, some "server has been running")
  else
    match s.settings with
    | none => (c, some "settings has been not set")
    | some settings =>
      match toSockaddrIn inet k.parseReason address.address address.port with
      | .error err => (c, some err)
      | .ok socketAddress =>
        match Call.openListenFds k inet socketAddress (List.range s.workers.length) c with
        | (c, some err) => (c, some err)
        | (c, none) =>
          let new := fun fd => A.new fd address settings acceptCallback
          ({ c with server := registerAcceptors W new 0 c.listenFds c.server }, none)

/-- The descriptor of an acceptor that has been bound to `address`. -/
def Descriptor.acceptor (address : SockaddrIn) : Descriptor :=
  { bound := some address, listening := true, nonblock := true, reusePort := true }

/-- A worker that has one more acceptor. -/
def withAcceptor [DecidableEq H] (W : Handles H) (worker : Shared H Unit) (h : H) :
    Shared H Unit :=
  { worker with
    allHandles := Function.update worker.allHandles (W.fd h) (some h)
    interest := Function.update worker.interest (W.fd h) (some h)
    runtimeRef := Function.update worker.runtimeRef h true }

/-- The call has left everything as it was; what it has opened it has closed once. -/
structure Undone (s : Server H) (c : Call H) : Prop where
  /-- Everything is as it was. -/
  server : c.server = s
  /-- What has been opened has been closed, in that order. -/
  closed : c.closed = c.opened
  /-- No number has been opened twice. -/
  nodup : c.opened.Nodup

/-- The call has given every worker an acceptor on a listening descriptor of its own, and has done
nothing else. -/
structure Listens [DecidableEq H] {W : Handles H} {CB : Type} (A : Acceptors W CB) (s : Server H)
    (inet : Inet) (address : Address) (acceptCallback : CB) (c : Call H) : Prop where
  /-- The descriptors are those that have been opened. -/
  opened : c.opened = c.listenFds
  /-- None has been closed. -/
  closed : c.closed = []
  /-- There is one for each worker. -/
  length : c.listenFds.length = s.workers.length
  /-- They differ. -/
  nodup : c.listenFds.Nodup
  /-- They are new. -/
  new : ∀ fd ∈ c.listenFds, s.descriptors fd = none
  /-- They listen, do not block, and are bound to the address. -/
  acceptor : ∃ socketAddress reason,
    toSockaddrIn inet reason address.address address.port = .ok socketAddress ∧
      ∀ fd ∈ c.listenFds, c.server.descriptors fd = some (.acceptor socketAddress)
  /-- The other descriptors are as they were. -/
  others : ∀ fd, fd ∉ c.listenFds → c.server.descriptors fd = s.descriptors fd
  /-- `running_` is as it was. -/
  running : c.server.running = s.running
  /-- `settings_` is as it was. -/
  settings : c.server.settings = s.settings
  /-- Every worker has one more acceptor, on its descriptor. -/
  workers : ∃ settings ∈ s.settings, c.server.workers = List.zipWith
    (fun worker fd => withAcceptor W worker (A.new fd address settings acceptCallback))
    s.workers c.listenFds

/-! ## Descriptors that are opened and closed -/

variable {s t : Server H} {c : Call H} {fd : ℕ}

/-- Interest lists whose descriptors are open stay as they are. -/
theorem put_workers (s : Server H) {workers : List (Shared H Unit)}
    {descriptors : ℕ → Option Descriptor}
    (h : ∀ worker ∈ workers, ∀ fd, (worker.interest fd).isSome → (descriptors fd).isSome) :
    (s.put workers descriptors).workers = workers := by
  refine (List.map_congr_left fun worker hworker => ?_).trans (List.map_id _)
  have hentry : ∀ fd, (if (descriptors fd).isSome then worker.interest fd else none) =
      worker.interest fd := by
    intro fd
    split
    · rfl
    · rename_i hclosed
      by_contra hne
      exact hclosed (h worker hworker fd (Option.isSome_iff_ne_none.2 fun hnone => hne hnone.symm))
  exact congrArg (fun interest => { worker with interest := interest }) (funext hentry)

/-- Descriptors that the call has opened, beside those that there were. -/
structure Opening (s : Server H) (c : Call H) : Prop where
  /-- `running_` is as it was. -/
  running : c.server.running = s.running
  /-- `settings_` is as it was. -/
  settings : c.server.settings = s.settings
  /-- The workers are as they were. -/
  workers : c.server.workers = s.workers
  /-- `listen_fds` has all that have been opened. -/
  opened : c.opened = c.listenFds
  /-- None has been closed. -/
  closed : c.closed = []
  /-- They differ. -/
  nodup : c.listenFds.Nodup
  /-- They are new. -/
  new : ∀ fd ∈ c.listenFds, s.descriptors fd = none
  /-- They are open. -/
  isOpen : ∀ fd ∈ c.listenFds, (c.server.descriptors fd).isSome
  /-- The other descriptors are as they were. -/
  others : ∀ fd, fd ∉ c.listenFds → c.server.descriptors fd = s.descriptors fd

/-- It is so at the beginning. -/
theorem Opening.refl (s : Server H) :
    Opening s { server := s, listenFds := [], opened := [], closed := [] } where
  running := rfl
  settings := rfl
  workers := rfl
  opened := rfl
  closed := rfl
  nodup := .nil
  new _ h := by cases h
  isOpen _ h := by cases h
  others _ _ := rfl

/-- It stays so while descriptors of `listen_fds` are changed. -/
theorem Opening.modify (h : Opening s c) (hfd : fd ∈ c.listenFds) (f : Descriptor → Descriptor) :
    Opening s { c with server := c.server.modify fd f } := by
  have hold : ∀ x, ((c.server.modify fd f).descriptors x).isSome =
      (c.server.descriptors x).isSome := by
    intro x
    simp only [Server.modify, Server.setDescriptor, Server.put, Function.update_apply]
    split
    · subst x
      exact Option.isSome_map
    · rfl
  refine { h with workers := ?_, isOpen := fun x hx => ?_, others := fun x hx => ?_ }
  · refine (put_workers c.server fun worker hworker x hx => ?_).trans h.workers
    exact (hold x).trans (c.server.interest_open worker hworker x hx)
  · exact (hold x).trans (h.isOpen x hx)
  · have hne : x ≠ fd := fun heq => hx (heq ▸ hfd)
    exact (Function.update_of_ne hne ..).trans (h.others x hx)

/-- It stays so when another descriptor is opened. -/
theorem Opening.socket (h : Opening s c) (hnew : c.server.descriptors fd = none) :
    Opening s (c.socket fd) := by
  have hnot : fd ∉ c.listenFds := by
    intro hmem
    have hopen := h.isOpen fd hmem
    rw [hnew] at hopen
    cases hopen
  have hopened : Opening s { c with
      server := c.server.socket fd, listenFds := c.listenFds ++ [fd],
      opened := c.opened ++ [fd] } := by
    refine { h with
      workers := ?_, opened := ?_, nodup := ?_, new := ?_, isOpen := ?_, others := ?_ }
    · refine (put_workers c.server fun worker hworker x hx => ?_).trans h.workers
      rw [Function.update_apply]
      split
      · rfl
      · exact c.server.interest_open worker hworker x hx
    · rw [h.opened]
    · exact List.nodup_append.2 ⟨h.nodup, List.nodup_singleton fd, fun x hx y hy => by
        rintro rfl
        exact hnot (List.mem_singleton.1 hy ▸ hx)⟩
    · intro x hx
      rcases List.mem_append.1 hx with hx | hx
      · exact h.new x hx
      · obtain rfl := List.mem_singleton.1 hx
        rw [← h.others x hnot, hnew]
    · intro x hx
      simp only [Server.socket, Server.setDescriptor, Server.put, Function.update_apply]
      split
      · rfl
      · rename_i hne
        exact h.isOpen x ((List.mem_append.1 hx).resolve_right fun hx =>
          hne (List.mem_singleton.1 hx))
    · intro x hx
      have hne : x ≠ fd := fun heq => hx (by simp [heq])
      exact (Function.update_of_ne hne ..).trans (h.others x fun hmem =>
        hx (List.mem_append_left _ hmem))
  exact hopened.modify (List.mem_append_right _ (List.mem_singleton_self fd)) _

/-- What the loop of an error does with new descriptors. -/
theorem foldl_sysClose (fds : List ℕ) (c : Call H) (hrunning : c.server.running = s.running)
    (hsettings : c.server.settings = s.settings) (hworkers : c.server.workers = s.workers)
    (hnew : ∀ fd ∈ fds, s.descriptors fd = none)
    (hothers : ∀ fd, fd ∉ fds → c.server.descriptors fd = s.descriptors fd) :
    (fds.foldl Call.sysClose c).server = s ∧
      (fds.foldl Call.sysClose c).closed = c.closed ++ fds ∧
        (fds.foldl Call.sysClose c).opened = c.opened := by
  -- Of the descriptors yet to be closed nothing is known but that they are new.
  induction fds generalizing c with
  | nil =>
    refine ⟨Server.ext hrunning hsettings hworkers ?_, (List.append_nil _).symm, rfl⟩
    exact funext fun fd => hothers fd List.not_mem_nil
  | cons fd fds ih =>
    have hrest : ∀ x, x ∉ fds → (c.sysClose fd).server.descriptors x = s.descriptors x := by
      intro x hx
      rcases eq_or_ne x fd with rfl | hne
      · exact (Function.update_self ..).trans (hnew x (List.mem_cons_self ..)).symm
      · exact (Function.update_of_ne hne ..).trans (hothers x fun hmem =>
          (List.mem_cons.1 hmem).elim hne hx)
    have hstep : (c.sysClose fd).server.workers = s.workers := by
      refine (put_workers c.server fun worker hworker x hx => ?_).trans hworkers
      have hopen := s.interest_open worker (hworkers ▸ hworker) x hx
      have hnot : x ∉ fds := by
        intro hmem
        rw [hnew x (List.mem_cons_of_mem _ hmem)] at hopen
        cases hopen
      exact (congrArg Option.isSome (hrest x hnot)).trans hopen
    obtain ⟨hserver, hclosed, hopened⟩ := ih (c.sysClose fd) hrunning hsettings hstep
      (fun x hx => hnew x (List.mem_cons_of_mem _ hx)) hrest
    refine ⟨hserver, ?_, hopened⟩
    rw [List.foldl_cons, hclosed]
    exact List.append_assoc ..

/-- The loop of an error leaves everything as it was. -/
theorem Opening.undone (h : Opening s c) : Undone s c.closeListenFds := by
  obtain ⟨hserver, hclosed, hopened⟩ :=
    foldl_sysClose c.listenFds c h.running h.settings h.workers h.new h.others
  refine ⟨hserver, ?_, ?_⟩
  · rw [Call.closeListenFds, hclosed, hopened, h.closed, h.opened]
    exact List.nil_append _
  · rw [Call.closeListenFds, hopened, h.opened]
    exact h.nodup

/-- The descriptors of `listen_fds` are ready. -/
def Ready (address : SockaddrIn) (c : Call H) : Prop :=
  ∀ fd ∈ c.listenFds, c.server.descriptors fd = some (.acceptor address)

variable {k : Kernel} {inet : Inet} {socketAddress : SockaddrIn} {i : ℕ} {err : Option String}
  {c' : Call H}

/-- A round of the first loop leaves everything as it was, or one more descriptor that is ready. -/
theorem Opening.openListenFd (h : Opening s c) (hready : Ready socketAddress c)
    (hround : c.openListenFd k inet socketAddress i = (c', err)) :
    (∀ text, err = some text → Undone s c') ∧ (err = none → Opening s c' ∧ Ready socketAddress c' ∧
      c'.listenFds.length = c.listenFds.length + 1) := by
  unfold Call.openListenFd at hround
  split at hround
  · obtain ⟨rfl, rfl⟩ := Prod.mk.inj hround
    exact ⟨fun _ _ => h.undone, fun hnone => by cases hnone⟩
  · rename_i fd hsocket
    have hnew : c.server.descriptors fd = none := by
      have hnot := k.socket_new i _ fd hsocket
      exact Option.not_isSome_iff_eq_none.1 (by simpa [Server.isOpen] using hnot)
    have hopening := h.socket hnew
    have hmem : fd ∈ (c.socket fd).listenFds := List.mem_append_right _ (List.mem_singleton_self fd)
    have hbound := hopening.modify hmem fun d => { d with bound := some socketAddress }
    dsimp only at hround
    split at hround
    · obtain ⟨rfl, rfl⟩ := Prod.mk.inj hround
      exact ⟨fun _ _ => hopening.undone, fun hnone => by cases hnone⟩
    · split at hround
      · obtain ⟨rfl, rfl⟩ := Prod.mk.inj hround
        exact ⟨fun _ _ => hbound.undone, fun hnone => by cases hnone⟩
      · obtain ⟨rfl, rfl⟩ := Prod.mk.inj hround
        refine ⟨fun text htext => (by cases htext), fun _ => ⟨?_, ?_, ?_⟩⟩
        · have hlistens := hbound.modify hmem fun d => { d with listening := true }
          exact hlistens.modify hmem fun d => { d with nonblock := true }
        · intro x hx
          rcases eq_or_ne x fd with rfl | hne
          · simp [Server.setNonblock, Server.listen, Server.bind, Call.socket, Server.setReusePort,
              Server.socket, Server.modify, Server.setDescriptor, Server.put, Descriptor.acceptor]
          · have hx : x ∈ c.listenFds := (List.mem_append.1 hx).resolve_right fun hx =>
              hne (List.mem_singleton.1 hx)
            rw [← hready x hx]
            simp [Server.setNonblock, Server.listen, Server.bind, Call.socket, Server.setReusePort,
              Server.socket, Server.modify, Server.setDescriptor, Server.put, hne]
        · exact List.length_append

/-- So does the first loop. -/
theorem Opening.openListenFds (is : List ℕ) (h : Opening s c) (hready : Ready socketAddress c)
    (hloop : Call.openListenFds k inet socketAddress is c = (c', err)) :
    (∀ text, err = some text → Undone s c') ∧ (err = none → Opening s c' ∧ Ready socketAddress c' ∧
      c'.listenFds.length = c.listenFds.length + is.length) := by
  -- A round that ends in an error ends the loop.
  induction is generalizing c with
  | nil =>
    obtain ⟨rfl, rfl⟩ := Prod.mk.inj hloop
    exact ⟨fun text htext => (by cases htext), fun _ => ⟨h, hready, rfl⟩⟩
  | cons i is ih =>
    rw [Call.openListenFds] at hloop
    cases hround : c.openListenFd k inet socketAddress i with
    | mk c₁ err₁ =>
      obtain ⟨hundone, hopening⟩ := h.openListenFd hready hround
      rw [hround] at hloop
      cases err₁ with
      | some text =>
        obtain ⟨rfl, rfl⟩ := Prod.mk.inj hloop
        exact ⟨fun _ _ => hundone text rfl, fun hnone => by cases hnone⟩
      | none =>
        obtain ⟨h₁, hready₁, hlength⟩ := hopening rfl
        obtain ⟨hundone, hopening⟩ := ih h₁ hready₁ hloop
        refine ⟨hundone, fun hnone => ?_⟩
        obtain ⟨h', hready', hlength'⟩ := hopening hnone
        refine ⟨h', hready', ?_⟩
        rw [hlength', hlength, List.length_cons]
        omega

/-! ## Acceptors that are registered -/

variable [DecidableEq H] {W : Handles H} {worker : Shared H Unit} {h : H}

/-- `register_handle` of an acceptor with an open descriptor whose number is not in use. -/
theorem registerHandle_acceptor {isOpen : ℕ → Bool} (hsocket : W.isSocket h = false)
    (hnone : worker.allHandles (W.fd h) = none) (hentry : worker.interest (W.fd h) = none)
    (hopen : isOpen (W.fd h) = true) :
    World.registerHandle W { worker with opened := isOpen } h =
      { withAcceptor W worker h with opened := isOpen } := by
  rw [Sequential.registerHandle_of_none hnone]
  simp [World.insertHandle, World.epollAdd, Shared.epollAdd, Shared.insertSocket, Shared.setHandle,
    Shared.setInterest, Shared.setRuntimeRef, withAcceptor, hsocket, hentry, hopen]

/-- So one worker gets the acceptor, and everything else stays. -/
theorem server_registerHandle (hworker : s.workers[i]? = some worker)
    (hsocket : W.isSocket h = false) (hnone : worker.allHandles (W.fd h) = none)
    (hentry : worker.interest (W.fd h) = none) (hopen : (s.descriptors (W.fd h)).isSome) :
    (s.registerHandle W i h).workers = s.workers.set i (withAcceptor W worker h) ∧
      (s.registerHandle W i h).descriptors = s.descriptors ∧
        (s.registerHandle W i h).running = s.running ∧
          (s.registerHandle W i h).settings = s.settings := by
  have hdescriptors : (fun fd => if s.isOpen fd then s.descriptors fd else none) =
      s.descriptors := by
    funext fd
    split
    · rfl
    · rename_i hclosed
      exact (Option.not_isSome_iff_eq_none.1 hclosed).symm
  have hmem : worker ∈ s.workers := List.mem_of_getElem? hworker
  unfold Server.registerHandle
  rw [hworker]
  dsimp only
  rw [registerHandle_acceptor hsocket hnone hentry hopen]
  dsimp only
  rw [hdescriptors]
  refine ⟨put_workers s fun x hx fd hfd => ?_, rfl, rfl, rfl⟩
  -- Its entry has been added, and its descriptor is open.
  rcases List.mem_or_eq_of_mem_set hx with hx | rfl
  · exact s.interest_open x hx fd hfd
  · rcases eq_or_ne fd (W.fd h) with rfl | hne
    · exact hopen
    · have hsame : (withAcceptor W worker h).interest fd = worker.interest fd :=
        Function.update_of_ne hne ..
      rw [hsame] at hfd
      exact s.interest_open worker hmem fd hfd

/-- The second loop gives each of the workers that are left its acceptor. -/
theorem registerAcceptors_eq {new : ℕ → H} (hfd : ∀ fd, W.fd (new fd) = fd)
    (hsocket : ∀ fd, W.isSocket (new fd) = false) (fds : List ℕ) (i : ℕ) (s : Server H)
    (before after : List (Shared H Unit)) (hworkers : s.workers = before ++ after)
    (hi : before.length = i) (hlength : fds.length = after.length)
    (hfree : ∀ worker ∈ after, ∀ fd ∈ fds,
      worker.allHandles fd = none ∧ worker.interest fd = none)
    (hopen : ∀ fd ∈ fds, (s.descriptors fd).isSome) :
    (registerAcceptors W new i fds s).workers =
        before ++ List.zipWith (fun worker fd => withAcceptor W worker (new fd)) after fds ∧
      (registerAcceptors W new i fds s).descriptors = s.descriptors ∧
        (registerAcceptors W new i fds s).running = s.running ∧
          (registerAcceptors W new i fds s).settings = s.settings := by
  induction fds generalizing i s before after with
  | nil =>
    obtain rfl := List.eq_nil_of_length_eq_zero hlength.symm
    exact ⟨hworkers, rfl, rfl, rfl⟩
  | cons fd fds ih =>
    cases after with
    | nil => cases hlength
    | cons worker after =>
      obtain ⟨hnone, hentry⟩ := hfree worker (List.mem_cons_self ..) fd (List.mem_cons_self ..)
      have hget : s.workers[i]? = some worker := by
        rw [hworkers, ← hi]
        simp
      obtain ⟨hset, hdescriptors, hrunning, hsettings⟩ := server_registerHandle (h := new fd) hget
        (hsocket fd) (by rwa [hfd]) (by rwa [hfd])
        (by rw [hfd]; exact hopen fd (List.mem_cons_self ..))
      have hset' : (s.registerHandle W i (new fd)).workers =
          (before ++ [withAcceptor W worker (new fd)]) ++ after := by
        rw [hset, hworkers, ← hi]
        simp
      obtain ⟨hloop, hdescriptors', hrunning', hsettings'⟩ := ih (i + 1)
        (s.registerHandle W i (new fd)) (before ++ [withAcceptor W worker (new fd)]) after hset'
        (by simp [hi]) (Nat.succ.inj hlength)
        (fun x hx y hy => hfree x (List.mem_cons_of_mem _ hx) y (List.mem_cons_of_mem _ hy))
        fun y hy => by rw [hdescriptors]; exact hopen y (List.mem_cons_of_mem _ hy)
      refine ⟨?_, hdescriptors'.trans hdescriptors, hrunning'.trans hrunning,
        hsettings'.trans hsettings⟩
      rw [registerAcceptors, hloop, List.append_assoc]
      rfl

/-- `listen_tcp_endpoint` either returns an error and leaves everything as it was, or gives every
worker an acceptor, where what is registered with a worker is open. -/
theorem listenTcpEndpoint_allOrNothing {CB : Type} (A : Acceptors W CB) (k : Kernel) (inet : Inet)
    (s : Server H) (address : Address) (acceptCallback : CB)
    (hkeys : ∀ worker ∈ s.workers, ∀ fd, (worker.allHandles fd).isSome →
      (s.descriptors fd).isSome) :
    (∀ err, (listenTcpEndpoint A k inet s address acceptCallback).2 = some err →
      Undone s (listenTcpEndpoint A k inet s address acceptCallback).1) ∧
    ((listenTcpEndpoint A k inet s address acceptCallback).2 = none →
      Listens A s inet address acceptCallback
        (listenTcpEndpoint A k inet s address acceptCallback).1) := by
  have hnothing : Undone s { server := s, listenFds := [], opened := [], closed := [] } :=
    ⟨rfl, rfl, .nil⟩
  unfold listenTcpEndpoint
  dsimp only
  split
  · exact ⟨fun _ _ => hnothing, fun hnone => by cases hnone⟩
  · split
    · exact ⟨fun _ _ => hnothing, fun hnone => by cases hnone⟩
    · rename_i settings hsettings
      split
      · exact ⟨fun _ _ => hnothing, fun hnone => by cases hnone⟩
      · rename_i socketAddress hparse
        split
        · rename_i c err hloop
          have hundone := ((Opening.refl s).openListenFds _ (fun _ h => by cases h) hloop).1
          exact ⟨fun _ _ => hundone err rfl, fun hnone => by cases hnone⟩
        · rename_i c hloop
          refine ⟨fun _ herr => (by cases herr), fun _ => ?_⟩
          obtain ⟨h, hready, hlength⟩ :=
            ((Opening.refl s).openListenFds _ (fun _ h => by cases h) hloop).2 rfl
          -- No worker has a handle or an entry under a number that was not open.
          have hfree : ∀ worker ∈ s.workers, ∀ fd ∈ c.listenFds,
              worker.allHandles fd = none ∧ worker.interest fd = none := by
            intro worker hworker fd hfd
            have hclosed : ¬ (s.descriptors fd).isSome = true := by simp [h.new fd hfd]
            exact ⟨Option.not_isSome_iff_eq_none.1 fun hsome =>
                hclosed (hkeys worker hworker fd hsome),
              Option.not_isSome_iff_eq_none.1 fun hsome =>
                hclosed (s.interest_open worker hworker fd hsome)⟩
          have hcount : c.listenFds.length = s.workers.length := by
            rw [hlength, List.length_range]
            exact Nat.zero_add _
          obtain ⟨hworkers, hdescriptors, hrunning, hsettings'⟩ := registerAcceptors_eq
            (fun fd => A.fd_new fd address settings acceptCallback)
            (fun fd => A.isSocket_new fd address settings acceptCallback) c.listenFds 0 c.server []
            s.workers h.workers rfl hcount hfree h.isOpen
          exact
            { opened := h.opened
              closed := h.closed
              length := hcount
              nodup := h.nodup
              new := h.new
              acceptor := ⟨socketAddress, k.parseReason, hparse, fun fd hfd => by
                rw [hdescriptors]; exact hready fd hfd⟩
              others := fun fd hfd => by rw [hdescriptors]; exact h.others fd hfd
              running := hrunning.trans h.running
              settings := hsettings'.trans h.settings
              workers := ⟨settings, hsettings, hworkers⟩ }

/-- Acceptors that are known by their descriptors alone. -/
def plainAcceptors : Acceptors { fd := id, isSocket := fun _ => false } Unit where
  new fd _ _ _ := fd
  fd_new _ _ _ _ := rfl
  isSocket_new _ _ _ _ := rfl

/-- A kernel that has the number `5 + i` for worker `i`, and binds where `bind` says so. -/
def plainKernel (bind : ℕ → Bool) : Kernel where
  socket i isOpen := if isOpen (5 + i) then none else some (5 + i)
  socket_new i isOpen fd h := by
    split at h
    · cases h
    · obtain rfl := Option.some.inj h
      exact Bool.eq_false_of_not_eq_true ‹_›
  bind := bind
  listen _ := true
  reason _ _ := "Address already in use"
  parseReason := ""
  beyond _ := 0

/-- A configured server with two workers, which has not been run. -/
def twoWorkers : Server ℕ where
  running := false
  settings := some { workers := 2, reusePort := false }
  workers := List.replicate 2 (Sequential.init ℕ fun _ => false).state.toShared
  descriptors _ := none
  interest_open worker hworker fd hentry := by
    obtain rfl := List.eq_of_mem_replicate hworker
    cases hentry

/-- The statement is about something: a call that succeeds, and one that fails at `bind` for the
second worker. -/
theorem listenTcpEndpoint_twoWorkers :
    (listenTcpEndpoint plainAcceptors (plainKernel fun _ => true) plainInet twoWorkers
        ⟨.IPV4, "127.0.0.1", 80⟩ ()).2 = none ∧
      Listens plainAcceptors twoWorkers plainInet ⟨.IPV4, "127.0.0.1", 80⟩ ()
        (listenTcpEndpoint plainAcceptors (plainKernel fun _ => true) plainInet twoWorkers
          ⟨.IPV4, "127.0.0.1", 80⟩ ()).1 ∧
    (listenTcpEndpoint plainAcceptors (plainKernel (· == 0)) plainInet twoWorkers
        ⟨.IPV4, "127.0.0.1", 80⟩ ()).2 =
      some "socket cannot bind with address 127.0.0.1:80, reason:Address already in use" ∧
      Undone twoWorkers
        (listenTcpEndpoint plainAcceptors (plainKernel (· == 0)) plainInet twoWorkers
          ⟨.IPV4, "127.0.0.1", 80⟩ ()).1 := by
  have hkeys : ∀ worker ∈ twoWorkers.workers, ∀ fd, (worker.allHandles fd).isSome →
      (twoWorkers.descriptors fd).isSome := by
    intro worker hworker fd hsome
    obtain rfl := List.eq_of_mem_replicate hworker
    cases hsome
  have hok : (listenTcpEndpoint plainAcceptors (plainKernel fun _ => true) plainInet twoWorkers
      ⟨.IPV4, "127.0.0.1", 80⟩ ()).2 = none := by decide
  have herr : (listenTcpEndpoint plainAcceptors (plainKernel (· == 0)) plainInet twoWorkers
      ⟨.IPV4, "127.0.0.1", 80⟩ ()).2 =
        some "socket cannot bind with address 127.0.0.1:80, reason:Address already in use" := by
    decide
  exact ⟨hok,
    (listenTcpEndpoint_allOrNothing plainAcceptors _ plainInet twoWorkers _ () hkeys).2 hok, herr,
    (listenTcpEndpoint_allOrNothing plainAcceptors _ plainInet twoWorkers _ () hkeys).1 _ herr⟩

end Spinet.Listen
