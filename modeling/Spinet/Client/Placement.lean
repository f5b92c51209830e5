import Spinet.Core.Address
import Spinet.Library.RoundRobin
import Spinet.Lifecycle.Agreement

/-!
# Client: tcp_connect

`tcp_connect` opens a socket, connects it, and registers it with one of the workers, which
`select_runtime` takes in turn: `choosen_index_` counts the sockets, modulo `2^64`, and chooses by
its value modulo the number of workers. All of it is one section of `mtx_`, as `with_settings` is;
calls of `run` and of `stop`, and the threads of the workers, take the steps of
`Spinet.Lifecycle.Owner` meanwhile. Calls are made by any number of threads.

`balanced_always` says that there is a worker to choose whenever one is chosen, and how far the
numbers of sockets of two workers can be apart.
-/

namespace Spinet.Client

open Transition RoundRobin

variable {T : Type*}

/-- What the kernel does during a call of `tcp_connect`. -/
structure Kernel where
  /-- What `::socket` returns. -/
  socket : Option ℕ
  /-- Whether `::connect` succeeds. -/
  connect : Bool
  /-- What `strerror` says of the call that has failed. -/
  reason : String
  /-- What there is behind `socket_address`. -/
  beyond : Beyond
  /-- What there is behind the object in `Address::parse`. -/
  beyondParsed : Beyond

/-- What `tcp_connect` does with the descriptor. -/
inductive SysCall
  /-- `::socket` has returned it. -/
  | socket (fd : ℕ)
  /-- `set_reuse_port`. -/
  | setReusePort (fd : ℕ)
  /-- `set_nonblock`. -/
  | setNonblock (fd : ℕ)
  /-- `::close`. -/
  | close (fd : ℕ)
deriving DecidableEq, Repr

/-- Why there is no socket. -/
inductive Failure
  /-- An error is returned. -/
  | err (err : String)
  /-- `std::get` has found an error in what `Address::parse` returned, and throws. -/
  | thrown
deriving DecidableEq, Repr

/-- What can be seen of a run. -/
inductive Event
  /-- A call of `with_settings`, of `run` or of `stop` has returned; `stop` returns nothing. -/
  | returned (err : Option String)
  /-- A call of `tcp_connect` has called the kernel. -/
  | sysCall (call : SysCall)
  /-- It has ended without a socket. -/
  | failed (failure : Failure)
  /-- It has registered a socket with a worker, and returned it. -/
  | placed (worker fd : ℕ) (address : Address)
deriving DecidableEq, Repr

/-- The state: the members that `Client` has in common with `Server`, with the calls in progress,
and `choosen_index_`. -/
structure State (T : Type*) where
  /-- `mtx_`, `running_`, `workers_`, and `settings_`, and the calls of `run` and `stop`. -/
  owner : Owner.State T
  /-- `choosen_index_`. -/
  choosenIndex : UInt64

/-- A step of the system. -/
inductive Action (T : Type*)
  /-- A call of `run` or of `stop`, or the thread of a worker, takes a step. -/
  | owner (a : Owner.Action T)
  /-- A thread calls `with_settings`. -/
  | withSettings (t : T) (settings : Settings)
  /-- A thread calls `tcp_connect`. -/
  | tcpConnect (t : T) (address : Address) (k : Kernel)

/-- `tcp_connect` up to the choice of a worker: the calls of the kernel, and the descriptor and the
address of the socket, if there is one. -/
def connectSocket (inet : Inet) (k : Kernel) (address : Address) (o : Owner T) :
    List SysCall × Except Failure (ℕ × Address) :=
  if !o.running then ([], .error (.err "client is not running"))
  else
    match o.settings with
    | none => ([], .error (.err "settings has been not set"))
    | some settings =>
      match toSockaddrIn inet k.reason address.address address.port with
      | .error err => ([], .error (.err err))
      | .ok socketAddress =>
        match k.socket with
        | none => ([], .error (.err ("socket cannot be created, reason:" ++ k.reason)))
        | some fd =>
          let calls := .socket fd :: if settings.reusePort then [.setReusePort fd] else []
          if !k.connect then
            (calls ++ [.close fd], .error (.err ("socket cannot be listened, reason:" ++ k.reason)))
          else
            (calls ++ [.setNonblock fd],
              match Address.parse inet k.reason k.beyondParsed
                (fromSockaddrIn inet k.beyond socketAddress) (ntohs socketAddress.sinPort) with
              | .ok peer => .ok (fd, peer)
              | .error _ => .error .thrown)

namespace State

/-- Whether a thread can call, and enter a section of `mtx_`. -/
def canEnter (s : State T) (t : T) : Bool := (s.owner.caller t).isNone && s.owner.owner.mtx.isNone

/-- `select_runtime`: the index of the worker. -/
def selectRuntime (s : State T) : ℕ × State T :=
  (s.choosenIndex.toNat % s.owner.owner.workers.length,
    { s with choosenIndex := s.choosenIndex + 1 })

/-- `tcp_connect`. -/
def tcpConnect (inet : Inet) (k : Kernel) (address : Address) (s : State T) :
    State T × List Event :=
  match connectSocket inet k address s.owner.owner with
  | (calls, .error failure) => (s, calls.map .sysCall ++ [.failed failure])
  | (calls, .ok (fd, peer)) =>
    let (worker, s) := s.selectRuntime
    (s, calls.map .sysCall ++ [.placed worker fd peer])

/-- The step of an action. -/
def step [DecidableEq T] (inet : Inet) (s : State T) : Action T → Option (State T × List Event)
  | .owner a =>
    (Owner.stepState s.owner a).map fun (o, es) => ({ s with owner := o }, es.map .returned)
  | .withSettings t settings =>
    if s.canEnter t then
      let (o, err) := s.owner.owner.withSettings settings
      some ({ s with owner := { s.owner with owner := o } }, [.returned err])
    else none
  | .tcpConnect t address k => if s.canEnter t then some (s.tcpConnect inet k address) else none

end State

/-- The machine of one client. -/
def machine (T : Type*) [DecidableEq T] (inet : Inet) : Machine (State T) (Action T) Event :=
  ⟨State.step inet⟩

/-- A new client, with no call in progress. -/
def init (T : Type*) : Config (State T) Event :=
  { state := { owner := { owner := .new .client, caller := fun _ => none }, choosenIndex := 0 }
    trace := [] }

/-- The worker that an event gives a socket to. -/
def Event.worker : Event → Option ℕ
  | .placed worker _ _ => some worker
  | _ => none

/-- The workers that the sockets of a trace have been given to, in order. -/
def placements (tr : List Event) : List ℕ := tr.filterMap Event.worker

/-- What is asked of the choice of workers. -/
structure Balanced (inet : Inet) (c : Config (State T) Event) : Prop where
  /-- A call of `tcp_connect` that gets to the choice finds as many workers as the settings say, and
  there are some. It chooses one of them. -/
  chooses : ∀ k address fd peer,
    (connectSocket inet k address c.state.owner.owner).2 = .ok (fd, peer) →
    ∃ settings, c.state.owner.owner.settings = some settings ∧
      c.state.owner.owner.workers.length = settings.workers ∧
      0 < c.state.owner.owner.workers.length ∧
      c.state.selectRuntime.1 < c.state.owner.owner.workers.length
  /-- The numbers of sockets of two workers differ by one, and by one more for each time that the
  counter has wrapped around. -/
  even : ∀ i < c.state.owner.owner.workers.length, ∀ j < c.state.owner.owner.workers.length,
    (placements c.trace).count i ≤
      (placements c.trace).count j + ((placements c.trace).length / 2 ^ 64 + 1)

/-- A step that gives no socket to a worker, such as a call of `tcp_connect` that fails, takes no
turn. -/
def TakesNoTurn [DecidableEq T] (inet : Inet) (c : Config (State T) Event) (a : Action T) : Prop :=
  ∀ c', next (machine T inet) c a = some c' → placements c'.trace = placements c.trace →
    c'.state.choosenIndex = c.state.choosenIndex

variable {inet : Inet} {k : Kernel} {address : Address} {o : Owner T}

/-! ## A call of tcp_connect -/

/-- What `from_sockaddr_in` makes of an address can be parsed. -/
theorem parse_fromSockaddrIn (inet : Inet) (beyond beyondParsed : Beyond) (reason : String)
    (socketAddress : SockaddrIn) (port : UInt16) :
    ∃ peer, Address.parse inet reason beyondParsed (fromSockaddrIn inet beyond socketAddress) port =
      .ok peer := by
  have htext : fromSockaddrIn inet beyond socketAddress =
      inet.ntop socketAddress.sinFamily (socketAddress.addr socketAddress.sinFamily beyond) := by
    unfold fromSockaddrIn
    simp only [Inet.inetNtop_eq, Option.getD_some]
  rw [htext]
  exact ⟨_, parse_of_decode (inet.decode_ntop _) reason beyondParsed port⟩

/-- The descriptor that a call of the kernel opens. -/
def SysCall.opens : SysCall → Option ℕ
  | .socket fd => some fd
  | _ => none

/-- The descriptor that it closes. -/
def SysCall.closes : SysCall → Option ℕ
  | .close fd => some fd
  | _ => none

/-- A call without a socket returns an error, and has closed what it has opened. -/
theorem connectSocket_error {failure : Failure}
    (h : (connectSocket inet k address o).2 = .error failure) :
    (∃ err, failure = .err err) ∧ (connectSocket inet k address o).1.filterMap SysCall.opens =
      (connectSocket inet k address o).1.filterMap SysCall.closes := by
  unfold connectSocket at h ⊢
  split at h
  · rw [if_pos ‹_›]
    exact ⟨⟨_, (Except.error.inj h).symm⟩, rfl⟩
  rw [if_neg ‹_›]
  split at h
  · exact ⟨⟨_, (Except.error.inj h).symm⟩, rfl⟩
  rename_i settings _
  split at h
  · exact ⟨⟨_, (Except.error.inj h).symm⟩, rfl⟩
  rename_i socketAddress _
  split at h
  · exact ⟨⟨_, (Except.error.inj h).symm⟩, rfl⟩
  rename_i fd _
  cases hconnect : k.connect with
  | false =>
    -- The descriptor is closed where `connect` has failed.
    rw [hconnect] at h
    refine ⟨⟨_, (Except.error.inj h).symm⟩, ?_⟩
    cases settings.reusePort <;> rfl
  | true =>
    -- Behind that nothing fails.
    obtain ⟨peer, hparse⟩ := parse_fromSockaddrIn inet k.beyond k.beyondParsed k.reason
      socketAddress (ntohs socketAddress.sinPort)
    rw [hconnect, hparse] at h
    cases h

/-- A call with a socket has found settings. -/
theorem connectSocket_ok {r : ℕ × Address} (h : (connectSocket inet k address o).2 = .ok r) :
    o.settings ≠ none := by
  intro hnone
  simp only [connectSocket, hnone] at h
  split at h <;> cases h

/-! ## Fairness -/

/-- The settings, the number of workers, and the turns that they have had agree. -/
structure Fair (s : State T) (tr : List Event) : Prop where
  unset : s.owner.owner.settings = none → s.owner.owner.workers = [] ∧ placements tr = []
  workers : ∀ settings, s.owner.owner.settings = some settings →
    0 < settings.workers ∧ s.owner.owner.workers.length = settings.workers
  index : s.choosenIndex.toNat = (placements tr).length % 2 ^ 64
  taken : ∀ j, (placements tr).count j =
    turns (2 ^ 64) s.owner.owner.workers.length j (placements tr).length

variable {s s' : State T} {tr es : List Event}

theorem placements_append (tr es : List Event) :
    placements (tr ++ es) = placements tr ++ placements es := List.filterMap_append

/-- A call of `tcp_connect` chooses a worker and gives it a socket, or changes nothing. -/
theorem tcpConnect_cases (h : s.tcpConnect inet k address = (s', es)) :
    (s' = s ∧ placements es = []) ∨
      (s.owner.owner.settings ≠ none ∧ s' = s.selectRuntime.2 ∧
        placements es = [s.selectRuntime.1]) := by
  have hsys : ∀ calls : List SysCall, placements (calls.map Event.sysCall) = [] := by
    intro calls
    simp [placements, List.filterMap_map, Function.comp_def, Event.worker]
  unfold State.tcpConnect at h
  split at h
  · obtain ⟨rfl, rfl⟩ := Prod.mk.inj h
    refine .inl ⟨rfl, ?_⟩
    rw [placements_append, hsys]
    rfl
  · rename_i calls fd peer hok
    obtain ⟨rfl, rfl⟩ := Prod.mk.inj h
    refine .inr ⟨connectSocket_ok (congrArg Prod.snd hok), rfl, ?_⟩
    rw [placements_append, hsys]
    rfl

/-- A choice is the turn of the one whose turn it is. -/
theorem Fair.select (h : Fair s tr) (hsettings : s.owner.owner.settings ≠ none)
    (hes : placements es = [s.selectRuntime.1]) : Fair s.selectRuntime.2 (tr ++ es) := by
  have hchoice : s.selectRuntime.1 =
      choice (2 ^ 64) s.owner.owner.workers.length (placements tr).length := by
    rw [choice, ← h.index]
    rfl
  have hlength : (placements (tr ++ es)).length = (placements tr).length + 1 := by
    rw [placements_append, hes, List.length_append, List.length_singleton]
  refine ⟨fun hnone => absurd hnone hsettings, h.workers, ?_, fun j => ?_⟩
  · rw [hlength]
    have hadd : (s.choosenIndex + 1).toNat = (s.choosenIndex.toNat + 1) % 2 ^ 64 :=
      UInt64.toNat_add ..
    rw [State.selectRuntime, hadd, h.index]
    omega
  · calc (placements (tr ++ es)).count j =
          (placements tr).count j + if s.selectRuntime.1 = j then 1 else 0 := by
          rw [placements_append, hes, List.count_append, List.count_singleton]
          simp only [beq_iff_eq]
      _ = turns (2 ^ 64) s.owner.owner.workers.length j (placements (tr ++ es)).length := by
          rw [hlength, turns_succ, ← hchoice, h.taken j]

/-- Calls of `run` and of `stop` change neither the settings nor the number of workers. -/
theorem stepState_fixed [DecidableEq T] {s s' : Owner.State T} {a : Owner.Action T}
    {es : List (Option String)} (h : Owner.stepState s a = some (s', es)) :
    s'.owner.settings = s.owner.settings ∧
      s'.owner.workers.length = s.owner.workers.length := by
  cases a with
  | run t | stop t =>
    obtain ⟨-, h⟩ := Option.ite_none_right_eq_some.1 h
    obtain ⟨rfl, -⟩ := Prod.mk.inj (Option.some.inj h)
    exact ⟨rfl, rfl⟩
  | go t =>
    obtain ⟨⟨o, nx⟩, ho, hres⟩ := Option.map_eq_some_iff.1 h
    obtain ⟨pc, -, hstep⟩ := Option.bind_eq_some_iff.1 ho
    obtain ⟨rfl, -⟩ := Prod.mk.inj hres
    exact (Owner.step_cases hstep).fixed
  | loop k i =>
    obtain ⟨⟨r, read⟩, -, hres⟩ := Option.map_eq_some_iff.1 h
    obtain ⟨rfl, -⟩ := Prod.mk.inj hres
    exact ⟨rfl, List.length_set⟩

/-- A step that changes neither the settings nor the number of workers, and takes no turn. -/
theorem Fair.same (h : Fair s tr) (hsettings : s'.owner.owner.settings = s.owner.owner.settings)
    (hlength : s'.owner.owner.workers.length = s.owner.owner.workers.length)
    (hindex : s'.choosenIndex = s.choosenIndex) (hes : placements es = []) :
    Fair s' (tr ++ es) := by
  have hplacements : placements (tr ++ es) = placements tr := by
    rw [placements_append, hes, List.append_nil]
  refine ⟨fun hnone => ?_, fun settings hsome => ?_, ?_, fun j => ?_⟩
  · obtain ⟨hworkers, hnothing⟩ := h.unset (hsettings ▸ hnone)
    rw [hworkers] at hlength
    exact ⟨List.eq_nil_of_length_eq_zero hlength, hplacements.trans hnothing⟩
  · rw [hlength]
    exact h.workers settings (hsettings ▸ hsome)
  · rw [hindex, hplacements]
    exact h.index
  · rw [hlength, hplacements]
    exact h.taken j

/-- `with_settings` makes as many workers as the settings say, once. -/
theorem Fair.withSettings (h : Fair s tr) (settings : Settings) (hes : placements es = []) :
    Fair { s with owner := { s.owner with
      owner := (s.owner.owner.withSettings settings).1 } } (tr ++ es) := by
  unfold Owner.withSettings
  split
  · exact h.same rfl rfl rfl hes
  split
  · exact h.same rfl rfl rfl hes
  rename_i hset
  obtain ⟨hworkers, hnothing⟩ := h.unset (by simpa using hset)
  split
  · exact h.same rfl rfl rfl hes
  -- There were no workers, and no socket has been given to one.
  rename_i hvalid
  have hplacements : placements (tr ++ es) = [] := by
    rw [placements_append, hes, hnothing, List.append_nil]
  have hindex := h.index
  rw [hnothing] at hindex
  refine ⟨(nomatch ·), fun settings' hsettings => ?_, ?_, fun j => ?_⟩
  · obtain rfl := Option.some.inj hsettings
    have hpos : ¬ settings.workers < 1 := by
      intro hlt
      rw [Settings.validate, if_pos hlt] at hvalid
      cases hvalid
    refine ⟨by omega, ?_⟩
    simp only [hworkers, List.nil_append, List.length_replicate]
  · rw [hplacements]
    exact hindex
  · rw [hplacements, List.count_nil, List.length_nil, turns_zero]

/-- Every step keeps the choice fair. -/
theorem Fair.step [DecidableEq T] {a : Action T} (h : Fair s tr)
    (hs : State.step inet s a = some (s', es)) : Fair s' (tr ++ es) := by
  cases a with
  | owner a =>
    obtain ⟨⟨o, es'⟩, ho, hres⟩ := Option.map_eq_some_iff.1 hs
    obtain ⟨rfl, rfl⟩ := Prod.mk.inj hres
    obtain ⟨hsettings, hlength⟩ := stepState_fixed ho
    refine h.same hsettings hlength rfl ?_
    simp [placements, List.filterMap_map, Function.comp_def, Event.worker]
  | withSettings t settings =>
    obtain ⟨-, hs⟩ := Option.ite_none_right_eq_some.1 hs
    obtain ⟨rfl, rfl⟩ := Prod.mk.inj (Option.some.inj hs)
    exact h.withSettings settings rfl
  | tcpConnect t address k =>
    obtain ⟨-, hs⟩ := Option.ite_none_right_eq_some.1 hs
    rcases tcpConnect_cases (Option.some.inj hs) with ⟨rfl, hes⟩ | ⟨hsettings, rfl, hes⟩
    · exact h.same rfl rfl rfl hes
    · exact h.select hsettings hes

/-- A fair choice is a balanced one. -/
theorem Fair.balanced {c : Config (State T) Event} (h : Fair c.state c.trace) :
    Balanced inet c where
  chooses := by
    intro k address fd peer hok
    obtain ⟨settings, hsettings⟩ := Option.ne_none_iff_exists'.1 (connectSocket_ok hok)
    obtain ⟨hpos, hlength⟩ := h.workers settings hsettings
    have hworkers : 0 < c.state.owner.owner.workers.length := by omega
    exact ⟨settings, hsettings, hlength, hworkers, Nat.mod_lt _ hworkers⟩
  even := by
    intro i hi j hj
    rw [h.taken i, h.taken j]
    exact turns_le (by norm_num) hi hj

/-- In every run of a client, whatever succeeds or fails in it, `tcp_connect` finds the workers that
the settings ask for and chooses one of them, the sockets are spread evenly, and a call that fails
takes no turn. -/
theorem balanced_always [DecidableEq T] (inet : Inet) (as : List (Action T)) :
    Always (machine T inet) (Balanced inet) (init T) as ∧
      Steps (machine T inet) (TakesNoTurn inet) (init T) as := by
  constructor
  · refine always_of_reachable (fun c hc => ?_) .refl
    have hfair : Fair c.state c.trace :=
      hc.invariant_step (I := fun s tr => Fair s tr)
        ⟨fun _ => ⟨rfl, rfl⟩, fun settings => (nomatch ·), rfl, fun j => rfl⟩
        fun _ _ _ _ _ hI _ hs => hI.step hs
    exact hfair.balanced
  · refine steps_of_forall fun c a c' hn hplacements => ?_
    obtain ⟨s', es, hs, rfl⟩ := next_eq_some _ hn
    have hes : placements es = [] := by
      rw [placements_append] at hplacements
      exact List.append_right_eq_self.1 hplacements
    cases a with
    | owner a =>
      obtain ⟨⟨o, es'⟩, -, hres⟩ := Option.map_eq_some_iff.1 hs
      obtain ⟨rfl, -⟩ := Prod.mk.inj hres
      rfl
    | withSettings t settings =>
      obtain ⟨-, hs⟩ := Option.ite_none_right_eq_some.1 hs
      obtain ⟨rfl, -⟩ := Prod.mk.inj (Option.some.inj hs)
      rfl
    | tcpConnect t address k =>
      obtain ⟨-, hs⟩ := Option.ite_none_right_eq_some.1 hs
      rcases tcpConnect_cases (Option.some.inj hs) with ⟨rfl, -⟩ | ⟨-, -, hchosen⟩
      · rfl
      · rw [hes] at hchosen
        cases hchosen

/-- A kernel that gives out descriptor 7. -/
def plainKernel (connect : Bool) : Kernel :=
  { socket := some 7, connect := connect, reason := "Connection refused"
    beyond := fun _ => 0, beyondParsed := fun _ => 0 }

/-- A client with two workers connects four times, of which the second fails. -/
example : ∃ c, run (machine (Fin 1) plainInet) (init (Fin 1))
      (.withSettings 0 ⟨2, false⟩ :: .owner (.run 0) :: List.replicate 14 (.owner (.go 0)) ++
        [true, false, true, true].map fun connect =>
          .tcpConnect 0 ⟨.IPV4, "127.0.0.1", 80⟩ (plainKernel connect)) = some c ∧
    placements c.trace = [0, 1, 0] :=
  ⟨_, rfl, rfl⟩

end Spinet.Client
