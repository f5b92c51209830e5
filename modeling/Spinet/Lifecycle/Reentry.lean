import Spinet.Lifecycle.Owner

/-!
# Calls of a server or client from its own callbacks

A callback runs on a thread of a worker, inside `exec`, and may call what its server or client
offers: `tcp_connect`, `has_settings`, `listen_tcp_endpoint`, and `with_settings` all take `mtx_`.
`stop` keeps `mtx_` while it joins the threads of the workers one after another, and a thread that
waits for `mtx_` in a callback does not end.

`stop_deadlock_free` says which runs are free of this: those in which a `stop` does not go on to the
workers while a callback waits for `mtx_`, and in which no callback begins such a call while a
`stop` has its worker still to join. The invariant is that no callback of a worker that a `stop` has
still to join waits for `mtx_`.

What the calls do with sockets and workers past their tests does not show here; the kernel and the
workers only choose what they return.
-/

namespace Spinet.Reentry

open Transition

/-- A thread: of the user, or thread `i` of worker `k`. -/
inductive Thread (T : Type*)
  | user (t : T)
  | worker (k i : ℕ)
deriving DecidableEq, Repr

/-- What takes `mtx_` beside `run` and `stop`. -/
inductive Op
  /-- `Client::tcp_connect`. -/
  | tcpConnect
  /-- `Server::has_settings`. -/
  | hasSettings
  /-- `Server::listen_tcp_endpoint`. -/
  | listenTcpEndpoint
  /-- `with_settings` of both. -/
  | withSettings (settings : Settings)
deriving DecidableEq, Repr

/-- Which of the two have it. -/
def Op.offeredBy : Op → OwnerKind → Bool
  | .tcpConnect, kind => kind == .client
  | .hasSettings, kind => kind == .server
  | .listenTcpEndpoint, kind => kind == .server
  | .withSettings _, _ => true

/-- What a call returns: an error if there is one, or what `has_settings` found. -/
inductive Answer
  | done (err : Option String)
  | found (settings : Bool)
deriving DecidableEq, Repr

/-- The section of `mtx_`, and what is returned then. `rest` is what comes of the system calls and
of the registration past the tests, if these are passed. -/
def Op.inSection {U : Type*} (o : Owner U) (rest : Option String) : Op → Owner U × Answer
  | .tcpConnect =>
    (o, .done (if !o.running then some "client is not running"
      else if o.settings.isNone then some "settings has been not set" else rest))
  | .hasSettings => (o, .found o.settings.isSome)
  | .listenTcpEndpoint =>
    (o, .done (if o.running then some "server has been running"
      else if o.settings.isNone then some "settings has been not set" else rest))
  | .withSettings settings => ((o.withSettings settings).1, .done (o.withSettings settings).2)

/-- Where such a call stands. -/
inductive OpPc
  /-- About to lock `mtx_`. -/
  | lock
  /-- In the section. -/
  | body
  /-- In the section, about to return. -/
  | unlock (answer : Answer)
deriving DecidableEq, Repr

/-- A call in progress. -/
inductive Call
  /-- `run` or `stop`. -/
  | life (pc : OwnerPc)
  /-- Another one. -/
  | op (op : Op) (pc : OpPc)
deriving DecidableEq, Repr

/-- The state: the owner, and the call that every thread is in. -/
structure State (T : Type*) where
  /-- The owner. -/
  owner : Owner (Thread T)
  /-- The call that each thread is in. -/
  call : Thread T → Option Call

/-- A step of the system. -/
inductive Action (T : Type*)
  /-- A thread of the user calls `run`. -/
  | run (t : T)
  /-- A thread of the user calls `stop`. -/
  | stop (t : T)
  /-- A thread makes another call; that of a worker makes it from a callback. -/
  | begin (u : Thread T) (op : Op)
  /-- The call of a thread takes a step; `rest` is as for `Op.inSection`. -/
  | go (u : Thread T) (rest : Option String)
  /-- Thread `i` of worker `k` takes a step in `exec`. -/
  | loop (k i : ℕ)
deriving DecidableEq, Repr

variable {T : Type*}

/-- Whether a thread of the worker can be in a callback: sockets are served in the body of the loop,
and closed when the handles are released. -/
def runsCallbacks : LoopPc → Bool
  | .body | .release => true
  | _ => false

/-- Whether a thread can make a call: it is in none, and that of a worker is in a callback. -/
def State.canCall (s : State T) (u : Thread T) : Bool :=
  (s.call u).isNone &&
    match u with
    | .user _ => true
    | .worker k i => (s.owner.workers[k]?.bind fun r => r.loops[i]?).any runsCallbacks

variable [DecidableEq T]

/-- The state once a thread is in another call, or in none. -/
def State.setCall (s : State T) (u : Thread T) (call : Option Call) : State T :=
  { s with call := Function.update s.call u call }

/-- A step of `run` or `stop`. -/
def goLife (s : State T) (u : Thread T) (pc : OwnerPc) : Option (State T × List Answer) :=
  (s.owner.step u pc).map fun (o, nx) =>
    match nx with
    | .goto pc' => ({ s with owner := o }.setCall u (some (.life pc')), [])
    | .ret err => ({ s with owner := o }.setCall u none, [.done err])

/-- A step of another call. -/
def goOp (s : State T) (u : Thread T) (rest : Option String) (op : Op) :
    OpPc → Option (State T × List Answer)
  | .lock =>
    if s.owner.mtx.isNone then
      some ({ s with owner := { s.owner with mtx := some u } }.setCall u (some (.op op .body)), [])
    else none
  | .body =>
    let (o, answer) := op.inSection s.owner rest
    some ({ s with owner := o }.setCall u (some (.op op (.unlock answer))), [])
  | .unlock answer =>
    some ({ s with owner := { s.owner with mtx := none } }.setCall u none, [answer])

/-- The step of an action. A call that returns emits what it returns. -/
def step (s : State T) : Action T → Option (State T × List Answer)
  | .run t =>
    if s.canCall (.user t) then some (s.setCall (.user t) (some (.life .runCas)), []) else none
  | .stop t =>
    if s.canCall (.user t) then some (s.setCall (.user t) (some (.life .stopLock)), []) else none
  | .begin u op =>
    if s.canCall u && op.offeredBy s.owner.kind then
      some (s.setCall u (some (.op op .lock)), [])
    else none
  | .go u rest =>
    match s.call u with
    | some (.life pc) => goLife s u pc
    | some (.op op pc) => goOp s u rest op pc
    | none => none
  | .loop k i =>
    if (s.call (.worker k i)).isNone then
      ((s.owner.workers[k]?).bind fun r => r.loopStep i).map fun (r, _) =>
        ({ s with owner := s.owner.setWorker k r }, [])
    else none

/-- The machine of one owner. -/
def machine (T : Type*) [DecidableEq T] : Machine (State T) (Action T) Answer := ⟨step⟩

/-- A new owner, with no call in progress. -/
def init (T : Type*) (kind : OwnerKind) : Config (State T) Answer :=
  { state := { owner := .new kind, call := fun _ => none }, trace := [] }

/-- `stop` waits for a thread of a worker to end, with `mtx_`, and that thread waits for `mtx_`. -/
def Deadlock (s : State T) : Prop :=
  ∃ t k i op, s.owner.mtx = some (.user t) ∧
    s.call (.user t) = some (.life (.stopWorker k .join)) ∧
    (s.owner.workers[k]?.bind fun r => r.runtimeThread) = some i ∧
    s.call (.worker k i) = some (.op op .lock)

/-- How many threads worker `k` has started. -/
def State.threads (s : State T) (k : ℕ) : ℕ := (s.owner.workers[k]?.map (·.loops.length)).getD 0

/-- Whether a thread waits for `mtx_` in a call other than `run` and `stop`. -/
def waits : Option Call → Bool
  | some (.op _ .lock) => true
  | _ => false

/-- Whether a thread is in a `stop` that has worker `j` still to join. -/
def stopsWorker (j : ℕ) : Option Call → Bool
  | some (.life (.stopWorker k _)) => decide (k ≤ j)
  | _ => false

/-- The condition on a step: a `stop` does not go on to the workers while a callback waits for
`mtx_`, and a callback begins no call while a `stop` has its worker still to join. -/
def Apart (c : Config (State T) Answer) : Action T → Prop
  | .go u _ => c.state.call u = some (.life .stopTest) → c.state.owner.running = true →
      ∀ k < c.state.owner.workers.length, ∀ i < c.state.threads k,
        waits (c.state.call (.worker k i)) = false
  | .begin (.worker j _) _ => ∀ t, stopsWorker j (c.state.call (.user t)) = false
  | _ => True

instance [Fintype T] (c : Config (State T) Answer) (a : Action T) : Decidable (Apart c a) := by
  unfold Apart
  split <;> infer_instance

/-! ## Who waits for whom -/

/-- An owner that has started at least the threads of another. -/
def Grows (o o' : Owner (Thread T)) : Prop :=
  ∀ (k : ℕ) (r : Runtime (Thread T)), o.workers[k]? = some r →
    ∃ r' : Runtime (Thread T), o'.workers[k]? = some r' ∧ r.loops.length ≤ r'.loops.length

/-- What holds of the owner and the calls. -/
structure Inv (s : State T) : Prop where
  /-- Only threads that have been started are in a call. -/
  started : ∀ k i, s.call (.worker k i) ≠ none →
    ∃ r : Runtime (Thread T), s.owner.workers[k]? = some r ∧ i < r.loops.length
  /-- A callback that waits for `mtx_` is not one of a worker that a `stop` has still to join. -/
  apart : ∀ t j i, stopsWorker j (s.call (.user t)) = true → waits (s.call (.worker j i)) = false

omit [DecidableEq T] in
/-- An owner has started its own threads. -/
theorem Grows.refl (o : Owner (Thread T)) : Grows o o := fun _ r h => ⟨r, h, Nat.le_refl _⟩

omit [DecidableEq T] in
/-- Replacing a worker by one that has started at least its threads. -/
theorem grows_setWorker {o : Owner (Thread T)} {k : ℕ} {r r' : Runtime (Thread T)}
    (hk : o.workers[k]? = some r) (hle : r.loops.length ≤ r'.loops.length) :
    Grows o (o.setWorker k r') := by
  intro j x hj
  have hlt : k < o.workers.length := (List.getElem?_eq_some_iff.1 hk).1
  rcases eq_or_ne k j with rfl | hne
  · obtain rfl : r = x := Option.some.inj (hk.symm.trans hj)
    exact ⟨r', by simp [Owner.setWorker, hlt], hle⟩
  · exact ⟨x, by simpa [Owner.setWorker, hne] using hj, Nat.le_refl _⟩

omit [DecidableEq T] in
/-- No step of `run` or `stop` takes a thread away. -/
theorem grows_of_move {o o' : Owner (Thread T)} {u : Thread T} {pc : OwnerPc} {nx : Option OwnerPc}
    (h : Owner.Move o u pc o' nx) : Grows o o' := by
  cases h with
  | runWorker hk hs | runStarted hk hs | runFailed hk hs =>
    refine grows_setWorker hk ?_
    cases hs <;> simp
  | stopWorker hk hs | stopStopped hk hs =>
    refine grows_setWorker hk ?_
    cases hs <;> simp
  | _ => exact .refl _

omit [DecidableEq T] in
/-- Nor does one of a thread. -/
theorem grows_of_loop {o : Owner (Thread T)} {k i : ℕ} {r r' : Runtime (Thread T)}
    {read : Option Bool} (hk : o.workers[k]? = some r) (hs : r.loopStep i = some (r', read)) :
    Grows o (o.setWorker k r') := by
  refine grows_setWorker hk ?_
  cases Runtime.loopStep_cases hs <;> simp

omit [DecidableEq T] in
/-- Nor does a section. -/
theorem grows_inSection (o : Owner (Thread T)) (rest : Option String) (op : Op) :
    Grows o (op.inSection o rest).1 := by
  cases op with
  | withSettings settings =>
    intro k r hk
    refine ⟨r, ?_, Nat.le_refl _⟩
    have hlt : k < o.workers.length := (List.getElem?_eq_some_iff.1 hk).1
    simp only [Op.inSection, Owner.withSettings]
    split_ifs
    · exact hk
    · exact hk
    · split
      · exact hk
      · rw [List.getElem?_append_left hlt]
        exact hk
  | _ => exact .refl o

@[simp] theorem setCall_owner (s : State T) (u : Thread T) (call : Option Call) :
    (s.setCall u call).owner = s.owner := rfl

@[simp] theorem setCall_call (s : State T) (u v : Thread T) (call : Option Call) :
    (s.setCall u call).call v = if v = u then call else s.call v := by
  simp [State.setCall, Function.update_apply]

/-- A thread moves on, and the owner grows: the thread had been started if it goes on in a call, it
waits only if it did or no `stop` has its worker to join, and it has only those workers to join that
it had before, or no callback waits. -/
theorem Inv.move {s : State T} (h : Inv s) {o : Owner (Thread T)} {u : Thread T}
    {call : Option Call} (hgrows : Grows s.owner o)
    (hstarted : ∀ k i, u = .worker k i → call ≠ none →
      ∃ r : Runtime (Thread T), s.owner.workers[k]? = some r ∧ i < r.loops.length)
    (hwaits : ∀ k i, u = .worker k i → waits call = true → waits (s.call u) = true ∨
      ∀ t, stopsWorker k (s.call (.user t)) = false)
    (hstops : ∀ t j, u = .user t → stopsWorker j call = true → stopsWorker j (s.call u) = true ∨
      ∀ k i, waits (s.call (.worker k i)) = false) :
    Inv ({ s with owner := o }.setCall u call) := by
  constructor
  · intro k i hcall
    obtain ⟨r, hk, hlt⟩ : ∃ r : Runtime (Thread T),
        s.owner.workers[k]? = some r ∧ i < r.loops.length := by
      rw [setCall_call] at hcall
      split at hcall
      · exact hstarted k i (by rename_i heq; exact heq.symm) hcall
      · exact h.started k i hcall
    obtain ⟨r', hk', hle⟩ := hgrows k r hk
    exact ⟨r', hk', Nat.lt_of_lt_of_le hlt hle⟩
  · intro t j i hstop
    rw [setCall_call] at hstop ⊢
    split at hstop
    · -- The thread is that of the `stop`, so it is not that of the callback.
      rename_i hu
      rw [if_neg (by rw [← hu]; simp)]
      rcases hstops t j hu.symm hstop with hold | hnone
      · exact h.apart t j i (hu ▸ hold)
      · exact hnone j i
    · split
      · rename_i hu
        by_contra hwait
        rcases hwaits j i hu.symm (by simpa using hwait) with hold | hnone
        · rw [← hu, h.apart t j i hstop] at hold
          cases hold
        · rw [hnone t] at hstop
          cases hstop
      · exact h.apart t j i hstop

omit [DecidableEq T] in
/-- A step of `run` or `stop`: of those that lead to a worker of a `stop`, one comes from its test,
and the others from that worker or one before it. -/
theorem stopsWorker_of_move {o o' : Owner (Thread T)} {u : Thread T} {pc : OwnerPc}
    {nx : Option OwnerPc} {j : ℕ} (h : Owner.Move o u pc o' nx)
    (hstops : stopsWorker j (nx.map .life) = true) :
    stopsWorker j (some (.life pc)) = true ∨ (pc = .stopTest ∧ o.running = true) := by
  cases h with
  | stopTest hon => exact .inr ⟨rfl, hon⟩
  | stopWorker hk hs => exact .inl hstops
  | @stopStopped k pc r r' u hk hs =>
    refine .inl ?_
    unfold Owner.nextStop at hstops
    split at hstops
    · have hle : k + 1 ≤ j := by simpa [stopsWorker] using hstops
      exact decide_eq_true (by omega)
    · cases hstops
  | runSettings | runStarted =>
    unfold Owner.nextRun at hstops
    split at hstops <;> cases hstops
  | _ => cases hstops

/-- Every step under the condition keeps the invariant. -/
theorem Inv.step {c : Config (State T) Answer} {a : Action T} {s' : State T} {es : List Answer}
    (h : Inv c.state) (hC : Apart c a) (hs : (machine T).step c.state a = some (s', es)) :
    Inv s' := by
  cases a with
  | run t | stop t =>
    simp only [machine, Reentry.step, Option.ite_none_right_eq_some, Option.some.injEq,
      Prod.mk.injEq] at hs
    obtain ⟨-, rfl, -⟩ := hs
    exact h.move (.refl _) (fun k i hu => by cases hu) (fun k i hu => by cases hu)
      fun _ _ _ hstops => by cases hstops
  | begin u op =>
    simp only [machine, Reentry.step, Option.ite_none_right_eq_some, Option.some.injEq,
      Prod.mk.injEq, Bool.and_eq_true] at hs
    obtain ⟨⟨hcan, -⟩, rfl, -⟩ := hs
    refine h.move (.refl _) ?_ ?_ fun _ _ _ hstops => by cases hstops
    · rintro k i rfl -
      -- It is in a callback, so it has been started.
      simp only [State.canCall, Bool.and_eq_true, Option.any_eq_true,
        Option.bind_eq_some_iff] at hcan
      obtain ⟨-, pc, ⟨r, hk, hi⟩, -⟩ := hcan
      exact ⟨r, hk, (List.getElem?_eq_some_iff.1 hi).1⟩
    · rintro k i rfl -
      exact .inr hC
  | go u rest =>
    simp only [machine, Reentry.step] at hs
    split at hs
    · rename_i pc hpc
      obtain ⟨⟨o, nx⟩, hr, hres⟩ := Option.map_eq_some_iff.1 hs
      have hmove := Owner.step_cases hr
      have hs' : s' = { c.state with owner := o }.setCall u ((Owner.toPc nx).map .life) := by
        cases nx <;> exact (Prod.mk.inj hres).1.symm
      subst hs'
      refine h.move (grows_of_move hmove) ?_ ?_ ?_
      · rintro k i rfl -
        exact h.started k i (by rw [hpc]; simp)
      · intro k i _ hwaits
        cases nx <;> cases hwaits
      · intro t j _ hstops
        rcases stopsWorker_of_move hmove hstops with hold | ⟨rfl, hon⟩
        · exact .inl (by rwa [hpc])
        · refine .inr fun k i => ?_
          by_contra hwait
          obtain ⟨r, hk, hlt⟩ := h.started k i fun hnone => by simp [hnone, waits] at hwait
          refine hwait (hC hpc hon k (List.getElem?_eq_some_iff.1 hk).1 i ?_)
          rw [State.threads, hk]
          exact hlt
    · rename_i op pc hpc
      have hstarted : ∀ k i, u = .worker k i → ∃ r : Runtime (Thread T),
          c.state.owner.workers[k]? = some r ∧ i < r.loops.length := by
        rintro k i rfl
        exact h.started k i (by rw [hpc]; simp)
      cases pc with
      | lock =>
        obtain ⟨-, hs⟩ := Option.ite_none_right_eq_some.1 hs
        obtain ⟨rfl, -⟩ := Prod.mk.inj (Option.some.inj hs)
        exact h.move (.refl _) (fun k i hu _ => hstarted k i hu) (fun _ _ _ hw => by cases hw)
          fun _ _ _ hstops => by cases hstops
      | body =>
        obtain ⟨rfl, -⟩ := Prod.mk.inj (Option.some.inj hs)
        exact h.move (grows_inSection _ rest op) (fun k i hu _ => hstarted k i hu)
          (fun _ _ _ hw => by cases hw) fun _ _ _ hstops => by cases hstops
      | unlock answer =>
        obtain ⟨rfl, -⟩ := Prod.mk.inj (Option.some.inj hs)
        exact h.move (.refl _) (fun k i hu _ => hstarted k i hu) (fun _ _ _ hw => by cases hw)
          fun _ _ _ hstops => by cases hstops
    · cases hs
  | loop k i =>
    obtain ⟨-, hs⟩ := Option.ite_none_right_eq_some.1 hs
    simp only [Option.map_eq_some_iff, Option.bind_eq_some_iff, Prod.mk.injEq] at hs
    obtain ⟨⟨r', read⟩, ⟨r, hk, hr⟩, rfl, -⟩ := hs
    refine ⟨fun j i' hcall => ?_, h.apart⟩
    obtain ⟨x, hj, hlt⟩ := h.started j i' hcall
    obtain ⟨x', hj', hle⟩ := grows_of_loop hk hr j x hj
    exact ⟨x', hj', Nat.lt_of_lt_of_le hlt hle⟩

omit [DecidableEq T] in
/-- While the invariant holds, no `stop` waits for a thread that waits for `mtx_`. -/
theorem Inv.not_deadlock {s : State T} (h : Inv s) : ¬ Deadlock s := by
  rintro ⟨t, k, i, op, -, hstop, -, hwait⟩
  have hapart := h.apart t k i (by rw [hstop]; exact decide_eq_true (Nat.le_refl k))
  rw [hwait] at hapart
  cases hapart

/-- Along every run in which no `stop` goes on to the workers while a callback waits for `mtx_`, and
no callback begins a call while a `stop` has its worker still to join, `stop` never waits for a
thread that waits for `mtx_`. -/
theorem stop_deadlock_free (kind : OwnerKind) (as : List (Action T))
    (h : Steps (machine T) Apart (init T kind) as) :
    Always (machine T) (fun c => ¬ Deadlock c.state) (init T kind) as := by
  refine always_of_reachVia (fun c hc => ?_) .refl h
  refine Inv.not_deadlock (hc.invariant (I := fun c => Inv c.state) ?_ ?_)
  · exact ⟨fun k i hcall => absurd rfl hcall, fun t j i hstop => by cases hstop⟩
  · intro c a c' hI hC hn
    obtain ⟨s', es, hs, rfl⟩ := next_eq_some _ hn
    exact hI.step hC hs

/-- A client is configured and run, and its thread gets into the body of its loop. -/
def running {T : Type*} (t : T) : List (Action T) :=
  [.begin (.user t) (.withSettings ⟨1, false⟩)] ++ List.replicate 3 (.go (.user t) none) ++
    [.run t] ++ List.replicate 9 (.go (.user t) none) ++ List.replicate 2 (.loop 0 0)

/-- A callback connects, and then the client is stopped. -/
def connectThenStop {T : Type*} (t : T) : List (Action T) :=
  running t ++ [.begin (.worker 0 0) .tcpConnect] ++ List.replicate 3 (.go (.worker 0 0) none) ++
    [.stop t] ++ List.replicate 6 (.go (.user t) none) ++ List.replicate 4 (.loop 0 0) ++
    List.replicate 4 (.go (.user t) none)

theorem stop_deadlock_free_connectThenStop :
    (∃ c, run (machine (Fin 1)) (init (Fin 1) .client) (connectThenStop 0) = some c ∧
      c.trace = List.replicate 4 (.done none) ∧ c.state.owner.running = false) ∧
      Always (machine (Fin 1)) (fun c => ¬ Deadlock c.state) (init (Fin 1) .client)
        (connectThenStop 0) :=
  ⟨⟨_, rfl, by decide, rfl⟩, stop_deadlock_free .client (connectThenStop 0) (by decide)⟩

/-- The client is being stopped when a callback wants to connect. `stop` waits for the thread of the
callback, which waits for `mtx_`, and neither can take a step. -/
theorem connect_during_stop :
    ∃ c, run (machine (Fin 1)) (init (Fin 1) .client) (running 0 ++ [.stop 0] ++
        List.replicate 4 (.go (.user 0) none) ++ [.begin (.worker 0 0) .tcpConnect] ++
        List.replicate 2 (.go (.user 0) none)) = some c ∧ Deadlock c.state ∧
      ∀ rest, step c.state (.go (.user 0) rest) = none ∧
        step c.state (.go (.worker 0 0) rest) = none ∧ step c.state (.loop 0 0) = none := by
  refine ⟨_, rfl, ⟨0, 0, 0, .tcpConnect, rfl, rfl, rfl, rfl⟩, fun rest => ⟨rfl, rfl, rfl⟩⟩

end Spinet.Reentry
