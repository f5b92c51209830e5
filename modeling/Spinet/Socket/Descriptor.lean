import Spinet.Socket.Buffers

/-!
# The descriptor after `close`

`do_read` and `do_write` test `closed_` in the section of their mutex and make the system call after
it. `close` sets `closed_` and calls `::close(fd_)` without that mutex, so it can do both in
between, and the system call then goes to whatever has been given the number since.

That is the only way (`onOwn_always`): if no section is between its test and its system call, with
an operation to serve, when `::close(fd_)` is called, then no `recv` or `send` follows it. And it is
a way whenever it is open (`raced_breaks`): the section can go on at once.
-/

namespace Spinet.Socket

open Transition Stacks

variable {T : Type*}

/-- Every `recv` and `send` was executed on the socket's own connection, before `::close(fd_)`. -/
def OnOwn (c : Config (State T) Event) : Prop :=
  Allowed (OfIo fun past _ _ desc => .sysClose ∉ past ∧ desc = .own) c.trace

/-- The condition on a step: if it calls `::close(fd_)`, no section is between its test of `closed_`
and its system call, unless it has no operation to serve. -/
def Unraced (c : Config (State T) Event) : Action T → Prop
  | .thread t (.go _) => (c.state.stack t).head? = some (.close .sysClose) →
    ∀ u d, .doIo d .exec ∈ c.state.stack u → c.state.sock.queue d = []
  | _ => True

instance : Fintype Dir := ⟨{.read, .write}, fun d => by cases d <;> simp⟩

instance [Fintype T] (c : Config (State T) Event) (a : Action T) : Decidable (Unraced c a) := by
  unfold Unraced
  split <;> infer_instance

/-! ## Steps -/

section Steps

variable {sh sh' : Shared T} {t : T} {f : Frame} {fs : List Frame} {es : List Event}

/-- Only the step of `close` calls `::close(fd_)`. -/
theorem Advance.sysClose (h : Advance sh t f fs sh' es) (he : .sysClose ∈ es) :
    f = .close .sysClose ∧ sh'.sock = sh.sock := by
  cases h with
  | closeSys => exact ⟨rfl, rfl⟩
  | cancelClear => simp [clearEvents] at he
  | @ioExec d task op _ reply =>
    rcases exec_logIo task d op sh.desc reply sh.sock.fd with hw | hw <;> simp [hw] at he
  | _ => simp at he

/-- What is under `fd_` stays until `::close(fd_)`. -/
theorem Advance.desc (h : Advance sh t f fs sh' es) : sh'.desc = sh.desc ∨ .sysClose ∈ es := by
  cases h <;> simp

/-- A section goes on to its system call only if it has found the socket open. -/
theorem Advance.exec {d : Dir} (h : Advance sh t f fs sh' es) (hg : .doIo d .exec ∈ fs) :
    sh.sock.closed = false := by
  cases h <;> simp_all

end Steps

variable [DecidableEq T] {rt : T} {s s' : State T} {es : List Event} {c : Config (State T) Event}

/-- The action that calls `::close(fd_)`. -/
theorem sysClose_action {a : Action T} (h : (machine rt).step s a = some (s', es))
    (he : .sysClose ∈ es) :
    ∃ t reply, a = .thread t (.go reply) ∧ (s.stack t).head? = some (.close .sysClose) := by
  cases a with
  | thread t ch =>
    cases ch with
    | call call =>
      simp only [machine, step, Option.ite_none_right_eq_some, Option.some.injEq,
        Prod.mk.injEq] at h
      simp [← h.2.2] at he
    | ret =>
      simp only [machine, step] at h
      split at h <;> simp at h
      simp [h.2] at he
    | go reply =>
      simp only [machine, step] at h
      split at h
      case h_2 => simp at h
      rename_i f rest hst
      simp only [Option.map_eq_some_iff, Prod.mk.injEq] at h
      obtain ⟨⟨fs, sh, es'⟩, hadv, -, rfl⟩ := h
      obtain ⟨rfl, -⟩ := (advance_cases hadv).sysClose he
      exact ⟨t, reply, rfl, by rw [hst]; rfl⟩
  | reuse conn =>
    simp only [machine, step, Option.ite_none_right_eq_some, Option.some.injEq, Prod.mk.injEq] at h
    simp [← h.2.2] at he

/-! ## Runs without the race -/

/-- What holds along a run in which no section is between its test and its system call when
`::close(fd_)` is called. -/
structure Owned (c : Config (State T) Event) : Prop where
  /-- Until `::close(fd_)` the number stands for the socket's connection. -/
  own : .sysClose ∉ c.trace → c.state.desc = .own
  /-- After it the socket is closed. -/
  closed : .sysClose ∈ c.trace → c.state.sock.closed = true
  /-- After it a section that found the socket open has no operation to serve. -/
  idle : .sysClose ∈ c.trace → ∀ t d, .doIo d .exec ∈ c.state.stack t →
    c.state.sock.queue d = []
  /-- No system call was executed after it. -/
  io : OnOwn c

/-- Every step under the condition keeps this. -/
theorem Owned.step {a : Action T} (hI : Inv c.state) (hC : Closing c) (h : Owned c)
    (hrace : Unraced c a) (hstep : (machine rt).step c.state a = some (s', es)) :
    Owned ⟨s', c.trace ++ es⟩ := by
  have hs := step_cases hstep
  -- When `::close(fd_)` is called, every section past its test is idle.
  have hnow : .sysClose ∈ es → ∀ u d, .doIo d .exec ∈ c.state.stack u →
      c.state.sock.queue d = [] := by
    intro he
    obtain ⟨t, reply, rfl, hhead⟩ := sysClose_action hstep he
    exact hrace hhead
  -- Only a `close` past its exchange calls it, so no section finds the socket open from then on.
  have hclosing : .sysClose ∈ c.trace ++ es → c.state.sock.closed = true := by
    intro he
    rcases List.mem_append.1 he with he | he
    · exact h.closed he
    · obtain ⟨t, f, rest, fs, hst, ha⟩ := hs.event_cases he
      obtain ⟨rfl, -⟩ := ha.sysClose he
      exact hC.closed t _ (top_mem hst) rfl
  refine ⟨?_, fun he => hs.closed (hclosing he), ?_, ?_⟩
  · intro he
    obtain ⟨htr, hes⟩ : .sysClose ∉ c.trace ∧ .sysClose ∉ es := by simpa using he
    cases hs with
    | go hst ha => exact (ha.desc.resolve_right hes).trans (h.own htr)
    | reuse conn hd =>
      rw [h.own htr] at hd
      cases hd
    | _ => exact h.own htr
  · intro he
    have hidle : ∀ u d, .doIo d .exec ∈ c.state.stack u → c.state.sock.queue d = [] := by
      rcases List.mem_append.1 he with he | he
      · exact h.idle he
      · exact hnow he
    have hframes := frames_step c.trace
      (I := fun sh _ f => ∀ d, f = .doIo d .exec → sh.sock.queue d = [])
      (fun t f hf d hfd => hidle t d (hfd ▸ hf)) hs ?_ ?_ ?_
    · exact fun t d hf => hframes t _ hf d rfl
    · intro call d hd
      cases call <;> simp [Call.frame] at hd
    · intro t f rest fs sh hst ha
      refine ⟨?_, ?_⟩
      · intro g hg d hgd
        have hopen := ha.exec (hgd ▸ hg)
        rw [hclosing he] at hopen
        cases hopen
      · intro u g hg hrest hq d hgd
        rw [hI.locked.queue_eq hst ha hg hrest (by simp [hgd, Frame.holds])]
        exact hq d hgd
    · exact fun conn f hq => hq
  · refine allowed_io_step h.io hs ?_
    intro t d op hf hhead
    have hno : .sysClose ∉ c.trace := by
      intro he
      simp [queued, h.idle he t d hf] at hhead
    exact ⟨hno, h.own hno⟩

/-- Along every run in which no section is between its test of `closed_` and its system call when
`::close(fd_)` is called, every `recv` and `send` is on the socket's own connection, before
`::close(fd_)`. -/
theorem onOwn_always (rt : T) (fd : ℕ) (as : List (Action T))
    (h : Steps (machine rt) Unraced (init T fd) as) :
    Always (machine rt) OnOwn (init T fd) as := by
  refine always_of_reachVia (fun c hc => ?_) .refl h
  have hfacts : ∀ c, Reachable (machine rt) (init T fd) c → Inv c.state ∧ Closing c :=
    fun c hc => ⟨inv_of_reachable hc, closing_of_reachable hc⟩
  have howned : Owned c := by
    refine hc.invariant_of hfacts ⟨?_, ?_, ?_, trivial⟩ ?_
    · exact fun _ => rfl
    · exact fun he => absurd he List.not_mem_nil
    · exact fun he => absurd he List.not_mem_nil
    · intro c a c' hJ _ hO hrace hn
      obtain ⟨s', es, hs, rfl⟩ := next_eq_some _ hn
      exact hO.step hJ.1 hJ.2 hrace hs
  exact howned.io

/-- A read that is over before the socket is closed, and a `do_read` after it: the number has been
given to another connection by then, and nothing is received from that. -/
def closeAfterRead {T : Type*} (user rt : T) : List (Action T) :=
  [.thread user (.call (.asyncReadSome 100 4)), .thread user (.go (.bytes 0)),
    .thread user (.go (.bytes 0)), .thread user (.go (.bytes 0)), .thread rt (.call .doRead),
    .thread rt (.go (.bytes 0)), .thread rt (.go (.bytes 0)), .thread rt (.go (.bytes 4)),
    .thread rt (.go (.bytes 0)), .thread rt (.go (.bytes 0)), .thread rt .ret,
    .thread user (.call .close), .thread user (.go (.bytes 0)), .thread user (.go (.bytes 0)),
    .thread user (.go (.bytes 0)), .reuse 7, .thread rt (.call .doRead),
    .thread rt (.go (.bytes 0)), .thread rt (.go (.bytes 0))]

theorem onOwn_closeAfterRead :
    (∃ c, run (machine (1 : Fin 2)) (init (Fin 2) 3) (closeAfterRead 0 1) = some c ∧
      .sysClose ∈ c.trace ∧ .io .read 0 .own ∈ c.trace) ∧
      Always (machine (1 : Fin 2)) OnOwn (init (Fin 2) 3) (closeAfterRead 0 1) :=
  ⟨⟨_, rfl, by decide, by decide⟩, onOwn_always 1 3 (closeAfterRead 0 1) (by decide)⟩

/-- The runtime's thread has found the socket open and is about to receive. Another thread closes
the socket, the number is given to connection 7, and the bytes come from there. -/
theorem doRead_reads_other_connection :
    ∃ c, run (machine (1 : Fin 2)) (init (Fin 2) 3)
        [.thread 0 (.call (.asyncReadSome 100 4)), .thread 0 (.go (.bytes 0)),
          .thread 0 (.go (.bytes 0)), .thread 0 (.go (.bytes 0)), .thread 1 (.call .doRead),
          .thread 1 (.go (.bytes 0)), .thread 1 (.go (.bytes 0)), .thread 0 (.call .close),
          .thread 0 (.go (.bytes 0)), .thread 0 (.go (.bytes 0)), .thread 0 (.go (.bytes 0)),
          .reuse 7, .thread 1 (.go (.bytes 4))] = some c ∧
      c.trace = [.accepted .read 0, .sysClose, .io .read 0 (.other 7)] ∧ ¬ OnOwn c := by
  refine ⟨_, rfl, rfl, fun h => ?_⟩
  have hlast := Allowed.of_mem h [.accepted .read 0, .sysClose] (.io .read 0 (.other 7)) [] rfl
  exact absurd (hlast .read 0 (.other 7) rfl).2 (by decide)

/-! ## The race -/

/-- Whether the frame waits for the callback it has invoked, or is a callback. -/
def Frame.waits : Frame → Bool
  | .close (.drain _ (.relock _ _)) => true
  | .callback _ => true
  | _ => false

omit [DecidableEq T] in
/-- Only a frame that waits is covered by another. -/
theorem Advance.waits {sh sh' : Shared T} {t : T} {f : Frame} {fs : List Frame}
    (h : Advance sh t f fs sh' es) : ∀ g ∈ fs.tail, g.waits = true := by
  cases h <;> simp [Frame.waits]

/-- Only a call that has invoked a callback, or a callback that has made a call, is below another
frame. -/
theorem waits_of_reachable {fd : ℕ} (h : Reachable (machine rt) (init T fd) c) :
    ∀ t, ∀ g ∈ (c.state.stack t).tail, g.waits = true := by
  refine h.invariant_step (I := fun s _ => ∀ t, ∀ g ∈ (s.stack t).tail, g.waits = true)
    (fun t g hg => absurd hg List.not_mem_nil) ?_
  intro s tr a s' es hw _ hs
  have hbelow : ∀ {t f rest}, s.stack t = f :: rest → ∀ g ∈ rest, g.waits = true := by
    intro t f rest hst g hg
    exact hw t g (by rw [hst]; exact hg)
  cases step_cases hs with
  | @call t call hm =>
    refine forall_tail_update hw fun g hg => ?_
    rw [List.tail_cons] at hg
    rcases hst : s.stack t with _ | ⟨f, rest⟩
    · rw [hst] at hg
      exact absurd hg List.not_mem_nil
    · rw [hst] at hg hm
      rcases List.mem_cons.1 hg with rfl | hrest
      · unfold mayCall at hm
        split at hm <;> simp_all [Frame.waits]
      · exact hbelow hst g hrest
  | ret hst => exact forall_tail_update hw fun g hg => hbelow hst g (List.mem_of_mem_tail hg)
  | @go t f rest fs sh _ hst ha =>
    refine forall_tail_update hw fun g hg => ?_
    rcases fs with _ | ⟨g', fs⟩
    · exact hbelow hst g (List.mem_of_mem_tail hg)
    · rcases List.mem_append.1 hg with hfs | hrest
      · exact ha.waits g hfs
      · exact hbelow hst g hrest
  | reuse => exact hw

/-- A section that is about to make its system call is the innermost frame of its thread. -/
theorem exec_innermost {fd : ℕ} (h : Reachable (machine rt) (init T fd) c) {u : T} {d : Dir}
    (hexec : .doIo d .exec ∈ c.state.stack u) :
    ∃ rest, c.state.stack u = .doIo d .exec :: rest := by
  rcases hst : c.state.stack u with _ | ⟨f, rest⟩
  · simp [hst] at hexec
  · rw [hst] at hexec
    rcases List.mem_cons.1 hexec with rfl | hin
    · exact ⟨rest, rfl⟩
    · have := waits_of_reachable h u _ (by rw [hst]; exact hin)
      simp [Frame.waits] at this

/-- A section that has found the socket open and has an operation to serve can make its system
call. -/
theorem next_io {u : T} {d : Dir} {rest : List Frame} {task : Task} {op : OpId}
    {q : List (Task × OpId)} (hst : c.state.stack u = .doIo d .exec :: rest)
    (hq : c.state.sock.queue d = (task, op) :: q) (hfresh : task.Fresh) :
    ∃ c', next (machine rt) c (.thread u (.go (.fail .EAGAIN))) = some c' ∧
      c'.trace = c.trace ++ [.io d op c.state.desc] := by
  have hworld : (task.exec (logIo d op c.state.desc (.fail .EAGAIN)) c.state.sock.fd []).world
      = [.io d op c.state.desc] := by
    rw [Task.exec_fresh hfresh]; rfl
  simp only [next, machine, step, hst, advance, hq, replyFits, if_true, Option.map_some, hworld]
  exact ⟨_, rfl, rfl⟩

/-- Whenever a step breaks the condition, the system call can be the next step. -/
theorem raced_breaks {fd : ℕ} {a : Action T} {c' : Config (State T) Event}
    (h : Reachable (machine rt) (init T fd) c) (hn : next (machine rt) c a = some c')
    (hrace : ¬ Unraced c a) :
    ∃ a' c'', next (machine rt) c' a' = some c'' ∧ ¬ OnOwn c'' := by
  obtain ⟨s', es, hs, rfl⟩ := next_eq_some _ hn
  cases a with
  | reuse => exact absurd trivial hrace
  | thread t ch =>
    cases ch with
    | call => exact absurd trivial hrace
    | ret => exact absurd trivial hrace
    | go reply =>
      simp only [Unraced, not_forall] at hrace
      obtain ⟨hhead, u, d, hexec, hq⟩ := hrace
      obtain ⟨rest, hst⟩ := List.head?_eq_some_iff.1 hhead
      -- Both frames are innermost, so `u` is another thread than the one that closes.
      obtain ⟨rest', hu⟩ := exec_innermost h hexec
      have hne : u ≠ t := by
        rintro rfl
        rw [hst] at hu
        cases hu
      obtain ⟨⟨task, op⟩, rest'', hqd⟩ := List.exists_cons_of_ne_nil hq
      have hfresh : task.Fresh := (inv_of_reachable h).fresh d (task, op) (by simp [hqd])
      obtain ⟨hsock, hdesc, hstack, rfl⟩ : s'.sock = c.state.sock ∧ s'.desc = .free ∧
          s'.stack u = c.state.stack u ∧ [.sysClose] = es := by
        simp only [machine, step, hst, advance, Option.map_some, Option.some.injEq,
          Prod.mk.injEq] at hs
        obtain ⟨rfl, rfl⟩ := hs
        exact ⟨rfl, rfl, Function.update_of_ne hne _ _, rfl⟩
      -- The number is free now, and the section goes on to its system call.
      obtain ⟨c'', hnext, htrace⟩ := next_io (c := ⟨s', c.trace ++ [.sysClose]⟩)
        (hstack.trans hu) (by rw [hsock, hqd]) hfresh
      refine ⟨_, c'', hnext, fun hown => ?_⟩
      have hlast := Allowed.of_mem hown _ _ [] htrace
      rw [List.nil_append] at hlast
      exact absurd (hlast d op s'.desc rfl).2 (by simp [hdesc])

end Spinet.Socket
