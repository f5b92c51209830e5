import Spinet.Socket.Locks

/-!
# What `close` guarantees while it runs

`close` sets `closed_` outside the mutexes, so a submission or a `do_read` may still be in a section
that found the socket open. Locking a mutex once waits such a section out. From then on the side is
sealed: every later section finds the socket closed, so its queue only shrinks, and once it has been
found empty it stays empty. `Closing` says this of every reachable configuration, with the bound on
the iterations of the two drain loops.
-/

namespace Spinet.Socket

open Transition Stacks

variable {T : Type*}

/-- Whether the frame is a call of `close` that has set `closed_`. -/
def Frame.closing : Frame → Bool
  | .close pc => decide (pc ≠ .cas)
  | _ => false

/-- Whether the frame is a call of `close` that has had the mutex of side `d`. -/
def Frame.seals (d : Dir) : Frame → Bool
  | .close (.drain d' pc) => decide (d' = d ∧ pc ≠ .lock ∨ d' = .write ∧ d = .read)
  | _ => false

/-- Whether the frame is a call of `close` that has left the drain loop of side `d`. -/
def Frame.emptied (d : Dir) : Frame → Bool
  | .close (.drain d' _) => decide (d' = .write ∧ d = .read)
  | _ => false

/-- The side of a drain loop, the iterations it has begun, and the operations it found at first. -/
def Frame.counters : Frame → Option (Dir × ℕ × ℕ)
  | .close (.drain d (.test iters bound)) => some (d, iters, bound)
  | .close (.drain d (.call _ _ iters bound)) => some (d, iters, bound)
  | .close (.drain d (.relock iters bound)) => some (d, iters, bound)
  | _ => none

/-- The iterations that a drain loop has begun and the operations still in its queue are together no
more than the operations that it found at first. -/
def Bounded (sh : Shared T) (f : Frame) : Prop :=
  ∀ d iters bound, f.counters = some (d, iters, bound) →
    iters + (sh.sock.queue d).length ≤ bound

/-- A call of `close` has had the mutex of side `d` after it set `closed_`. -/
def Sealed (d : Dir) (c : Config (State T) Event) : Prop :=
  (∃ t, ∃ f ∈ c.state.stack t, f.seals d = true) ∨ .closeReturned ∈ c.trace

/-- A call of `close` has left the drain loop of side `d`. -/
def Emptied (d : Dir) (c : Config (State T) Event) : Prop :=
  (∃ t, ∃ f ∈ c.state.stack t, f.emptied d = true) ∨ .closeReturned ∈ c.trace

/-- What `close` guarantees. -/
structure Closing (c : Config (State T) Event) : Prop where
  /-- A call of `close` past its exchange has set `closed_`. -/
  closed : ∀ t, ∀ f ∈ c.state.stack t, f.closing = true → c.state.sock.closed = true
  /-- After `close` has returned the socket is closed. -/
  returned : .closeReturned ∈ c.trace → c.state.sock.closed = true
  /-- On a sealed side no section that found the socket open is left. -/
  sealed : ∀ d, Sealed d c → ∀ t, ∀ f ∈ c.state.stack t, f.passed d = false
  /-- The queue of a side whose drain loop is over is empty. -/
  emptied : ∀ d, Emptied d c → c.state.sock.queue d = []
  /-- The drain loops run at most once for each operation found at first. -/
  bounded : ∀ t, ∀ f ∈ c.state.stack t, Bounded c.state.toShared f
  /-- The drain loops that are over ran at most once for each operation found at first. -/
  drained : ∀ d iters bound, .drained d iters bound ∈ c.trace → iters ≤ bound

/-! ## Steps -/

section Steps

variable {sh sh' : Shared T} {t : T} {f : Frame} {fs : List Frame} {es : List Event} {d : Dir}

/-- A frame that drains is past its exchange. -/
theorem Frame.closing_of_seals (h : f.seals d = true) : f.closing = true := by
  unfold Frame.seals at h
  split at h <;> simp_all [Frame.closing]

/-- A drain loop that is over has had the mutex. -/
theorem Frame.seals_of_emptied (h : f.emptied d = true) : f.seals d = true := by
  unfold Frame.emptied at h
  split at h <;> simp_all [Frame.seals]

/-- A drain loop with counters has had the mutex. -/
theorem Frame.seals_of_counters {iters bound : ℕ} (h : f.counters = some (d, iters, bound)) :
    f.seals d = true := by
  unfold Frame.counters at h
  split at h <;> simp_all [Frame.seals]

/-- `closed_` is never reset. -/
theorem Advance.closed (h : Advance sh t f fs sh' es) (hc : sh.sock.closed = true) :
    sh'.sock.closed = true := by
  cases h <;> first | exact hc | rfl

/-- A frame is past its exchange only if `closed_` is set. -/
theorem Advance.closing (h : Advance sh t f fs sh' es) :
    ∀ g ∈ fs, g.closing = true → f.closing = true ∨ sh'.sock.closed = true := by
  cases h <;> simp [Frame.closing]

/-- A section finds the socket open only if it is. -/
theorem Advance.passed (h : Advance sh t f fs sh' es) :
    ∀ g ∈ fs, g.passed d = true → f.passed d = true ∨ sh.sock.closed = false := by
  cases h <;> simp_all [Frame.passed]

/-- A side is sealed by a call of `close` that locks its mutex. -/
theorem Advance.seals (h : Advance sh t f fs sh' es) :
    ∀ g ∈ fs, g.seals d = true → f.seals d = true ∨ f.closing = true ∧ sh.owner d = none := by
  cases h with
  | @drainLock d' ho =>
    rcases eq_or_ne d' d with rfl | hd
    · simp [Frame.seals, Frame.closing, ho]
    · simp_all [Frame.seals]
  | _ => simp_all [Frame.seals]

/-- A drain loop is left when its queue is empty. -/
theorem Advance.emptied (h : Advance sh t f fs sh' es) :
    ∀ g ∈ fs, g.emptied d = true →
      f.emptied d = true ∨ f.seals d = true ∧ sh.sock.queue d = [] := by
  cases h <;> simp_all [Frame.emptied, Frame.seals]

/-- `close` returns from its second drain loop, when the queue of that side is empty. -/
theorem Advance.closeReturned (h : Advance sh t f fs sh' es) (he : .closeReturned ∈ es) :
    f.seals d = true ∧ (f.emptied d = true ∨ sh.sock.queue d = []) := by
  cases h with
  | drainWrite hq => cases d <;> simp [Frame.seals, Frame.emptied, hq]
  | cancelClear => simp [clearEvents] at he
  | @ioExec d' task op _ reply =>
    rcases exec_logIo task d' op sh.desc reply sh.sock.fd with hw | hw <;> simp [hw] at he
  | _ => simp at he

/-- A drain loop ends when its queue is empty. -/
theorem Advance.drained {iters bound : ℕ} (h : Advance sh t f fs sh' es)
    (he : .drained d iters bound ∈ es) :
    f = .close (.drain d (.test iters bound)) := by
  cases h with
  | cancelClear => simp [clearEvents] at he
  | @ioExec d' task op _ reply =>
    rcases exec_logIo task d' op sh.desc reply sh.sock.fd with hw | hw <;> simp [hw] at he
  | _ => simp_all

/-- The queue of a side grows only by a section that found the socket open. -/
theorem Advance.length_le (h : Advance sh t f fs sh' es) (hp : f.passed d = false) :
    (sh'.sock.queue d).length ≤ (sh.sock.queue d).length := by
  rcases h.effect d with ⟨-, -, hq, -⟩ | ⟨-, -, -, hq, -⟩ | ⟨-, -, -, hq, -⟩ |
    ⟨-, -, -, -, -, -, -, -, hp', -⟩ | ⟨-, -, -, -, hq, -⟩ | ⟨-, -, -, hq, -⟩
  · rw [hq]
  · rw [hq]
  · rw [hq]
  · simp [hp] at hp'
  · rw [hq, List.length_tail]; omega
  · rw [hq]; simp

/-- What replaces a drain loop within its bound is within it. -/
theorem Advance.bounded (h : Advance sh t f fs sh' es) (hf : Bounded sh f) :
    ∀ g ∈ fs, Bounded sh' g := by
  cases h with
  | @drainPop d' iters bound _ _ _ hq =>
    have hb := hf d' iters bound rfl
    rw [hq, List.length_cons] at hb
    simp only [List.mem_singleton, forall_eq]
    intro d i b hcount
    simp only [Frame.counters, Option.some.injEq, Prod.mk.injEq] at hcount
    obtain ⟨rfl, rfl, rfl⟩ := hcount
    simp only [Shared.leave_queue, if_true]
    omega
  | _ => simp_all [Bounded, Frame.counters]

end Steps

/-! ## Runs -/

variable {rt : T} {c : Config (State T) Event} {s' : State T} {es : List Event} {d : Dir}

/-- A sealed side belongs to a closed socket. -/
theorem Closing.isClosed (h : Closing c) (hs : Sealed d c) : c.state.sock.closed = true := by
  rcases hs with ⟨t, f, hf, hfs⟩ | hr
  · exact h.closed t f hf (Frame.closing_of_seals hfs)
  · exact h.returned hr

/-- The innermost frame of a thread is on its stack. -/
theorem top_mem {s : State T} {t : T} {f : Frame} {rest : List Frame} (h : s.stack t = f :: rest) :
    f ∈ s.stack t := by
  rw [h]; exact List.mem_cons_self

/-- A new socket. -/
theorem closing_init (fd : ℕ) : Closing (init T fd) := by
  constructor <;> simp [init, Sealed, Emptied, TcpSocket.new]

variable [DecidableEq T]

/-- `closed_` is never reset. -/
theorem Step.closed {s : State T} (hs : Step rt s s' es) (hc : s.sock.closed = true) :
    s'.sock.closed = true := by
  cases hs with
  | go hst ha => exact ha.closed hc
  | _ => exact hc

/-- Without a section that found the socket open a queue only shrinks. -/
theorem Step.length_le {s : State T} (hs : Step rt s s' es)
    (hp : ∀ t, ∀ f ∈ s.stack t, f.passed d = false) :
    (s'.sock.queue d).length ≤ (s.sock.queue d).length := by
  cases hs with
  | go hst ha => exact ha.length_le (hp _ _ (top_mem hst))
  | _ => exact Nat.le_refl _

/-- A side is sealed by a step only while its mutex is free and the socket is closed. -/
theorem Closing.sealed_step (h : Closing c) (hs : Step rt c.state s' es)
    (hd : Sealed d ⟨s', c.trace ++ es⟩) :
    Sealed d c ∨ c.state.owner d = none ∧ c.state.sock.closed = true := by
  rcases hd with ⟨t, g, hg, hgs⟩ | hr
  · rcases hs.mem_cases hg with hold | ⟨call, rfl⟩ | ⟨f, rest, fs, hst, ha, hnew⟩
    · exact .inl (.inl ⟨t, g, hold, hgs⟩)
    · cases call <;> simp [Call.frame, Frame.seals] at hgs
    · rcases ha.seals g hnew hgs with hf | ⟨hf, ho⟩
      · exact .inl (.inl ⟨t, f, top_mem hst, hf⟩)
      · exact .inr ⟨ho, h.closed t f (top_mem hst) hf⟩
  · rcases List.mem_append.1 hr with hr | hr
    · exact .inl (.inr hr)
    · obtain ⟨t, f, rest, fs, hst, ha⟩ := hs.event_cases hr
      exact .inl (.inl ⟨t, f, top_mem hst, (ha.closeReturned hr).1⟩)

/-- A drain loop is over after a step only if the side was sealed and its queue empty before it. -/
theorem Closing.emptied_step (h : Closing c) (hs : Step rt c.state s' es)
    (hd : Emptied d ⟨s', c.trace ++ es⟩) : Sealed d c ∧ c.state.sock.queue d = [] := by
  have hfrom : ∀ t, ∀ f ∈ c.state.stack t, f.emptied d = true →
      Sealed d c ∧ c.state.sock.queue d = [] := fun t f hf he =>
    ⟨.inl ⟨t, f, hf, Frame.seals_of_emptied he⟩, h.emptied d (.inl ⟨t, f, hf, he⟩)⟩
  rcases hd with ⟨t, g, hg, hge⟩ | hr
  · rcases hs.mem_cases hg with hold | ⟨call, rfl⟩ | ⟨f, rest, fs, hst, ha, hnew⟩
    · exact hfrom t g hold hge
    · cases call <;> simp [Call.frame, Frame.emptied] at hge
    · rcases ha.emptied g hnew hge with hf | ⟨hf, hq⟩
      · exact hfrom t f (top_mem hst) hf
      · exact ⟨.inl ⟨t, f, top_mem hst, hf⟩, hq⟩
  · rcases List.mem_append.1 hr with hr | hr
    · exact ⟨.inr hr, h.emptied d (.inr hr)⟩
    · obtain ⟨t, f, rest, fs, hst, ha⟩ := hs.event_cases hr
      obtain ⟨hf, he | hq⟩ := ha.closeReturned hr
      · exact hfrom t f (top_mem hst) he
      · exact ⟨.inl ⟨t, f, top_mem hst, hf⟩, hq⟩

/-- Every step keeps the guarantees. -/
theorem Closing.step (hI : Inv c.state) (h : Closing c) (hs : Step rt c.state s' es) :
    Closing ⟨s', c.trace ++ es⟩ where
  closed := by
    intro t g hg hgc
    rcases hs.mem_cases hg with hold | ⟨call, rfl⟩ | ⟨f, rest, fs, hst, ha, hnew⟩
    · exact hs.closed (h.closed t g hold hgc)
    · cases call <;> simp [Call.frame, Frame.closing] at hgc
    · rcases ha.closing g hnew hgc with hf | hc
      · exact hs.closed (h.closed t f (top_mem hst) hf)
      · exact hc
  returned := by
    intro hr
    rcases List.mem_append.1 hr with hr | hr
    · exact hs.closed (h.returned hr)
    · obtain ⟨t, f, rest, fs, hst, ha⟩ := hs.event_cases hr
      have hf : f.seals .read = true := (ha.closeReturned hr).1
      exact hs.closed (h.closed t f (top_mem hst) (Frame.closing_of_seals hf))
  sealed := by
    intro d hd t g hg
    -- A frame that has passed was there already, or the socket was open; both are excluded.
    by_contra hp
    have hp : g.passed d = true := by simpa using hp
    have hclosed : c.state.sock.closed = true := by
      rcases h.sealed_step hs hd with hd | ⟨-, hc⟩
      · exact h.isClosed hd
      · exact hc
    -- Locking the mutex waits out every section that found the socket open.
    have hnone : ∀ u, ∀ f ∈ c.state.stack u, f.passed d = false := by
      intro u f hf
      rcases h.sealed_step hs hd with hd | ⟨ho, -⟩
      · exact h.sealed d hd u f hf
      · by_contra hfp
        have hfp : f.passed d = true := by simpa using hfp
        have howner := hI.locked.owner_eq hf (Frame.holds_of_passed hfp)
        simp [ho] at howner
    rcases hs.mem_cases hg with hold | ⟨call, rfl⟩ | ⟨f, rest, fs, hst, ha, hnew⟩
    · simp [hnone t g hold] at hp
    · cases call <;> simp [Call.frame, Frame.passed] at hp
    · rcases ha.passed g hnew hp with hf | hopen
      · simp [hnone t f (top_mem hst)] at hf
      · simp [hclosed] at hopen
  emptied := by
    intro d hd
    obtain ⟨hsealed, hq⟩ := h.emptied_step hs hd
    have hlen := hs.length_le (h.sealed d hsealed)
    rw [hq] at hlen
    exact List.eq_nil_of_length_eq_zero (Nat.le_zero.1 hlen)
  bounded := by
    intro t g hg
    rcases hs.mem_cases hg with hold | ⟨call, rfl⟩ | ⟨f, rest, fs, hst, ha, hnew⟩
    · intro d iters bound hcount
      have hb := h.bounded t g hold d iters bound hcount
      -- The drain loop has sealed its side, so the queue has not grown.
      have hsealed : Sealed d c := .inl ⟨t, g, hold, Frame.seals_of_counters hcount⟩
      have hlen := hs.length_le (h.sealed d hsealed)
      show iters + (s'.sock.queue d).length ≤ bound
      omega
    · cases call <;> simp [Call.frame, Bounded, Frame.counters]
    · exact ha.bounded (h.bounded t f (top_mem hst)) g hnew
  drained := by
    intro d iters bound he
    rcases List.mem_append.1 he with he | he
    · exact h.drained d iters bound he
    · obtain ⟨t, f, rest, fs, hst, ha⟩ := hs.event_cases he
      obtain rfl := ha.drained he
      have hb := h.bounded t _ (top_mem hst) d iters bound rfl
      omega

/-- The guarantees hold in every reachable configuration. -/
theorem closing_of_reachable {fd : ℕ} (h : Reachable (machine rt) (init T fd) c) : Closing c := by
  refine h.invariant_of (J := fun c => Inv c.state) (fun _ => inv_of_reachable) (closing_init fd) ?_
  intro c a c' hI _ hC _ hn
  obtain ⟨s', es, hs, rfl⟩ := next_eq_some _ hn
  exact hC.step hI (step_cases hs)

end Spinet.Socket
