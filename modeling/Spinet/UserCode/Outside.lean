import Spinet.Library.Stacks
import Spinet.UserCode.Machine

/-!
# No user code under a mutex

`do_read`, `do_write`, the drain loops of `close`, and the ticks of a timer unlock before they
invoke a callback. What they do not see is that user code also runs where callbacks and handles are
destroyed: `cancel` destroys callbacks, `Runtime::exec` destroys handles whose destructors call
`close`, `Timer::exec` destroys the waits that are left, and all of them hold a mutex then; and
`close` itself destroys its copy of a callback after it has locked again. With a callback that has
captured objects by value the four are no better: they take the callback out of the queue, or drop
their copy of it, before they unlock.

`outside_always` says when all is well nevertheless. In a run in which nothing is left where these
destroy callbacks, no operation or wait is served whose callback has captured objects by value, no
handle that is destroyed under a mutex has operations queued, and user code that runs under a mutex
makes no call, no callback is invoked and none is destroyed without having been invoked while its
thread holds a mutex, and no thread ever waits for a mutex that it holds.
-/

namespace Spinet.UserCode

open Transition Stacks
open Registry (Handles)

variable {H R K T : Type} {P : Waiters ℕ} {byValue : Callback H K → Bool}

/-- No callback is invoked under a mutex, and none that has never been invoked is destroyed under
one; and no thread waits for a mutex that it holds. -/
structure Outside (c : Config (State H R K T P) (Event H R K)) : Prop where
  /-- What is recorded has happened with no mutex held. -/
  events : ∀ e ∈ c.trace, e.held = []
  /-- A thread does not block itself. -/
  waits : ∀ t f rest, c.state.stack t = f :: rest → ∀ m ∈ f.wants, c.state.shared.owner m ≠ some t

/-! ## The condition -/

/-- Whether the operation at the front of a queue has a callback that has captured objects by
value. -/
def Shared.frontByValue (byValue : Callback H K → Bool) (sh : Shared H R K T P) (h : H) (d : Dir) :
    Bool :=
  (sh.queue h d).head?.any fun op => byValue (.operation h d op)

/-- Of the waits that are pending one is not due, so that a tick takes nothing, or none of them has
a callback that has captured objects by value. -/
def Shared.TicksShared (byValue : Callback H K → Bool) (sh : Shared H R K T P) (k : K) (now : ℤ) :
    Prop :=
  (∃ w ∈ P.elems (sh.waiters k), now < w.timePoint) ∨
    ∀ w ∈ P.elems (sh.waiters k), byValue (.wait k w.callback) = false

instance (sh : Shared H R K T P) (k : K) (now : ℤ) : Decidable (sh.TicksShared byValue k now) :=
  @instDecidableOr _ _ Multiset.decidableExistsMultiset Multiset.decidableForallMultiset

/-- Where a frame is about to destroy callbacks, or to invoke one on behalf of a destructor, there
are none, or the frames below it hold no mutex; and what it copies out of a queue or of
`waiters_` has captured nothing by value. -/
def Frame.spared (W : Handles H) (byValue : Callback H K → Bool) (sh : Shared H R K T P)
    (yes : Bool) (now : ℤ) (rest : List (Frame H R K)) : Frame H R K → Bool
  | .cancel h .clear => (sh.pending h).isEmpty
  | .timer k .clear => (P.top (sh.waiters k)).isNone
  | .timer k .collect => decide (sh.TicksShared byValue k now)
  | .doIo h d .exec => sh.closed h || !sh.frontByValue byValue h d
  | .close h (.drain d .test) =>
    (held rest).isEmpty && !sh.frontByValue byValue h d || (sh.queue h d).isEmpty
  | .members h => (held rest).isEmpty || (sh.pending h).isEmpty
  | .destroy (h :: _) => !yes || W.isSocket h || sh.accepted h || (held rest).isEmpty
  | _ => true

/-- What a step has to keep to: besides, user code that runs under a mutex makes no call. -/
def spares (W : Handles H) (byValue : Callback H K → Bool)
    (c : Config (State H R K T P) (Event H R K)) (a : T × Choice H R K) : Bool :=
  match a.2, c.state.stack a.1 with
  | .call _, stack | .connect _ _, stack => (held stack).isEmpty
  | .go yes now, f :: rest => f.spared W byValue c.state.shared yes now rest
  | _, _ => true

/-! ## Frames above a mutex -/

@[simp] theorem held_nil : held ([] : List (Frame H R K)) = [] := rfl

@[simp] theorem held_cons (f : Frame H R K) (rest : List (Frame H R K)) :
    held (f :: rest) = f.holds ++ held rest := rfl

@[simp] theorem held_append (fs rest : List (Frame H R K)) :
    held (fs ++ rest) = held fs ++ held rest := List.flatMap_append

/-- The handle is no longer registered with a runtime, and never will be. -/
def Gone (sh : Shared H R K T P) (h : H) : Prop := sh.made h = true ∧ sh.runtimeRef h = none

/-- Whether a mutex is a `handles_mtx_`. -/
def Mutex.isHandles : Mutex H R K → Bool
  | .handles _ => true
  | _ => false

/-- Where a call of `close` may stand while its thread holds a mutex. -/
def ClosePc.calm : ClosePc R → Bool
  | .cas | .lockRuntime | .sysClose | .drain _ .lock | .drain _ .test => true
  | _ => false

/-- What a frame is while the frames below it hold the mutexes `ms`: user code, or a destructor, or
a call of `close` for a handle that is gone. -/
def Frame.Calm (sh : Shared H R K T P) (ms : List (Mutex H R K)) : Frame H R K → Prop
  | .user | .members _ => True
  | .destroy hs => (∀ h ∈ hs, Gone sh h) ∧ ∀ m ∈ ms, m.isHandles = true
  | .close h pc => Gone sh h ∧ pc.calm = true ∧ ∀ m ∈ ms, m.isHandles = true
  | _ => False

/-- All frames of a stack above a mutex are so. -/
def Calm (sh : Shared H R K T P) : List (Frame H R K) → Prop
  | [] => True
  | f :: rest => (held rest ≠ [] → f.Calm sh (held rest)) ∧ Calm sh rest

/-- A frame stays calm while handles that are gone stay gone. -/
theorem Frame.Calm.mono {sh sh' : Shared H R K T P} {ms : List (Mutex H R K)} {f : Frame H R K}
    (hgone : ∀ h, Gone sh h → Gone sh' h) (hf : f.Calm sh ms) : f.Calm sh' ms := by
  cases f with
  | user | members => trivial
  | destroy hs => exact ⟨fun h hmem => hgone h (hf.1 h hmem), hf.2⟩
  | close h pc => exact ⟨hgone h hf.1, hf.2⟩
  | submit | cancel | register | doIo | doAccept | exec | asyncWait | timer => exact hf

/-- So does a stack. -/
theorem Calm.mono {sh sh' : Shared H R K T P} (hgone : ∀ h, Gone sh h → Gone sh' h) :
    ∀ {stack : List (Frame H R K)}, Calm sh stack → Calm sh' stack
  | [], _ => trivial
  | _ :: _, hc => ⟨fun hheld => (hc.1 hheld).mono hgone, Calm.mono hgone hc.2⟩

/-- A frame that is never calm has no mutex below it. -/
theorem Calm.held_eq {sh : Shared H R K T P} {f : Frame H R K} {rest : List (Frame H R K)}
    (hc : Calm sh (f :: rest)) (hf : ¬ f.Calm sh (held rest)) : held rest = [] := by
  by_contra hheld
  exact hf (hc.1 hheld)

/-- Frames may be put above a stack that holds no mutex if they are calm among themselves. -/
theorem Calm.append {sh : Shared H R K T P} {rest : List (Frame H R K)} (hrest : held rest = [])
    (hc : Calm sh rest) : ∀ {fs : List (Frame H R K)}, Calm sh fs → Calm sh (fs ++ rest)
  | [], _ => hc
  | f :: fs, hfs => by
    have heq : held (fs ++ rest) = held fs := by rw [held_append, hrest, List.append_nil]
    refine ⟨?_, Calm.append hrest hc hfs.2⟩
    show held (fs ++ rest) ≠ [] → f.Calm sh (held (fs ++ rest))
    rw [heq]
    exact hfs.1

/-! ## What a step of a frame does -/

/-- The handle that a frame registers, and the runtime. -/
def Frame.registers : Frame H R K → Option (H × R)
  | .register h r _ => some (h, r)
  | _ => none

/-- The runtime for which a frame has reset every `runtime_`. -/
def Frame.resets : Frame H R K → Option R
  | .exec r .releaseHandles => some r
  | _ => none

/-- What is known of the handles when the frame `f` takes a step. -/
structure Known (sh : Shared H R K T P) (f : Frame H R K) : Prop where
  /-- What is registered has been made. -/
  made : ∀ r, ∀ h ∈ sh.allHandles r, sh.made h = true
  /-- What is to be removed is gone. -/
  removable : ∀ r, ∀ h ∈ sh.removable r, Gone sh h
  /-- What a frame registers has been made. -/
  registers : ∀ h r, f.registers = some (h, r) → sh.made h = true
  /-- After the reset nothing registered has a `runtime_`. -/
  resets : ∀ r, f.resets = some r → ∀ h ∈ sh.allHandles r, sh.runtimeRef h = none

/-- What a step of the frame `f` does to the handles, when `fs` are the frames that replace it. -/
structure Handling (sh : Shared H R K T P) (f : Frame H R K) (fs : List (Frame H R K))
    (sh' : Shared H R K T P) : Prop where
  /-- It makes none. -/
  made : sh'.made = sh.made
  /-- It does not set `runtime_`. -/
  runtimeRef : ∀ h, sh.runtimeRef h = none → sh'.runtimeRef h = none
  /-- It adds only the handle that it registers, with the mutex locked. -/
  allHandles : ∀ r, ∀ h ∈ sh'.allHandles r,
    h ∈ sh.allHandles r ∨ f.registers = some (h, r) ∧ .handles r ∈ f.holds
  /-- What it puts aside has lost its `runtime_`. -/
  removable : ∀ r, ∀ h ∈ sh'.removable r,
    h ∈ sh.removable r ∨ (∃ r', h ∈ sh.allHandles r') ∧ sh'.runtimeRef h = none
  /-- It goes on registering what it registers. -/
  registers : ∀ g ∈ fs, g.registers = none ∨ g.registers = f.registers
  /-- After the reset nothing registered has a `runtime_`. -/
  resets : ∀ r, ∀ g ∈ fs, g.resets = some r → ∀ h ∈ sh'.allHandles r, sh'.runtimeRef h = none

variable {sh sh' : Shared H R K T P} {t : T} {f f' : Frame H R K} {fs rest : List (Frame H R K)}
  {o : Outcome H R K T P} {W : Handles H}

/-- What is shared of the handles stays as it is, and so do the mutexes. -/
structure Same (sh sh' : Shared H R K T P) : Prop where
  made : sh'.made = sh.made
  runtimeRef : sh'.runtimeRef = sh.runtimeRef
  allHandles : sh'.allHandles = sh.allHandles
  removable : sh'.removable = sh.removable
  owner : sh'.owner = sh.owner

theorem Same.refl (sh : Shared H R K T P) : Same sh sh := ⟨rfl, rfl, rfl, rfl, rfl⟩

/-- The frames that replace `f` register what it registers, and are not past a reset. -/
def Plain (f : Frame H R K) (fs : List (Frame H R K)) : Prop :=
  ∀ g ∈ fs, (g.registers = none ∨ g.registers = f.registers) ∧ g.resets = none

/-- They do if they register nothing. -/
theorem Plain.of_all
    (hfs : (fs.all fun g => g.registers.isNone && g.resets.isNone) = true) : Plain f fs := by
  intro g hg
  have hboth := List.all_eq_true.1 hfs g hg
  simp only [Bool.and_eq_true, Option.isNone_iff_eq_none] at hboth
  exact ⟨.inl hboth.1, hboth.2⟩

/-- Then a step that leaves the handles alone does nothing to them. -/
theorem Handling.of_same (hs : Same sh sh') (hfs : Plain f fs) : Handling sh f fs sh' where
  made := hs.made
  runtimeRef h hh := by rw [hs.runtimeRef]; exact hh
  allHandles r h hh := .inl (by rw [hs.allHandles] at hh; exact hh)
  removable r h hh := .inl (by rw [hs.removable] at hh; exact hh)
  registers g hg := (hfs g hg).1
  resets r g hg hx := by rw [(hfs g hg).2] at hx; cases hx

/-- What is gone before a step is gone behind it. -/
theorem Handling.gone (hh : Handling sh f fs sh') {h : H} (hg : Gone sh h) : Gone sh' h :=
  ⟨by rw [hh.made]; exact hg.1, hh.runtimeRef h hg.2⟩

/-- Frames that hold nothing may be put above a stack if each of them is calm above it. -/
theorem Calm.prepend (hc : Calm sh rest) : ∀ {fs : List (Frame H R K)}, held fs = [] →
    (∀ g ∈ fs, held rest ≠ [] → g.Calm sh (held rest)) → Calm sh (fs ++ rest)
  | [], _, _ => hc
  | f :: fs, hheld, hfs => by
    have hnil : f.holds = [] ∧ held fs = [] := List.append_eq_nil_iff.1 hheld
    have heq : held (fs ++ rest) = held rest := by rw [held_append, hnil.2, List.nil_append]
    refine ⟨?_, Calm.prepend hc hnil.2 fun g hg => hfs g (List.mem_cons_of_mem f hg)⟩
    show held (fs ++ rest) ≠ [] → f.Calm sh (held (fs ++ rest))
    rw [heq]
    exact hfs f List.mem_cons_self

attribute [simp] Frame.registers Frame.resets

/-- `close` of a handle begins with no mutex held. -/
theorem closeFrame_holds (W : Handles H) (h : H) : (closeFrame W h : Frame H R K).holds = [] := by
  unfold closeFrame
  split <;> rfl

/-! ## Handles come and go -/

variable [DecidableEq H] [DecidableEq R]

/-- The section of `deregister_handle` puts a handle aside that has lost its `runtime_`. -/
theorem deregisterHandle_handling (sh : Shared H R K T P) (h : H) (r : R) :
    Handling sh (.close h (.deregister r)) [.close h .sysClose] (sh.deregisterHandle r h) := by
  unfold Shared.deregisterHandle
  split
  case isFalse => exact .of_same (.refl sh) (.of_all rfl)
  case isTrue hmem =>
    refine ⟨rfl, fun g hg => ?_, fun r' g hg => .inl ?_, fun r' g hg => ?_, by simp, by simp⟩
    · by_cases heq : g = h
      · subst heq; simp
      · simpa [heq] using hg
    · by_cases heq : r' = r
      · subst heq
        exact List.mem_of_mem_erase (by simpa using hg)
      · simpa [heq] using hg
    · by_cases heq : r' = r
      · subst heq
        rcases (by simpa using hg : g ∈ sh.removable r' ∨ g = h) with hold | rfl
        · exact .inl hold
        · exact .inr ⟨⟨r', hmem⟩, by simp⟩
      · exact .inl (by simpa [heq] using hg)

omit [DecidableEq H] in
/-- A handle is registered. -/
theorem insert_handling (sh : Shared H R K T P) (h : H) (r : R) :
    Handling sh (.register h r .find) [] (sh.insertHandle r h) := by
  refine ⟨rfl, fun g hg => hg, fun r' g hg => ?_, fun r' g hg => .inl hg, by simp, by simp⟩
  by_cases heq : r' = r
  · subst heq
    rcases (by simpa [Shared.insertHandle] using hg : g ∈ sh.allHandles r' ∨ g = h) with hold | rfl
    · exact .inl hold
    · exact .inr ⟨rfl, by simp [Frame.holds]⟩
  · exact .inl (by simpa [Shared.insertHandle, heq] using hg)

/-- An older handle is put aside for it. -/
theorem putAside_handling (W : Handles H) {sh : Shared H R K T P} {h prev : H} {r : R}
    (hprev : prev ∈ sh.allHandles r) :
    Handling sh (.register h r .find) [closeFrame W prev, .register h r (.replace prev)]
      (sh.putAside r prev) := by
  refine ⟨rfl, fun g hg => ?_, fun r' g hg => .inl hg, fun r' g hg => ?_, ?_, ?_⟩
  · by_cases heq : g = prev
    · subst heq; simp [Shared.putAside]
    · simpa [Shared.putAside, heq] using hg
  · by_cases heq : r' = r
    · subst heq
      rcases (by simpa [Shared.putAside] using hg : g ∈ sh.removable r' ∨ g = prev) with hold | rfl
      · exact .inl hold
      · exact .inr ⟨⟨r', hprev⟩, by simp [Shared.putAside]⟩
    · exact .inl (by simpa [Shared.putAside, heq] using hg)
  · simp [closeFrame]
  · simp [closeFrame]

/-- The handle takes the place of the older one. -/
theorem replace_handling (sh : Shared H R K T P) (h prev : H) (r : R) :
    Handling sh (.register h r (.replace prev)) [] (sh.replaceHandle r prev h) := by
  refine ⟨rfl, fun g hg => hg, fun r' g hg => ?_, fun r' g hg => .inl hg, by simp, by simp⟩
  by_cases heq : r' = r
  · subst heq
    obtain ⟨x, hx, hxg⟩ : ∃ x ∈ sh.allHandles r', (if x = prev then h else x) = g := by
      simpa [Shared.replaceHandle] using hg
    split at hxg
    · subst hxg
      exact .inr ⟨rfl, by simp [Frame.holds]⟩
    · subst hxg
      exact .inl hx
  · exact .inl (by simpa [Shared.replaceHandle, heq] using hg)

omit [DecidableEq H] in
/-- `removable_handles_` is swapped out. -/
theorem clearRemovable_handling (sh : Shared H R K T P) (r : R) (hplain : Plain f fs) :
    Handling sh f fs (sh.clearRemovable r) := by
  refine ⟨rfl, fun g hg => hg, fun r' g hg => .inl hg, fun r' g hg => .inl ?_,
    fun g hg => (hplain g hg).1, fun r' g hg hx => by rw [(hplain g hg).2] at hx; cases hx⟩
  by_cases heq : r' = r
  · subst heq
    simp [Shared.clearRemovable] at hg
  · simpa [Shared.clearRemovable, heq] using hg

omit [DecidableEq H] in
/-- `all_handles_` is swapped out. -/
theorem clearHandles_handling (sh : Shared H R K T P) (r : R) (hplain : Plain f fs) :
    Handling sh f fs (sh.clearHandles r) := by
  refine ⟨rfl, fun g hg => hg, fun r' g hg => .inl ?_, fun r' g hg => .inl hg,
    fun g hg => (hplain g hg).1, fun r' g hg hx => by rw [(hplain g hg).2] at hx; cases hx⟩
  by_cases heq : r' = r
  · subst heq
    simp [Shared.clearHandles] at hg
  · simpa [Shared.clearHandles, heq] using hg

omit [DecidableEq R] in
/-- Every `runtime_` is reset. -/
theorem resetRuntimes_handling (sh : Shared H R K T P) (r : R) :
    Handling sh (.exec r .releaseReset) [.exec r .releaseHandles] (sh.resetRuntimes r) := by
  refine ⟨rfl, fun g hg => ?_, fun r' g hg => .inl hg, fun r' g hg => .inl hg, by simp, ?_⟩
  · show (if g ∈ sh.allHandles r then none else sh.runtimeRef g) = none
    rw [hg, ite_self]
  · intro r' g hg hx h hh
    obtain rfl := List.mem_singleton.1 hg
    obtain rfl := Option.some.inj hx
    exact if_pos hh

/-! ## Locking and unlocking -/

variable [DecidableEq K]

/-- What a step of the frame `f` of the thread `t` does to the mutexes. -/
inductive Locking (sh : Shared H R K T P) (t : T) (f : Frame H R K) (held' : List (Mutex H R K))
    (owner' : Mutex H R K → Option T) : Prop
  /-- Nothing. -/
  | keep : owner' = sh.owner → held' = f.holds → Locking sh t f held' owner'
  /-- It locks those that the frame wants. -/
  | lock : (∀ m ∈ f.wants, sh.owner m = none) →
      (∀ m, owner' m = if m ∈ f.wants then some t else sh.owner m) →
      f.holds = [] → held' = f.wants → Locking sh t f held' owner'
  /-- It unlocks those that the frame holds. -/
  | unlock : (∀ m, owner' m = if m ∈ f.holds then none else sh.owner m) →
      held' = [] → Locking sh t f held' owner'

/-- What a step of the frame `f` of the thread `t` above the frames `rest` does, with the outcome
`o`. -/
structure Effect (sh : Shared H R K T P) (t : T) (f : Frame H R K) (rest : List (Frame H R K))
    (o : Outcome H R K T P) : Prop where
  locking : Locking sh t f (held o.1) o.2.1.owner
  handling : Handling sh f o.1 o.2.1
  /-- The stack stays calm. -/
  calm : Calm o.2.1 (o.1 ++ rest)
  /-- User code runs outside. -/
  events : o.2.2 ≠ [] → held (f :: rest) = []

/-- The owners of the mutexes are nothing to the handles. -/
theorem Handling.setOwner (hh : Handling sh f fs sh') (ms : List (Mutex H R K)) (u : Option T) :
    Handling sh f fs (sh'.setOwner ms u) :=
  ⟨hh.made, hh.runtimeRef, hh.allHandles, hh.removable, hh.registers, hh.resets⟩

/-- Nor to the frames of a stack. -/
theorem Calm.setOwner (hc : Calm sh rest) (ms : List (Mutex H R K)) (u : Option T) :
    Calm (sh.setOwner ms u) rest := by
  have hgone : ∀ h, Gone sh h → Gone (sh.setOwner ms u) h := fun h hg => hg
  exact hc.mono hgone

/-- A step that locks. -/
theorem lockInto_effect (ho : lockInto sh t f f' = some o) (hc : Calm sh (f :: rest))
    (hholds : f.holds = []) (hwants : f'.holds = f.wants) (hfs : Plain f [f'])
    (hcalm : held rest ≠ [] → f.Calm sh (held rest) → f'.Calm sh (held rest)) :
    Effect sh t f rest o := by
  unfold lockInto at ho
  split at ho
  case isFalse => cases ho
  case isTrue hfree =>
    obtain rfl := Option.some.inj ho
    have hfree : ∀ m ∈ f.wants, sh.owner m = none := fun m hm => by
      simpa using List.all_eq_true.1 hfree m hm
    refine ⟨.lock hfree (fun m => rfl) hholds (by simp [hwants]), ?_, ?_, fun hne => absurd rfl hne⟩
    · exact (Handling.of_same (.refl sh) hfs).setOwner _ _
    · have hc' : Calm sh ([f'] ++ rest) := ⟨fun hheld => hcalm hheld (hc.1 hheld), hc.2⟩
      exact hc'.setOwner _ _

/-- A step that unlocks. -/
theorem unlockInto_effect (ho : unlockInto sh' f fs = some o) (howner : sh'.owner = sh.owner)
    (hfs : held fs = []) (hh : Handling sh f fs sh') (hc : Calm sh' (fs ++ rest)) :
    Effect sh t f rest o := by
  obtain rfl := Option.some.inj ho
  refine ⟨.unlock (fun m => ?_) hfs, hh.setOwner _ _, hc.setOwner _ _, fun hne => absurd rfl hne⟩
  simp [Shared.setOwner, howner]

/-- Another step that leaves the handles alone, of a frame that holds nothing. -/
theorem moves_effect (hc : Calm sh rest) (hs : Same sh sh') (hholds : f.holds = [])
    (hfs : held fs = []) (hplain : Plain f fs)
    (hcalm : held rest ≠ [] → ∀ g ∈ fs, g.Calm sh (held rest)) :
    Effect sh t f rest (fs, sh', []) := by
  have hgone : ∀ h, Gone sh h → Gone sh' h := fun h => (Handling.of_same hs hplain).gone
  refine ⟨.keep hs.owner (hfs.trans hholds.symm), .of_same hs hplain, ?_, fun hne => absurd rfl hne⟩
  exact (hc.mono hgone).prepend hfs fun g hg hheld => (hcalm hheld g hg).mono hgone

section Outermost

variable (hrest : held rest = []) (hc : Calm sh rest)
include hrest hc

/-- A step that locks, with no mutex held. -/
theorem lockInto_outermost (ho : lockInto sh t f f' = some o) (hholds : f.holds = [])
    (hwants : f'.holds = f.wants) (hfs : Plain f [f']) : Effect sh t f rest o :=
  lockInto_effect ho ⟨fun hheld => absurd hrest hheld, hc⟩ hholds hwants hfs
    fun hheld => absurd hrest hheld

/-- A step that unlocks and leaves the handles alone, with no other mutex held. -/
theorem unlockInto_outermost (ho : unlockInto sh' f fs = some o) (hs : Same sh sh')
    (hfs : held fs = []) (hplain : Plain f fs) : Effect sh t f rest o := by
  have hgone : ∀ h, Gone sh h → Gone sh' h := fun h => (Handling.of_same hs hplain).gone
  refine unlockInto_effect ho hs.owner hfs (.of_same hs hplain) ?_
  exact (hc.mono hgone).prepend hfs fun g _ hheld => absurd hrest hheld

/-- Another step that leaves the handles alone, with no other mutex held. -/
theorem moves_outermost {es : List (Fate × Callback H K)} (hs : Same sh sh')
    (hfs : held fs = f.holds) (hplain : Plain f fs) (hcalm : Calm sh fs)
    (hes : es ≠ [] → f.holds = []) : Effect sh t f rest (fs, sh', es) := by
  have hgone : ∀ h, Gone sh h → Gone sh' h := fun h => (Handling.of_same hs hplain).gone
  refine ⟨.keep hs.owner hfs, .of_same hs hplain, ?_, fun hne => ?_⟩
  · exact Calm.append hrest (hc.mono hgone) (hcalm.mono hgone)
  · rw [held_cons, hes hne, hrest, List.nil_append]

end Outermost

/-! ## The calls -/

/-- A step that copies callbacks into a queue in its section, with no other mutex held: what user
code does then is not recorded. -/
theorem copyInto_outermost {callbacks : List (Callback H K)} (hrest : held rest = [])
    (hc : Calm sh rest) (ho : copyInto byValue sh' f f' callbacks fs = some o) (hs : Same sh sh')
    (hf' : f'.holds = f.holds) (hplain' : Plain f [.user, f']) (hfs : held fs = [])
    (hplain : Plain f fs) : Effect sh t f rest o := by
  unfold copyInto at ho
  split at ho
  · obtain rfl := Option.some.inj ho
    refine moves_outermost hrest hc hs ?_ hplain' ?_ fun hne => absurd rfl hne
    · rw [held_cons, held_cons, hf', held_nil, List.append_nil]
      rfl
    · simp [Calm, Frame.Calm]
  · exact unlockInto_outermost hrest hc ho hs hfs hplain

/-- Copies that share what they refer to are destroyed without user code. -/
theorem dropInto_of_shared {callbacks : List (Callback H K)}
    (hshared : callbacks.any byValue = false) :
    dropInto byValue sh f f' callbacks fs = unlockInto sh f fs := by
  simp [dropInto, hshared]

omit [DecidableEq H] [DecidableEq R] [DecidableEq K] in
/-- An operation that may be taken off has captured nothing by value. -/
theorem shared_of_front {h : H} {d : Dir} {op : ℕ} {ops : List ℕ} (hq : sh.queue h d = op :: ops)
    (hfront : sh.frontByValue byValue h d = false) :
    [Callback.operation h d op].any byValue = false := by
  simpa [Shared.frontByValue, hq] using hfront

/-- A step of a call of `do_read` or `do_write`. -/
theorem advanceIo_effect {h : H} {d : Dir} {done yes : Bool} {now : ℤ} {pc : IoPc}
    (hc : Calm sh (.doIo h d pc :: rest))
    (hspared : (Frame.doIo h d pc).spared W byValue sh yes now rest = true)
    (ho : advanceIo byValue sh t h d done pc = some o) : Effect sh t (.doIo h d pc) rest o := by
  have hrest : held rest = [] := hc.held_eq id
  cases pc with
  | lock => exact lockInto_outermost hrest hc.2 ho rfl rfl (.of_all rfl)
  | exec =>
    simp only [advanceIo] at ho
    split at ho
    case isTrue => exact unlockInto_outermost hrest hc.2 ho (.refl sh) rfl (.of_all rfl)
    case isFalse hopen =>
      split at ho
      case h_1 => exact unlockInto_outermost hrest hc.2 ho (.refl sh) rfl (.of_all rfl)
      case h_2 op ops hq =>
        have hfront : sh.frontByValue byValue h d = false := by
          simpa [Frame.spared, hopen] using hspared
        -- The copy shares what the callback refers to, so that it goes without user code.
        have hshared := shared_of_front hq hfront
        split at ho
        · rw [dropInto_of_shared hshared] at ho
          exact unlockInto_outermost hrest hc.2 ho ⟨rfl, rfl, rfl, rfl, rfl⟩ rfl (.of_all rfl)
        · rw [dropInto_of_shared hshared] at ho
          exact unlockInto_outermost hrest hc.2 ho (.refl sh) rfl (.of_all rfl)
  | dropped | popped => exact unlockInto_outermost hrest hc.2 ho (.refl sh) rfl (.of_all rfl)
  | call op =>
    obtain rfl := Option.some.inj ho
    exact moves_outermost hrest hc.2 (.refl sh) rfl (.of_all rfl)
      (by simp [Calm, Frame.Calm]) fun _ => rfl
  | dropCopy =>
    obtain rfl := Option.some.inj ho
    exact moves_outermost hrest hc.2 (.refl sh) rfl (.of_all rfl)
      (by simp [Calm, Frame.Calm]) fun _ => rfl

/-- A step of a call of `close`; the callbacks that are left are invoked with no mutex held. -/
theorem advanceClose_effect {h : H} {pc : ClosePc R} {yes : Bool} {now : ℤ}
    (hc : Calm sh (.close h pc :: rest))
    (hspared : (Frame.close h pc).spared W byValue sh yes now rest = true)
    (ho : advanceClose byValue sh t W h pc = some o) : Effect sh t (.close h pc) rest o := by
  have hf : held rest ≠ [] → Gone sh h ∧ pc.calm = true ∧ ∀ m ∈ held rest, m.isHandles = true :=
    hc.1
  -- Where `close` may not stand under a mutex, there is none.
  have houter : pc.calm = false → held rest = [] := fun hpc => by
    by_contra hheld
    rw [(hf hheld).2.1] at hpc
    cases hpc
  cases pc with
  | cas =>
    simp only [advanceClose] at ho
    split at ho
    · obtain rfl := Option.some.inj ho
      exact moves_effect hc.2 (.refl sh) rfl rfl (.of_all rfl) (by simp)
    · obtain rfl := Option.some.inj ho
      refine moves_effect hc.2 ⟨rfl, rfl, rfl, rfl, rfl⟩ rfl rfl (.of_all rfl) fun hheld => ?_
      simpa [Frame.Calm, ClosePc.calm] using hf hheld
  | lockRuntime =>
    simp only [advanceClose] at ho
    split at ho
    case h_1 r hr =>
      obtain rfl := Option.some.inj ho
      refine moves_effect hc.2 (.refl sh) rfl rfl (.of_all rfl) fun hheld => ?_
      -- A handle that is gone has no runtime.
      have hnone := (hf hheld).1.2
      rw [hr] at hnone
      cases hnone
    case h_2 =>
      obtain rfl := Option.some.inj ho
      refine moves_effect hc.2 (.refl sh) rfl rfl (.of_all rfl) fun hheld => ?_
      simpa [Frame.Calm, ClosePc.calm] using hf hheld
  | lockHandles r =>
    exact lockInto_outermost (houter rfl) hc.2 ho rfl rfl (.of_all rfl)
  | deregister r =>
    have hrest := houter rfl
    have hh := deregisterHandle_handling sh h r
    have howner : (sh.deregisterHandle r h).owner = sh.owner := by
      unfold Shared.deregisterHandle
      split <;> rfl
    exact unlockInto_effect ho howner rfl hh
      ((hc.2.mono fun g => hh.gone).prepend rfl fun g _ hheld => absurd hrest hheld)
  | sysClose =>
    obtain rfl := Option.some.inj ho
    refine moves_effect hc.2 (.refl sh) rfl ?_ ?_ fun hheld => ?_
    · split <;> rfl
    · split <;> simp [Plain]
    · split
      · simpa [Frame.Calm, ClosePc.calm] using hf hheld
      · simp
  | drain d pc =>
    cases pc with
    | lock =>
      refine lockInto_effect ho hc rfl rfl (.of_all rfl) fun hheld _ => ?_
      simpa [Frame.Calm, ClosePc.calm] using hf hheld
    | test =>
      simp only [advanceClose] at ho
      split at ho
      case h_1 =>
        refine unlockInto_effect ho rfl ?_ (.of_same (.refl sh) ?_) (hc.2.prepend ?_ ?_)
        · cases d <;> rfl
        · cases d <;> simp [Plain]
        · cases d <;> rfl
        · intro g hg hheld
          cases d with
          | write => cases hg
          | read =>
            obtain rfl := List.mem_singleton.1 hg
            simpa [Frame.Calm, ClosePc.calm] using hf hheld
      case h_2 op ops hq =>
        obtain ⟨hrest, hfront⟩ : held rest = [] ∧ sh.frontByValue byValue h d = false := by
          simpa [Frame.spared, hq] using hspared
        rw [dropInto_of_shared (shared_of_front hq hfront)] at ho
        exact unlockInto_outermost hrest hc.2 ho ⟨rfl, rfl, rfl, rfl, rfl⟩ rfl (.of_all rfl)
    | popped op => exact unlockInto_outermost (houter rfl) hc.2 ho (.refl sh) rfl (.of_all rfl)
    | call op =>
      obtain rfl := Option.some.inj ho
      exact moves_outermost (houter rfl) hc.2 (.refl sh) rfl (.of_all rfl)
        (by simp [Calm, Frame.Calm]) fun _ => rfl
    | relock => exact lockInto_outermost (houter rfl) hc.2 ho rfl rfl (.of_all rfl)
    | dropCopy =>
      obtain rfl := Option.some.inj ho
      exact moves_outermost (houter rfl) hc.2 (.refl sh) rfl (.of_all rfl)
        (by simp [Calm, Frame.Calm]) fun hne => absurd rfl hne

/-- A step of a call of `register_handle`. -/
theorem advanceRegister_effect {h : H} {r : R} {pc : RegisterPc H}
    (hc : Calm sh (.register h r pc :: rest)) (hk : Known sh (.register h r pc))
    (ho : advanceRegister sh t W h r pc = some o) : Effect sh t (.register h r pc) rest o := by
  have hrest : held rest = [] := hc.held_eq id
  cases pc with
  | lock => exact lockInto_outermost hrest hc.2 ho rfl rfl (by simp [Plain])
  | find =>
    simp only [advanceRegister] at ho
    split at ho
    case h_1 =>
      have hh := insert_handling sh h r
      exact unlockInto_effect ho rfl rfl hh (hc.2.mono fun g => hh.gone)
    case h_2 prev hfind =>
      obtain rfl := Option.some.inj ho
      have hprev : prev ∈ sh.allHandles r := List.mem_of_find?_eq_some hfind
      have hh := putAside_handling W (h := h) hprev
      refine ⟨.keep rfl ?_, hh, ?_, fun hne => absurd rfl hne⟩
      · rw [held_cons, closeFrame_holds]; rfl
      · -- The older handle is gone when `close` of it begins.
        have hgone : Gone (sh.putAside r prev) prev :=
          ⟨hk.made r prev hprev, by simp [Shared.putAside]⟩
        refine Calm.append hrest (hc.2.mono fun g => hh.gone) ⟨fun _ => ⟨hgone, ?_, ?_⟩, ?_⟩
        · split <;> rfl
        · simp [Frame.holds, Mutex.isHandles]
        · simp [Calm]
  | replace prev =>
    have hh := replace_handling sh h prev r
    exact unlockInto_effect ho rfl rfl hh (hc.2.mono fun g => hh.gone)

/-- Handles that are gone are destroyed in a section of `Runtime::exec`. -/
theorem destroys_effect {hs : List H} {r : R} {pc pc' : ExecPc} (hrest : held rest = [])
    (hc : Calm sh rest) (hh : Handling sh (.exec r pc) [.destroy hs, .exec r pc'] sh')
    (howner : sh'.owner = sh.owner) (hpc : (Frame.exec r pc : Frame H R K).holds = [.handles r])
    (hpc' : (Frame.exec r pc' : Frame H R K).holds = [.handles r]) (hgone : ∀ h ∈ hs, Gone sh h) :
    Effect sh t (.exec r pc) rest ([.destroy hs, .exec r pc'], sh', []) := by
  refine ⟨.keep howner ?_, hh, ?_, fun hne => absurd rfl hne⟩
  · rw [held_cons, held_cons, hpc, hpc']
    rfl
  · refine Calm.append hrest (hc.mono fun g => hh.gone) ⟨fun _ => ⟨fun h hmem => ?_, ?_⟩, ?_⟩
    · exact hh.gone (hgone h hmem)
    · rw [held_cons, hpc']
      simp [Mutex.isHandles]
    · simp [Calm]

/-- A step of a thread inside `Runtime::exec`. -/
theorem advanceExec_effect {r : R} {pc : ExecPc} (hc : Calm sh (.exec r pc :: rest))
    (hk : Known sh (.exec r pc)) (ho : advanceExec sh t r pc = some o) :
    Effect sh t (.exec r pc) rest o := by
  have hrest : held rest = [] := hc.held_eq id
  cases pc with
  | loop => cases ho
  | copyLock | clearLock | releaseLock =>
    exact lockInto_outermost hrest hc.2 ho rfl rfl (.of_all rfl)
  | copy | cleared | released =>
    exact unlockInto_outermost hrest hc.2 ho (.refl sh) rfl (.of_all rfl)
  | clear | releaseRemovable =>
    obtain rfl := Option.some.inj ho
    exact destroys_effect hrest hc.2 (clearRemovable_handling sh r (.of_all rfl)) rfl rfl rfl
      (hk.removable r)
  | releaseReset =>
    obtain rfl := Option.some.inj ho
    have hh := resetRuntimes_handling (K := K) sh r
    refine ⟨.keep rfl rfl, hh, ?_, fun hne => absurd rfl hne⟩
    exact Calm.append hrest (hc.2.mono fun g => hh.gone) (by simp [Calm])
  | releaseHandles =>
    obtain rfl := Option.some.inj ho
    exact destroys_effect hrest hc.2 (clearHandles_handling sh r (.of_all rfl)) rfl rfl rfl
      fun h hmem => ⟨hk.made r h hmem, hk.resets r rfl h hmem⟩

omit [DecidableEq H] [DecidableEq R] [DecidableEq K] in
/-- Under the condition, what a tick collects has captured nothing by value. -/
theorem shared_of_collect {k : K} {now : ℤ} (hticks : sh.TicksShared byValue k now) :
    (((Timer.collect P now (sh.waiters k)).1.map WaitOperation.callback).map
      (Callback.wait k)).any byValue = false := by
  rcases hticks with ⟨late, hlate, hnow⟩ | hshared
  · have hfail : Timer.isDue now late = false := by simpa [Timer.isDue] using hnow
    simp [Timer.collect, PriorityQueue.popWhile_nothing Timer.isDue_of_not_lt hlate hfail]
  · obtain ⟨-, helems⟩ := PriorityQueue.popWhile_elems (Timer.isDue now) (sh.waiters k)
    rw [List.map_map, List.any_map, List.any_eq_false]
    intro w hw
    have hmem : w ∈ P.elems (sh.waiters k) := by
      rw [helems, Multiset.mem_add]
      exact .inl hw
    simp [hshared w hmem]

/-- A step of a thread inside `Timer::exec`. -/
theorem advanceTimer_effect {k : K} {stopped yes : Bool} {now : ℤ} {pc : TimerPc}
    (hc : Calm sh (.timer k pc :: rest))
    (hspared : (Frame.timer k pc).spared W byValue sh yes now rest = true)
    (ho : advanceTimer byValue sh t k stopped now pc = some o) :
    Effect sh t (.timer k pc) rest o := by
  have hrest : held rest = [] := hc.held_eq id
  cases pc with
  | guard =>
    obtain rfl := Option.some.inj ho
    refine moves_outermost hrest hc.2 (.refl sh) ?_ ?_ ?_ fun hne => absurd rfl hne
    · cases stopped <;> rfl
    · cases stopped <;> simp [Plain]
    · cases stopped <;> simp [Calm]
  | lock | lockWait | waiting | lockClear =>
    exact lockInto_outermost hrest hc.2 ho rfl rfl (.of_all rfl)
  | collect =>
    have hshared := shared_of_collect (of_decide_eq_true hspared)
    simp only [advanceTimer, dropInto_of_shared hshared] at ho
    exact unlockInto_outermost hrest hc.2 ho ⟨rfl, rfl, rfl, rfl, rfl⟩ rfl (.of_all rfl)
  | popped operations => exact unlockInto_outermost hrest hc.2 ho (.refl sh) rfl (.of_all rfl)
  | fire operations =>
    cases operations with
    | nil =>
      obtain rfl := Option.some.inj ho
      exact moves_outermost hrest hc.2 (.refl sh) rfl (.of_all rfl)
        (by simp [Calm, Frame.Calm]) fun hne => absurd rfl hne
    | cons operation operations =>
      obtain rfl := Option.some.inj ho
      exact moves_outermost hrest hc.2 (.refl sh) rfl (.of_all rfl)
        (by simp [Calm, Frame.Calm]) fun _ => rfl
  | test =>
    refine unlockInto_outermost hrest hc.2 ho (.refl sh) ?_ ?_
    · split <;> rfl
    · split <;> simp [Plain]
  | woken =>
    refine unlockInto_outermost hrest hc.2 ho (.refl sh) ?_ ?_
    · cases stopped <;> rfl
    · cases stopped <;> simp [Plain]
  | clear =>
    -- Nothing is left.
    have hempty : (P.top (sh.waiters k)).isNone = true := hspared
    simp only [advanceTimer, hempty, if_true] at ho
    obtain rfl := Option.some.inj ho
    exact moves_outermost hrest hc.2 (.refl sh) rfl (.of_all rfl) (by simp [Calm])
      fun hne => absurd rfl hne
  | cleared => exact unlockInto_outermost hrest hc.2 ho (.refl sh) rfl (.of_all rfl)

/-- A step of the destructors of handles. -/
theorem destroy_effect {hs : List H} {yes : Bool} {now : ℤ} (hc : Calm sh (.destroy hs :: rest))
    (hspared : (Frame.destroy hs).spared W byValue sh yes now rest = true)
    (ho : advance W byValue sh t yes now (.destroy hs) = some o) :
    Effect sh t (.destroy hs) rest o := by
  have hf : held rest ≠ [] → (∀ h ∈ hs, Gone sh h) ∧ ∀ m ∈ held rest, m.isHandles = true := hc.1
  cases hs with
  | nil =>
    obtain rfl := Option.some.inj ho
    exact moves_effect hc.2 (.refl sh) rfl rfl (.of_all rfl) (by simp)
  | cons h hs =>
    have hcalm : held rest ≠ [] → (Frame.destroy hs).Calm sh (held rest) := fun hheld =>
      ⟨fun g hg => (hf hheld).1 g (List.mem_cons_of_mem h hg), (hf hheld).2⟩
    simp only [advance] at ho
    split at ho
    · obtain rfl := Option.some.inj ho
      exact moves_effect hc.2 (.refl sh) rfl rfl (.of_all rfl) fun hheld => by
        simpa using hcalm hheld
    · rename_i hyes
      split at ho
      · -- The destructor of a socket closes it.
        obtain rfl := Option.some.inj ho
        refine moves_effect hc.2 (.refl sh) rfl rfl (.of_all rfl) fun hheld => ?_
        have hclose : (Frame.close h .cas).Calm sh (held rest) :=
          ⟨(hf hheld).1 h List.mem_cons_self, rfl, (hf hheld).2⟩
        intro g hg
        rcases List.mem_cons.1 hg with rfl | hg
        · exact hclose
        · rcases List.mem_pair.1 hg with rfl | rfl
          · trivial
          · exact hcalm hheld
      · rename_i hsocket
        obtain rfl := Option.some.inj ho
        refine ⟨.keep rfl rfl, .of_same (.refl sh) (.of_all rfl), ?_, fun hne => ?_⟩
        · refine hc.2.prepend rfl fun g hg hheld => ?_
          rcases List.mem_pair.1 hg with rfl | rfl
          · trivial
          · exact hcalm hheld
        · -- The callback of an acceptor that has never been invoked.
          by_cases haccepted : sh.accepted h = true
          · exact absurd (if_pos haccepted) hne
          · simpa [Frame.spared, hyes, hsocket, haccepted, Frame.holds] using hspared

/-- A step of the innermost frame, where it keeps to the condition. -/
theorem advance_effect {yes : Bool} {now : ℤ} (hc : Calm sh (f :: rest)) (hk : Known sh f)
    (hspared : f.spared W byValue sh yes now rest = true)
    (ho : advance W byValue sh t yes now f = some o) : Effect sh t f rest o := by
  cases f with
  | user => cases ho
  | submit h d pc =>
    have hrest : held rest = [] := hc.held_eq id
    cases pc with
    | lock => exact lockInto_outermost hrest hc.2 ho rfl rfl (.of_all rfl)
    | push =>
      simp only [advance] at ho
      split at ho
      · exact unlockInto_outermost hrest hc.2 ho (.refl sh) rfl (.of_all rfl)
      · exact copyInto_outermost hrest hc.2 ho ⟨rfl, rfl, rfl, rfl, rfl⟩ rfl (.of_all rfl) rfl
          (.of_all rfl)
    | pushed => exact unlockInto_outermost hrest hc.2 ho (.refl sh) rfl (.of_all rfl)
  | cancel h pc =>
    have hrest : held rest = [] := hc.held_eq id
    cases pc with
    | lock => exact lockInto_outermost hrest hc.2 ho rfl rfl (.of_all rfl)
    | clear =>
      -- Nothing is pending.
      have hempty : sh.pending h = [] := List.isEmpty_iff.1 hspared
      simp only [advance, hempty] at ho
      obtain rfl := Option.some.inj ho
      exact moves_outermost hrest hc.2 ⟨rfl, rfl, rfl, rfl, rfl⟩ rfl (.of_all rfl)
        (by simp [Calm, userFor]) fun hne => absurd rfl hne
    | unlock => exact unlockInto_outermost hrest hc.2 ho (.refl sh) rfl (.of_all rfl)
  | close h pc => exact advanceClose_effect hc hspared ho
  | register h r pc => exact advanceRegister_effect hc hk ho
  | destroy hs => exact destroy_effect hc hspared ho
  | members h =>
    obtain rfl := Option.some.inj ho
    have hs : Same sh (sh.clearQueues h) := ⟨rfl, rfl, rfl, rfl, rfl⟩
    have huser : ∀ g ∈ (userFor (sh.pending h) : List (Frame H R K)), g = .user := by
      cases sh.pending h <;> simp [userFor]
    have hfs : held (userFor (sh.pending h) : List (Frame H R K)) = [] := by
      cases sh.pending h <;> rfl
    have hh : Handling sh (.members h) (userFor (sh.pending h)) (sh.clearQueues h) :=
      .of_same hs fun g hg => by simp [huser g hg]
    refine ⟨.keep rfl hfs, hh, ?_, fun hne => ?_⟩
    · refine (hc.2.mono fun g => hh.gone).prepend hfs fun g hg _ => ?_
      rw [huser g hg]
      trivial
    · have hpending : sh.pending h ≠ [] := fun hnil => hne (by simp [hnil])
      simpa [Frame.spared, hpending, Frame.holds] using hspared
  | doIo h d pc => exact advanceIo_effect hc hspared ho
  | doAccept h pc =>
    have hrest : held rest = [] := hc.held_eq id
    cases pc with
    | lockRuntime =>
      simp only [advance] at ho
      split at ho
      · obtain rfl := Option.some.inj ho
        exact moves_effect hc.2 (.refl sh) rfl rfl (.of_all rfl) fun hheld => absurd hrest hheld
      · obtain rfl := Option.some.inj ho
        exact moves_effect hc.2 (.refl sh) rfl rfl (.of_all rfl) fun hheld => absurd hrest hheld
    | accept r =>
      simp only [advance] at ho
      split at ho
      · cases ho
      · obtain rfl := Option.some.inj ho
        exact moves_effect hc.2 (.refl sh) rfl rfl (.of_all rfl) fun hheld => absurd hrest hheld
    | call r =>
      obtain rfl := Option.some.inj ho
      exact moves_outermost hrest hc.2 ⟨rfl, rfl, rfl, rfl, rfl⟩ rfl (.of_all rfl)
        (by simp [Calm, Frame.Calm]) fun _ => rfl
  | exec r pc => exact advanceExec_effect hc hk ho
  | asyncWait k timePoint name pc =>
    have hrest : held rest = [] := hc.held_eq id
    cases pc with
    | lock => exact lockInto_outermost hrest hc.2 ho rfl rfl (.of_all rfl)
    | push =>
      exact copyInto_outermost hrest hc.2 ho ⟨rfl, rfl, rfl, rfl, rfl⟩ rfl (.of_all rfl) rfl
        (.of_all rfl)
    | pushed => exact unlockInto_outermost hrest hc.2 ho (.refl sh) rfl (.of_all rfl)
  | timer k pc => exact advanceTimer_effect hc hspared ho

/-! ## Every run -/

/-- Whether a frame holds the mutex. -/
def Frame.guards (m : Mutex H R K) (f : Frame H R K) : Bool := f.holds.contains m

/-- It does if it is among those that the frame holds. -/
theorem guards_eq_true {m : Mutex H R K} : f.guards m = true ↔ m ∈ f.holds :=
  List.contains_iff_mem

/-- If no mutex is held twice, one frame holds a mutex that is held. -/
theorem countP_guards (m : Mutex H R K) : ∀ {fs : List (Frame H R K)}, (held fs).Nodup →
    fs.countP (Frame.guards m) = if m ∈ held fs then 1 else 0
  | [], _ => rfl
  | f :: fs, hnodup => by
    have hnodup : (f.holds ++ held fs).Nodup := hnodup
    obtain ⟨-, hfs, hdisjoint⟩ := List.nodup_append.1 hnodup
    rw [List.countP_cons, countP_guards m hfs]
    by_cases hf : m ∈ f.holds
    · have hnot : m ∉ held fs := fun hmem => hdisjoint m hf m hmem rfl
      simp [Frame.guards, hf, hnot]
    · simp [Frame.guards, hf]

/-- If none is held, no frame does. -/
theorem countP_guards_eq_zero (m : Mutex H R K) {fs : List (Frame H R K)} (hfs : held fs = []) :
    fs.countP (Frame.guards m) = 0 := by
  rw [countP_guards m (hfs ▸ List.nodup_nil), hfs]
  rfl

omit [DecidableEq H] [DecidableEq R] [DecidableEq K] in
/-- No frame holds a mutex twice. -/
theorem holds_nodup (f : Frame H R K) : f.holds.Nodup := by
  unfold Frame.holds
  split <;> simp

omit [DecidableEq H] [DecidableEq R] [DecidableEq K] in
/-- No frame locks a mutex twice. -/
theorem wants_nodup (f : Frame H R K) : f.wants.Nodup := by
  unfold Frame.wants
  split <;> simp

variable [DecidableEq T] {s : State H R K T P}

/-- What holds of everything reached: the mutexes have the owners whose frames hold them, the stacks
are calm, and the handles are as the steps expect them. -/
structure Inv (s : State H R K T P) : Prop where
  guarded : ∀ m, Guarded (Frame.guards m) (s.shared.owner m) s.stack
  calm : ∀ t, Calm s.shared (s.stack t)
  made : ∀ r, ∀ h ∈ s.shared.allHandles r, s.shared.made h = true
  removable : ∀ r, ∀ h ∈ s.shared.removable r, Gone s.shared h
  registers : ∀ t, ∀ f ∈ s.stack t, ∀ h r, f.registers = some (h, r) → s.shared.made h = true
  resets : ∀ t, ∀ f ∈ s.stack t, ∀ r, f.resets = some r →
    ∀ h ∈ s.shared.allHandles r, s.shared.runtimeRef h = none

/-- A step that locks, unlocks, or does neither leaves every mutex with the owner that holds it. -/
theorem Locking.guarded {owner' : Mutex H R K → Option T}
    (hl : Locking s.shared t f (held fs) owner')
    (h : ∀ m, Guarded (Frame.guards m) (s.shared.owner m) s.stack) (hst : s.stack t = f :: rest)
    (m : Mutex H R K) :
    Guarded (Frame.guards m) (owner' m) (Function.update s.stack t (fs ++ rest)) := by
  have hold : (s.stack t).countP (Frame.guards m)
      = (if m ∈ f.holds then 1 else 0) + rest.countP (Frame.guards m) := by
    have hf : (held [f]).Nodup := by simpa using holds_nodup f
    have hcount := countP_guards m hf
    rw [hst, ← List.singleton_append, List.countP_append, hcount]
    simp
  have hnew : (held fs).Nodup → (fs ++ rest).countP (Frame.guards m)
      = (if m ∈ held fs then 1 else 0) + rest.countP (Frame.guards m) := fun hnodup => by
    rw [List.countP_append, countP_guards m hnodup]
  have hm := h m
  cases hl with
  | keep howner hheld =>
    rw [howner]
    refine hm.keep ?_
    rw [hnew (hheld ▸ holds_nodup f), hold, hheld]
  | lock hfree howner hholds hheld =>
    rw [hheld] at hnew
    have hnew := hnew (wants_nodup f)
    rw [hholds] at hold
    rw [howner m]
    by_cases hw : m ∈ f.wants
    · rw [if_pos hw] at hnew ⊢
      rw [hfree m hw] at hm
      refine hm.acquire ?_
      rw [hnew, hold]
      simp [Nat.add_comm]
    · rw [if_neg hw] at hnew ⊢
      refine hm.keep ?_
      rw [hnew, hold]
      simp
  | unlock howner hheld =>
    rw [hheld] at hnew
    have hnew := hnew List.nodup_nil
    rw [howner m]
    by_cases hh : m ∈ f.holds
    · rw [if_pos hh] at hold ⊢
      refine hm.release ?_
      rw [hnew, hold]
      simp [Nat.add_comm]
    · rw [if_neg hh] at hold ⊢
      refine hm.keep ?_
      rw [hnew, hold]
      simp

omit [DecidableEq H] [DecidableEq R] [DecidableEq K] in
/-- A frame behind the reset holds the mutex of its runtime. -/
theorem mem_holds_of_resets {r : R} (hf : f.resets = some r) : .handles r ∈ f.holds := by
  unfold Frame.resets at hf
  split at hf
  · obtain rfl := Option.some.inj hf
    simp [Frame.holds]
  · cases hf

/-- What a step of a frame may expect of the handles. -/
theorem Inv.known (hi : Inv s) (hf : f ∈ s.stack t) : Known s.shared f :=
  ⟨hi.made, hi.removable, hi.registers t f hf, hi.resets t f hf⟩

/-- A step of the innermost frame of a thread keeps the invariant. -/
theorem Inv.go (hi : Inv s) (hst : s.stack t = f :: rest)
    (he : Effect s.shared t f rest o) :
    Inv ⟨o.2.1, Function.update s.stack t (o.1 ++ rest)⟩ := by
  obtain ⟨fs, sh', es⟩ := o
  have hh : Handling s.shared f fs sh' := he.handling
  have hmade : ∀ r, ∀ h ∈ sh'.allHandles r, sh'.made h = true := by
    intro r h hmem
    rw [hh.made]
    rcases hh.allHandles r h hmem with hold | ⟨hreg, -⟩
    · exact hi.made r h hold
    · exact hi.registers t f (by simp [hst]) h r hreg
  refine ⟨he.locking.guarded hi.guarded hst, fun u => ?_, hmade, fun r h hmem => ?_,
    fun u g hg h r hreg => ?_, fun u g hg r hres h hmem => ?_⟩
  · show Calm sh' (Function.update s.stack t (fs ++ rest) u)
    by_cases hu : u = t
    · subst hu
      rw [Function.update_self]
      exact he.calm
    · rw [Function.update_of_ne hu]
      exact (hi.calm u).mono fun h => hh.gone
  · rcases hh.removable r h hmem with hold | ⟨⟨r', hall⟩, hnone⟩
    · exact hh.gone (hi.removable r h hold)
    · exact ⟨by rw [hh.made]; exact hi.made r' h hall, hnone⟩
  · show sh'.made h = true
    rw [hh.made]
    rcases mem_update.1 hg with ⟨rfl, hnew⟩ | ⟨-, hold⟩
    · rcases List.mem_append.1 hnew with hfs | hrest
      · rcases hh.registers g hfs with hnone | heq
        · rw [hnone] at hreg; cases hreg
        · exact hi.registers u f (by simp [hst]) h r (heq ▸ hreg)
      · exact hi.registers u g (by simp [hst, hrest]) h r hreg
    · exact hi.registers u g hold h r hreg
  · -- While a frame is behind the reset of a runtime, no other one registers a handle with it.
    have hstay : g ∈ s.stack u → (u = t → g ∈ rest) → sh'.runtimeRef h = none := by
      intro hold hrest
      rcases hh.allHandles r h hmem with hall | ⟨-, hholds⟩
      · exact hh.runtimeRef h (hi.resets u g hold r hres h hall)
      · have hnot := (hi.guarded (.handles r)).only hst hold hrest
          (guards_eq_true.2 (mem_holds_of_resets hres))
        rw [guards_eq_true.2 hholds] at hnot
        cases hnot
    rcases mem_update.1 hg with ⟨rfl, hnew⟩ | ⟨hne, hold⟩
    · rcases List.mem_append.1 hnew with hfs | hrest
      · exact hh.resets r g hfs hres h hmem
      · exact hstay (by simp [hst, hrest]) fun _ => hrest
    · exact hstay hold fun heq => absurd heq hne

/-- So does a step that puts frames in the place of others of a thread, if all of them hold
nothing. -/
theorem Inv.replace {old : List (Frame H R K)} (hi : Inv s) (fs : List (Frame H R K))
    (hst : s.stack t = old ++ rest) (hold : held old = []) (hfs : held fs = [])
    (hrest : fs = [] ∨ held rest = [])
    (hreg : ∀ g ∈ fs, ∀ h r, g.registers = some (h, r) → s.shared.made h = true)
    (hres : ∀ g ∈ fs, g.resets = none) (hc : Calm s.shared rest) :
    Inv ⟨s.shared, Function.update s.stack t (fs ++ rest)⟩ := by
  refine ⟨fun m => ?_, fun u => ?_, hi.made, hi.removable, fun u g hg => ?_, fun u g hg => ?_⟩
  · refine (hi.guarded m).keep ?_
    rw [hst, List.countP_append, List.countP_append, countP_guards_eq_zero m hfs,
      countP_guards_eq_zero m hold]
  · show Calm s.shared (Function.update s.stack t (fs ++ rest) u)
    by_cases hu : u = t
    · subst hu
      rw [Function.update_self]
      refine hc.prepend hfs fun g hg hheld => ?_
      rcases hrest with rfl | hrest
      · cases hg
      · exact absurd hrest hheld
    · rw [Function.update_of_ne hu]
      exact hi.calm u
  · rcases mem_update.1 hg with ⟨rfl, hnew⟩ | ⟨-, hg⟩
    · rcases List.mem_append.1 hnew with hmem | hmem
      · exact hreg g hmem
      · exact hi.registers u g (by simp [hst, hmem])
    · exact hi.registers u g hg
  · rcases mem_update.1 hg with ⟨rfl, hnew⟩ | ⟨-, hg⟩
    · rcases List.mem_append.1 hnew with hmem | hmem
      · intro r hr
        rw [hres g hmem] at hr
        cases hr
      · exact hi.resets u g (by simp [hst, hmem])
    · exact hi.resets u g hg

/-- So does the making of a handle. -/
theorem Inv.make {h : H} {r : R} (hi : Inv s) (hnew : s.shared.made h = false) :
    Inv ⟨s.shared.make h r, s.stack⟩ := by
  have hgone : ∀ g, Gone s.shared g → Gone (s.shared.make h r) g := by
    intro g hg
    have hne : g ≠ h := fun heq => by
      rw [heq, Gone, hnew] at hg
      cases hg.1
    simpa [Gone, Shared.make, hne] using hg
  have hmade : ∀ g, s.shared.made g = true → (s.shared.make h r).made g = true := by
    intro g hg
    by_cases heq : g = h
    · simp [Shared.make, heq]
    · simpa [Shared.make, heq] using hg
  refine ⟨hi.guarded, fun u => (hi.calm u).mono hgone, fun r' g hg => hmade g (hi.made r' g hg),
    fun r' g hg => hgone g (hi.removable r' g hg),
    fun u f hf g r' hreg => hmade g (hi.registers u f hf g r' hreg), fun u f hf r' hres g hg => ?_⟩
  exact (hgone g ⟨hi.made r' g hg, hi.resets u f hf r' hres g hg⟩).2

/-- The name of the next operation is nothing to the invariant. -/
theorem Inv.setNextName (hi : Inv s) (n : ℕ) :
    Inv ⟨{ s.shared with nextName := n }, s.stack⟩ := by
  have hgone : ∀ h, Gone s.shared h → Gone { s.shared with nextName := n } h := fun _ hg => hg
  exact ⟨hi.guarded, fun u => (hi.calm u).mono hgone, hi.made, hi.removable, hi.registers,
    hi.resets⟩

/-- A call of user code begins with a frame that holds nothing. -/
theorem Inv.push (hi : Inv s) (hheld : held (s.stack t) = []) (hf : f.holds = [])
    (hreg : ∀ h r, f.registers = some (h, r) → s.shared.made h = true) (hres : f.resets = none) :
    Inv ⟨s.shared, Function.update s.stack t (f :: s.stack t)⟩ := by
  have hold : s.stack t = [] ++ s.stack t := rfl
  exact hi.replace [f] hold rfl (by simp [hf]) (.inr hheld) (by simpa using hreg)
    (by simpa using hres) (hi.calm t)

/-- A step of a thread that keeps to the condition keeps the invariant, and callbacks are invoked
and destroyed with no mutex held. -/
theorem stepThread_inv {tr : List (Event H R K)} {choice : Choice H R K} (hi : Inv s)
    (hC : spares W byValue ⟨s, tr⟩ (t, choice) = true)
    (hstep : stepThread W byValue s.shared t (s.stack t) choice = some o) :
    Inv ⟨o.2.1, Function.update s.stack t o.1⟩ ∧ (o.2.2 ≠ [] → held (s.stack t) = []) := by
  cases choice with
  | call c =>
    have hheld : held (s.stack t) = [] := List.isEmpty_iff.1 hC
    simp only [stepThread] at hstep
    split at hstep
    case isFalse => cases hstep
    obtain rfl := Option.some.inj hstep
    refine ⟨Inv.setNextName (hi.push hheld ?_ ?_ ?_) _, fun hne => absurd rfl hne⟩
    · cases c <;> rfl
    · cases c <;> simp [Call.frame]
    · cases c <;> rfl
  | connect h r =>
    have hheld : held (s.stack t) = [] := List.isEmpty_iff.1 hC
    simp only [stepThread] at hstep
    split at hstep
    case isFalse => cases hstep
    case isTrue hmay =>
      obtain rfl := Option.some.inj hstep
      have hnew : s.shared.made h = false := by
        simp only [Bool.and_eq_true, Bool.not_eq_true'] at hmay
        exact hmay.2
      refine ⟨Inv.push (hi.make hnew) hheld rfl ?_ rfl, fun hne => absurd rfl hne⟩
      intro g r' hreg
      obtain ⟨rfl, rfl⟩ := Prod.mk.inj (Option.some.inj hreg)
      simp [Shared.make]
  | ret =>
    simp only [stepThread] at hstep
    split at hstep
    case h_2 => cases hstep
    case h_1 rest hst =>
      obtain rfl := Option.some.inj hstep
      have hc := hi.calm t
      rw [hst] at hc
      have hold : s.stack t = [.user] ++ rest := hst
      exact ⟨hi.replace [] hold rfl rfl (.inl rfl) (by simp) (by simp) hc.2,
        fun hne => absurd rfl hne⟩
  | run r =>
    simp only [stepThread] at hstep
    split at hstep
    case isFalse => cases hstep
    case isTrue hst =>
      obtain rfl := Option.some.inj hstep
      have hp := hi.push (t := t) (f := .exec r .loop) (by rw [hst]; rfl) rfl (by simp) rfl
      rw [hst] at hp
      exact ⟨hp, fun hne => absurd rfl hne⟩
  | runTimer k =>
    simp only [stepThread] at hstep
    split at hstep
    case isFalse => cases hstep
    case isTrue hst =>
      obtain rfl := Option.some.inj hstep
      have hp := hi.push (t := t) (f := .timer k .guard) (by rw [hst]; rfl) rfl (by simp) rfl
      rw [hst] at hp
      exact ⟨hp, fun hne => absurd rfl hne⟩
  | move m =>
    simp only [stepThread] at hstep
    split at hstep
    case h_2 => cases hstep
    case h_1 r rest hst =>
      obtain rfl := Option.some.inj hstep
      have hc := hi.calm t
      rw [hst] at hc
      have hold : s.stack t = [.exec r .loop] ++ rest := hst
      refine ⟨hi.replace _ hold rfl ?_ (.inr (hc.held_eq id)) ?_ ?_ hc.2, fun hne => absurd rfl hne⟩
      · cases m with
        | close h => rw [Move.frames, held_cons, closeFrame_holds]; rfl
        | doIo | doAccept | copy | clear | leave => rfl
      · cases m <;> simp [Move.frames, closeFrame]
      · cases m <;> simp [Move.frames, closeFrame]
  | accept h =>
    simp only [stepThread] at hstep
    split at hstep
    case h_2 => cases hstep
    case h_1 a r rest hst =>
      split at hstep
      case isTrue => cases hstep
      case isFalse hmade =>
        obtain rfl := Option.some.inj hstep
        have hnew : s.shared.made h = false := by simpa using hmade
        have hi' := hi.make (r := r) hnew
        have hc := hi'.calm t
        have hold : s.stack t = [.doAccept a (.accept r)] ++ rest := hst
        rw [hold] at hc
        refine ⟨hi'.replace [.register h r .lock, .doAccept a (.call r)] hold rfl rfl
          (.inr (hc.held_eq id)) ?_ (by simp) hc.2, fun hne => absurd rfl hne⟩
        simp [Shared.make]
  | go yes now =>
    simp only [stepThread] at hstep
    split at hstep
    case h_2 => cases hstep
    case h_1 f rest hst =>
      obtain ⟨⟨fs, sh', es⟩, ho, heq⟩ := Option.map_eq_some_iff.1 hstep
      obtain rfl := heq
      have hspared : f.spared W byValue s.shared yes now rest = true := by
        unfold spares at hC
        rw [hst] at hC
        exact hC
      have hc := hi.calm t
      rw [hst] at hc
      have he := advance_effect hc (hi.known (t := t) (f := f) (by simp [hst])) hspared ho
      exact ⟨hi.go hst he, fun hne => by rw [hst]; exact he.events hne⟩

omit [DecidableEq H] [DecidableEq R] [DecidableEq K] [DecidableEq T] in
/-- A calm frame wants none of the mutexes below it: it wants the mutex of a queue, and those are
mutexes of runtimes. -/
theorem Frame.Calm.not_mem {sh : Shared H R K T P} {ms : List (Mutex H R K)} {m : Mutex H R K}
    (hf : f.Calm sh ms) (hm : m ∈ f.wants) : m ∉ ms := by
  cases f with
  | user | members | destroy => cases hm
  | close h pc =>
    intro hmem
    obtain ⟨-, hpc, hms⟩ := hf
    have hm' := hms m hmem
    cases pc with
    | cas | lockRuntime | deregister | sysClose => cases hm
    | lockHandles => cases hpc
    | drain d pc =>
      cases pc with
      | lock =>
        obtain rfl := List.mem_singleton.1 hm
        cases hm'
      | test | popped | dropCopy | call => cases hm
      | relock => cases hpc
  | submit | cancel | register | doIo | doAccept | exec | asyncWait | timer => exact hf.elim

/-- A thread does not wait for a mutex that it holds. -/
theorem Inv.waits {m : Mutex H R K} (hi : Inv s) (hst : s.stack t = f :: rest) (hm : m ∈ f.wants) :
    s.shared.owner m ≠ some t := by
  intro howner
  have hg := hi.guarded m
  rw [howner] at hg
  obtain ⟨g, hmem, hholds⟩ := hg.exists_holds
  have hholds : m ∈ g.holds := guards_eq_true.1 hholds
  have hnil : f.holds = [] := by
    unfold Frame.wants at hm
    split at hm <;> first | rfl | cases hm
  have hheld : m ∈ held rest := by
    rw [hst] at hmem
    rcases List.mem_cons.1 hmem with rfl | hrest
    · rw [hnil] at hholds
      cases hholds
    · exact List.mem_flatMap.2 ⟨g, hrest, hholds⟩
  have hc := hi.calm t
  rw [hst] at hc
  exact (hc.1 (List.ne_nil_of_mem hheld)).not_mem hm hheld

/-- It holds at the start. -/
theorem Inv.init : Inv (init H R K T P).state where
  guarded _ := Guarded.init fun _ => rfl
  calm _ := trivial
  made := nofun
  removable := nofun
  registers := nofun
  resets := nofun

/-- Everything that is reached with the condition met satisfies the invariant, and nothing has been
recorded under a mutex. -/
theorem inv_of_reachVia {c : Config (State H R K T P) (Event H R K)}
    (hr : ReachVia (machine W byValue) (fun c a => spares W byValue c a = true)
      (init H R K T P) c) :
    Inv c.state ∧ ∀ e ∈ c.trace, e.held = [] := by
  refine hr.invariant_step (I := fun s tr => Inv s ∧ ∀ e ∈ tr, e.held = []) ⟨.init, nofun⟩ ?_
  rintro s tr ⟨t, choice⟩ s' es ⟨hi, htr⟩ hC hs
  obtain ⟨o, ho, heq⟩ := Option.map_eq_some_iff.1 hs
  obtain ⟨rfl, rfl⟩ := Prod.mk.inj heq
  obtain ⟨hi', hes⟩ := stepThread_inv hi hC ho
  refine ⟨hi', fun e he => ?_⟩
  rcases List.mem_append.1 he with hold | hnew
  · exact htr e hold
  · obtain ⟨x, hx, rfl⟩ := List.mem_map.1 hnew
    exact hes (List.ne_nil_of_mem hx)

/-- In every run whose steps all meet the condition, no callback is invoked under a mutex, none that
has never been invoked is destroyed under one, and no thread waits for a mutex that it holds. -/
theorem outside_always (W : Handles H) (byValue : Callback H K → Bool)
    (as : List (T × Choice H R K))
    (hsteps : Steps (machine W byValue) (fun c a => spares W byValue c a = true) (init H R K T P)
      as) :
    Always (machine W byValue) Outside (init H R K T P) as := by
  refine always_of_reachVia (fun c hr => ?_) .refl hsteps
  obtain ⟨hi, htrace⟩ := inv_of_reachVia hr
  exact ⟨htrace, fun t f rest hst m hm => hi.waits hst hm⟩

/-- Two sockets. -/
def twoSockets : Handles Bool := { fd := fun h => h.toNat, isSocket := fun _ => true }

/-- The innermost frame of a thread takes this many steps; what it asks for succeeds. -/
def goes (t : Bool) (n : ℕ) : List (Bool × Choice Bool Unit Unit) :=
  List.replicate n (t, .go true 0)

/-- The thread `false` connects the socket `false` and submits a read. -/
def connectAndRead : List (Bool × Choice Bool Unit Unit) :=
  [(false, .connect false ())] ++ goes false 2 ++ [(false, .call (.submit false .read))] ++
    goes false 2

/-- The thread `true` runs the runtime and invokes the callback of the read, which has captured
nothing by value; the callback closes the socket and returns, and the runtime removes the socket
then. -/
theorem outside_closed_in_callback :
    Always (machine twoSockets fun _ => false) Outside
      (init Bool Unit Unit Bool Timer.listWaiters)
      (connectAndRead ++ [(true, .run ()), (true, .move (.doIo false .read))] ++ goes true 3 ++
        [(true, .call (.close false))] ++ goes true 9 ++ [(true, .ret)] ++ goes true 1 ++
        [(true, .ret), (true, .move .clear)] ++ goes true 7) :=
  outside_always twoSockets (fun _ => false) _ (by decide)

/-- `cancel` destroys the callback of a read with both mutexes of the socket locked: if what it has
captured submits another read when it goes, its thread waits for itself. `release_all_handles`
destroys a socket that is open, whose destructor invokes the callback of a read with the mutex of
the runtime locked. And if the callback of a read has captured an object by value, `do_read`, which
finds nothing to receive, destroys its copy of the object with the mutex of the reads locked. -/
theorem user_code_under_mutex :
    (∃ c, run (machine twoSockets fun _ => false) (init Bool Unit Unit Bool Timer.listWaiters)
        (connectAndRead ++ [(false, .call (.cancel false))] ++ goes false 2 ++
          [(false, .call (.submit false .read))]) = some c ∧
      c.trace =
        [⟨.destroyed, .operation false .read 1, [.queue false .read, .queue false .write]⟩] ∧
      (c.state.stack false).head?.map Frame.wants = some [.queue false .read] ∧
      c.state.shared.owner (.queue false .read) = some false ∧ ¬ Outside c) ∧
    (∃ c, run (machine twoSockets fun _ => false) (init Bool Unit Unit Bool Timer.listWaiters)
        (connectAndRead ++ [(true, .run ()), (true, .move .leave)] ++ goes true 10) = some c ∧
      c.trace = [⟨.invoked, .operation false .read 1, [.handles ()]⟩] ∧ ¬ Outside c) ∧
    ∃ c, run (machine twoSockets fun _ => true) (init Bool Unit Unit Bool Timer.listWaiters)
        (connectAndRead ++ [(false, .ret)] ++ goes false 1 ++
          [(true, .run ()), (true, .move (.doIo false .read)), (true, .go true 0),
            (true, .go false 0), (true, .call (.submit false .read))]) = some c ∧
      c.trace = [⟨.destroyed, .operation false .read 1, [.queue false .read]⟩] ∧
      (c.state.stack true).head?.map Frame.wants = some [.queue false .read] ∧
      c.state.shared.owner (.queue false .read) = some true ∧ ¬ Outside c := by
  refine ⟨⟨_, rfl, by decide, by decide, by decide, fun h => ?_⟩, ⟨_, rfl, by decide, fun h => ?_⟩,
    ⟨_, rfl, by decide, by decide, by decide, fun h => ?_⟩⟩
  · have hheld := h.events ⟨.destroyed, .operation false .read 1,
      [.queue false .read, .queue false .write]⟩ (by decide)
    cases hheld
  · have hheld := h.events ⟨.invoked, .operation false .read 1, [.handles ()]⟩ (by decide)
    cases hheld
  · have hheld := h.events ⟨.destroyed, .operation false .read 1, [.queue false .read]⟩ (by decide)
    cases hheld

end Spinet.UserCode
