import Spinet.Registry.Process

/-!
# Registered descriptors are live

The invariant of the machine of `Spinet.Registry.Process`. A caller relies on the descriptors that
it has obtained and not yet registered, on that of a handle that it is closing, and a loop on those
of the acceptors among its events. No two callers rely on one descriptor (`Apart.relies`), so none
closes what another one relies on.

What has been registered is closed only past `runtime_.lock()`. If that succeeds, the handle is
taken from `all_handles_` first. If it fails, the runtime is not `Available`: it has no owner, or
`release_all_handles` is in its section, and it leaves that with `all_handles_` empty.
-/

namespace Spinet.Process

open Transition Registry

variable {H R T : Type}

/-- The handles whose descriptors a caller has obtained and not yet registered. -/
def Pc.held : Pc H R → List H
  | .opening hs | .failed hs | .registering hs => hs
  | .register h hs => h :: hs
  | _ => []

/-- The call of `close` that a caller is in. -/
def Pc.closing : Pc H R → Option (H × ClosePc)
  | .close h pc => some (h, pc)
  | .exec _ (.closing h pc _) => some (h, pc)
  | _ => none

/-- A caller is about to close the descriptor of a handle. -/
def Pc.Closes (p : Pc H R) (h : H) : Prop := ∃ pc, p.closing = some (h, pc) ∧ pc ≠ .cas

/-- The runtime whose loop a caller is in. -/
def Pc.loop : Pc H R → Option R
  | .exec r _ => some r
  | _ => none

/-- The handles that a loop has events of, or is closing. -/
def ExecPc.handles : ExecPc H → List H
  | .waiting events | .dispatch events => events.map EpollEvent.handle
  | .closing h _ events => h :: events.map EpollEvent.handle
  | _ => []

/-- The loop has left, and is in the section of `release_all_handles`. -/
def ExecPc.releasing : ExecPc H → Bool
  | .releaseReset | .releaseHandles | .unlock => true
  | _ => false

/-- A caller relies on the descriptor of a handle. -/
inductive Pc.Relies (W : Objects H R) (p : Pc H R) (h : H) : Prop
  /-- It has obtained that. -/
  | held (hheld : h ∈ p.held)
  /-- It is about to close that. -/
  | closes (hcloses : p.Closes h)
  /-- It is the loop of an acceptor. -/
  | acceptor (hsocket : W.isSocket h = false) (r : R) (pc : ExecPc H) (hp : p = .exec r pc)
    (hmem : h ∈ pc.handles)

/-- What holds of what the callers share. -/
structure SharedOk (W : Objects H R) (sh : Shared H R) : Prop where
  /-- A descriptor that is open for a handle is its own, and has been obtained for it. -/
  obtained : ∀ fd h, sh.opened fd = some (.handle h) → W.fd h = fd ∧ sh.obtained h = true
  /-- What has been registered has been obtained. -/
  registered : ∀ h, sh.registered h = true → sh.obtained h = true
  /-- The descriptor of a registered socket that has not been closed is open. -/
  live : ∀ h, sh.registered h = true → W.isSocket h = true → sh.closed h = false →
    sh.opened (W.fd h) = some (.handle h)
  /-- A handle is registered under its own number, with its own runtime. -/
  key : ∀ r fd h, (sh.runtime r).allHandles fd = some h →
    W.fd h = fd ∧ W.home h = r ∧ sh.registered h = true
  /-- What is registered is open, and knows its runtime. -/
  keyLive : ∀ r, sh.Available r → ∀ fd h, (sh.runtime r).allHandles fd = some h →
    sh.opened fd = some (.handle h) ∧ sh.runtimeRef h = true
  /-- What is in an interest list is open. -/
  interest : ∀ r fd h, (sh.runtime r).interest fd = some h →
    W.fd h = fd ∧ W.home h = r ∧ sh.registered h = true ∧ sh.opened fd = some (.handle h)

/-- What holds of a thread inside `exec`. -/
structure ExecOk (W : Objects H R) (sh : Shared H R) (r : R) (pc : ExecPc H) : Prop where
  /-- `running_` is set. -/
  running : (sh.runtime r).running = true
  /-- A handle is reported once. -/
  nodup : pc.handles.Nodup
  /-- What is reported has been registered with this runtime, and acceptors are open. -/
  handles : ∀ h ∈ pc.handles, W.home h = r ∧ sh.registered h = true ∧
    (W.isSocket h = false → sh.opened (W.fd h) = some (.handle h))
  /-- Only sockets compare and exchange. -/
  cas : ∀ h events, pc = .closing h .cas events → W.isSocket h = true
  /-- `release_all_handles` holds the mutex. -/
  mtx : pc.releasing = true → (sh.runtime r).mtx = true
  /-- It leaves nothing. -/
  empty : pc = .unlock → ∀ fd, (sh.runtime r).allHandles fd = none

/-- What holds of a caller. -/
structure PcOk (W : Objects H R) (sh : Shared H R) (p : Pc H R) : Prop where
  /-- What it has obtained is open, and has not been registered. -/
  held : ∀ h ∈ p.held, sh.opened (W.fd h) = some (.handle h) ∧ sh.registered h = false
  /-- And has been obtained once. -/
  nodup : p.held.Nodup
  /-- `register_handle` has set `runtime_`. -/
  ref : ∀ h hs, p = .register h hs → sh.runtimeRef h = true
  /-- What it is about to close is open, and no other call of `close` on a socket goes on. -/
  closes : ∀ h, p.Closes h → sh.opened (W.fd h) = some (.handle h) ∧ sh.registered h = true ∧
    (W.isSocket h = true → sh.closed h = true)
  /-- When it gets to `::close`, the handle is not registered, or its runtime is not available. -/
  sysClose : ∀ h, p.closing = some (h, .sysClose) →
    (sh.runtime (W.home h)).allHandles (W.fd h) = some h → ¬ sh.Available (W.home h)
  /-- Outside the loops only sockets are closed. -/
  socket : ∀ h pc, p = .close h pc → W.isSocket h = true ∧ sh.registered h = true
  /-- It may be a thread inside `exec`. -/
  exec : ∀ r pc, p = .exec r pc → ExecOk W sh r pc

/-- Two callers do not get in the way of each other. -/
structure Apart (p p' : Pc H R) : Prop where
  /-- They have not obtained the same descriptor. -/
  held : ∀ h ∈ p.held, h ∉ p'.held
  /-- They do not close the same handle. -/
  closes : ∀ h, p.Closes h → ¬ p'.Closes h
  /-- They are not in the loop of the same runtime. -/
  loop : ∀ r, p.loop = some r → p'.loop ≠ some r

/-- The invariant. -/
structure Inv (W : Objects H R) (s : State H R T) : Prop where
  /-- What is shared. -/
  shared : SharedOk W s.shared
  /-- Each caller. -/
  pcOk : ∀ t, PcOk W s.shared (s.pc t)
  /-- Any two callers. -/
  apart : ∀ t t', t ≠ t' → Apart (s.pc t) (s.pc t')

variable {W : Objects H R} {sh sh' : Shared H R} {p p' q : Pc H R} {h : H} {r r' : R} {fd : ℕ}

/-! ## Callers apart -/

/-- `Apart` is symmetric. -/
theorem Apart.symm (ha : Apart p q) : Apart q p where
  held h hq hp := ha.held h hp hq
  closes h hq hp := ha.closes h hp hq
  loop r hq hp := ha.loop r hp hq

/-- A caller that goes on to less stays apart. -/
theorem Apart.mono (ha : Apart p q) (hheld : ∀ h ∈ p'.held, h ∈ p.held)
    (hcloses : ∀ h, p'.Closes h → p.Closes h) (hloop : ∀ r, p'.loop = some r → p.loop = some r) :
    Apart p' q where
  held h hp := ha.held h (hheld h hp)
  closes h hp := ha.closes h (hcloses h hp)
  loop r hp := ha.loop r (hloop r hp)

/-- The descriptor that a caller relies on is open. -/
theorem PcOk.relies (hp : PcOk W sh p) (hrel : p.Relies W h) :
    sh.opened (W.fd h) = some (.handle h) := by
  cases hrel with
  | held hheld => exact (hp.held h hheld).1
  | closes hcloses => exact (hp.closes h hcloses).1
  | acceptor hsocket r pc heq hmem => exact ((hp.exec r pc heq).handles h hmem).2.2 hsocket

/-- What a caller relies on but has not just obtained has been registered. -/
theorem PcOk.registered (hp : PcOk W sh p) (hrel : p.Relies W h) :
    h ∈ p.held ∨ sh.registered h = true := by
  cases hrel with
  | held hheld => exact .inl hheld
  | closes hcloses => exact .inr (hp.closes h hcloses).2.1
  | acceptor hsocket r pc heq hmem => exact .inr ((hp.exec r pc heq).handles h hmem).2.1

/-- A caller that closes an acceptor, or has events of one, is in the loop of its runtime. -/
theorem PcOk.loop_of_acceptor (hp : PcOk W sh p) (hsocket : W.isSocket h = false)
    (hrel : p.Relies W h) (hheld : h ∉ p.held) : p.loop = some (W.home h) := by
  cases hrel with
  | held hmem => exact absurd hmem hheld
  | closes hcloses =>
    obtain ⟨pc, hclosing, -⟩ := hcloses
    cases p with
    | close h' pc' =>
      obtain ⟨rfl, -⟩ := Prod.mk.inj (Option.some.inj hclosing)
      rw [(hp.socket h' pc' rfl).1] at hsocket
      cases hsocket
    | exec r pc' =>
      cases pc' with
      | closing h' pc' events =>
        obtain ⟨rfl, -⟩ := Prod.mk.inj (Option.some.inj hclosing)
        exact congrArg some ((hp.exec r _ rfl).handles h' (List.mem_cons_self ..)).1.symm
      | _ => cases hclosing
    | _ => cases hclosing
  | acceptor _ r pc heq hmem =>
    subst heq
    exact congrArg some ((hp.exec r pc rfl).handles h hmem).1.symm

/-- No two callers rely on one descriptor. -/
theorem Apart.relies (ha : Apart p q) (hp : PcOk W sh p) (hq : PcOk W sh q)
    (hrp : p.Relies W h) : ¬ q.Relies W h := by
  intro hrq
  by_cases hheld : h ∈ p.held
  · rcases hq.registered hrq with hmem | hreg
    · exact ha.held h hheld hmem
    · rw [(hp.held h hheld).2] at hreg
      cases hreg
  · by_cases hheld' : h ∈ q.held
    · rcases hp.registered hrp with hmem | hreg
      · exact hheld hmem
      · rw [(hq.held h hheld').2] at hreg
        cases hreg
    · -- An acceptor is only in the hands of its own loop, and a socket is closed by one call.
      cases hsocket : W.isSocket h with
      | false =>
        exact ha.loop _ (hp.loop_of_acceptor hsocket hrp hheld)
          (hq.loop_of_acceptor hsocket hrq hheld')
      | true =>
        have hcloses : ∀ {x : Pc H R}, x.Relies W h → h ∉ x.held → x.Closes h := by
          intro x hx hnot
          cases hx with
          | held hmem => exact absurd hmem hnot
          | closes hcloses => exact hcloses
          | acceptor hfalse =>
            rw [hsocket] at hfalse
            cases hfalse
        exact ha.closes h (hcloses hrp hheld) (hcloses hrq hheld')

/-! ## What the steps keep -/

/-- Descriptors are opened. -/
theorem SharedOk.openFor (hs : SharedOk W sh) {use : Use H} {o : H → Bool}
    (hnone : sh.opened fd = none) (hmono : ∀ h, sh.obtained h = true → o h = true)
    (huse : ∀ h, use = .handle h → W.fd h = fd ∧ o h = true) :
    SharedOk W ({ sh with obtained := o }.openFor fd use) := by
  have hkeep : ∀ fd' h, sh.opened fd' = some (.handle h) →
      Function.update sh.opened fd (some use) fd' = some (.handle h) := by
    intro fd' h hopen
    have hne : fd' ≠ fd := by
      rintro rfl
      rw [hnone] at hopen
      cases hopen
    rwa [Function.update_of_ne hne]
  refine { hs with obtained := ?_, registered := ?_, live := ?_, keyLive := ?_, interest := ?_ }
  · intro fd' h hopen
    have hopen : Function.update sh.opened fd (some use) fd' = some (.handle h) := hopen
    rcases eq_or_ne fd' fd with rfl | hne
    · rw [Function.update_self] at hopen
      exact huse h (Option.some.inj hopen)
    · rw [Function.update_of_ne hne] at hopen
      obtain ⟨hfd, hobtained⟩ := hs.obtained fd' h hopen
      exact ⟨hfd, hmono h hobtained⟩
  · exact fun h hreg => hmono h (hs.registered h hreg)
  · exact fun h hreg hsocket hclosed => hkeep _ _ (hs.live h hreg hsocket hclosed)
  · intro r hav fd' h hkey
    obtain ⟨hopen, href⟩ := hs.keyLive r hav fd' h hkey
    exact ⟨hkeep _ _ hopen, href⟩
  · intro r fd' h hentry
    obtain ⟨hfd, hhome, hreg, hopen⟩ := hs.interest r fd' h hentry
    exact ⟨hfd, hhome, hreg, hkeep _ _ hopen⟩

/-- A caller does not mind other descriptors, as long as those that it relies on stay open. -/
theorem PcOk.opened (hp : PcOk W sh p) {o : ℕ → Option (Use H)} {ob : H → Bool}
    {rt : R → RuntimeState H} (hopen : ∀ h, p.Relies W h → o (W.fd h) = some (.handle h))
    (hrt : ∀ r, (rt r).allHandles = (sh.runtime r).allHandles ∧ (rt r).mtx = (sh.runtime r).mtx ∧
      (rt r).running = (sh.runtime r).running ∧ (rt r).owned = (sh.runtime r).owned) :
    PcOk W { sh with opened := o, obtained := ob, runtime := rt } p := by
  refine { hp with held := ?_, closes := ?_, sysClose := ?_, exec := ?_ }
  · exact fun h hheld => ⟨hopen h (.held hheld), (hp.held h hheld).2⟩
  · exact fun h hcloses => ⟨hopen h (.closes hcloses), (hp.closes h hcloses).2⟩
  · intro h hclosing hkey hav
    obtain ⟨hall, hmtx, -, howned⟩ := hrt (W.home h)
    exact hp.sysClose h hclosing (hall ▸ hkey) ⟨howned ▸ hav.1, hmtx ▸ hav.2⟩
  · intro r pc hexec
    obtain ⟨hall, hmtx, hrunning, -⟩ := hrt r
    have hold := hp.exec r pc hexec
    refine { hold with running := ?_, handles := ?_, mtx := ?_, empty := ?_ }
    · exact hrunning.trans hold.running
    · intro h hmem
      obtain ⟨hhome, hreg, -⟩ := hold.handles h hmem
      exact ⟨hhome, hreg, fun hsocket => hopen h (.acceptor hsocket r pc hexec hmem)⟩
    · exact fun hrel => hmtx.trans (hold.mtx hrel)
    · exact fun hunlock fd => (congrFun hall fd).trans (hold.empty hunlock fd)

/-- So it does not mind that descriptors are opened. -/
theorem PcOk.openFor (hp : PcOk W sh p) {use : Use H} {o : H → Bool}
    (hnone : sh.opened fd = none) : PcOk W ({ sh with obtained := o }.openFor fd use) p := by
  refine hp.opened (fun h hrel => ?_) fun r => ⟨rfl, rfl, rfl, rfl⟩
  have hopen := hp.relies hrel
  have hne : W.fd h ≠ fd := by
    rintro heq
    rw [heq, hnone] at hopen
    cases hopen
  rwa [Function.update_of_ne hne]

/-- `::close` of a descriptor of no live handle. -/
theorem SharedOk.sysClose (hs : SharedOk W sh) (hlast : ∀ h, sh.opened fd = some (.handle h) →
    (sh.registered h = true → W.isSocket h = true → sh.closed h = true) ∧
      ((sh.runtime (W.home h)).allHandles fd = some h → ¬ sh.Available (W.home h))) :
    SharedOk W (sh.sysClose fd) := by
  refine { hs with obtained := ?_, live := ?_, keyLive := ?_, interest := ?_ }
  · intro fd' h hopen
    have hopen : Function.update sh.opened fd none fd' = some (.handle h) := hopen
    rcases eq_or_ne fd' fd with rfl | hne
    · rw [Function.update_self] at hopen
      cases hopen
    · rw [Function.update_of_ne hne] at hopen
      exact hs.obtained fd' h hopen
  · intro h hreg hsocket hclosed
    have hopen := hs.live h hreg hsocket hclosed
    have hne : W.fd h ≠ fd := by
      rintro rfl
      exact Bool.false_ne_true (hclosed.symm.trans ((hlast h hopen).1 hreg hsocket))
    exact (Function.update_of_ne hne ..).trans hopen
  · intro r hav fd' h hkey
    obtain ⟨hopen, href⟩ := hs.keyLive r hav fd' h hkey
    have hne : fd' ≠ fd := by
      rintro rfl
      obtain ⟨-, rfl, -⟩ := hs.key r fd' h hkey
      exact (hlast h hopen).2 hkey hav
    exact ⟨(Function.update_of_ne hne ..).trans hopen, href⟩
  · intro r fd' h hentry
    have hentry : Function.update (sh.runtime r).interest fd none fd' = some h := hentry
    rcases eq_or_ne fd' fd with rfl | hne
    · rw [Function.update_self] at hentry
      cases hentry
    · rw [Function.update_of_ne hne] at hentry
      obtain ⟨hfd, hhome, hreg, hopen⟩ := hs.interest r fd' h hentry
      exact ⟨hfd, hhome, hreg, (Function.update_of_ne hne ..).trans hopen⟩

/-- A caller does not mind `::close` of a descriptor that it does not rely on. -/
theorem PcOk.sysCloseOther (hp : PcOk W sh p)
    (hnot : ∀ h, sh.opened fd = some (.handle h) → ¬ p.Relies W h) :
    PcOk W (sh.sysClose fd) p := by
  refine hp.opened (fun h hrel => ?_) fun r => ⟨rfl, rfl, rfl, rfl⟩
  have hopen := hp.relies hrel
  have hne : W.fd h ≠ fd := by
    rintro rfl
    exact hnot h hopen hrel
  rwa [Function.update_of_ne hne]

/-- What `runtime_` of other handles is does not matter. -/
theorem SharedOk.ref (hs : SharedOk W sh) {ref : H → Bool}
    (href : ∀ r, sh.Available r → ∀ fd h, (sh.runtime r).allHandles fd = some h → ref h = true) :
    SharedOk W { sh with runtimeRef := ref } :=
  { hs with
    keyLive := fun r hav fd h hkey => ⟨(hs.keyLive r hav fd h hkey).1, href r hav fd h hkey⟩ }

/-- A socket is closed. -/
theorem SharedOk.closed (hs : SharedOk W sh) {closed : H → Bool}
    (hmono : ∀ h, sh.closed h = true → closed h = true) : SharedOk W { sh with closed := closed } :=
  { hs with live := fun h hreg hsocket hclosed => hs.live h hreg hsocket (by
      by_contra hne
      exact Bool.false_ne_true (hclosed.symm.trans (hmono h (Bool.eq_true_of_not_eq_false hne)))) }

/-- A caller does not mind that a socket is closed. -/
theorem PcOk.closed (hp : PcOk W sh p) {closed : H → Bool}
    (hmono : ∀ h, sh.closed h = true → closed h = true) : PcOk W { sh with closed := closed } p :=
  { hp with
    closes := fun h hcloses =>
      ⟨(hp.closes h hcloses).1, (hp.closes h hcloses).2.1, fun hsocket =>
        hmono h ((hp.closes h hcloses).2.2 hsocket)⟩
    exec := fun r pc hexec => { hp.exec r pc hexec with } }

/-- A caller does not mind `runtime_` of handles that it is not registering. -/
theorem PcOk.setRef (hp : PcOk W sh p) {ref : H → Bool}
    (href : ∀ h hs, p = .register h hs → ref h = true) : PcOk W { sh with runtimeRef := ref } p :=
  { hp with ref := href, exec := fun r pc hexec => { hp.exec r pc hexec with } }

variable [DecidableEq R] {f : RuntimeState H → RuntimeState H}

/-- A runtime loses handles and entries, and does not become available while it has any left. -/
structure Shrinks (f : RuntimeState H → RuntimeState H) (rt : RuntimeState H) : Prop where
  /-- No handle comes. -/
  allHandles : ∀ fd h, (f rt).allHandles fd = some h → rt.allHandles fd = some h
  /-- No entry comes. -/
  interest : ∀ fd h, (f rt).interest fd = some h → rt.interest fd = some h
  /-- It was available. -/
  available : (f rt).owned = true → (f rt).mtx = false → ∀ fd h, (f rt).allHandles fd = some h →
    rt.owned = true ∧ rt.mtx = false

/-- The runtime that has been changed. -/
theorem setRuntime_self : (sh.setRuntime r f).runtime r = f (sh.runtime r) :=
  Function.update_self ..

/-- A runtime after a change of one of them. -/
theorem setRuntime_cases (sh : Shared H R) (r : R) (f : RuntimeState H → RuntimeState H) (r' : R) :
    (r' = r ∧ (sh.setRuntime r f).runtime r' = f (sh.runtime r)) ∨
      (r' ≠ r ∧ (sh.setRuntime r f).runtime r' = sh.runtime r') := by
  rcases eq_or_ne r' r with rfl | hne
  · exact .inl ⟨rfl, setRuntime_self⟩
  · exact .inr ⟨hne, Function.update_of_ne hne ..⟩

/-- A runtime shrinks. -/
theorem SharedOk.shrink (hs : SharedOk W sh) (hf : Shrinks f (sh.runtime r)) :
    SharedOk W (sh.setRuntime r f) := by
  refine { hs with key := ?_, keyLive := ?_, interest := ?_ }
  · intro r' fd h hkey
    rcases setRuntime_cases sh r f r' with ⟨rfl, heq⟩ | ⟨-, heq⟩
    · exact hs.key r' fd h (hf.allHandles fd h (heq ▸ hkey))
    · exact hs.key r' fd h (heq ▸ hkey)
  · intro r' hav fd h hkey
    rcases setRuntime_cases sh r f r' with ⟨rfl, heq⟩ | ⟨-, heq⟩
    · rw [Shared.Available, heq] at hav
      rw [heq] at hkey
      exact hs.keyLive r' (hf.available hav.1 hav.2 fd h hkey) fd h (hf.allHandles fd h hkey)
    · rw [Shared.Available, heq] at hav
      exact hs.keyLive r' hav fd h (heq ▸ hkey)
  · intro r' fd h hentry
    rcases setRuntime_cases sh r f r' with ⟨rfl, heq⟩ | ⟨-, heq⟩
    · exact hs.interest r' fd h (hf.interest fd h (heq ▸ hentry))
    · exact hs.interest r' fd h (heq ▸ hentry)

/-- A caller does not mind that, unless it is in the loop of this runtime. -/
theorem PcOk.shrink (hp : PcOk W sh p) (hf : Shrinks f (sh.runtime r))
    (hloop : p.loop = some r → ((sh.runtime r).running = true → (f (sh.runtime r)).running = true) ∧
      ((sh.runtime r).mtx = true → (f (sh.runtime r)).mtx = true)) :
    PcOk W (sh.setRuntime r f) p := by
  refine { hp with sysClose := ?_, exec := ?_ }
  · intro h hclosing hkey hav
    rcases setRuntime_cases sh r f (W.home h) with ⟨hr, heq⟩ | ⟨-, heq⟩
    · rw [Shared.Available, heq] at hav
      rw [heq] at hkey
      have hold := hf.available hav.1 hav.2 _ h hkey
      have hkey' := hf.allHandles _ h hkey
      rw [← hr] at hold hkey'
      exact hp.sysClose h hclosing hkey' hold
    · rw [Shared.Available, heq] at hav
      exact hp.sysClose h hclosing (heq ▸ hkey) hav
  · intro r' pc hexec
    have hold := hp.exec r' pc hexec
    rcases setRuntime_cases sh r f r' with ⟨rfl, heq⟩ | ⟨-, heq⟩
    · obtain ⟨hrunning, hmtx⟩ := hloop (by rw [hexec]; rfl)
      refine { hold with running := ?_, mtx := fun hrel => ?_, empty := fun hunlock fd => ?_ }
      · rw [heq]
        exact hrunning hold.running
      · rw [heq]
        exact hmtx (hold.mtx hrel)
      · rw [heq]
        refine Option.eq_none_iff_forall_ne_some.2 fun h hkey => ?_
        have hkey' := hf.allHandles fd h hkey
        rw [hold.empty hunlock fd] at hkey'
        cases hkey'
    · exact { hold with
        running := heq ▸ hold.running
        mtx := fun hrel => heq ▸ hold.mtx hrel
        empty := fun hunlock => heq ▸ hold.empty hunlock }

/-- A runtime after `register_handle` has inserted a handle. -/
theorem insertHandle_runtime [DecidableEq H] (W : Objects H R) (sh : Shared H R) (h : H)
    (ok : Bool) (r : R) :
    ((sh.insertHandle W h ok).runtime r).owned = (sh.runtime r).owned ∧
      ((sh.insertHandle W h ok).runtime r).mtx = (sh.runtime r).mtx ∧
      ((sh.insertHandle W h ok).runtime r).running = (sh.runtime r).running ∧
      (∀ fd h', ((sh.insertHandle W h ok).runtime r).allHandles fd = some h' →
        (h' = h ∧ r = W.home h ∧ fd = W.fd h) ∨ (sh.runtime r).allHandles fd = some h') ∧
      (∀ fd h', ((sh.insertHandle W h ok).runtime r).interest fd = some h' →
        (h' = h ∧ r = W.home h ∧ fd = W.fd h) ∨ (sh.runtime r).interest fd = some h') := by
  have hupdate : ∀ (g : ℕ → Option H) fd h', Function.update g (W.fd h) (some h) fd = some h' →
      (h' = h ∧ fd = W.fd h) ∨ g fd = some h' := by
    intro g fd h' hg
    rcases eq_or_ne fd (W.fd h) with rfl | hne
    · rw [Function.update_self] at hg
      exact .inl ⟨(Option.some.inj hg).symm, rfl⟩
    · exact .inr ((Function.update_of_ne hne ..).symm.trans hg)
  unfold Shared.insertHandle
  rcases setRuntime_cases _ (W.home h) _ r with ⟨rfl, heq⟩ | ⟨-, heq⟩
  · rw [heq]
    refine ⟨rfl, rfl, rfl, fun fd h' hkey => ?_, fun fd h' hentry => ?_⟩
    · exact (hupdate _ _ _ hkey).imp_left fun ⟨hh, hfd⟩ => ⟨hh, rfl, hfd⟩
    · dsimp only at hentry
      split at hentry
      · exact (hupdate _ _ _ hentry).imp_left fun ⟨hh, hfd⟩ => ⟨hh, rfl, hfd⟩
      · exact .inr hentry
  · rw [heq]
    exact ⟨rfl, rfl, rfl, fun _ _ => .inr, fun _ _ => .inr⟩

/-- A handle that has been registered stays so. -/
theorem registered_update [DecidableEq H] {registered : H → Bool} {h' : H}
    (hreg : registered h' = true) : Function.update registered h true h' = true := by
  rw [Function.update_apply]
  split
  · rfl
  · exact hreg

/-- `register_handle` inserts the handle of an open descriptor. -/
theorem SharedOk.insertHandle [DecidableEq H] (hs : SharedOk W sh)
    (hopen : sh.opened (W.fd h) = some (.handle h)) (href : sh.runtimeRef h = true) (ok : Bool) :
    SharedOk W (sh.insertHandle W h ok) := by
  have hself : Function.update sh.registered h true h = true := Function.update_self ..
  refine { hs with registered := ?_, live := ?_, key := ?_, keyLive := ?_, interest := ?_ }
  · intro h' hreg
    rcases eq_or_ne h' h with rfl | hne
    · exact (hs.obtained _ _ hopen).2
    · exact hs.registered h' ((Function.update_of_ne hne ..).symm.trans hreg)
  · intro h' hreg hsocket hclosed
    rcases eq_or_ne h' h with rfl | hne
    · exact hopen
    · exact hs.live h' ((Function.update_of_ne hne ..).symm.trans hreg) hsocket hclosed
  · intro r fd h' hkey
    rcases (insertHandle_runtime W sh h ok r).2.2.2.1 fd h' hkey with ⟨rfl, rfl, rfl⟩ | hkey
    · exact ⟨rfl, rfl, hself⟩
    · obtain ⟨hfd, hhome, hreg⟩ := hs.key r fd h' hkey
      exact ⟨hfd, hhome, registered_update hreg⟩
  · intro r hav fd h' hkey
    obtain ⟨howned, hmtx, -, hall, -⟩ := insertHandle_runtime W sh h ok r
    rcases hall fd h' hkey with ⟨rfl, rfl, rfl⟩ | hkey
    · exact ⟨hopen, href⟩
    · exact hs.keyLive r ⟨howned ▸ hav.1, hmtx ▸ hav.2⟩ fd h' hkey
  · intro r fd h' hentry
    rcases (insertHandle_runtime W sh h ok r).2.2.2.2 fd h' hentry with ⟨rfl, rfl, rfl⟩ | hentry
    · exact ⟨rfl, rfl, hself, hopen⟩
    · obtain ⟨hfd, hhome, hreg, hopen'⟩ := hs.interest r fd h' hentry
      exact ⟨hfd, hhome, registered_update hreg, hopen'⟩

/-- A caller does not mind that another one registers a handle. -/
theorem PcOk.insertHandle [DecidableEq H] (hp : PcOk W sh p) (hheld : h ∉ p.held)
    (hunreg : sh.registered h = false) (hav : sh.Available (W.home h)) (ok : Bool) :
    PcOk W (sh.insertHandle W h ok) p := by
  refine { hp with held := ?_, closes := ?_, sysClose := ?_, socket := ?_, exec := ?_ }
  · intro h' hmem
    have hne : h' ≠ h := fun heq => hheld (heq ▸ hmem)
    exact ⟨(hp.held h' hmem).1, (Function.update_of_ne hne ..).trans (hp.held h' hmem).2⟩
  · intro h' hcloses
    obtain ⟨hopen, hreg, hclosed⟩ := hp.closes h' hcloses
    exact ⟨hopen, registered_update hreg, hclosed⟩
  · intro h' hclosing hkey hav'
    obtain ⟨howned, hmtx, -, hall, -⟩ := insertHandle_runtime W sh h ok (W.home h')
    rcases hall _ h' hkey with ⟨rfl, -, -⟩ | hkey
    · have hreg := (hp.closes h' ⟨_, hclosing, nofun⟩).2.1
      rw [hunreg] at hreg
      cases hreg
    · exact hp.sysClose h' hclosing hkey ⟨howned ▸ hav'.1, hmtx ▸ hav'.2⟩
  · intro h' pc hclose
    exact ⟨(hp.socket h' pc hclose).1, registered_update (hp.socket h' pc hclose).2⟩
  · intro r pc hexec
    obtain ⟨-, hmtx, hrunning, hall, -⟩ := insertHandle_runtime W sh h ok r
    have hold := hp.exec r pc hexec
    refine { hold with running := hrunning.trans hold.running, handles := ?_,
                       mtx := fun hrel => hmtx.trans (hold.mtx hrel), empty := ?_ }
    · intro h' hmem
      obtain ⟨hhome, hreg, hopen⟩ := hold.handles h' hmem
      exact ⟨hhome, registered_update hreg, hopen⟩
    · intro hunlock fd
      refine Option.eq_none_iff_forall_ne_some.2 fun h' hkey => ?_
      rcases hall fd h' hkey with ⟨-, rfl, -⟩ | hkey
      · -- A loop in the section of its runtime keeps everyone else out.
        have hheld := hold.mtx (hunlock ▸ rfl)
        rw [hav.2] at hheld
        cases hheld
      · rw [hold.empty hunlock fd] at hkey
        cases hkey

/-- What `deregister_handle` does is to remove the handle, and then to reset its `runtime_`. -/
theorem deregisterHandle_cases [DecidableEq H] (W : Objects H R) (sh : Shared H R) (h : H) :
    (∃ f, Shrinks f (sh.runtime (W.home h)) ∧
      (f (sh.runtime (W.home h))).allHandles (W.fd h) = none ∧
      (f (sh.runtime (W.home h))).running = (sh.runtime (W.home h)).running ∧
      (f (sh.runtime (W.home h))).mtx = (sh.runtime (W.home h)).mtx ∧
      sh.deregisterHandle W h = { sh.setRuntime (W.home h) f with
        runtimeRef := Function.update sh.runtimeRef h false }) ∨
    ((sh.runtime (W.home h)).allHandles (W.fd h) ≠ some h ∧ sh.deregisterHandle W h = sh) := by
  have hupdate : ∀ (g : ℕ → Option H) fd h', Function.update g (W.fd h) none fd = some h' →
      g fd = some h' := by
    intro g fd h' hg
    rw [Function.update_apply] at hg
    split at hg
    · cases hg
    · exact hg
  unfold Shared.deregisterHandle
  split
  · exact .inl ⟨fun rt => { rt with
        interest := Function.update rt.interest (W.fd h) none
        allHandles := Function.update rt.allHandles (W.fd h) none },
      ⟨fun fd h' => hupdate _ fd h', fun fd h' => hupdate _ fd h',
        fun howned hmtx _ _ _ => ⟨howned, hmtx⟩⟩, Function.update_self .., rfl, rfl, rfl⟩
  · exact .inr ⟨‹_›, rfl⟩

/-- `deregister_handle` removes its handle. -/
theorem deregisterHandle_removes [DecidableEq H] (W : Objects H R) (sh : Shared H R) (h : H) :
    ((sh.deregisterHandle W h).runtime (W.home h)).allHandles (W.fd h) ≠ some h := by
  rcases deregisterHandle_cases W sh h with ⟨f, -, hnone, -, -, heq⟩ | ⟨hne, heq⟩
  · rw [heq]
    have hrt : ((sh.setRuntime (W.home h) f).runtime (W.home h)).allHandles (W.fd h) = none := by
      rw [setRuntime_self, hnone]
    exact fun hsome => by cases hrt.symm.trans hsome
  · rwa [heq]

/-- It removes nothing that is live. -/
theorem SharedOk.deregisterHandle [DecidableEq H] (hs : SharedOk W sh) (h : H) :
    SharedOk W (sh.deregisterHandle W h) := by
  have hremoves := deregisterHandle_removes W sh h
  rcases deregisterHandle_cases W sh h with ⟨f, hf, hnone, -, -, heq⟩ | ⟨-, heq⟩
  · rw [heq] at hremoves ⊢
    have hshrunk := hs.shrink hf
    refine hshrunk.ref fun r hav fd h' hkey => ?_
    have hne : h' ≠ h := by
      rintro rfl
      obtain ⟨rfl, rfl, -⟩ := hshrunk.key r fd h' hkey
      exact hremoves hkey
    exact (Function.update_of_ne hne ..).trans (hshrunk.keyLive r hav fd h' hkey).2
  · rwa [heq]

/-- A caller does not mind that a registered handle is removed. -/
theorem PcOk.deregisterHandle [DecidableEq H] (hp : PcOk W sh p) (hreg : sh.registered h = true) :
    PcOk W (sh.deregisterHandle W h) p := by
  rcases deregisterHandle_cases W sh h with ⟨f, hf, -, hrunning, hmtx, heq⟩ | ⟨-, heq⟩
  · rw [heq]
    have hshrunk := hp.shrink hf fun _ => ⟨hrunning.symm ▸ id, hmtx.symm ▸ id⟩
    refine hshrunk.setRef fun h' hs' hregister => ?_
    have hne : h' ≠ h := by
      rintro rfl
      have hunreg := (hp.held h' (hregister ▸ List.mem_cons_self ..)).2
      rw [hreg] at hunreg
      cases hunreg
    exact (Function.update_of_ne hne ..).trans (hp.ref h' hs' hregister)
  · rwa [heq]

/-- What `release_all_handles` resets is registered with its runtime. -/
theorem resetWhere_shrinks [DecidableEq H] (rt : RuntimeState H) (ps : ℕ → Bool) :
    Shrinks (fun rt => { rt with
      interest := fun fd => if (rt.allHandles fd).isSome && ps fd then none else rt.interest fd })
      rt where
  allHandles _ _ hkey := hkey
  interest fd h' hentry := by
    dsimp only at hentry
    split at hentry
    · cases hentry
    · exact hentry
  available howned hmtx _ _ _ := ⟨howned, hmtx⟩

/-- Inside its section `release_all_handles` may reset `runtime_` of what is registered. -/
theorem SharedOk.resetWhere [DecidableEq H] (hs : SharedOk W sh)
    (hmtx : (sh.runtime r).mtx = true) (ps : ℕ → Bool) : SharedOk W (sh.resetWhere W r ps) := by
  have hshrunk := hs.shrink (resetWhere_shrinks (sh.runtime r) ps)
  refine hshrunk.ref fun r' hav fd h hkey => ?_
  have hne : r' ≠ r := by
    rintro rfl
    have hfree := hav.2
    rw [setRuntime_self] at hfree
    exact Bool.false_ne_true (hfree.symm.trans hmtx)
  obtain ⟨hlive, href⟩ := hshrunk.keyLive r' hav fd h hkey
  have hnot : (sh.runtime r).allHandles (W.fd h) ≠ some h := by
    intro hkey'
    exact hne ((hshrunk.key r' fd h hkey).2.1.symm.trans (hs.key r _ h hkey').2.1)
  exact (if_neg (by simp [hnot])).trans href

/-- A caller does not mind that. -/
theorem PcOk.resetWhere [DecidableEq H] (hs : SharedOk W sh) (hp : PcOk W sh p) (ps : ℕ → Bool) :
    PcOk W (sh.resetWhere W r ps) p := by
  have hshrunk := hp.shrink (resetWhere_shrinks (sh.runtime r) ps) fun _ => ⟨id, id⟩
  refine hshrunk.setRef fun h hs' hregister => ?_
  have hnot : (sh.runtime r).allHandles (W.fd h) ≠ some h := by
    intro hkey
    have hunreg := (hp.held h (hregister ▸ List.mem_cons_self ..)).2
    rw [(hs.key r _ h hkey).2.2] at hunreg
    cases hunreg
  exact (if_neg (by simp [hnot])).trans (hp.ref h hs' hregister)

/-! ## Steps of callers -/

variable [DecidableEq T] {s : State H R T} {t : T}

omit [DecidableEq R] in
/-- What a step of a caller has to show. -/
theorem Inv.caller (hi : Inv W s) (hshared : SharedOk W sh') (hown : PcOk W sh' p')
    (hothers : ∀ q, PcOk W s.shared q → Apart (s.pc t) q → PcOk W sh' q)
    (hapart : ∀ q, PcOk W s.shared q → Apart (s.pc t) q → Apart p' q) :
    Inv W ⟨sh', Function.update s.pc t p'⟩ := by
  refine ⟨hshared, fun t' => ?_, fun t₁ t₂ hne => ?_⟩
  · dsimp only
    rcases eq_or_ne t' t with rfl | hne
    · rwa [Function.update_self]
    · rw [Function.update_of_ne hne]
      exact hothers _ (hi.pcOk t') (hi.apart t t' hne.symm)
  · dsimp only
    rcases eq_or_ne t₁ t with rfl | h₁
    · rw [Function.update_self, Function.update_of_ne hne.symm]
      exact hapart _ (hi.pcOk t₂) (hi.apart t₁ t₂ hne)
    · rw [Function.update_of_ne h₁]
      rcases eq_or_ne t₂ t with rfl | h₂
      · rw [Function.update_self]
        exact (hapart _ (hi.pcOk t₁) (hi.apart t₂ t₁ hne.symm)).symm
      · rw [Function.update_of_ne h₂]
        exact hi.apart t₁ t₂ hne

omit [DecidableEq R] in
/-- And one that changes nothing that is shared. -/
theorem Inv.moves (hi : Inv W s) (hown : PcOk W s.shared p')
    (hapart : ∀ q, PcOk W s.shared q → Apart (s.pc t) q → Apart p' q) :
    Inv W ⟨s.shared, Function.update s.pc t p'⟩ :=
  hi.caller hi.shared hown (fun _ hq _ => hq) hapart

/-! ## Calls of close -/

/-- Where a caller stands after a step of its call of `close`. -/
def Pc.closeTo : Pc H R → Option ClosePc → Pc H R
  | .close h _, some pc => .close h pc
  | .exec r (.closing h _ events), some pc => .exec r (.closing h pc events)
  | .exec r (.closing _ _ events), none => .exec r (.dispatch events)
  | _, _ => .idle

variable {cpc cpc' : ClosePc}

omit [DecidableEq R] [DecidableEq T] in
/-- A caller that closes a handle has obtained nothing, and stays where it is. -/
theorem closing_cases (hclosing : p.closing = some (h, cpc)) :
    p = .close h cpc ∨ ∃ r events, p = .exec r (.closing h cpc events) := by
  cases p with
  | close h' pc =>
    obtain ⟨rfl, rfl⟩ := Prod.mk.inj (Option.some.inj hclosing)
    exact .inl rfl
  | exec r pc =>
    cases pc with
    | closing h' pc events =>
      obtain ⟨rfl, rfl⟩ := Prod.mk.inj (Option.some.inj hclosing)
      exact .inr ⟨r, events, rfl⟩
    | _ => cases hclosing
  | _ => cases hclosing

omit [DecidableEq R] [DecidableEq T] in
/-- What is closed has been registered, and only sockets compare and exchange. -/
theorem PcOk.closing (hp : PcOk W sh p) (hclosing : p.closing = some (h, cpc)) :
    sh.registered h = true ∧ (cpc = .cas → W.isSocket h = true) := by
  rcases closing_cases hclosing with rfl | ⟨r, events, rfl⟩
  · exact ⟨(hp.socket h cpc rfl).2, fun _ => (hp.socket h cpc rfl).1⟩
  · have hexec := hp.exec r _ rfl
    refine ⟨(hexec.handles h (List.mem_cons_self ..)).2.1, ?_⟩
    rintro rfl
    exact hexec.cas h events rfl

omit [DecidableEq R] [DecidableEq T] in
/-- A call of `close` goes on. -/
theorem PcOk.closeTo_some (hp : PcOk W sh p) (hclosing : p.closing = some (h, cpc))
    (hne : cpc' ≠ .cas) (hopen : sh.opened (W.fd h) = some (.handle h))
    (hclosed : W.isSocket h = true → sh.closed h = true)
    (hsys : cpc' = .sysClose → (sh.runtime (W.home h)).allHandles (W.fd h) = some h →
      ¬ sh.Available (W.home h)) : PcOk W sh (p.closeTo (some cpc')) := by
  have hreg := (hp.closing hclosing).1
  have hpc : (p.closeTo (some cpc')).closing = some (h, cpc') := by
    rcases closing_cases hclosing with rfl | ⟨r, events, rfl⟩ <;> rfl
  have hheld : (p.closeTo (some cpc')).held = [] := by
    rcases closing_cases hclosing with rfl | ⟨r, events, rfl⟩ <;> rfl
  constructor
  · exact fun h' hmem => by rw [hheld] at hmem; cases hmem
  · rw [hheld]
    exact .nil
  · intro h' hs heq
    rw [heq] at hheld
    cases hheld
  · rintro h' ⟨pc, hclosing', -⟩
    obtain ⟨rfl, rfl⟩ := Prod.mk.inj (Option.some.inj (hpc.symm.trans hclosing'))
    exact ⟨hopen, hreg, hclosed⟩
  · intro h' hclosing'
    obtain ⟨rfl, rfl⟩ := Prod.mk.inj (Option.some.inj (hpc.symm.trans hclosing'))
    exact hsys rfl
  · intro h' pc heq
    rcases closing_cases hclosing with rfl | ⟨r, events, rfl⟩
    · obtain ⟨rfl, -⟩ := Pc.close.inj heq
      exact hp.socket h cpc rfl
    · cases heq
  · intro r pc heq
    rcases closing_cases hclosing with rfl | ⟨r', events, rfl⟩
    · cases heq
    · obtain ⟨rfl, rfl⟩ := Pc.exec.inj heq
      have hexec := hp.exec r' _ rfl
      refine { hexec with cas := fun h' events' heq => ?_, mtx := fun hrel => ?_, empty := nofun }
      · obtain ⟨-, rfl, -⟩ := ExecPc.closing.inj heq
        exact absurd rfl hne
      · cases hrel

omit [DecidableEq R] [DecidableEq T] in
/-- A call of `close` returns. -/
theorem PcOk.closeTo_none (hp : PcOk W sh p) (hclosing : p.closing = some (h, cpc)) :
    PcOk W sh (p.closeTo none) := by
  rcases closing_cases hclosing with rfl | ⟨r, events, rfl⟩
  · constructor
    all_goals first | exact .nil | exact nofun
  · have hexec := hp.exec r _ rfl
    constructor
    · exact nofun
    · exact .nil
    · exact nofun
    · rintro h' ⟨pc, hclosing', -⟩
      cases hclosing'
    · exact nofun
    · exact nofun
    · intro r' pc heq
      obtain ⟨rfl, rfl⟩ := Pc.exec.inj heq
      exact { hexec with
        nodup := hexec.nodup.of_cons
        handles := fun h' hmem => hexec.handles h' (List.mem_cons_of_mem _ hmem)
        cas := nofun
        mtx := nofun
        empty := nofun }

omit [DecidableEq R] [DecidableEq T] in
/-- Where `close` has returned, nobody relies on the descriptor. -/
theorem PcOk.not_relies_closeTo (hp : PcOk W sh p) (hclosing : p.closing = some (h, cpc)) :
    ¬ (p.closeTo none).Relies W h := by
  intro hrel
  rcases closing_cases hclosing with rfl | ⟨r, events, rfl⟩
  · cases hrel with
    | held hmem => cases hmem
    | closes hcloses =>
      obtain ⟨pc, hpc, -⟩ := hcloses
      cases hpc
    | acceptor _ r pc heq => cases heq
  · cases hrel with
    | held hmem => cases hmem
    | closes hcloses =>
      obtain ⟨pc, hpc, -⟩ := hcloses
      cases hpc
    | acceptor _ r' pc heq hmem =>
      obtain ⟨-, rfl⟩ := Pc.exec.inj heq
      exact (List.nodup_cons.1 (hp.exec r _ rfl).nodup).1 hmem

omit [DecidableEq R] [DecidableEq T] in
/-- A call of `close` returns, apart from the others. -/
theorem Apart.closeTo_none (ha : Apart p q) (hclosing : p.closing = some (h, cpc)) :
    Apart (p.closeTo none) q := by
  rcases closing_cases hclosing with rfl | ⟨r, events, rfl⟩
  · refine ⟨nofun, ?_, nofun⟩
    rintro h' ⟨pc, hpc, -⟩
    cases hpc
  · refine ⟨nofun, ?_, ha.loop⟩
    rintro h' ⟨pc, hpc, -⟩
    cases hpc

omit [DecidableEq R] [DecidableEq T] in
/-- It goes on, apart from the others, if nobody else closes the handle. -/
theorem Apart.closeTo_some (ha : Apart p q) (hclosing : p.closing = some (h, cpc))
    (hnot : cpc = .cas → ¬ q.Closes h) : Apart (p.closeTo (some cpc')) q := by
  have hcloses : ¬ q.Closes h := by
    by_cases hcas : cpc = .cas
    · exact hnot hcas
    · exact ha.closes h ⟨cpc, hclosing, hcas⟩
  rcases closing_cases hclosing with rfl | ⟨r, events, rfl⟩
  · refine ⟨nofun, ?_, nofun⟩
    rintro h' ⟨pc, hpc, -⟩
    obtain ⟨rfl, -⟩ := Prod.mk.inj (Option.some.inj hpc)
    exact hcloses
  · refine ⟨nofun, ?_, ha.loop⟩
    rintro h' ⟨pc, hpc, -⟩
    obtain ⟨rfl, -⟩ := Prod.mk.inj (Option.some.inj hpc)
    exact hcloses

variable [DecidableEq H]

/-- A step of a call of `close`. -/
theorem Inv.stepClose (hi : Inv W s) (hclosing : (s.pc t).closing = some (h, cpc))
    {next : Option ClosePc} (hstep : s.shared.stepClose W h cpc = some (sh', next)) :
    Inv W ⟨sh', Function.update s.pc t ((s.pc t).closeTo next)⟩ := by
  have hp := hi.pcOk t
  obtain ⟨hreg, hsocket⟩ := hp.closing hclosing
  cases cpc with
  | cas =>
    rw [Shared.stepClose] at hstep
    split at hstep
    · obtain ⟨rfl, rfl⟩ := Prod.mk.inj (Option.some.inj hstep)
      exact hi.moves (hp.closeTo_none hclosing) fun q _ ha => ha.closeTo_none hclosing
    · rename_i hopen
      obtain ⟨rfl, rfl⟩ := Prod.mk.inj (Option.some.inj hstep)
      have hclosed : s.shared.closed h = false := Bool.eq_false_of_not_eq_true hopen
      have hmono : ∀ h', s.shared.closed h' = true →
          Function.update s.shared.closed h true h' = true := by
        intro h' hc
        rw [Function.update_apply]
        split
        · rfl
        · exact hc
      refine hi.caller (hi.shared.closed hmono) ?_ (fun q hq _ => hq.closed hmono) fun q hq ha => ?_
      · exact (hp.closed hmono).closeTo_some hclosing nofun
          (hi.shared.live h hreg (hsocket rfl) hclosed) (fun _ => Function.update_self ..) nofun
      · refine ha.closeTo_some hclosing fun _ hcloses => ?_
        rw [(hq.closes h hcloses).2.2 (hsocket rfl)] at hclosed
        cases hclosed
  | lockRuntime =>
    have hcloses := hp.closes h ⟨_, hclosing, nofun⟩
    have hapart : ∀ pc q, PcOk W s.shared q → Apart (s.pc t) q →
        Apart ((s.pc t).closeTo (some pc)) q := fun pc q _ ha => ha.closeTo_some hclosing nofun
    rw [Shared.stepClose] at hstep
    split at hstep
    · obtain ⟨rfl, rfl⟩ := Prod.mk.inj (Option.some.inj hstep)
      exact hi.moves (hp.closeTo_some hclosing nofun hcloses.1 hcloses.2.2 nofun) (hapart _)
    · rename_i hfails
      obtain ⟨rfl, rfl⟩ := Prod.mk.inj (Option.some.inj hstep)
      refine hi.moves (hp.closeTo_some hclosing nofun hcloses.1 hcloses.2.2 ?_) (hapart _)
      -- Of an available runtime the handle would know.
      intro _ hkey hav
      exact hfails (by rw [(hi.shared.keyLive _ hav _ h hkey).2, hav.1]; rfl)
  | deregister =>
    have hcloses := hp.closes h ⟨_, hclosing, nofun⟩
    rw [Shared.stepClose] at hstep
    split at hstep
    · cases hstep
    · obtain ⟨rfl, rfl⟩ := Prod.mk.inj (Option.some.inj hstep)
      have hp' := hp.deregisterHandle hreg
      have hcloses' := hp'.closes h ⟨_, hclosing, nofun⟩
      refine hi.caller (hi.shared.deregisterHandle h) ?_ (fun q hq _ => hq.deregisterHandle hreg)
        fun q _ ha => ha.closeTo_some hclosing nofun
      exact hp'.closeTo_some hclosing nofun hcloses'.1 hcloses'.2.2 fun _ hkey =>
        absurd hkey (deregisterHandle_removes W s.shared h)
  | sysClose =>
    obtain ⟨rfl, rfl⟩ := Prod.mk.inj (Option.some.inj hstep)
    have hrel : (s.pc t).Relies W h := .closes ⟨_, hclosing, nofun⟩
    have hcloses := hp.closes h ⟨_, hclosing, nofun⟩
    have hself : ∀ h', s.shared.opened (W.fd h) = some (.handle h') → h' = h := by
      intro h' hopen
      rw [hcloses.1] at hopen
      exact (Use.handle.inj (Option.some.inj hopen)).symm
    refine hi.caller (hi.shared.sysClose ?_) ?_ ?_ fun q _ ha => ha.closeTo_none hclosing
    · intro h' hopen
      obtain rfl := hself h' hopen
      exact ⟨fun _ => hcloses.2.2, hp.sysClose h' hclosing⟩
    · refine (hp.closeTo_none hclosing).sysCloseOther fun h' hopen => ?_
      obtain rfl := hself h' hopen
      exact hp.not_relies_closeTo hclosing
    · intro q hq ha
      refine hq.sysCloseOther fun h' hopen => ?_
      obtain rfl := hself h' hopen
      exact ha.relies hp hq hrel

/-! ## The loops -/

variable {pc pc' : ExecPc H}

omit [DecidableEq R] [DecidableEq T] [DecidableEq H] in
/-- A thread inside `exec` that is in no call of `close`. -/
theorem PcOk.ofExec (hexec : ExecOk W sh r pc) (hnone : (Pc.exec r pc).closing = none) :
    PcOk W sh (.exec r pc) where
  held := nofun
  nodup := .nil
  ref := nofun
  closes := by
    rintro h ⟨cpc, hclosing, -⟩
    rw [hnone] at hclosing
    cases hclosing
  sysClose h hclosing := by
    rw [hnone] at hclosing
    cases hclosing
  socket := nofun
  exec r' pc' heq := by
    obtain ⟨rfl, rfl⟩ := Pc.exec.inj heq
    exact hexec

omit [DecidableEq R] [DecidableEq T] [DecidableEq H] in
/-- It stays apart from the others. -/
theorem Apart.exec (ha : Apart (.exec r pc) q) (hnone : (Pc.exec r pc').closing = none) :
    Apart (.exec r pc') q where
  held := nofun
  closes := by
    rintro h ⟨cpc, hclosing, -⟩
    rw [hnone] at hclosing
    cases hclosing
  loop := ha.loop

omit [DecidableEq R] [DecidableEq T] [DecidableEq H] in
/-- A thread inside `exec` that goes on with less. -/
theorem ExecOk.mono (hexec : ExecOk W sh r pc) (hsub : pc'.handles.Sublist pc.handles)
    (hcas : ∀ h events, pc' ≠ .closing h .cas events) (hrel : pc'.releasing = false) :
    ExecOk W sh r pc' where
  running := hexec.running
  nodup := hexec.nodup.sublist hsub
  handles h hmem := hexec.handles h (hsub.subset hmem)
  cas h events heq := absurd heq (hcas h events)
  mtx hrel' := by rw [hrel] at hrel'; cases hrel'
  empty heq := by
    subst heq
    cases hrel

omit [DecidableEq R] [DecidableEq H] in
/-- The loop handles an event. -/
theorem Inv.dispatchEvent (hi : Inv W s) {e : EpollEvent H} {events : List (EpollEvent H)}
    (hpc : s.pc t = .exec r (.dispatch (e :: events))) :
    Inv W ⟨s.shared, Function.update s.pc t (.exec r (dispatchEvent W e events))⟩ := by
  have hexec := (hi.pcOk t).exec r _ hpc
  obtain ⟨hhome, hreg, hopen⟩ := hexec.handles e.handle (List.mem_cons_self ..)
  unfold Process.dispatchEvent
  split
  · have hless : ExecOk W s.shared r (.dispatch events) :=
      hexec.mono (List.sublist_cons_self ..) nofun rfl
    exact hi.moves (.ofExec hless rfl) fun q _ ha => (hpc ▸ ha).exec rfl
  · unfold closeStart
    cases hsocket : W.isSocket e.handle with
    | true =>
      -- A socket has to be closed by this call first.
      have hcas : ExecOk W s.shared r (.closing e.handle .cas events) :=
        { hexec with
          cas := fun h events' heq => by
            obtain ⟨rfl, -, -⟩ := ExecPc.closing.inj heq
            exact hsocket
          mtx := nofun
          empty := nofun }
      have hnot : ∀ h, ¬ (Pc.exec r (.closing e.handle .cas events)).Closes h := by
        rintro h ⟨cpc, hclosing, hne⟩
        exact hne (Prod.mk.inj (Option.some.inj hclosing)).2.symm
      refine hi.moves ?_ fun q _ ha => ⟨nofun, fun h hc => absurd hc (hnot h), (hpc ▸ ha).loop⟩
      refine ⟨nofun, .nil, nofun, fun h hc => absurd hc (hnot h), fun h hclosing => ?_, nofun, ?_⟩
      · cases (Prod.mk.inj (Option.some.inj hclosing)).2
      · intro r' pc' heq
        obtain ⟨rfl, rfl⟩ := Pc.exec.inj heq
        exact hcas
    | false =>
      -- An acceptor is closed by the loop of its runtime only.
      have hclose : ExecOk W s.shared r (.closing e.handle .lockRuntime events) :=
        { hexec with cas := nofun, mtx := nofun, empty := nofun }
      refine hi.moves ⟨nofun, .nil, nofun, ?_, fun h hclosing => ?_, nofun, ?_⟩ fun q hq ha =>
        ⟨nofun, ?_, (hpc ▸ ha).loop⟩
      · rintro h ⟨cpc, hclosing, -⟩
        obtain ⟨rfl, -⟩ := Prod.mk.inj (Option.some.inj hclosing)
        exact ⟨hopen hsocket, hreg, fun htrue => by rw [hsocket] at htrue; cases htrue⟩
      · cases (Prod.mk.inj (Option.some.inj hclosing)).2
      · intro r' pc' heq
        obtain ⟨rfl, rfl⟩ := Pc.exec.inj heq
        exact hclose
      · rintro h ⟨cpc, hclosing, -⟩ hcloses
        obtain ⟨rfl, -⟩ := Prod.mk.inj (Option.some.inj hclosing)
        have hheld : e.handle ∉ q.held := by
          intro hmem
          have hunreg := (hq.held _ hmem).2
          rw [hreg] at hunreg
          cases hunreg
        have hloop := hq.loop_of_acceptor hsocket (.closes hcloses) hheld
        exact (hpc ▸ ha).loop r rfl (hhome ▸ hloop)

omit [DecidableEq R] [DecidableEq H] in
/-- The loop goes on with less. -/
theorem Inv.execMoves (hi : Inv W s) (hpc : s.pc t = .exec r pc)
    (hsub : pc'.handles.Sublist pc.handles) (hnone : (Pc.exec r pc').closing = none)
    (hrel : pc'.releasing = false) : Inv W ⟨s.shared, Function.update s.pc t (.exec r pc')⟩ := by
  refine hi.moves (.ofExec (((hi.pcOk t).exec r pc hpc).mono hsub ?_ hrel) hnone) fun q _ ha =>
    (hpc ▸ ha).exec hnone
  rintro h events rfl
  cases hnone

omit [DecidableEq H] in
/-- The loop changes its runtime. -/
theorem Inv.execShrinks (hi : Inv W s) (hpc : s.pc t = .exec r pc)
    (hf : Shrinks f (s.shared.runtime r)) (hnone : (Pc.exec r pc').closing = none)
    (hexec : ExecOk W (s.shared.setRuntime r f) r pc') :
    Inv W ⟨s.shared.setRuntime r f, Function.update s.pc t (.exec r pc')⟩ :=
  hi.caller (hi.shared.shrink hf) (.ofExec hexec hnone)
    (fun _ hq ha => hq.shrink hf fun hloop => absurd hloop ((hpc ▸ ha).loop r rfl))
    fun _ _ ha => (hpc ▸ ha).exec hnone

omit [DecidableEq R] [DecidableEq T] [DecidableEq H] in
/-- Nothing is asked of a caller in no call. -/
theorem PcOk.idle : PcOk W sh (.idle : Pc H R) where
  held := nofun
  nodup := .nil
  ref := nofun
  closes := by
    rintro h ⟨pc, hpc, -⟩
    cases hpc
  sysClose := nofun
  socket := nofun
  exec := nofun

omit [DecidableEq R] [DecidableEq T] [DecidableEq H] in
/-- And it is apart from all others. -/
theorem Apart.idle : Apart (.idle : Pc H R) q where
  held := nofun
  closes := by
    rintro h ⟨pc, hpc, -⟩
    cases hpc
  loop := nofun

/-- Where a thread that was inside `exec` stands after a step. -/
def Pc.execTo (r : R) : Option (ExecPc H) → Pc H R
  | some pc => .exec r pc
  | none => .idle

/-- A step of a thread inside `exec`. -/
theorem Inv.stepExec (hi : Inv W s) (hpc : s.pc t = .exec r pc) {choice : Choice H}
    {next : Option (ExecPc H)} (hstep : stepExec W s.shared r pc choice = some (sh', next)) :
    Inv W ⟨sh', Function.update s.pc t (.execTo r next)⟩ := by
  have hexec := (hi.pcOk t).exec r pc hpc
  have hmoves : ∀ {pc'}, some (s.shared, some pc') = some (sh', next) →
      pc'.handles.Sublist pc.handles → (Pc.exec r pc').closing = none → pc'.releasing = false →
        Inv W ⟨sh', Function.update s.pc t (.execTo r next)⟩ := by
    intro pc' heq hsub hnone hrel
    obtain ⟨rfl, rfl⟩ := Prod.mk.inj (Option.some.inj heq)
    exact hi.execMoves hpc hsub hnone hrel
  cases pc with
  | guard =>
    cases choice with
    | stop => exact hmoves hstep (List.nil_sublist _) rfl rfl
    | go => exact hmoves hstep (List.nil_sublist _) rfl rfl
    | _ => cases hstep
  | waiting events =>
    cases choice with
    | event e =>
      rw [Process.stepExec] at hstep
      split at hstep
      · rename_i hevent
        obtain ⟨hentry, hnew⟩ := hevent
        obtain ⟨rfl, rfl⟩ := Prod.mk.inj (Option.some.inj hstep)
        obtain ⟨-, hhome, hreg, hopen⟩ := hi.shared.interest r _ _ hentry
        have hmap : (ExecPc.waiting (events ++ [e])).handles =
            (ExecPc.waiting events).handles ++ [e.handle] := List.map_append
        refine hi.moves (.ofExec ?_ rfl) fun q _ ha => (hpc ▸ ha).exec rfl
        refine { hexec with nodup := ?_, handles := ?_, cas := nofun, mtx := nofun, empty := nofun }
        · rw [hmap]
          refine List.nodup_append.2 ⟨hexec.nodup, List.nodup_singleton _, fun x hx y hy => ?_⟩
          rintro rfl
          exact hnew (List.mem_singleton.1 hy ▸ hx)
        · intro h hmem
          rw [hmap] at hmem
          rcases List.mem_append.1 hmem with hmem | hmem
          · exact hexec.handles h hmem
          · obtain rfl := List.mem_singleton.1 hmem
            exact ⟨hhome, hreg, fun _ => hopen⟩
      · cases hstep
    | go => exact hmoves hstep (List.Sublist.refl _) rfl rfl
    | _ => cases hstep
  | dispatch events =>
    cases choice with
    | go =>
      cases events with
      | nil => exact hmoves hstep (List.nil_sublist _) rfl rfl
      | cons e events =>
        obtain ⟨rfl, rfl⟩ := Prod.mk.inj (Option.some.inj hstep)
        exact hi.dispatchEvent hpc
    | _ => cases events <;> cases hstep
  | closing h cpc events =>
    cases choice with
    | go =>
      obtain ⟨⟨sh, next'⟩, hclose, heq⟩ := Option.map_eq_some_iff.1 hstep
      obtain ⟨rfl, rfl⟩ := Prod.mk.inj heq
      have hclosing : (s.pc t).closing = some (h, cpc) := by rw [hpc]; rfl
      have hinv := hi.stepClose hclosing hclose
      rw [hpc] at hinv
      cases next' <;> exact hinv
    | _ => cases hstep
  | releaseLock =>
    cases choice with
    | go =>
      rw [Process.stepExec] at hstep
      split at hstep
      · cases hstep
      · obtain ⟨rfl, rfl⟩ := Prod.mk.inj (Option.some.inj hstep)
        refine hi.execShrinks hpc ⟨fun _ _ => id, fun _ _ => id, fun _ => nofun⟩ rfl ?_
        refine ⟨?_, .nil, nofun, nofun, fun _ => ?_, nofun⟩
        · rw [setRuntime_self]
          exact hexec.running
        · rw [setRuntime_self]
    | _ => cases hstep
  | releaseReset =>
    -- Whichever handles are reset, the loop stays in its section.
    have hreset : ∀ (ps : ℕ → Bool) (pc' : ExecPc H), pc'.handles = [] →
        (Pc.exec r pc').closing = none → pc' ≠ .unlock →
          Inv W ⟨s.shared.resetWhere W r ps, Function.update s.pc t (.exec r pc')⟩ := by
      intro ps pc' hhandles hnone hne
      have hmtx := hexec.mtx rfl
      have hself : (s.shared.resetWhere W r ps).runtime r = { s.shared.runtime r with
          interest := fun fd => if ((s.shared.runtime r).allHandles fd).isSome && ps fd then none
            else (s.shared.runtime r).interest fd } := Function.update_self ..
      refine hi.caller (hi.shared.resetWhere hmtx ps) (.ofExec ?_ hnone)
        (fun q hq _ => hq.resetWhere hi.shared ps) fun q _ ha => (hpc ▸ ha).exec hnone
      refine ⟨?_, ?_, ?_, ?_, fun _ => ?_, fun heq => absurd heq hne⟩
      · rw [hself]
        exact hexec.running
      · rw [hhandles]
        exact .nil
      · exact fun h hmem => by rw [hhandles] at hmem; cases hmem
      · rintro h events rfl
        cases hhandles
      · rw [hself]
        exact hmtx
    cases choice with
    | reset fd =>
      obtain ⟨rfl, rfl⟩ := Prod.mk.inj (Option.some.inj hstep)
      exact hreset _ _ rfl rfl nofun
    | go =>
      obtain ⟨rfl, rfl⟩ := Prod.mk.inj (Option.some.inj hstep)
      exact hreset _ _ rfl rfl nofun
    | _ => cases hstep
  | releaseHandles =>
    cases choice with
    | go =>
      obtain ⟨rfl, rfl⟩ := Prod.mk.inj (Option.some.inj hstep)
      refine hi.execShrinks hpc ⟨fun _ _ => nofun, fun _ _ => id, fun _ _ _ _ => nofun⟩ rfl ?_
      refine ⟨?_, .nil, nofun, nofun, fun _ => ?_, fun _ fd => ?_⟩
      · rw [setRuntime_self]
        exact hexec.running
      · rw [setRuntime_self]
        exact hexec.mtx rfl
      · rw [setRuntime_self]
    | _ => cases hstep
  | unlock =>
    cases choice with
    | go =>
      obtain ⟨rfl, rfl⟩ := Prod.mk.inj (Option.some.inj hstep)
      have hf : Shrinks (fun rt : RuntimeState H => { rt with mtx := false, running := false })
          (s.shared.runtime r) :=
        ⟨fun _ _ => id, fun _ _ => id, fun _ _ fd h hkey => by
          cases (hexec.empty rfl fd).symm.trans hkey⟩
      exact hi.caller (hi.shared.shrink hf) .idle
        (fun _ hq ha => hq.shrink hf fun hloop => absurd hloop ((hpc ▸ ha).loop r rfl))
        fun _ _ _ => .idle
    | _ => cases hstep

/-! ## The calls that obtain descriptors -/

variable {hs : List H}

omit [DecidableEq R] [DecidableEq T] [DecidableEq H] in
/-- A caller that has obtained descriptors, and does nothing else. -/
theorem PcOk.ofHeld (hheld : ∀ h ∈ p.held, sh.opened (W.fd h) = some (.handle h) ∧
      sh.registered h = false) (hnodup : p.held.Nodup)
    (href : ∀ h hs, p = .register h hs → sh.runtimeRef h = true) (hnone : p.closing = none)
    (hloop : p.loop = none) : PcOk W sh p where
  held := hheld
  nodup := hnodup
  ref := href
  closes := by
    rintro h ⟨pc, hpc, -⟩
    rw [hnone] at hpc
    cases hpc
  sysClose h hpc := by
    rw [hnone] at hpc
    cases hpc
  socket := by
    rintro h pc rfl
    cases hnone
  exec := by
    rintro r pc rfl
    cases hloop

omit [DecidableEq R] [DecidableEq T] [DecidableEq H] in
/-- It stays apart from the others. -/
theorem Apart.ofHeld (hheld : ∀ h ∈ p.held, h ∉ q.held) (hnone : p.closing = none)
    (hloop : p.loop = none) : Apart p q where
  held := hheld
  closes := by
    rintro h ⟨pc, hpc, -⟩
    rw [hnone] at hpc
    cases hpc
  loop r hr := by
    rw [hloop] at hr
    cases hr

omit [DecidableEq R] [DecidableEq H] in
/-- A caller goes on with some of what it has obtained. -/
theorem Inv.heldMoves (hi : Inv W s) (hsub : p'.held.Sublist (s.pc t).held)
    (href : ∀ h hs, p' ≠ .register h hs) (hnone : p'.closing = none) (hloop : p'.loop = none) :
    Inv W ⟨s.shared, Function.update s.pc t p'⟩ := by
  have hp := hi.pcOk t
  exact hi.moves (.ofHeld (fun h hmem => hp.held h (hsub.subset hmem)) (hp.nodup.sublist hsub)
    (fun h hs heq => absurd heq (href h hs)) hnone hloop)
    fun q _ ha => .ofHeld (fun h hmem => ha.held h (hsub.subset hmem)) hnone hloop

omit [DecidableEq R] in
/-- A caller obtains a descriptor. -/
theorem Inv.obtain (hi : Inv W s) (hheld : (s.pc t).held = hs)
    (hnone : s.shared.opened (W.fd h) = none) (hnew : s.shared.obtained h = false) :
    Inv W ⟨{ s.shared with obtained := Function.update s.shared.obtained h true }.openFor (W.fd h)
      (.handle h), Function.update s.pc t (.opening (hs ++ [h]))⟩ := by
  have hnot : ∀ {q : Pc H R}, PcOk W s.shared q → h ∉ q.held := by
    intro q hq hmem
    have hold := (hi.shared.obtained _ h (hq.held h hmem).1).2
    rw [hnew] at hold
    cases hold
  have hunreg : s.shared.registered h = false := by
    by_contra hreg
    have hold := hi.shared.registered h (Bool.eq_true_of_not_eq_false hreg)
    rw [hnew] at hold
    cases hold
  have hp := hi.pcOk t
  refine hi.caller (hi.shared.openFor hnone (fun _ => registered_update) ?_) ?_
    (fun q hq _ => hq.openFor hnone) ?_
  · intro h' heq
    obtain rfl := Use.handle.inj heq
    exact ⟨rfl, Function.update_self ..⟩
  · refine .ofHeld (fun h' hmem => ?_) ?_ nofun rfl rfl
    · rcases List.mem_append.1 hmem with hmem | hmem
      · exact (hp.openFor hnone).held h' (hheld ▸ hmem)
      · obtain rfl := List.mem_singleton.1 hmem
        exact ⟨Function.update_self .., hunreg⟩
    · refine List.nodup_append.2 ⟨hheld ▸ hp.nodup, List.nodup_singleton _, fun x hx y hy => ?_⟩
      rintro rfl
      exact hnot hp (hheld ▸ List.mem_singleton.1 hy ▸ hx)
  · intro q hq ha
    refine .ofHeld (fun h' hmem => ?_) rfl rfl
    rcases List.mem_append.1 hmem with hmem | hmem
    · exact ha.held h' (hheld ▸ hmem)
    · obtain rfl := List.mem_singleton.1 hmem
      exact hnot hq

omit [DecidableEq R] [DecidableEq H] in
/-- A call that has failed closes a descriptor. -/
theorem Inv.failed (hi : Inv W s) (hpc : s.pc t = .failed (h :: hs)) :
    Inv W ⟨s.shared.sysClose (W.fd h), Function.update s.pc t (.failed hs)⟩ := by
  have hp : PcOk W s.shared (.failed (h :: hs)) := hpc ▸ hi.pcOk t
  obtain ⟨hopen, hunreg⟩ := hp.held h (List.mem_cons_self ..)
  obtain ⟨hnot, hnodup⟩ := List.nodup_cons.1 hp.nodup
  have hself : ∀ h', s.shared.opened (W.fd h) = some (.handle h') → h' = h := by
    intro h' hopen'
    rw [hopen] at hopen'
    exact (Use.handle.inj (Option.some.inj hopen')).symm
  have hrest : PcOk W s.shared (.failed hs : Pc H R) :=
    .ofHeld (fun h' hmem => hp.held h' (List.mem_cons_of_mem _ hmem)) hnodup nofun rfl rfl
  refine hi.caller (hi.shared.sysClose ?_) (hrest.sysCloseOther ?_) (fun q hq ha => ?_)
    fun q _ ha => .ofHeld (fun h' hmem => ?_) rfl rfl
  · intro h' hopen'
    obtain rfl := hself h' hopen'
    refine ⟨fun hreg => ?_, fun hkey => ?_⟩
    · rw [hunreg] at hreg
      cases hreg
    · have hreg := (hi.shared.key _ _ h' hkey).2.2
      rw [hunreg] at hreg
      cases hreg
  · intro h' hopen' hrel
    obtain rfl := hself h' hopen'
    cases hrel with
    | held hmem => exact hnot hmem
    | closes hcloses =>
      obtain ⟨pc, hclosing, -⟩ := hcloses
      cases hclosing
    | acceptor _ r pc heq => cases heq
  · refine hq.sysCloseOther fun h' hopen' => ?_
    obtain rfl := hself h' hopen'
    exact (hpc ▸ ha).relies hp hq (.held (List.mem_cons_self ..))
  · exact (hpc ▸ ha).held h' (List.mem_cons_of_mem _ hmem)

omit [DecidableEq R] in
/-- `register_handle` sets `runtime_`. -/
theorem Inv.setRuntimeRef (hi : Inv W s) (hpc : s.pc t = .registering (h :: hs)) :
    Inv W ⟨{ s.shared with runtimeRef := Function.update s.shared.runtimeRef h true },
      Function.update s.pc t (.register h hs)⟩ := by
  have hp : PcOk W s.shared (.registering (h :: hs)) := hpc ▸ hi.pcOk t
  refine hi.caller (hi.shared.ref fun r hav fd h' hkey =>
    registered_update (hi.shared.keyLive r hav fd h' hkey).2) ?_ ?_ ?_
  · refine .ofHeld hp.held hp.nodup (fun h' hs' heq => ?_) rfl rfl
    obtain ⟨rfl, -⟩ := Pc.register.inj heq
    exact Function.update_self ..
  · exact fun q hq _ => hq.setRef fun h' hs' heq => registered_update (hq.ref h' hs' heq)
  · exact fun q _ ha => .ofHeld (hpc ▸ ha).held rfl rfl

omit [DecidableEq R] [DecidableEq T] [DecidableEq H] in
/-- A handle that is being registered is not registered yet, nor is any other under its number. -/
theorem Inv.new (hi : Inv W s) (hmem : h ∈ (s.pc t).held) (hav : s.shared.Available (W.home h)) :
    (s.shared.runtime (W.home h)).allHandles (W.fd h) = none := by
  obtain ⟨hopen, hunreg⟩ := (hi.pcOk t).held h hmem
  refine Option.eq_none_iff_forall_ne_some.2 fun prev hkey => ?_
  have hprev := (hi.shared.keyLive _ hav _ prev hkey).1
  rw [hopen] at hprev
  obtain rfl := Use.handle.inj (Option.some.inj hprev)
  have hreg := (hi.shared.key _ _ h hkey).2.2
  rw [hunreg] at hreg
  cases hreg

/-- The section of `register_handle`, which takes the place of no older handle. -/
theorem Inv.register (hi : Inv W s) (hpc : s.pc t = .register h hs)
    (hav : s.shared.Available (W.home h)) (ok : Bool) :
    Inv W ⟨(s.shared.registerHandle W h ok).1, Function.update s.pc t (.registering hs)⟩ ∧
      (s.shared.registerHandle W h ok).2 = [] := by
  have hp : PcOk W s.shared (.register h hs) := hpc ▸ hi.pcOk t
  have hmem : h ∈ (s.pc t).held := by
    rw [hpc]
    exact List.mem_cons_self ..
  obtain ⟨hopen, hunreg⟩ := hp.held h (List.mem_cons_self ..)
  obtain ⟨hnot, hnodup⟩ := List.nodup_cons.1 hp.nodup
  rw [Shared.registerHandle, hi.new hmem hav]
  have hrest : PcOk W s.shared (.registering hs : Pc H R) :=
    .ofHeld (fun h' hmem => hp.held h' (List.mem_cons_of_mem _ hmem)) hnodup nofun rfl rfl
  refine ⟨hi.caller (hi.shared.insertHandle hopen (hp.ref h hs rfl) ok)
    (hrest.insertHandle hnot hunreg hav ok) (fun q hq ha => ?_) fun q _ ha => ?_, rfl⟩
  · exact hq.insertHandle ((hpc ▸ ha).held h (List.mem_cons_self ..)) hunreg hav ok
  · exact .ofHeld (fun h' hmem => (hpc ▸ ha).held h' (List.mem_cons_of_mem _ hmem)) rfl rfl

/-! ## Runs -/

omit [DecidableEq R] [DecidableEq H] in
/-- A socket that has been registered is closed by someone. -/
theorem Inv.close (hi : Inv W s) (hsocket : W.isSocket h = true)
    (hreg : s.shared.registered h = true) :
    Inv W ⟨s.shared, Function.update s.pc t (.close h .cas)⟩ := by
  have hnot : ∀ h', ¬ (Pc.close h .cas : Pc H R).Closes h' := by
    rintro h' ⟨cpc, hclosing, hne⟩
    exact hne (Prod.mk.inj (Option.some.inj hclosing)).2.symm
  refine hi.moves ⟨nofun, .nil, nofun, fun h' hc => absurd hc (hnot h'), fun h' hclosing => ?_,
    fun h' cpc heq => ?_, nofun⟩ fun q _ _ => ⟨nofun, fun h' hc => absurd hc (hnot h'), nofun⟩
  · cases (Prod.mk.inj (Option.some.inj hclosing)).2
  · obtain ⟨rfl, -⟩ := Pc.close.inj heq
    exact ⟨hsocket, hreg⟩

/-- A step of a caller. -/
theorem Inv.stepCaller (hi : Inv W s) {choice : Choice H} {es : List (Event H)}
    (hstep : stepCaller W s.shared (s.pc t) choice = some (sh', p', es)) :
    Inv W ⟨sh', Function.update s.pc t p'⟩ ∧ es = [] := by
  have hsome : ∀ {sh p}, some (sh, p, ([] : List (Event H))) = some (sh', p', es) →
      Inv W ⟨sh, Function.update s.pc t p⟩ →
        Inv W ⟨sh', Function.update s.pc t p'⟩ ∧ es = [] := by
    intro sh p heq hinv
    obtain ⟨rfl, hrest⟩ := Prod.mk.inj (Option.some.inj heq)
    obtain ⟨rfl, rfl⟩ := Prod.mk.inj hrest
    exact ⟨hinv, rfl⟩
  generalize hpc : s.pc t = p at hstep
  cases p with
  | idle =>
    cases choice with
    | obtain h =>
      rw [Process.stepCaller] at hstep
      split at hstep
      · rename_i hguard
        exact hsome hstep (hi.obtain (show (s.pc t).held = [] by rw [hpc]; rfl)
          (Option.isNone_iff_eq_none.1 hguard.1) hguard.2)
      · cases hstep
    | close h =>
      rw [Process.stepCaller] at hstep
      split at hstep
      · rename_i hguard
        rw [Bool.and_eq_true] at hguard
        exact hsome hstep (hi.close hguard.1 hguard.2)
      · cases hstep
    | _ => cases hstep
  | opening hs =>
    cases choice with
    | obtain h =>
      rw [Process.stepCaller] at hstep
      split at hstep
      · rename_i hguard
        exact hsome hstep (hi.obtain (by rw [hpc]; rfl)
          (Option.isNone_iff_eq_none.1 hguard.1) hguard.2)
      · cases hstep
    | fail => exact hsome hstep (hi.heldMoves (by rw [hpc]; exact .refl _) nofun rfl rfl)
    | done => exact hsome hstep (hi.heldMoves (by rw [hpc]; exact .refl _) nofun rfl rfl)
    | _ => cases hstep
  | failed hs =>
    cases choice with
    | go =>
      cases hs with
      | nil => exact hsome hstep (hi.heldMoves (List.nil_sublist _) nofun rfl rfl)
      | cons h hs => exact hsome hstep (hi.failed hpc)
    | _ => cases hs <;> cases hstep
  | registering hs =>
    cases choice with
    | go =>
      cases hs with
      | nil => exact hsome hstep (hi.heldMoves (List.nil_sublist _) nofun rfl rfl)
      | cons h hs => exact hsome hstep (hi.setRuntimeRef hpc)
    | _ => cases hs <;> cases hstep
  | register h hs =>
    cases choice with
    | go ok =>
      rw [Process.stepCaller] at hstep
      split at hstep
      · rename_i hav
        obtain ⟨hinv, hnil⟩ := hi.register hpc hav ok
        rw [hnil] at hstep
        exact hsome hstep hinv
      · cases hstep
    | _ => cases hstep
  | close h cpc =>
    cases choice with
    | go =>
      obtain ⟨⟨sh, next⟩, hclose, heq⟩ := Option.map_eq_some_iff.1 hstep
      have hclosing : (s.pc t).closing = some (h, cpc) := by rw [hpc]; rfl
      have hinv := hi.stepClose hclosing hclose
      rw [hpc] at hinv
      cases next <;> exact hsome (congrArg some heq) hinv
    | _ => cases hstep
  | exec r pc =>
    obtain ⟨⟨sh, next⟩, hexec, heq⟩ := Option.map_eq_some_iff.1 hstep
    have hinv := hi.stepExec hpc hexec
    cases next <;> exact hsome (congrArg some heq) hinv

omit [DecidableEq H] in
/-- A caller becomes the thread of a runtime that is not running. -/
theorem Inv.run (hi : Inv W s) (hrunning : (s.shared.runtime r).running = false) :
    Inv W ⟨s.shared.setRuntime r fun rt => { rt with running := true },
      Function.update s.pc t (.exec r .guard)⟩ := by
  have hf : Shrinks (fun rt : RuntimeState H => { rt with running := true })
      (s.shared.runtime r) := ⟨fun _ _ => id, fun _ _ => id, fun ho hm _ _ _ => ⟨ho, hm⟩⟩
  refine hi.caller (hi.shared.shrink hf) (.ofExec ?_ rfl)
    (fun q hq _ => hq.shrink hf fun _ => ⟨fun _ => rfl, id⟩) fun q hq _ => ?_
  · refine ⟨?_, .nil, nofun, nofun, nofun, nofun⟩
    rw [setRuntime_self]
  · refine ⟨nofun, ?_, fun r' hr hloop => ?_⟩
    · rintro h' ⟨cpc, hclosing, -⟩
      cases hclosing
    · obtain rfl := Option.some.inj hr
      cases q with
      | exec r' pc =>
        obtain rfl := Option.some.inj hloop
        rw [(hq.exec r' pc rfl).running] at hrunning
        cases hrunning
      | _ => cases hloop

/-- Every step keeps the invariant, and takes the place of no older handle. -/
theorem Inv.step (hi : Inv W s) {a : Action H R T} {s' : State H R T} {es : List (Event H)}
    (hstep : step W s a = some (s', es)) : Inv W s' ∧ es = [] := by
  cases a with
  | caller t choice =>
    obtain ⟨⟨sh, p, es'⟩, hcaller, heq⟩ := Option.map_eq_some_iff.1 hstep
    obtain ⟨rfl, rfl⟩ := Prod.mk.inj heq
    exact hi.stepCaller hcaller
  | run t r =>
    rw [Process.step] at hstep
    split at hstep
    · rename_i hguard
      obtain ⟨rfl, rfl⟩ := Prod.mk.inj (Option.some.inj hstep)
      exact ⟨hi.run hguard.2, rfl⟩
    · cases hstep
  | openOther fd =>
    rw [Process.step] at hstep
    split at hstep
    · rename_i hnone
      obtain ⟨rfl, rfl⟩ := Prod.mk.inj (Option.some.inj hstep)
      have hnone := Option.isNone_iff_eq_none.1 hnone
      exact ⟨⟨hi.shared.openFor hnone (fun _ => id) nofun, fun t => (hi.pcOk t).openFor hnone,
        hi.apart⟩, rfl⟩
    · cases hstep
  | closeOther fd =>
    rw [Process.step] at hstep
    split at hstep
    · rename_i hother
      obtain ⟨rfl, rfl⟩ := Prod.mk.inj (Option.some.inj hstep)
      have hnot : ∀ h, s.shared.opened fd ≠ some (.handle h) := by
        intro h hopen
        cases hother.symm.trans hopen
      exact ⟨⟨hi.shared.sysClose fun h hopen => absurd hopen (hnot h),
        fun t => (hi.pcOk t).sysCloseOther fun h hopen => absurd hopen (hnot h), hi.apart⟩, rfl⟩
    · cases hstep
  | disown r =>
    obtain ⟨rfl, rfl⟩ := Prod.mk.inj (Option.some.inj hstep)
    have hf : Shrinks (fun rt : RuntimeState H => { rt with owned := false })
        (s.shared.runtime r) := ⟨fun _ _ => id, fun _ _ => id, nofun⟩
    exact ⟨⟨hi.shared.shrink hf, fun t => (hi.pcOk t).shrink hf fun _ => ⟨id, id⟩, hi.apart⟩, rfl⟩

omit [DecidableEq H] [DecidableEq R] [DecidableEq T] in
/-- It holds at the start. -/
theorem Inv.init (W : Objects H R) (opened : ℕ → Bool) :
    Inv W (init H R T opened).state := by
  refine ⟨⟨fun fd h hopen => ?_, nofun, nofun, nofun, nofun, nofun⟩, fun _ => .idle,
    fun _ _ _ => .idle⟩
  simp only [Process.init] at hopen
  split at hopen
  · cases hopen
  · cases hopen

/-- It holds of everything reachable, and no call has taken the place of an older handle. -/
theorem inv_of_reachable {opened : ℕ → Bool} {c : Config (State H R T) (Event H)}
    (hr : Reachable (machine W) (init H R T opened) c) : Inv W c.state ∧ c.trace = [] := by
  refine hr.invariant_step (I := fun s tr => Inv W s ∧ tr = []) ⟨.init W opened, rfl⟩ ?_
  rintro s tr a s' es ⟨hi, rfl⟩ - hstep
  obtain ⟨hi', rfl⟩ := hi.step hstep
  exact ⟨hi', rfl⟩

omit [DecidableEq R] [DecidableEq T] [DecidableEq H] in
/-- So everything reachable is as it should be. -/
theorem Inv.live {c : Config (State H R T) (Event H)} (hi : Inv W c.state) (htrace : c.trace = []) :
    Live W c where
  key r hav fd h hkey := (hi.shared.keyLive r hav fd h hkey).1
  unique r r' hav hav' fd h h' hkey hkey' := by
    have hopen := (hi.shared.keyLive r hav fd h hkey).1
    rw [(hi.shared.keyLive r' hav' fd h' hkey').1] at hopen
    obtain rfl := Use.handle.inj (Option.some.inj hopen)
    exact (hi.shared.key r fd h' hkey).2.1.symm.trans (hi.shared.key r' fd h' hkey').2.1
  new t h hs hpc hav := by
    refine hi.new (t := t) ?_ hav
    rcases hpc with hpc | hpc
    · rw [hpc]
      exact List.mem_cons_self ..
    · rw [hpc]
      exact List.mem_cons_self ..
  replaced h hmem := by
    rw [htrace] at hmem
    cases hmem

/-- In every run, what is registered with a runtime is open and its own, unless the runtime has no
owner or `release_all_handles` is in its section; and no call takes the place of an older handle. -/
theorem live_always (W : Objects H R) (opened : ℕ → Bool) (as : List (Action H R T)) :
    Always (machine W) (Live W) (init H R T opened) as :=
  always_of_reachable (fun _ hr => (inv_of_reachable hr).1.live (inv_of_reachable hr).2) .refl

/-! ## Where nothing is said -/

/-- Two sockets with the same number, of two runtimes. -/
def twoSockets : Objects Bool Bool := { fd := fun _ => 5, isSocket := fun _ => true, home := id }

/-- A connection of the runtime `h`, made by the caller `false`. -/
def connect (h : Bool) : List (Action Bool Bool Bool) :=
  [.caller false (.obtain h), .caller false .done, .caller false (.go true),
    .caller false (.go true), .caller false (.go true)]

/-- The socket `false` is closed by the caller `false`, and the other one is connected. -/
def closeAndConnect : List (Action Bool Bool Bool) :=
  [.caller false (.close false), .caller false (.go true), .caller false (.go true),
    .caller false (.go true)] ++ connect true

/-- What is registered under `5` with the two runtimes, and what it has been opened for. -/
def keys (c : Config (State Bool Bool Bool) (Event Bool)) :
    Option Bool × Option Bool × Option (Use Bool) :=
  ((c.state.shared.runtime false).allHandles 5, (c.state.shared.runtime true).allHandles 5,
    c.state.shared.opened 5)

/-- A socket is closed while `release_all_handles` is in its section, or after its runtime has lost
its last owner; the number is opened for another one, and is registered with two runtimes. -/
theorem closed_descriptor_registered :
    (run (machine twoSockets) (init Bool Bool Bool fun _ => false)
      (connect false ++ [.run true false, .caller true .stop, .caller true (.go true),
        .caller true (.go true)] ++ closeAndConnect)).map keys =
      some (some false, some true, some (.handle true)) ∧
    (run (machine twoSockets) (init Bool Bool Bool fun _ => false)
      (connect false ++ [.run true false, .disown false] ++ closeAndConnect)).map keys =
      some (some false, some true, some (.handle true)) := by
  decide

end Spinet.Process
