import Spinet.Library.Ownership
import Spinet.Shutdown.References

/-!
# What `release_all_handles` closes

`release_all_handles` closes nothing itself. It drops the references that the runtime has, and what
they were the last references to is destroyed. That closes a socket exactly if it is `Collectable`
then: neither user code nor another thread has a reference to it, and every pending operation whose
callback has captured it belongs to a socket that is itself collectable. An acceptor is never
closed, since its destructor does nothing.

`Clean` says what is expected of the release, and `clean_always` that it is so along every run in
which each handle registered at the release is a collectable socket or has been shut down before,
and in which the callbacks invoked by the release make no new references to collectable sockets.
-/

namespace Spinet.Shutdown

open Transition Stacks
open Registry (Handles ClosePc)

variable {H : Type} {T : Type*}

/-- The frame has a reference to the handle, or closes it. -/
def Frame.Mentions (f : Frame H) (h : H) : Prop := h ∈ f.refs ∨ ∃ pc, f = .close h pc

/-- User code, or a thread other than the runtime's, has a reference to the handle or is closing it.
A handle that has not been made will be given to user code. -/
def Held (rt : T) (s : State H T) (h : H) : Prop :=
  s.made h = false ∨ h ∈ s.user ∨ ∃ t, t ≠ rt ∧ ∃ f ∈ s.stack t, f.Mentions h

/-- The callback of a pending operation of the first has captured the second. -/
def Owns (s : State H T) (g h : H) : Prop := ∃ op ∈ s.pending, op.socket = g ∧ h ∈ op.captures

/-- The handle goes when the runtime drops its references. -/
abbrev Collectable (rt : T) (s : State H T) : H → Prop :=
  Ownership.Collectable (Held rt s) (Owns s)

/-- Whether `release_all_handles` has swapped out `all_handles_`. -/
def ExecPc.dropping : ExecPc H → Bool
  | .releaseRemovable _ | .releaseUnlock _ => true
  | _ => false

/-- Each handle is shut down already, or is a socket that goes with the references. -/
def Swept (W : Handles H) (rt : T) (s : State H T) (tr : List (Event H)) (handles : List H) :
    Prop :=
  ∀ h ∈ handles, Shut s.toShared tr h ∨ W.isSocket h = true ∧ Collectable rt s h

/-- The condition: when `release_all_handles` swaps out `all_handles_`, the handles in it are swept,
and from then on the callbacks that it invokes make no new reference to a collectable handle. -/
def Sweeps (W : Handles H) (rt : T) (c : Config (State H T) (Event H)) : Action H T → Prop
  | .exec .go => ∀ handles, c.state.pc = .releaseHandles handles →
    Swept W rt c.state c.trace c.state.allHandles
  | .call t (.copy h) => t = rt → c.state.pc.dropping = true → ¬ Collectable rt c.state h
  | .call t (.async _ _ captures) => t = rt → c.state.pc.dropping = true →
    ∀ h ∈ captures, ¬ Collectable rt c.state h
  | _ => True

/-- The handle has had its descriptor closed, and if it is a socket, it is closed and every
operation that it has accepted has had its callback invoked or has been cancelled. -/
def Finished (W : Handles H) (c : Config (State H T) (Event H)) (h : H) : Prop :=
  .sysClose h ∈ c.trace ∧ (W.isSocket h = true → c.state.closed h = true ∧
    ∀ op, .accepted op h ∈ c.trace → .invoked op ∈ c.trace ∨ .cancelled op ∈ c.trace)

/-- What is expected once `release_all_handles` has finished: the handles that were registered when
`exec` left its loop are finished with. -/
def Clean (W : Handles H) (c : Config (State H T) (Event H)) : Prop :=
  ∀ handles, .released handles ∈ c.trace → ∀ h ∈ handles, Finished W c h

variable [DecidableEq H] [DecidableEq T] {W : Handles H} {rt t : T} {s s' : State H T}
  {a : Action H T} {old new : List (Frame H)} {sh : Shared H} {es tr : List (Event H)} {h : H}

/-! ## Steps keep handles collectable -/

omit [DecidableEq H] [DecidableEq T] in
/-- What user code on a thread other than the runtime's can use is held. -/
theorem held_of_usable (ht : t ≠ rt) (hu : h ∈ s.usable t) : Held rt s h := by
  unfold State.usable at hu
  split at hu
  · rename_i op rest hst
    rcases List.mem_append.1 hu with hu | hu
    · exact .inr (.inr ⟨t, ht, .callback op, by rw [hst]; exact List.mem_cons_self, .inl hu⟩)
    · exact .inr (.inl hu)
  · exact .inr (.inl hu)

/-- A new reference in a variable of user code is to a new handle, or is a copy. -/
theorem Effect.user_cases (he : Effect W rt s a t old new sh es) (hu : h ∈ sh.user) :
    h ∈ s.user ∨ s.made h = false ∨ h ∈ s.usable t ∧ a = .call t (.copy h) := by
  cases he with
  | create hm =>
    rcases List.mem_cons.1 hu with rfl | hu
    · exact .inr (.inl hm)
    · exact .inl hu
  | copy hx =>
    rcases List.mem_cons.1 hu with rfl | hu
    · exact .inr (.inr ⟨hx, rfl⟩)
    · exact .inl hu
  | drop => exact .inl (List.mem_of_mem_erase hu)
  | lockDeregister => exact .inl (by simpa using hu)
  | _ => exact .inl hu

omit [DecidableEq H] [DecidableEq T] in
/-- What a variable of user code refers to can be used. -/
theorem usable_of_user (hu : h ∈ s.user) : h ∈ s.usable t := by
  unfold State.usable
  split
  · exact List.mem_append_right _ hu
  · exact hu

omit [DecidableEq H] [DecidableEq T] in
/-- What a frame of `close` mentions. -/
theorem eq_of_mentions_close {x : H} {pc : ClosePc} (hm : Frame.Mentions (.close x pc) h) :
    x = h := by
  rcases hm with hr | ⟨pc', hf⟩
  · cases hr
  · exact (Frame.close.inj hf).1

omit [DecidableEq H] [DecidableEq T] in
/-- What a frame of destructors mentions. -/
theorem mem_of_mentions_drop {refs : List H} (hm : Frame.Mentions (.drop refs) h) : h ∈ refs := by
  rcases hm with hr | ⟨pc', hf⟩
  · exact hr
  · cases hf

/-- While `exec` holds the mutex, a frame that another thread gets mentions what the thread could
use or has mentioned, or what such a handle owns. -/
theorem Effect.mentions (he : Effect W rt s a t old new sh es) (hl : s.pc.locked = true)
    (ht : t ≠ rt) {f : Frame H} (hf : f ∈ new) (hm : f.Mentions h) :
    ∃ g, (g = h ∨ Owns s g h) ∧ (g ∈ s.usable t ∨ ∃ f ∈ old, f.Mentions g) := by
  cases he with
  | @drop _ x hx =>
    rw [List.mem_singleton.1 hf] at hm
    obtain rfl : h = x := List.mem_singleton.1 (mem_of_mentions_drop hm)
    exact ⟨h, .inl rfl, .inl (usable_of_user hx)⟩
  | @cancel _ x hx =>
    rw [List.mem_singleton.1 hf] at hm
    obtain ⟨op, hop, hcap⟩ := List.mem_flatMap.1 (mem_of_mentions_drop hm)
    obtain ⟨hop, hsock⟩ := List.mem_filter.1 hop
    exact ⟨x, .inr ⟨op, hop, by simpa using hsock, hcap⟩, .inl hx⟩
  | close hx =>
    rw [List.mem_singleton.1 hf] at hm
    obtain rfl := eq_of_mentions_close hm
    exact ⟨_, .inl rfl, .inl hx⟩
  | registerPrev _ hfree _ => simp [hl] at hfree
  | ret =>
    rw [List.mem_singleton.1 hf] at hm
    exact ⟨h, .inl rfl, .inr ⟨_, List.mem_singleton_self _, .inl (mem_of_mentions_drop hm)⟩⟩
  | dropKeep =>
    rw [List.mem_singleton.1 hf] at hm
    exact ⟨h, .inl rfl, .inr ⟨_, List.mem_singleton_self _,
      .inl (List.mem_cons_of_mem _ (mem_of_mentions_drop hm))⟩⟩
  | dropLast =>
    rcases List.mem_cons.1 hf with rfl | hf
    · obtain rfl := eq_of_mentions_close hm
      exact ⟨_, .inl rfl, .inr ⟨_, List.mem_singleton_self _, .inl List.mem_cons_self⟩⟩
    · rw [List.mem_singleton.1 hf] at hm
      exact ⟨h, .inl rfl, .inr ⟨_, List.mem_singleton_self _,
        .inl (List.mem_cons_of_mem _ (mem_of_mentions_drop hm))⟩⟩
  | casWon | lockDeregister | lockAlone | sysSocket =>
    rw [List.mem_singleton.1 hf] at hm
    obtain rfl := eq_of_mentions_close hm
    exact ⟨_, .inl rfl, .inr ⟨_, List.mem_singleton_self _, .inr ⟨_, rfl⟩⟩⟩
  | @drain _ x op hop hsock =>
    rcases List.mem_cons.1 hf with rfl | hf
    · refine ⟨x, .inr ⟨op, hop, hsock, ?_⟩, .inr ⟨_, List.mem_singleton_self _, .inr ⟨_, rfl⟩⟩⟩
      rcases hm with hr | ⟨pc', hf⟩
      · exact hr
      · cases hf
    · rw [List.mem_singleton.1 hf] at hm
      obtain rfl := eq_of_mentions_close hm
      exact ⟨_, .inl rfl, .inr ⟨_, List.mem_singleton_self _, .inr ⟨_, rfl⟩⟩⟩
  | serve | execClose | clear | releaseHandles | releaseRemovable => exact absurd rfl ht
  | _ => cases hf

/-- A step of the release, or one under the condition while it drops references, leaves handles
collectable. -/
theorem collectable_step (hs : Step W rt s a s' es) (hl : s.pc.locked = true)
    (hd : a = .exec .go ∨ s.pc.dropping = true) (hcond : Sweeps W rt ⟨s, tr⟩ a)
    (hc : Collectable rt s h) : Collectable rt s' h := by
  obtain ⟨hst, he⟩ := hs
  rename_i t old new rest sh
  refine hc.step fun x hx => ?_
  have hnot := hx.not_held
  -- A new reference that user code makes is one of another thread, or is against the condition.
  have husable : t ≠ rt → x ∉ s.usable t := fun ht hu => hnot (held_of_usable ht hu)
  refine ⟨?_, ?_⟩
  · rintro (hm | hu | ⟨u, hu, f, hf, hm⟩)
    · refine hnot (.inl ?_)
      by_contra hmade
      have := he.made_mono (by simpa using hmade)
      simp [this] at hm
    · rcases he.user_cases hu with hu | hm | ⟨hu, rfl⟩
      · exact hnot (.inr (.inl hu))
      · exact hnot (.inl hm)
      · by_cases ht : t = rt
        · rcases hd with hd | hd
          · cases hd
          · exact hcond ht hd hx
        · exact husable ht hu
    · rcases mem_update.1 hf with ⟨rfl, hin⟩ | ⟨-, hother⟩
      · rcases List.mem_append.1 hin with hin | hrest
        · -- What another thread gets to, it had, or had the owner of.
          obtain ⟨g, hg, hgheld⟩ := he.mentions hl hu hin hm
          have hgc : Collectable rt s g := by
            rcases hg with rfl | hg
            · exact hx
            · exact hx.owner hg
          refine hgc.not_held ?_
          rcases hgheld with hgu | ⟨f', hf', hm'⟩
          · exact held_of_usable hu hgu
          · exact .inr (.inr ⟨u, hu, f', by simp [hst, hf'], hm'⟩)
        · exact hnot (.inr (.inr ⟨u, hu, f, by simp [hst, hrest], hm⟩))
      · exact hnot (.inr (.inr ⟨u, hu, f, hother, hm⟩))
  · rintro y ⟨op, hop, hsock, hcap⟩
    rcases he.pending_cases op hop with hop | ⟨-, -, hcaps, rfl⟩
    · exact ⟨op, hop, hsock, hcap⟩
    · by_cases ht : t = rt
      · rcases hd with hd | hd
        · cases hd
        · exact absurd hx (hcond ht hd x hcap)
      · exact absurd (hcaps x (List.mem_cons_of_mem _ hcap)) (husable ht)

/-! ## The end of the release -/

omit [DecidableEq H] [DecidableEq T] in
/-- When the release has dropped its references and no destructor is left to run, the collectable
sockets are shut. -/
theorem shut_of_collectable (hi : Inv W s tr) (hh : s.allHandles = []) (hr : s.removable = [])
    (hst : s.stack rt = []) (hc : Collectable rt s h) (hsock : W.isSocket h = true) :
    Shut s.toShared tr h := by
  -- By induction, the sockets whose operations have captured it are shut already.
  induction hc with
  | @intro x hnot howners ih =>
    have hframes : ∀ u, ∀ f ∈ s.stack u, ¬ f.Mentions x := by
      intro u f hf hm
      rcases eq_or_ne u rt with rfl | hu
      · rw [hst] at hf
        cases hf
      · exact hnot (.inr (.inr ⟨u, hu, f, hf, hm⟩))
    cases hclosed : s.closed x with
    | true =>
      rcases hi.closed_shut x hsock hclosed with hshut | ⟨u, f, hf, pc, rfl, -⟩
      · exact hshut
      · exact absurd (.inr ⟨pc, rfl⟩) (hframes u _ hf)
    | false =>
      -- An open socket would still have a reference.
      exfalso
      have hmade : s.made x = true := by
        by_contra hm
        exact hnot (.inl (by simpa using hm))
      rcases hi.open_referenced x hsock hmade hclosed with href | ⟨u, hf⟩
      · rcases href with (hx | hx | hx | ⟨op, hop, hcap⟩) | ⟨u, f, hf, hx⟩
        · simp [hh] at hx
        · simp [hr] at hx
        · exact hnot (.inr (.inl hx))
        · have hshut := ih op.socket ⟨op, hop, rfl, hcap⟩ (hi.sockets op hop)
          exact hshut.2 op hop rfl
        · exact hframes u f hf (.inl hx)
      · exact hframes u _ hf (.inr ⟨.cas, rfl⟩)

/-- While `exec` holds the mutex, only `exec` changes what the runtime has references to. -/
theorem Effect.frozen (he : Effect W rt s a t old new sh es) (hl : s.pc.locked = true)
    (ha : a ≠ .exec .go) :
    sh.pc = s.pc ∧ sh.allHandles = s.allHandles ∧ sh.removable = s.removable := by
  cases he with
  | registerNew _ hfree => simp [hl] at hfree
  | registerPrev _ hfree => simp [hl] at hfree
  | lockDeregister _ hfree => simp [hl] at hfree
  | start hpc | serve hpc | execClose hpc | clear hpc | leave hpc =>
    rw [hpc] at hl
    cases hl
  | cleared | releaseHandles | releaseRemovable | releaseUnlock => exact absurd rfl ha
  | _ => exact ⟨rfl, rfl, rfl⟩

/-- While `exec` does not hold the mutex, it starts the release with what is registered then. -/
theorem Effect.unlocked (he : Effect W rt s a t old new sh es) (hl : s.pc.locked = false) :
    sh.pc.locked = false ∨ sh.pc = .clearing ∨ sh.pc = .releaseHandles sh.allHandles := by
  cases he with
  | start | cleared | releaseUnlock => exact .inl rfl
  | clear => exact .inr (.inl rfl)
  | leave => exact .inr (.inr rfl)
  | releaseHandles hpc | releaseRemovable hpc =>
    rw [hpc] at hl
    cases hl
  | lockDeregister => exact .inl (by simpa using hl)
  | _ => exact .inl hl

/-- A release finishes with no destructor left to run. -/
theorem Effect.released_mem (he : Effect W rt s a t old new sh es) {handles : List H}
    (hev : .released handles ∈ es) : s.pc = .releaseUnlock handles ∧ s.stack rt = [] := by
  cases he with
  | releaseUnlock hpc hst =>
    obtain rfl := Event.released.inj (List.mem_singleton.1 hev)
    exact ⟨hpc, hst⟩
  | cancel => simp at hev
  | _ => simp at hev

/-- What `release_all_handles` has dropped, where it stands. -/
def Dropped (W : Handles H) (rt : T) (s : State H T) (tr : List (Event H)) : ExecPc H → Prop
  | .releaseHandles handles => handles = s.allHandles
  | .releaseRemovable handles => s.allHandles = [] ∧ Swept W rt s tr handles
  | .releaseUnlock handles => s.allHandles = [] ∧ s.removable = [] ∧ Swept W rt s tr handles
  | _ => True

/-- The releases that have finished have shut their handles, and the one in progress will. -/
structure Releases (W : Handles H) (rt : T) (s : State H T) (tr : List (Event H)) : Prop where
  done : ∀ handles, .released handles ∈ tr → ∀ h ∈ handles, Shut s.toShared tr h
  dropped : Dropped W rt s tr s.pc

/-- Swept handles stay so. -/
theorem Swept.step (hi : Inv W s tr) (hs : Step W rt s a s' es) (hl : s.pc.locked = true)
    (hd : a = .exec .go ∨ s.pc.dropping = true) (hcond : Sweeps W rt ⟨s, tr⟩ a)
    {handles : List H} (h : Swept W rt s tr handles) : Swept W rt s' (tr ++ es) handles := by
  intro x hx
  rcases h x hx with hshut | ⟨hsock, hc⟩
  · left
    obtain ⟨-, he⟩ := hs
    exact he.shut hshut fun hsock => hi.sysClose_closed x hsock hshut.1
  · exact .inr ⟨hsock, collectable_step hs hl hd hcond hc⟩

/-- A step of the release goes on with what has been dropped. -/
theorem Dropped.go (hi : Inv W s tr) (h : Dropped W rt s tr s.pc) (hl : s.pc.locked = true)
    (hs : Step W rt s (.exec .go) s' es) (hcond : Sweeps W rt ⟨s, tr⟩ (.exec .go)) :
    Dropped W rt s' (tr ++ es) s'.pc := by
  have hswept : ∀ handles, Swept W rt s tr handles → Swept W rt s' (tr ++ es) handles :=
    fun _ => Swept.step hi hs hl (.inl rfl) hcond
  obtain ⟨hst, he⟩ := hs
  rename_i t old new rest sh
  cases he with
  | cleared | releaseUnlock => trivial
  | @releaseHandles handles hpc =>
    -- This is where the condition asks that what is registered is swept.
    rw [hpc] at h
    obtain rfl : handles = s.allHandles := h
    exact ⟨rfl, hswept _ (hcond _ hpc)⟩
  | @releaseRemovable handles hpc =>
    rw [hpc] at h
    exact ⟨h.1, rfl, hswept _ h.2⟩

/-- Every step under the condition keeps what has been dropped. -/
theorem Dropped.step (hi : Inv W s tr) (h : Dropped W rt s tr s.pc) (hs : Step W rt s a s' es)
    (hcond : Sweeps W rt ⟨s, tr⟩ a) : Dropped W rt s' (tr ++ es) s'.pc := by
  cases hl : s.pc.locked with
  | false =>
    obtain ⟨-, he⟩ := hs
    rename_i t old new rest sh
    rcases he.unlocked hl with hl' | hpc | hpc
    · show Dropped _ _ _ _ sh.pc
      cases hpc : sh.pc with
      | idle | loop => trivial
      | _ => simp [hpc, ExecPc.locked] at hl'
    · show Dropped _ _ _ _ sh.pc
      rw [hpc]
      trivial
    · show Dropped _ _ _ _ sh.pc
      rw [hpc]
      rfl
  | true =>
    by_cases ha : a = .exec .go
    · subst ha
      exact h.go hi hl hs hcond
    · have hswept : s.pc.dropping = true → ∀ handles, Swept W rt s tr handles →
          Swept W rt s' (tr ++ es) handles :=
        fun hd handles => Swept.step hi hs hl (.inr hd) hcond
      obtain ⟨-, he⟩ := hs
      rename_i t old new rest sh
      obtain ⟨hpc', hh, hr⟩ := he.frozen hl ha
      show Dropped _ _ _ _ sh.pc
      rw [hpc']
      cases hpc : s.pc with
      | idle | loop | clearing => trivial
      | releaseHandles handles =>
        rw [hpc] at h
        exact h.trans hh.symm
      | releaseRemovable handles =>
        rw [hpc] at h hswept
        exact ⟨hh.trans h.1, hswept rfl _ h.2⟩
      | releaseUnlock handles =>
        rw [hpc] at h hswept
        exact ⟨hh.trans h.1, hr.trans h.2.1, hswept rfl _ h.2.2⟩

/-- Every step under the condition keeps the releases as they should be. -/
theorem Releases.step (hi : Inv W s tr) (h : Releases W rt s tr) (hs : Step W rt s a s' es)
    (hcond : Sweeps W rt ⟨s, tr⟩ a) : Releases W rt s' (tr ++ es) := by
  refine ⟨fun handles hev x hx => ?_, h.dropped.step hi hs hcond⟩
  obtain ⟨-, he⟩ := hs
  rename_i t old new rest sh
  have hshut : Shut s.toShared tr x := by
    rcases List.mem_append.1 hev with hev | hev
    · exact h.done handles hev x hx
    · -- The release finishes: all that it has dropped is gone.
      obtain ⟨hpc, hst⟩ := he.released_mem hev
      have hd := h.dropped
      rw [hpc] at hd
      rcases hd.2.2 x hx with hshut | ⟨hsock, hc⟩
      · exact hshut
      · exact shut_of_collectable hi hd.1 hd.2.1 hst hc hsock
  exact he.shut hshut fun hsock => hi.sysClose_closed x hsock hshut.1

variable [Fintype T]

/-- The theorem: along every run whose steps all meet the condition, each release closes what was
registered. -/
theorem clean_always (W : Handles H) (rt : T) (as : List (Action H T))
    (h : Steps (machine W rt) (Sweeps W rt) (init H T) as) :
    Always (machine W rt) (Clean W) (init H T) as := by
  refine always_of_reachVia (fun c hc => ?_) .refl h
  have hreleases : Releases W rt c.state c.trace := by
    refine hc.invariant_of (I := fun c => Releases W rt c.state c.trace)
      (J := fun c => Inv W c.state c.trace) (fun c hc => inv_of_reachable hc) ?_ ?_
    · exact ⟨fun _ hev => absurd hev List.not_mem_nil, trivial⟩
    · intro c a c' hi _ hr hcond hn
      obtain ⟨s', es, hs, rfl⟩ := next_eq_some _ hn
      exact hr.step hi (step_cases hs) hcond
  have hi := inv_of_reachable hc.reachable
  intro handles hev x hx
  have hshut := hreleases.done handles hev x hx
  refine ⟨hshut.1, fun hsock => ⟨hi.sysClose_closed x hsock hshut.1, fun op hop => ?_⟩⟩
  rcases hi.fate op x hop with ⟨o, ho, -, hox⟩ | hfate
  · exact absurd hox (hshut.2 o ho)
  · exact hfate

/-! ## A release that closes, and one that does not -/

/-- Whether `release_all_handles` is about to swap out `all_handles_`. -/
def ExecPc.atRelease : ExecPc H → Bool
  | .releaseHandles _ => true
  | _ => false

/-- Nobody but the runtime has a reference to the socket. -/
def Unshared (W : Handles H) (s : State H T) (h : H) : Prop :=
  W.isSocket h = true ∧ s.made h = true ∧ h ∉ s.user ∧ ∀ op ∈ s.pending, h ∉ op.captures

instance (W : Handles H) (s : State H T) (h : H) : Decidable (Unshared W s h) :=
  inferInstanceAs (Decidable (_ ∧ _ ∧ _ ∧ _))

/-- The condition in a simple case: user code runs on other threads only, and when
`release_all_handles` swaps out `all_handles_`, no other call is in progress, and what is registered
is unshared. -/
def SweepsAlone (W : Handles H) (rt : T) (c : Config (State H T) (Event H)) : Action H T → Prop
  | .call t _ => t ≠ rt
  | .exec _ => c.state.pc.atRelease = true →
    (∀ t, t ≠ rt → c.state.stack t = []) ∧ ∀ h ∈ c.state.allHandles, Unshared W c.state h
  | _ => True

instance (W : Handles H) (rt : T) (c : Config (State H T) (Event H)) :
    ∀ a, Decidable (SweepsAlone W rt c a)
  | .call t _ => inferInstanceAs (Decidable (t ≠ rt))
  | .exec _ => inferInstanceAs (Decidable (_ → (∀ t, t ≠ rt → c.state.stack t = []) ∧
      ∀ h ∈ c.state.allHandles, Unshared W c.state h))
  | .ret _ | .go _ => .isTrue trivial

omit [DecidableEq H] [DecidableEq T] [Fintype T] in
/-- An unshared socket is collectable while no other call is in progress. -/
theorem Unshared.collectable {h₀ : H} (h : Unshared W s h₀) (hidle : ∀ u, u ≠ rt → s.stack u = []) :
    Collectable rt s h₀ := by
  obtain ⟨-, hm, hu, hcap⟩ := h
  refine .intro ?_ ?_
  · rintro (hno | hu' | ⟨u, hne, f, hf, -⟩)
    · simp [hm] at hno
    · exact hu hu'
    · rw [hidle u hne] at hf
      cases hf
  · rintro y ⟨op, hop, -, hx⟩
    exact absurd hx (hcap op hop)

omit [DecidableEq H] [DecidableEq T] [Fintype T] in
/-- The simple case is one of the condition. -/
theorem SweepsAlone.sweeps {c : Config (State H T) (Event H)} (h : SweepsAlone W rt c a) :
    Sweeps W rt c a := by
  cases a with
  | call t x =>
    cases x with
    | copy | async => exact fun ht => absurd ht h
    | _ => trivial
  | exec m =>
    cases m with
    | go =>
      intro handles hpc x hx
      obtain ⟨hidle, hun⟩ := h (by rw [hpc]; rfl)
      exact .inr ⟨(hun x hx).1, (hun x hx).collectable hidle⟩
    | _ => trivial
  | ret | go => trivial

/-- The handles of the runs below: 0 is an acceptor, and the others are sockets. -/
def numbered : Handles ℕ := ⟨id, fun h => decide (h ≠ 0)⟩

/-- User code makes a socket, registers it, reads from it, and lets go of it. Then the runtime
stops. -/
def stopAfterRead {T : Type*} (user rt : T) : List (Action ℕ T) :=
  [.call user (.create 1), .call user (.register 1), .call user (.async .read 1 []),
    .call user (.drop 1), .go user, .go user, .exec .start, .exec .leave, .exec .go, .go rt, .go rt,
    .go rt, .go rt, .go rt, .ret rt, .go rt, .go rt, .go rt, .exec .go, .go rt, .exec .go]

theorem clean_stopAfterRead :
    (∃ c, run (machine numbered (1 : Fin 2)) (init ℕ (Fin 2)) (stopAfterRead 0 1) = some c ∧
      c.trace = [.accepted 0 1, .sysClose 1, .invoked 0, .released [1]]) ∧
      Always (machine numbered (1 : Fin 2)) (Clean numbered) (init ℕ (Fin 2)) (stopAfterRead 0 1) :=
  ⟨⟨_, rfl, rfl⟩, clean_always numbered 1 (stopAfterRead 0 1)
    (Steps.imp (fun _ _ => SweepsAlone.sweeps) (by decide))⟩

/-- An acceptor is registered, and a socket with a read whose callback has captured the socket. The
runtime stops: neither is closed, and the read is neither completed nor cancelled. -/
theorem release_leaves_open :
    ∃ c, run (machine numbered (1 : Fin 2)) (init ℕ (Fin 2))
        [.call 0 (.create 0), .call 0 (.register 0), .call 0 (.drop 0), .go 0, .go 0,
          .call 0 (.create 1), .call 0 (.register 1), .call 0 (.async .read 1 [1]),
          .call 0 (.drop 1), .go 0, .go 0, .exec .start, .exec .leave, .exec .go, .go 1, .go 1,
          .go 1, .exec .go, .go 1, .exec .go] = some c ∧
      c.trace = [.accepted 0 1, .released [0, 1]] ∧ c.state.closed 1 = false ∧
      ¬ Clean numbered c := by
  refine ⟨_, rfl, rfl, rfl, fun h => ?_⟩
  have hclosed := (h [0, 1] (by decide) 0 (by decide)).1
  exact absurd hclosed (by decide)

end Spinet.Shutdown
