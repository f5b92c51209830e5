import Spinet.Shutdown.Release

/-!
# What `release_all_handles` leaves open

The condition of `clean_always` leaves out only releases that go wrong. When no other call is in
progress, and the callbacks that the release invokes make no calls, the release closes what is
registered only if that is swept (`swept_of_finished`). The rest is `Anchored`: user code has a
reference to the socket, or a pending operation has captured it that belongs to a socket kept in the
same way, and the release does not close it. Nor does it close an acceptor.

A socket that one of its own pending operations has captured is never collectable
(`not_collectable_of_captures_self`).
-/

namespace Spinet.Shutdown

open Transition Stacks
open Registry (Handles ClosePc)

variable {H : Type} {T : Type*}

/-- A socket that one of its pending operations has captured is not collectable. -/
theorem not_collectable_of_captures_self {rt : T} {s : State H T} {op : Op H}
    (hop : op ∈ s.pending) (hself : op.socket ∈ op.captures) :
    ¬ Collectable rt s op.socket :=
  Ownership.not_collectable_of_cycle (.single ⟨op, hop, rfl, hself⟩)

variable [DecidableEq H] [DecidableEq T] {W : Handles H} {rt t : T} {s s' : State H T}
  {a : Action H T} {old new : List (Frame H)} {sh : Shared H} {es tr : List (Event H)} {h : H}

/-! ## References are to handles that have been made -/

omit [DecidableEq H] [DecidableEq T] in
/-- What user code can use is referenced. -/
theorem referenced_of_usable (hu : h ∈ s.usable t) : s.Referenced h := by
  unfold State.usable at hu
  split at hu
  · rename_i op rest hst
    rcases List.mem_append.1 hu with hu | hu
    · exact .inr ⟨t, .callback op, by rw [hst]; exact List.mem_cons_self, hu⟩
    · exact .inl (.used hu)
  · exact .inl (.used hu)

/-- A step makes references only to what is referenced, or has just been made. -/
theorem Effect.hasRef_cases (he : Effect W rt s a t old new sh es) (hr : sh.HasRef h) :
    s.Referenced h ∨ sh.made h = true := by
  cases he with
  | create =>
    rcases hr with hr | hr | hr | ⟨o, ho, hx⟩
    · exact .inl (.inl (.registered hr))
    · exact .inl (.inl (.removed hr))
    · rcases List.mem_cons.1 hr with rfl | hr
      · exact .inr (Function.update_self _ _ _)
      · exact .inl (.inl (.used hr))
    · exact .inl (.inl (.captured ho hx))
  | copy hu =>
    rcases hr with hr | hr | hr | ⟨o, ho, hx⟩
    · exact .inl (.inl (.registered hr))
    · exact .inl (.inl (.removed hr))
    · rcases List.mem_cons.1 hr with rfl | hr
      · exact .inl (referenced_of_usable hu)
      · exact .inl (.inl (.used hr))
    · exact .inl (.inl (.captured ho hx))
  | accepted _ hcap _ =>
    rcases hr with hr | hr | hr | ⟨o, ho, hx⟩
    · exact .inl (.inl (.registered hr))
    · exact .inl (.inl (.removed hr))
    · exact .inl (.inl (.used hr))
    · rcases List.mem_append.1 ho with ho | ho
      · exact .inl (.inl (.captured ho hx))
      · rw [List.mem_singleton.1 ho] at hx
        exact .inl (referenced_of_usable (hcap h (List.mem_cons_of_mem _ hx)))
  | registerNew hu =>
    rcases hr with hr | hr
    · rcases List.mem_append.1 hr with hr | hr
      · exact .inl (.inl (.registered hr))
      · rw [List.mem_singleton.1 hr]
        exact .inl (referenced_of_usable hu)
    · exact .inl (.inl (.inr hr))
  | registerPrev hu _ hprev =>
    rcases hr with hr | hr | hr
    · obtain ⟨g, hg, rfl⟩ := List.mem_map.1 hr
      split
      · exact .inl (referenced_of_usable hu)
      · exact .inl (.inl (.registered hg))
    · rcases List.mem_append.1 hr with hr | hr
      · exact .inl (.inl (.removed hr))
      · rw [List.mem_singleton.1 hr]
        exact .inl (.inl (.registered hprev))
    · exact .inl (.inl (.inr (.inr hr)))
  | lockDeregister =>
    unfold Shared.deregister at hr
    split at hr
    · rename_i hx
      rcases hr with hr | hr | hr
      · exact .inl (.inl (.registered (List.mem_of_mem_erase hr)))
      · rcases List.mem_append.1 hr with hr | hr
        · exact .inl (.inl (.removed hr))
        · rw [List.mem_singleton.1 hr]
          exact .inl (.inl (.registered hx))
      · exact .inl (.inl (.inr (.inr hr)))
    · exact .inl (.inl hr)
  -- The rest only take references away.
  | drop => exact .inl (.inl (hr.mono (.refl _) (.refl _) List.erase_subset (.refl _)))
  | cancel => exact .inl (.inl (hr.mono (.refl _) (.refl _) (.refl _) (List.filter_subset_self _)))
  | drain | serve => exact .inl (.inl (hr.mono (.refl _) (.refl _) (.refl _) List.erase_subset))
  | clear | releaseRemovable =>
    exact .inl (.inl (hr.mono (.refl _) (List.nil_subset _) (.refl _) (.refl _)))
  | releaseHandles =>
    exact .inl (.inl (hr.mono (List.nil_subset _) (.refl _) (.refl _) (.refl _)))
  | _ => exact .inl (.inl hr)

/-- New frames have only references that were there. -/
theorem Effect.refs_cases (he : Effect W rt s a t old new sh es) {f : Frame H} (hf : f ∈ new)
    (hr : h ∈ f.refs) : s.HasRef h ∨ ∃ g ∈ old, h ∈ g.refs := by
  cases he with
  | @drop _ x hx =>
    rw [List.mem_singleton.1 hf] at hr
    rw [List.mem_singleton.1 hr]
    exact .inl (.used hx)
  | cancel =>
    rw [List.mem_singleton.1 hf] at hr
    obtain ⟨op, hop, hcap⟩ := List.mem_flatMap.1 hr
    exact .inl (.captured (List.mem_filter.1 hop).1 hcap)
  | ret =>
    rw [List.mem_singleton.1 hf] at hr
    exact .inr ⟨_, List.mem_singleton_self _, hr⟩
  | dropKeep =>
    rw [List.mem_singleton.1 hf] at hr
    exact .inr ⟨_, List.mem_singleton_self _, List.mem_cons_of_mem _ hr⟩
  | dropLast =>
    rcases List.mem_cons.1 hf with rfl | hf
    · cases hr
    · rw [List.mem_singleton.1 hf] at hr
      exact .inr ⟨_, List.mem_singleton_self _, List.mem_cons_of_mem _ hr⟩
  | drain hop =>
    rcases List.mem_cons.1 hf with rfl | hf
    · exact .inl (.captured hop hr)
    · rw [List.mem_singleton.1 hf] at hr
      cases hr
  | serve _ hop =>
    rw [List.mem_singleton.1 hf] at hr
    exact .inl (.captured hop hr)
  | clear | releaseRemovable =>
    rw [List.mem_singleton.1 hf] at hr
    exact .inl (.removed hr)
  | releaseHandles =>
    rw [List.mem_singleton.1 hf] at hr
    exact .inl (.registered hr)
  | close | registerPrev | execClose | casWon | lockDeregister | lockAlone | sysSocket =>
    rw [List.mem_singleton.1 hf] at hr
    cases hr
  | _ => cases hf

/-- References are to handles that have been made, and so are the sockets of pending operations. -/
structure Known (s : State H T) : Prop where
  referenced : ∀ h, s.Referenced h → s.made h = true
  sockets : ∀ op ∈ s.pending, s.made op.socket = true

/-- Every step keeps references to handles that have been made. -/
theorem Known.step (hk : Known s) (hs : Step W rt s a s' es) : Known s' := by
  obtain ⟨hst, he⟩ := hs
  rename_i t old new rest sh
  have hold : ∀ f ∈ old, f ∈ s.stack t := fun f hf => by simp [hst, hf]
  constructor
  · rintro x (hr | ⟨u, f, hf, hr⟩)
    · rcases he.hasRef_cases hr with hr | hm
      · exact he.made_mono (hk.referenced x hr)
      · exact hm
    · refine he.made_mono (hk.referenced x ?_)
      rcases mem_update.1 hf with ⟨rfl, hin⟩ | ⟨-, hother⟩
      · rcases List.mem_append.1 hin with hin | hrest
        · rcases he.refs_cases hin hr with hr | ⟨g, hg, hr⟩
          · exact .inl hr
          · exact .inr ⟨u, g, hold g hg, hr⟩
        · exact .inr ⟨u, f, by simp [hst, hrest], hr⟩
      · exact .inr ⟨u, f, hother, hr⟩
  · intro op hop
    refine he.made_mono ?_
    rcases he.pending_cases op hop with hop | ⟨-, -, hu, -⟩
    · exact hk.sockets op hop
    · exact hk.referenced _ (referenced_of_usable (hu _ List.mem_cons_self))

/-- In every reachable state references are to handles that have been made. -/
theorem known_of_reachable [Fintype T] {c : Config (State H T) (Event H)}
    (h : Reachable (machine W rt) (init H T) c) : Known c.state := by
  refine h.invariant_step (I := fun s _ => Known s) ?_ ?_
  · exact ⟨by simp [init, State.Referenced, Shared.HasRef], by simp [init]⟩
  · intro s tr a s' es hk _ hs
    exact hk.step (step_cases hs)

/-! ## What stays -/

/-- Each socket of the set has a reference in a variable of user code, or has been captured by a
pending operation of a socket of the set. -/
def Anchored (W : Handles H) (s : State H T) (K : H → Prop) : Prop :=
  ∀ h, K h → W.isSocket h = true →
    h ∈ s.user ∨ ∃ op ∈ s.pending, K op.socket ∧ h ∈ op.captures

/-- The steps of the release, when the callbacks that it invokes make no calls. -/
def Quiet (rt : T) : Action H T → Prop
  | .exec .go => True
  | .go t | .ret t => t = rt
  | _ => False

/-- Whether `exec` is in `release_all_handles`. -/
def ExecPc.releasing : ExecPc H → Bool
  | .releaseHandles _ | .releaseRemovable _ | .releaseUnlock _ => true
  | _ => false

/-- What a quiet release leaves alone, as compared with the state `s₀` at which it starts. -/
structure Left (rt : T) (s₀ s : State H T) (tr₀ tr : List (Event H)) (K : H → Prop) : Prop where
  phase : s.pc.releasing = true ∨ s.pc = .idle ∧ s.stack rt = []
  user : s.user = s₀.user
  pending : ∀ op ∈ s₀.pending, K op.socket → op ∈ s.pending
  frames : ∀ h pc, K h → .close h pc ∉ s.stack rt
  sysClose : ∀ h, K h → .sysClose h ∈ tr → .sysClose h ∈ tr₀

/-- A quiet step is one of the runtime's thread. -/
theorem Effect.thread_eq (he : Effect W rt s a t old new sh es) (hq : Quiet rt a) : t = rt := by
  cases he with
  | ret | dropNil | dropKeep | dropLast | casLost | casWon | lockDeregister | lockAlone | sysSocket
  | sysAcceptor | drained | drain => exact hq
  | cleared | releaseHandles | releaseRemovable | releaseUnlock => rfl
  | _ => exact absurd hq id

/-- A quiet step leaves the variables of user code alone. -/
theorem Effect.user_eq (he : Effect W rt s a t old new sh es) (hq : Quiet rt a) :
    sh.user = s.user := by
  cases he with
  | create | copy | drop => exact absurd hq id
  | lockDeregister => simp
  | _ => rfl

/-- A quiet step of the release goes on with it, or ends it. -/
theorem Effect.phase (he : Effect W rt s a t old new sh es) (hq : Quiet rt a)
    (hp : s.pc.releasing = true) :
    sh.pc.releasing = true ∨ sh.pc = .idle ∧ s.stack rt = [] ∧ old = [] ∧ new = [] := by
  cases he with
  | cleared hpc =>
    rw [hpc] at hp
    cases hp
  | releaseHandles | releaseRemovable => exact .inl rfl
  | releaseUnlock _ hst => exact .inr ⟨rfl, hst, rfl, rfl⟩
  | start | serve | execClose | clear | leave => exact absurd hq id
  | lockDeregister => exact .inl (by simpa using hp)
  | _ => exact .inl hp

/-- There is no quiet step when `exec` is not running. -/
theorem Effect.not_quiet_of_idle (he : Effect W rt s a t old new sh es) (hpc : s.pc = .idle)
    (hold : old = []) : ¬ Quiet rt a := by
  intro hq
  cases he with
  | ret | dropNil | dropKeep | dropLast | casLost | casWon | lockDeregister | lockAlone | sysSocket
  | sysAcceptor | drained | drain => cases hold
  | cleared hpc' | releaseHandles hpc' | releaseRemovable hpc' | releaseUnlock hpc' =>
    rw [hpc] at hpc'
    cases hpc'
  | _ => exact hq

/-- A quiet step takes no operation of a socket that is not being closed. -/
theorem Effect.pending_of_quiet (he : Effect W rt s a t old new sh es) (hq : Quiet rt a) {op : Op H}
    (hop : op ∈ s.pending) (hold : .close op.socket .drain ∉ old) : op ∈ sh.pending := by
  cases he with
  | @drain _ x op' _ hsock =>
    refine (List.mem_erase_of_ne ?_).2 hop
    rintro rfl
    exact hold (by simp [hsock])
  | accepted | cancel | serve => exact absurd hq id
  | lockDeregister => simpa using hop
  | _ => exact hop

/-- A quiet step starts to close only sockets without references. -/
theorem Effect.close_of_quiet (he : Effect W rt s a t old new sh es) (hq : Quiet rt a)
    {pc : ClosePc} (hf : .close h pc ∈ new) : (∃ pc', .close h pc' ∈ old) ∨
      W.isSocket h = true ∧ h ∉ s.user ∧ ∀ op ∈ s.pending, h ∉ op.captures := by
  cases he with
  | @dropLast _ x _ _ _ hno hsock =>
    right
    simp only [List.mem_cons, Frame.close.injEq, reduceCtorEq, List.not_mem_nil, or_false] at hf
    obtain ⟨rfl, -⟩ := hf
    exact ⟨hsock, fun hu => hno (.inl (.used hu)),
      fun op hop hcap => hno (.inl (.captured hop hcap))⟩
  | casWon | lockDeregister | lockAlone | sysSocket =>
    obtain ⟨rfl, -⟩ := Frame.close.inj (List.mem_singleton.1 hf)
    exact .inl ⟨_, List.mem_singleton_self _⟩
  | drain =>
    simp only [List.mem_cons, Frame.close.injEq, reduceCtorEq, List.not_mem_nil, or_false,
      false_or] at hf
    obtain ⟨rfl, -⟩ := hf
    exact .inl ⟨_, List.mem_singleton_self _⟩
  | close | registerPrev | execClose => exact absurd hq id
  | _ => simp at hf

/-- A quiet step leaves what is anchored alone. -/
theorem Left.step {s₀ : State H T} {tr₀ : List (Event H)} {K : H → Prop} (hK : Anchored W s₀ K)
    (h : Left rt s₀ s tr₀ tr K) (hs : Step W rt s a s' es) (hq : Quiet rt a) :
    Left rt s₀ s' tr₀ (tr ++ es) K := by
  obtain ⟨hst, he⟩ := hs
  rename_i t old new rest sh
  obtain rfl := he.thread_eq hq
  have hold : ∀ x pc, K x → .close x pc ∉ old := fun x pc hx hf =>
    h.frames x pc hx (by simp [hst, hf])
  constructor
  case phase =>
    rcases h.phase with hp | ⟨hpc, hnil⟩
    · refine (he.phase hq hp).imp_right fun ⟨hpc, hnil, hold, hnew⟩ => ⟨hpc, ?_⟩
      rw [hnil, hold, List.nil_append] at hst
      rw [hnew, ← hst]
      exact Function.update_self _ _ _
    · rw [hnil] at hst
      exact absurd hq (he.not_quiet_of_idle hpc (List.append_eq_nil_iff.1 hst.symm).1)
  case user => exact (he.user_eq hq).trans h.user
  case pending =>
    intro op hop hx
    exact he.pending_of_quiet hq (h.pending op hop hx) (hold _ _ hx)
  case frames =>
    intro x pc hx hf
    rcases mem_update.1 hf with ⟨-, hin⟩ | ⟨hne, -⟩
    · rcases List.mem_append.1 hin with hin | hrest
      · rcases he.close_of_quiet hq hin with ⟨pc', hf⟩ | ⟨hsock, huser, hcaps⟩
        · exact hold x pc' hx hf
        · -- A destructor would run only without references, but what anchors the socket is there.
          rcases hK x hx hsock with hu | ⟨op, hop, hsocket, hcap⟩
          · exact huser (h.user ▸ hu)
          · exact hcaps op (h.pending op hop hsocket) hcap
      · exact h.frames x pc hx (by simp [hst, hrest])
    · exact hne rfl
  case sysClose =>
    intro x hx hev
    rcases List.mem_append.1 hev with hev | hev
    · exact h.sysClose x hx hev
    · exact absurd (he.sysClose_mem hev) (hold x _ hx)

omit [DecidableEq H] [DecidableEq T] in
/-- What is not a collectable socket is anchored, if it has been made and no call is in progress. -/
theorem anchored_of_not_collectable (hk : Known s) (hidle : ∀ u, s.stack u = []) :
    Anchored W s fun h => s.made h = true ∧ ¬ (W.isSocket h = true ∧ Collectable rt s h) := by
  rintro x ⟨hm, hx⟩ hsock
  have hx : ¬ Collectable rt s x := fun hc => hx ⟨hsock, hc⟩
  rcases Ownership.not_collectable_iff.1 hx with (hno | hu | ⟨u, -, f, hf, -⟩) | ⟨y, hown, hy⟩
  · simp [hm] at hno
  · exact .inl hu
  · rw [hidle u] at hf
    cases hf
  · obtain ⟨op, hop, rfl, hcap⟩ := hown
    exact .inr ⟨op, hop, ⟨hk.sockets op hop, fun h => hy h.2⟩, hcap⟩

/-- The condition is exact: when `release_all_handles` starts to drop references while no other call
is in progress, and the callbacks that it invokes make no calls, it closes all that is registered
only if that is swept. -/
theorem swept_of_finished [Fintype T] {c₀ c : Config (State H T) (Event H)}
    (hc₀ : Reachable (machine W rt) (init H T) c₀) (hp : c₀.state.pc.releasing = true)
    (hidle : ∀ u, c₀.state.stack u = [])
    (hc : ReachVia (machine W rt) (fun _ a => Quiet rt a) c₀ c)
    (hfinished : ∀ h ∈ c₀.state.allHandles, Finished W c h) :
    Swept W rt c₀.state c₀.trace c₀.state.allHandles := by
  have hi := inv_of_reachable hc₀
  have hk := known_of_reachable hc₀
  have hK : Anchored W c₀.state fun h => c₀.state.made h = true ∧
      ¬ (W.isSocket h = true ∧ Collectable rt c₀.state h) := anchored_of_not_collectable hk hidle
  have hleft := hc.invariant (I := fun c => Left rt c₀.state c.state c₀.trace c.trace _)
    ⟨.inl hp, rfl, fun _ hop _ => hop, fun x pc _ hf => by simp [hidle] at hf, fun _ _ hev => hev⟩
    (fun c a c' hl hq hn => by
      obtain ⟨s', es, hs, rfl⟩ := next_eq_some _ hn
      exact hl.step hK (step_cases hs) hq)
  intro x hx
  by_contra hno
  rw [not_or] at hno
  -- Its descriptor was closed before the release, and then it was shut before.
  have hev := hleft.sysClose x ⟨hk.referenced x (.inl (.registered hx)), hno.2⟩ (hfinished x hx).1
  refine hno.1 ⟨hev, fun op hop hsocket => ?_⟩
  have hsock : W.isSocket x = true := hsocket ▸ hi.sockets op hop
  rcases hi.closed_shut x hsock (hi.sysClose_closed x hsock hev) with hshut | ⟨u, f, hf, -⟩
  · exact hshut.2 op hop hsocket
  · simp [hidle] at hf

end Spinet.Shutdown
