import Spinet.Table.Layout

/-!
# Searching a table

The loop of `find_impl` and of `insert_impl` ends before it has made as many steps as there are
values (`probe_spec`), either at a bucket with the key, or at a bucket that shows that no bucket has
it (`Passed.key_not_mem`). So `find` finds a key exactly where there is a value with it
(`findImpl_spec`). The second loop of `insert_impl`, which does not compare keys, ends where the
first one would (`probe_of_skip`).
-/

namespace Spinet.Table

open Probing RobinHash

variable {K V : Type} {T : Traits K V} {t : RobinHash V} {i j d h q : ℕ} {v : V} {key : K}

/-- A search for a key has made `d` steps: no bucket before was closer to the ideal one of its value
than the search, and none had the key. -/
def Passed (T : Traits K V) (t : RobinHash V) (key : K) (d : ℕ) : Prop :=
  ∀ j < d, (j : ℤ) ≤ t.dist (walk t.ring (T.hash key) j) ∧
    ∀ v, (t.bucket (walk t.ring (T.hash key) j)).value = some v → T.key v ≠ key

/-- A search that ends at a bucket that is closer has shown that there is no value with the key. -/
theorem Passed.key_not_mem (hp : Passed T t key d) (hl : Layout T t)
    (hstop : t.dist (walk t.ring (T.hash key) d) < d) : ∀ v ∈ t.elements, T.key v ≠ key := by
  intro v hv hkey
  obtain ⟨i, d', h, hb⟩ := mem_elements.1 hv
  obtain ⟨hideal, -⟩ := hl.placed i d' h v hb
  rw [hkey] at hideal
  rcases lt_or_ge d' d with hlt | hge
  · -- The search came past the value.
    refine (hp d' hlt).2 v ?_ hkey
    rw [hideal, hb]
    rfl
  · -- The search would have gone on to the value.
    have hd : t.dist (walk t.ring (T.hash key) d') = d' := by
      rw [hideal]
      simp only [RobinHash.dist, hb, Bucket.dist]
    have := hl.ordered.le_of_walk ring_pos hd hge
    omega

/-- One step of a search that has not ended. -/
theorem Passed.step (hp : Passed T t key d) {d' : ℕ}
    (hb : t.bucket (walk t.ring (T.hash key) d) = .full d' h v) (hle : d ≤ d')
    (hkey : T.key v ≠ key) : Passed T t key (d + 1) := by
  intro j hj
  rcases Nat.lt_succ_iff_lt_or_eq.1 hj with hlt | rfl
  · exact hp j hlt
  · simp only [RobinHash.dist, hb, Bucket.dist, Bucket.value, Option.some.injEq]
    exact ⟨by omega, by rintro w rfl; exact hkey⟩

/-- The loop of a search, where there is an empty bucket `g` steps on. -/
theorem probe_spec [DecidableEq K] (hl : Layout T t) (hsize : t.elements.length ≤ 32767) :
    ∀ (g fuel d : ℕ), t.dist (walk t.ring (T.hash key) (d + g)) = -1 → g < fuel →
      Passed T t key d →
      (∃ i d' h v, probe T t key fuel (walk t.ring (T.hash key) d) d = .ok (.found i) ∧
        t.bucket i = .full d' h v ∧ T.key v = key) ∨
      (∃ d', probe T t key fuel (walk t.ring (T.hash key) d) d =
          .ok (.missing (walk t.ring (T.hash key) d') d') ∧
        t.dist (walk t.ring (T.hash key) d') < d' ∧ Passed T t key d') := by
  intro g
  induction g with
  | zero =>
    intro fuel d hq hfuel hp
    obtain ⟨fuel, rfl⟩ : ∃ n, fuel = n + 1 := ⟨fuel - 1, by omega⟩
    have hb := Bucket.dist_eq_neg_one.1 hq
    refine .inr ⟨d, ?_, by rw [Nat.add_zero] at hq; omega, hp⟩
    rw [Nat.add_zero] at hb
    simp only [probe, hb]
  | succ g ih =>
    intro fuel d hq hfuel hp
    obtain ⟨fuel, rfl⟩ : ∃ n, fuel = n + 1 := ⟨fuel - 1, by omega⟩
    cases hb : t.bucket (walk t.ring (T.hash key) d) with
    | empty =>
      refine .inr ⟨d, by simp only [probe, hb], ?_, hp⟩
      simp only [RobinHash.dist, hb, Bucket.dist]
      omega
    | full d' h v =>
      by_cases hle : d ≤ d'
      case neg =>
        refine .inr ⟨d, by simp only [probe, hb, if_neg hle], ?_, hp⟩
        simp only [RobinHash.dist, hb, Bucket.dist]
        omega
      by_cases hkey : T.key v = key
      · exact .inl ⟨_, d', h, v, by simp only [probe, hb, if_pos hle, if_pos hkey], hb, hkey⟩
      · -- The distance fits, because it is less than the number of values.
        have hlt : d' < t.elements.length := hl.dist_lt (walk_lt ring_pos) hq hb
        have hstep : probe T t key (fuel + 1) (walk t.ring (T.hash key) d) d =
            probe T t key fuel (walk t.ring (T.hash key) (d + 1)) (d + 1) := by
          simp only [probe, hb, if_pos hle, if_neg hkey]
          rw [nextDistance_eq (by omega), hl.toPlaced.nextBucket, walk_walk]
          rfl
        rw [hstep]
        refine ih fuel (d + 1) ?_ (by omega) (hp.step hb hle hkey)
        rw [← hq]
        congr 2
        omega

/-- A search for a key from its ideal bucket on. -/
theorem probe_ideal [DecidableEq K] (hl : Layout T t) (hsize : t.elements.length ≤ 32767)
    (hqm : q < t.ring) (hq : t.dist q = -1) (key : K) :
    (∃ i d h v, probe T t key (t.buckets.length + 1) (t.bucketForHash (T.hash key)) 0 =
        .ok (.found i) ∧ t.bucket i = .full d h v ∧ T.key v = key) ∨
      (∃ d, probe T t key (t.buckets.length + 1) (t.bucketForHash (T.hash key)) 0 =
          .ok (.missing (walk t.ring (T.hash key) d) d) ∧
        t.dist (walk t.ring (T.hash key) d) < d ∧ Passed T t key d) := by
  obtain ⟨g, hg, hwalk⟩ := exists_walk (i := walk t.ring (T.hash key) 0) (walk_lt ring_pos) hqm
  rw [walk_walk] at hwalk
  rw [hl.toPlaced.bucketForHash]
  -- A table without buckets has one position.
  have hfuel : g < t.buckets.length + 1 := by
    rcases hl.length with hlen | ⟨-, hring⟩ <;> omega
  exact probe_spec hl hsize g _ 0 (by rw [hwalk, hq]) hfuel fun j hj => absurd hj (by omega)

/-- `find` returns a bucket with the key if there is one, and `end()` if there is none. -/
theorem findImpl_spec [DecidableEq K] (hl : Layout T t) (hsize : t.elements.length ≤ 32767)
    (hqm : q < t.ring) (hq : t.dist q = -1) (key : K) :
    (∃ i d h v, t.findImpl T key = .ok (some i) ∧ t.bucket i = .full d h v ∧ T.key v = key) ∨
      (t.findImpl T key = .ok none ∧ ∀ v ∈ t.elements, T.key v ≠ key) := by
  rcases probe_ideal hl hsize hqm hq key with ⟨i, d, h, v, hprobe, hb, hkey⟩ |
    ⟨d, hprobe, hstop, hp⟩
  · refine .inl ⟨i, d, h, v, ?_, hb, hkey⟩
    unfold findImpl
    rw [hprobe]
    rfl
  · refine .inr ⟨?_, hp.key_not_mem hl hstop⟩
    unfold findImpl
    rw [hprobe]
    rfl

/-- Where there is no value with the key, the search ends where the loop does that compares no
keys. -/
theorem probe_of_skip [DecidableEq K] (hkey : ∀ v ∈ t.elements, T.key v ≠ key) :
    ∀ (fuel i d : ℕ), probe T t key fuel i d = (t.skip fuel i d).map fun r => .missing r.1 r.2 := by
  intro fuel
  induction fuel with
  | zero => intro i d; rfl
  | succ fuel ih =>
    intro i d
    unfold probe skip
    cases hb : t.bucket i with
    | empty => rfl
    | full d' h v =>
      have hv : T.key v ≠ key := hkey v (mem_elements.2 ⟨i, d', h, hb⟩)
      by_cases hle : d ≤ d'
      · simp only [if_pos hle, if_neg hv]
        cases nextDistance d with
        | error e => rfl
        | ok n => exact ih _ _
      · simp only [if_neg hle]
        rfl

/-- The loop that compares no keys ends like a search for a key that no value has. -/
theorem skip_ideal [DecidableEq K] (hl : Layout T t) (hsize : t.elements.length ≤ 32767)
    (hqm : q < t.ring) (hq : t.dist q = -1) (hkey : ∀ v ∈ t.elements, T.key v ≠ key) :
    ∃ d, t.skip (t.buckets.length + 1) (t.bucketForHash (T.hash key)) 0 =
        .ok (walk t.ring (T.hash key) d, d) ∧
      t.dist (walk t.ring (T.hash key) d) < d ∧ Passed T t key d := by
  rcases probe_ideal hl hsize hqm hq key with ⟨i, d, h, v, -, hb, hv⟩ | ⟨d, hprobe, hstop, hp⟩
  · exact absurd hv (hkey v (mem_elements.2 ⟨i, d, h, hb⟩))
  · refine ⟨d, ?_, hstop, hp⟩
    rw [probe_of_skip hkey] at hprobe
    cases hskip : t.skip (t.buckets.length + 1) (t.bucketForHash (T.hash key)) 0 with
    | error e => rw [hskip] at hprobe; cases hprobe
    | ok r =>
      rw [hskip] at hprobe
      simp only [Except.map, Except.ok.injEq, Probe.missing.injEq] at hprobe
      rw [← hprobe.1, ← hprobe.2]

end Spinet.Table
