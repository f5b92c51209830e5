import Spinet.Table.Insert

/-!
# Erasure, assignment, and iteration

`erase_from_bucket` leaves a hole and moves the values after it back by one, which moves the hole
(`backwardShift_spec`); it ends with the same values but the one erased (`eraseFromBucket_spec`). An
assignment through an iterator puts a value with the same key in the place of another
(`assignAt_spec`). A loop over the table visits each of its values once (`visit_eq_elements`).
-/

namespace Spinet.Table

open Probing RobinHash

variable {K V : Type} {T : Traits K V} {t t' : RobinHash V} {i j d h p q : ℕ} {v w : V} {key : K}

/-- Moving the next value into the hole moves the hole, and keeps the values. -/
theorem Holed.shift (hh : Holed T t p) (hlen : t.buckets.length = t.ring) (hp : p < t.ring)
    (hb : t.bucket (walk t.ring p 1) = .full (d + 1) h v) :
    Holed T ((t.setBucket p (.full d h v)).setBucket (walk t.ring p 1) .empty)
        (walk t.ring p 1) ∧
      ((t.setBucket p (.full d h v)).setBucket (walk t.ring p 1) .empty).elements.Perm
        t.elements := by
  have hpl : p < t.buckets.length := by rw [hlen]; exact hp
  have hnl : walk t.ring p 1 < t.buckets.length := lt_of_full hb
  have hnl' : walk t.ring p 1 < (t.setBucket p (.full d h v)).buckets.length := by
    rw [sameShape_setBucket.length]
    exact hnl
  have hnext : t.dist (walk t.ring p 1) = (d : ℤ) + 1 := by
    simp only [RobinHash.dist, hb, Bucket.dist]
    omega
  have hvacant : t.bucket p = .empty := Bucket.dist_eq_neg_one.1 hh.hole.vacant
  have hne : walk t.ring p 1 ≠ p := by
    intro hself
    rw [hself, hvacant] at hb
    cases hb
  obtain ⟨hideal, hhash⟩ := hh.placed _ _ _ _ hb
  refine ⟨⟨(hh.toPlaced.set hpl ?_).set hnl' ?_, ?_⟩, ?_⟩
  · -- One position less from the same ideal bucket.
    rintro d' h' v' ⟨⟩
    refine ⟨walk_one_cancel (walk_lt ring_pos) hp ?_, hhash⟩
    rw [walk_walk]
    exact hideal
  · intro _ _ _ hempty
    cases hempty
  · have hshift := hh.hole.shift (fun i => (t.bucket i).neg_one_le_dist) hp hnext (by omega)
    rw [dist_setBucket hnl', dist_setBucket hpl]
    rw [show (d : ℤ) + 1 - 1 = d by omega] at hshift
    exact hshift
  · have h₁ := elements_setBucket hpl (.full d h v)
    have h₂ := elements_setBucket hnl' .empty
    rw [hvacant] at h₁
    rw [bucket_setBucket hpl, if_neg hne, hb] at h₂
    -- The value comes to the one bucket and leaves the other.
    exact (List.perm_cons v).1 (h₂.trans h₁)

/-- The loop of `erase_from_bucket`, where another bucket is empty `g` steps behind the next one. -/
theorem backwardShift_spec : ∀ (g fuel : ℕ) (t : RobinHash V) (p : ℕ), Holed T t p →
    t.buckets.length = t.ring → p < t.ring → t.dist (walk t.ring p (g + 1)) = -1 →
    g + 1 < t.ring → g < fuel →
    ∃ t', backwardShift fuel t p (t.nextBucket p) = .ok t' ∧ Layout T t' ∧ SameShape t t' ∧
      t'.elements.Perm t.elements := by
  intro g
  induction g with
  | zero =>
    intro fuel t p hh hlen hp hq _ hfuel
    obtain ⟨fuel, rfl⟩ : ∃ n, fuel = n + 1 := ⟨fuel - 1, by omega⟩
    have hb := Bucket.dist_eq_neg_one.1 hq
    refine ⟨t, ?_, ⟨hh.toPlaced, hh.hole.close (by rw [← Nat.zero_add 1, hq]; omega)⟩,
      SameShape.refl t, List.Perm.refl _⟩
    rw [hh.toPlaced.nextBucket, ← Nat.zero_add 1]
    simp only [backwardShift, hb]
  | succ g ih =>
    intro fuel t p hh hlen hp hq hg hfuel
    obtain ⟨fuel, rfl⟩ : ∃ n, fuel = n + 1 := ⟨fuel - 1, by omega⟩
    rw [hh.toPlaced.nextBucket]
    have hstop : (∀ d h v, t.bucket (walk t.ring p 1) ≠ .full (d + 1) h v) →
        backwardShift (fuel + 1) t p (walk t.ring p 1) = .ok t ∧ Layout T t := by
      intro hb
      cases hb' : t.bucket (walk t.ring p 1) with
      | empty =>
        refine ⟨by simp only [backwardShift, hb'], hh.toPlaced, hh.hole.close ?_⟩
        simp only [RobinHash.dist, hb', Bucket.dist]
        omega
      | full d h v =>
        cases d with
        | zero =>
          refine ⟨by simp only [backwardShift, hb'], hh.toPlaced, hh.hole.close ?_⟩
          simp only [RobinHash.dist, hb', Bucket.dist]
          omega
        | succ d => exact absurd hb' (hb d h v)
    by_cases hmove : ∃ d h v, t.bucket (walk t.ring p 1) = .full (d + 1) h v
    · obtain ⟨d, h, v, hb⟩ := hmove
      obtain ⟨hh₁, hperm₁⟩ := hh.shift hlen hp hb
      have hs₁ : SameShape t
          ((t.setBucket p (.full d h v)).setBucket (walk t.ring p 1) .empty) :=
        sameShape_setBucket.trans sameShape_setBucket
      have hstep : backwardShift (fuel + 1) t p (walk t.ring p 1) =
          backwardShift fuel ((t.setBucket p (.full d h v)).setBucket (walk t.ring p 1) .empty)
            (walk t.ring p 1)
            (((t.setBucket p (.full d h v)).setBucket (walk t.ring p 1) .empty).nextBucket
              (walk t.ring p 1)) := by
        simp only [backwardShift, hb]
        rfl
      have hpl : p < t.buckets.length := by rw [hlen]; exact hp
      have hnl' : walk t.ring p 1 < (t.setBucket p (.full d h v)).buckets.length := by
        rw [sameShape_setBucket.length]
        exact lt_of_full hb
      -- The empty bucket is not the one that has been filled.
      have hq₁ : ((t.setBucket p (.full d h v)).setBucket (walk t.ring p 1) .empty).dist
          (walk t.ring (walk t.ring p 1) (g + 1)) = -1 := by
        rw [walk_walk, show 1 + (g + 1) = g + 1 + 1 by omega, dist_setBucket hnl',
          dist_setBucket hpl, Function.update_apply]
        split
        · rfl
        · rw [Function.update_of_ne (walk_ne hp (by omega) hg), hq]
      obtain ⟨t', ht', hl', hs', hperm'⟩ := ih fuel _ _ hh₁ (hs₁.length.trans hlen)
        (walk_lt ring_pos) hq₁ (by show g + 1 < t.ring; omega) (by omega)
      exact ⟨t', hstep.trans ht', hl', hs₁.trans hs', hperm'.trans hperm₁⟩
    · push Not at hmove
      obtain ⟨hret, hl⟩ := hstop hmove
      exact ⟨t, hret, hl, SameShape.refl t, List.Perm.refl _⟩

/-- `erase_from_bucket` takes one value from the table. -/
theorem eraseFromBucket_spec (hv : Valid T t) (hb : t.bucket p = .full d h v) :
    ∃ t', t.eraseFromBucket p = .ok t' ∧ Valid T t' ∧ t.elements.Perm (v :: t'.elements) := by
  obtain ⟨q, hqm, hq⟩ := hv.vacant
  have hlen := hv.length_eq_ring hb
  have hpl := lt_of_full hb
  have hp : p < t.ring := by
    rw [← hlen]
    exact hpl
  have helements := elements_setBucket hpl .empty
  rw [hb] at helements
  -- The table with the hole, and with one value less to count.
  have hs : SameBuckets (t.setBucket p .empty)
      { t.setBucket p .empty with nbElements := t.nbElements - 1 } := ⟨rfl, rfl⟩
  have hhole : Hole t.ring (t.setBucket p .empty).dist p := by
    rw [dist_setBucket hpl]
    exact Hole.of_ordered hv.ordered (fun i => (t.bucket i).neg_one_le_dist) hp
  have hplaced : Placed T (t.setBucket p .empty) := hv.toPlaced.set hpl nofun
  have hholed : Holed T { t.setBucket p .empty with nbElements := t.nbElements - 1 } p :=
    ⟨⟨hplaced.pow, hplaced.length, hplaced.placed⟩, hhole⟩
  -- The other empty bucket is some steps behind the hole.
  obtain ⟨g, hgm, rfl⟩ := exists_walk hp hqm
  have hg : g ≠ 0 := by
    rintro rfl
    rw [walk_zero hp] at hq
    simp only [RobinHash.dist, hb, Bucket.dist] at hq
    omega
  obtain ⟨g, rfl⟩ := Nat.exists_eq_succ_of_ne_zero hg
  have hempty : (t.setBucket p .empty).dist (walk t.ring p (g + 1)) = -1 := by
    rw [dist_setBucket hpl, Function.update_of_ne (walk_ne hp (by omega) hgm), hq]
  have hlength : (t.setBucket p .empty).buckets.length = t.buckets.length :=
    sameShape_setBucket.length
  obtain ⟨t', ht', hl', hs', hperm⟩ := backwardShift_spec g (t.buckets.length + 1) _ p hholed
    (hlength.trans hlen) hp hempty hgm (by omega)
  have hcount := helements.length_eq
  simp only [Bucket.value, Option.toList_some, Option.toList_none, List.length_append,
    List.length_cons, List.length_nil] at hcount
  have hperm' : t.elements.Perm (v :: t'.elements) := helements.symm.trans (hperm.symm.cons v)
  have hlength' := hperm'.length_eq
  rw [List.length_cons] at hlength'
  refine ⟨t', ?_, ⟨hl', ?_, ?_, ?_, ?_⟩, hperm'⟩
  · unfold eraseFromBucket
    rw [← ht', ← hlength]
  · have hkeys := hv.keys
    rw [(hperm'.map T.key).nodup_iff, List.map_cons, List.nodup_cons] at hkeys
    exact hkeys.2
  · rw [hs'.nbElements]
    show t.nbElements - 1 = t'.elements.length
    rw [hv.count]
    omega
  · rw [hs'.loadThreshold, hs'.length]
    show t.loadThreshold = (t.setBucket p .empty).buckets.length / 2
    rw [hlength, hv.threshold]
  · rw [hs'.loadThreshold]
    show t'.elements.length ≤ t.loadThreshold
    have := hv.load
    omega

/-- The flag that an erasure sets changes nothing of the rest. -/
theorem Valid.setShrink (hv : Valid T t) : Valid T { t with tryShrinkOnNextInsert := true } := by
  have hs : SameBuckets t { t with tryShrinkOnNextInsert := true } := ⟨rfl, rfl⟩
  exact ⟨hs.layout hv.toLayout, hv.keys, hv.count, hv.threshold, hv.load⟩

/-- `erase` of an iterator takes its value from the table. -/
theorem eraseAt_spec (hv : Valid T t) (hb : t.bucket p = .full d h v) :
    ∃ t', t.eraseAt p = .ok t' ∧ Valid T t' ∧ t.elements.Perm (v :: t'.elements) := by
  obtain ⟨t', ht', hv', hperm⟩ := eraseFromBucket_spec hv hb
  refine ⟨{ t' with tryShrinkOnNextInsert := true }, ?_, hv'.setShrink, hperm⟩
  unfold eraseAt
  rw [ht']
  rfl

/-- `erase` of a key takes the value with that key from the table, if there is one. -/
theorem erase_spec [DecidableEq K] (hv : Valid T t) (hsize : t.elements.length ≤ 32767) (key : K) :
    (∃ t' v, t.erase T key = .ok (t', 1) ∧ Valid T t' ∧ T.key v = key ∧
      t.elements.Perm (v :: t'.elements)) ∨
    (t.erase T key = .ok (t, 0) ∧ ∀ v ∈ t.elements, T.key v ≠ key) := by
  obtain ⟨q, hqm, hq⟩ := hv.vacant
  unfold RobinHash.erase
  rcases findImpl_spec hv.toLayout hsize hqm hq key with ⟨i, d, h, v, hfind, hb, hkey⟩ |
    ⟨hfind, hnone⟩
  · obtain ⟨t', ht', hv', hperm⟩ := eraseFromBucket_spec hv hb
    refine .inl ⟨{ t' with tryShrinkOnNextInsert := true }, v, ?_, hv'.setShrink, hkey, hperm⟩
    simp only [hfind, bind, Except.bind, ht']
    rfl
  · exact .inr ⟨by simp only [hfind]; rfl, hnone⟩

/-- An assignment through an iterator puts a value in the place of another with the same key. -/
theorem assignAt_spec (hv : Valid T t) (hb : t.bucket p = .full d h v) (hkey : T.key w = T.key v) :
    Valid T (t.assignAt p w) ∧
      (v :: (t.assignAt p w).elements).Perm (w :: t.elements) := by
  have hp := lt_of_full hb
  have hassign : t.assignAt p w = t.setBucket p (.full d h w) := by
    simp only [assignAt, hb]
  have hperm := elements_setBucket hp (.full d h w)
  rw [hb] at hperm
  obtain ⟨hideal, hhash⟩ := hv.placed p d h v hb
  have hdist : (t.setBucket p (.full d h w)).dist = t.dist := by
    rw [dist_setBucket hp]
    have hself : t.dist p = (Bucket.full d h w).dist := by
      simp only [RobinHash.dist, hb, Bucket.dist]
    rw [← hself, Function.update_eq_self]
  have hlength := hperm.length_eq
  simp only [Bucket.value, Option.toList_some, List.length_append, List.length_cons,
    List.length_nil] at hlength
  rw [hassign]
  refine ⟨⟨⟨hv.toPlaced.set hp ?_, ?_⟩, ?_, ?_, ?_, ?_⟩, hperm⟩
  · rintro d' h' v' ⟨⟩
    rw [hkey]
    exact ⟨hideal, hhash⟩
  · rw [hdist]
    exact hv.ordered
  · -- The keys are the same ones.
    have hkeys : (T.key v :: (t.setBucket p (.full d h w)).elements.map T.key).Perm
        (T.key v :: t.elements.map T.key) := by
      have hmap := hperm.map T.key
      simp only [Bucket.value, Option.toList_some, List.singleton_append, List.map_cons,
        hkey] at hmap
      exact hmap
    exact ((List.perm_cons _).1 hkeys).nodup_iff.2 hv.keys
  · show t.nbElements = _
    rw [hv.count]
    omega
  · show t.loadThreshold = _
    rw [sameShape_setBucket.length, hv.threshold]
  · show _ ≤ t.loadThreshold
    have := hv.load
    omega

/-! ## Iteration -/

/-- The values from a bucket on. -/
def RobinHash.elementsFrom (t : RobinHash V) (i : ℕ) : List V :=
  (t.buckets.drop i).filterMap Bucket.value

/-- The values from a bucket on are its own and those behind it. -/
theorem elementsFrom_eq (hi : i < t.buckets.length) :
    t.elementsFrom i = (t.bucket i).value.toList ++ t.elementsFrom (i + 1) := by
  unfold elementsFrom
  rw [← List.getElem_cons_drop hi, List.filterMap_cons, ← bucket_eq_getElem hi]
  cases (t.bucket i).value <;> rfl

/-- A position at which a loop over the table may be: a bucket with a value, or the end. -/
def Stops (t : RobinHash V) (i : ℕ) : Prop :=
  i = t.buckets.length ∨ i < t.buckets.length ∧ (t.bucket i).value.isSome

/-- `begin` comes to the first value. -/
theorem beginFrom_spec : ∀ (fuel i : ℕ), i ≤ t.buckets.length → t.buckets.length ≤ i + fuel →
    Stops t (t.beginFrom fuel i) ∧ t.elementsFrom (t.beginFrom fuel i) = t.elementsFrom i := by
  intro fuel
  induction fuel with
  | zero => exact fun i hi hfuel => ⟨.inl (by show i = _; omega), rfl⟩
  | succ fuel ih =>
    intro i hi hfuel
    unfold beginFrom
    split
    · rename_i hnext
      obtain ⟨hstop, helements⟩ := ih (i + 1) hnext.1 (by omega)
      refine ⟨hstop, helements.trans ?_⟩
      rw [elementsFrom_eq hnext.1, Option.isNone_iff_eq_none.1 hnext.2]
      rfl
    · rename_i hend
      refine ⟨?_, rfl⟩
      rcases Nat.lt_or_ge i t.buckets.length with hlt | hge
      · refine .inr ⟨hlt, ?_⟩
        cases hv : (t.bucket i).value with
        | none => exact absurd ⟨hlt, by rw [hv]; rfl⟩ hend
        | some v => rfl
      · exact .inl (by omega)

/-- `operator++` comes to the next value. -/
theorem increment_spec : ∀ (fuel i : ℕ), i < t.buckets.length → t.buckets.length ≤ i + fuel →
    i < t.increment fuel i ∧ Stops t (t.increment fuel i) ∧
      t.elementsFrom (t.increment fuel i) = t.elementsFrom (i + 1) := by
  intro fuel
  induction fuel with
  | zero => exact fun i hi hfuel => absurd hfuel (by omega)
  | succ fuel ih =>
    intro i hi hfuel
    unfold increment
    split
    · rename_i hlast
      exact ⟨Nat.lt_succ_self i, .inl hlast, rfl⟩
    rename_i hlast
    have hnext : i + 1 < t.buckets.length := by omega
    split
    · rename_i hsome
      exact ⟨Nat.lt_succ_self i, .inr ⟨hnext, hsome⟩, rfl⟩
    · rename_i hnone
      obtain ⟨hlt, hstop, helements⟩ := ih (i + 1) hnext (by omega)
      refine ⟨by omega, hstop, helements.trans ?_⟩
      rw [elementsFrom_eq hnext, Option.not_isSome_iff_eq_none.1 hnone]
      rfl

/-- A loop visits the values from where it is. -/
theorem visitFrom_eq : ∀ (fuel i : ℕ), Stops t i → t.buckets.length < i + fuel →
    t.visitFrom fuel i = t.elementsFrom i := by
  intro fuel
  induction fuel with
  | zero =>
    intro i hstop hfuel
    rcases hstop with rfl | ⟨hi, -⟩ <;> omega
  | succ fuel ih =>
    intro i hstop hfuel
    unfold visitFrom
    rcases hstop with rfl | ⟨hi, -⟩
    · rw [if_pos rfl, elementsFrom, List.drop_length]
      rfl
    · obtain ⟨hlt, hstop, helements⟩ := increment_spec t.buckets.length i hi (by omega)
      rw [if_neg hi.ne, elementsFrom_eq hi, ih _ hstop (by omega), helements]

/-- A loop over a table visits each value once. -/
theorem visit_eq_elements (t : RobinHash V) : t.visit = t.elements := by
  obtain ⟨hstop, helements⟩ := beginFrom_spec (t := t) t.buckets.length 0 (Nat.zero_le _) (by omega)
  unfold visit begin
  rw [visitFrom_eq _ _ hstop (by omega), helements, elementsFrom, List.drop_zero]
  rfl

end Spinet.Table
