import Spinet.Table.Search

/-!
# Values that take the place of others

A value that is carried to its bucket, and what it takes the place of, end in a table that is laid
out again and has one value more (`displace_spec`). At the end of `insert_impl` the new value is in
the bucket at which its search has ended, also where that has given way to it (`placeValue_spec`).
-/

namespace Spinet.Table

open Probing RobinHash

variable {K V : Type} {T : Traits K V} {t t' : RobinHash V} {i d h q : ℕ} {v : V} {key : K}

/-- A value takes an empty bucket. -/
theorem place_empty (hl : Layout T t) (hc : Carried T t i d h v) (hi : i < t.buckets.length)
    (hb : t.bucket i = .empty) :
    Layout T (t.setBucket i (.full d h v)) ∧
      (t.setBucket i (.full d h v)).elements.Perm (v :: t.elements) := by
  constructor
  · refine hc.place hl hi ?_
    simp only [RobinHash.dist, hb, Bucket.dist]
    omega
  · have helements := elements_setBucket hi (.full d h v)
    rwa [hb] at helements

/-- A value takes the bucket of one that is closer to its ideal bucket, and that one goes on. -/
theorem place_full {d' h' : ℕ} {v' : V} (hl : Layout T t) (hc : Carried T t i d h v)
    (hb : t.bucket i = .full d' h' v') (hweak : d' < d) :
    Layout T (t.setBucket i (.full d h v)) ∧
      Carried T (t.setBucket i (.full d h v)) (walk t.ring i 1) (d' + 1) h' v' ∧
      (v' :: (t.setBucket i (.full d h v)).elements).Perm (v :: t.elements) := by
  refine ⟨hc.place hl (lt_of_full hb) ?_, hc.swap hl hb hweak.le, ?_⟩
  · simp only [RobinHash.dist, hb, Bucket.dist]
    omega
  · have helements := elements_setBucket (lt_of_full hb) (.full d h v)
    rwa [hb] at helements

/-- A turn of the loop in which the value of the bucket gives way. -/
theorem displace_giveWay {d' h' fuel : ℕ} {v' : V} (hl : Layout T t)
    (hb : t.bucket i = .full d' h' v') (hweak : d' < d) (hfits : d' < 32767) (noteLong : Bool) :
    displace noteLong (fuel + 1) t i d h v =
      displace noteLong fuel ((t.noteProbe noteLong d).setBucket i (.full d h v))
        (walk t.ring i 1) (d' + 1) h' v' := by
  have hshape := sameShape_noteProbe (t := t) (i := i) noteLong d (.full d h v)
  have hnext : (t.noteProbe noteLong d).nextBucket i = walk t.ring i 1 := by
    rw [← hl.toPlaced.nextBucket]
    exact congrArg ((i + 1) &&& ·) hshape.mask
  simp only [displace, hb, if_pos hweak]
  rw [nextDistance_eq hfits, hnext]
  rfl

/-- A turn in which the value goes on past the bucket. -/
theorem displace_pass {d' h' fuel : ℕ} {v' : V} (hl : Layout T t)
    (hb : t.bucket i = .full d' h' v') (hle : d ≤ d') (hfits : d' < 32767) (noteLong : Bool) :
    displace noteLong (fuel + 1) t i d h v =
      displace noteLong fuel t (walk t.ring i 1) (d + 1) h v := by
  simp only [displace, hb, if_neg (Nat.not_lt.2 hle)]
  rw [nextDistance_eq (by omega), ← hl.toPlaced.nextBucket]
  rfl

/-- The loop of `insert_value_impl` and of `insert_value_on_rehash`, where there is an empty bucket
`g` steps on. It writes to no bucket but those on its way. -/
theorem displace_spec (noteLong : Bool) :
    ∀ (g fuel : ℕ) (t : RobinHash V) (i d h : ℕ) (v : V), Layout T t → Carried T t i d h v →
      t.buckets.length = t.ring → t.elements.length < 32767 → t.dist (walk t.ring i g) = -1 →
      g < fuel →
      ∃ t', displace noteLong fuel t i d h v = .ok t' ∧ Layout T t' ∧ SameShape t t' ∧
        t'.elements.Perm (v :: t.elements) ∧
        ∀ x, (∀ s ≤ g, walk t.ring i s ≠ x) → t'.bucket x = t.bucket x := by
  intro g
  -- By the distance to the empty bucket: a full bucket is not yet the one.
  induction g with
  | zero =>
    intro fuel t i d h v hl hc hlen _ hq hfuel
    obtain ⟨fuel, rfl⟩ : ∃ n, fuel = n + 1 := ⟨fuel - 1, by omega⟩
    rw [walk_zero hc.lt] at hq
    have hb := Bucket.dist_eq_neg_one.1 hq
    have hi : i < t.buckets.length := by
      rw [hlen]
      exact hc.lt
    obtain ⟨hplace, hperm⟩ := place_empty hl hc hi hb
    refine ⟨t.setBucket i (.full d h v), by simp only [displace, hb], hplace, sameShape_setBucket,
      hperm, fun x hx => ?_⟩
    have hne := hx 0 (Nat.le_refl _)
    rw [walk_zero hc.lt] at hne
    rw [bucket_setBucket hi, if_neg hne.symm]
  | succ g ih =>
    intro fuel t i d h v hl hc hlen hsize hq hfuel
    obtain ⟨fuel, rfl⟩ : ∃ n, fuel = n + 1 := ⟨fuel - 1, by omega⟩
    have hi : i < t.buckets.length := by
      rw [hlen]
      exact hc.lt
    have hnext : walk t.ring i (g + 1) = walk t.ring (walk t.ring i 1) g := by
      rw [walk_walk, Nat.add_comm]
    -- What the rest of the loop leaves alone, it leaves alone altogether.
    have hrest : ∀ x, (∀ s ≤ g + 1, walk t.ring i s ≠ x) →
        ∀ s ≤ g, walk t.ring (walk t.ring i 1) s ≠ x := by
      intro x hx s hs
      rw [walk_walk, Nat.add_comm]
      exact hx (s + 1) (by omega)
    cases hb : t.bucket i with
    | empty =>
      obtain ⟨hplace, hperm⟩ := place_empty hl hc hi hb
      refine ⟨t.setBucket i (.full d h v), by simp only [displace, hb], hplace,
        sameShape_setBucket, hperm, fun x hx => ?_⟩
      have hne := hx 0 (by omega)
      rw [walk_zero hc.lt] at hne
      rw [bucket_setBucket hi, if_neg hne.symm]
    | full d' h' v' =>
      have hfits : d' < 32767 := (hl.dist_lt (walk_lt ring_pos) hq hb).trans hsize
      by_cases hweak : d' < d
      · obtain ⟨hplace, hswap, hvalues⟩ := place_full hl hc hb hweak
        have hcount := hvalues.length_eq
        simp only [List.length_cons] at hcount
        have hempty : (t.setBucket i (.full d h v)).dist (walk t.ring i (g + 1)) = -1 := by
          rw [dist_setBucket hi, Function.update_of_ne, hq]
          intro hself
          rw [hself] at hq
          simp only [RobinHash.dist, hb, Bucket.dist] at hq
          omega
        -- The note of a long probe changes no bucket.
        have hsame := sameBuckets_noteProbe (t := t) (i := i) noteLong d (.full d h v)
        have hshape := sameShape_noteProbe (t := t) (i := i) noteLong d (.full d h v)
        have hstep : displace noteLong (fuel + 1) t i d h v =
            displace noteLong fuel ((t.noteProbe noteLong d).setBucket i (.full d h v))
              (walk t.ring i 1) (d' + 1) h' v' :=
          displace_giveWay hl hb hweak hfits noteLong
        generalize (t.noteProbe noteLong d).setBucket i (.full d h v) = t₁ at hsame hshape hstep
        have hring : t₁.ring = t.ring := hsame.ring
        obtain ⟨t', ht', hl', hs', hperm, hframe⟩ := ih fuel t₁ (walk t.ring i 1) (d' + 1) h' v'
          (hsame.layout hplace) (hsame.carried hswap) (by rw [hshape.length, hring, hlen])
          (by rw [hsame.elements]; omega) (by rw [hring, ← hnext, hsame.dist]; exact hempty)
          (by omega)
        refine ⟨t', hstep.trans ht', hl', hshape.trans hs', ?_, fun x hx => ?_⟩
        · rw [hsame.elements] at hperm
          exact hperm.trans hvalues
        · rw [hframe x (by rw [hring]; exact hrest x hx), hsame.bucket, bucket_setBucket hi]
          have hne := hx 0 (by omega)
          rw [walk_zero hc.lt] at hne
          rw [if_neg hne.symm]
      · have hle : d ≤ d' := Nat.le_of_not_lt hweak
        obtain ⟨t', ht', hl', hs', hperm, hframe⟩ := ih fuel t (walk t.ring i 1) (d + 1) h v hl
          (hc.step hb hle) hlen hsize (by rw [← hnext]; exact hq) (by omega)
        exact ⟨t', (displace_pass hl hb hle hfits noteLong).trans ht', hl', hs', hperm,
          fun x hx => hframe x (hrest x hx)⟩

/-- A search that has ended may leave its value where it is. -/
theorem Passed.carried (hp : Passed T t (T.key v) d) :
    Carried T t (walk t.ring (T.hash (T.key v)) d) d (T.truncateHash (T.hash (T.key v))) v := by
  refine ⟨walk_lt ring_pos, rfl, rfl, fun j hj hnext => ?_⟩
  cases d with
  | zero =>
    have := (t.bucket j).neg_one_le_dist
    unfold RobinHash.dist
    omega
  | succ d =>
    rw [← walk_walk] at hnext
    obtain rfl := walk_one_cancel hj (walk_lt ring_pos) hnext
    have := (hp d (Nat.lt_succ_self _)).1
    omega

/-- The end of `insert_impl`: the value is in the bucket at which its search has ended, whatever had
to give way. -/
theorem placeValue_spec (hl : Layout T t) (hlen : t.buckets.length = t.ring)
    (hsize : t.elements.length < 32767) (hqm : q < t.ring) (hq : t.dist q = -1)
    (hp : Passed T t (T.key v) d) (hstop : t.dist (walk t.ring (T.hash (T.key v)) d) < d) :
    ∃ t', t.placeValue (walk t.ring (T.hash (T.key v)) d) d (T.truncateHash (T.hash (T.key v))) v =
        .ok t' ∧ Layout T t' ∧ SameShape t t' ∧ t'.elements.Perm (v :: t.elements) ∧
      (t'.bucket (walk t.ring (T.hash (T.key v)) d)).value = some v := by
  have hc := hp.carried
  generalize walk t.ring (T.hash (T.key v)) d = i at hc hstop ⊢
  generalize T.truncateHash (T.hash (T.key v)) = h at hc ⊢
  have hi : i < t.buckets.length := by
    rw [hlen]
    exact hc.lt
  cases hb : t.bucket i with
  | empty =>
    obtain ⟨hplace, hperm⟩ := place_empty hl hc hi hb
    refine ⟨t.setBucket i (.full d h v), by simp only [placeValue, hb], hplace,
      sameShape_setBucket, hperm, ?_⟩
    rw [bucket_setBucket hi, if_pos rfl]
    rfl
  | full d' h' v' =>
    have hweak : d' < d := by
      simp only [RobinHash.dist, hb, Bucket.dist] at hstop
      omega
    have hlt : d' < t.elements.length := hl.dist_lt hqm hq hb
    obtain ⟨hplace, hswap, hvalues⟩ := place_full hl hc hb hweak
    have hcount := hvalues.length_eq
    simp only [List.length_cons] at hcount
    -- The empty bucket is some steps behind the one that the value takes.
    obtain ⟨g, hgm, rfl⟩ := exists_walk hc.lt hqm
    have hg : g ≠ 0 := by
      rintro rfl
      rw [walk_zero hc.lt] at hq
      simp only [RobinHash.dist, hb, Bucket.dist] at hq
      omega
    obtain ⟨g, rfl⟩ := Nat.exists_eq_succ_of_ne_zero hg
    have hempty : (t.setBucket i (.full d h v)).dist (walk t.ring (walk t.ring i 1) g) = -1 := by
      rw [walk_walk, Nat.add_comm, dist_setBucket hi,
        Function.update_of_ne (walk_ne hc.lt (by omega) hgm), hq]
    obtain ⟨t', ht', hl', hs', hperm, hframe⟩ := displace_spec true g (t.buckets.length + 1)
      (t.setBucket i (.full d h v)) (walk t.ring i 1) (d' + 1) h' v' hplace
      hswap (sameShape_setBucket.length.trans hlen) (by omega) hempty (by omega)
    refine ⟨t', ?_, hl', sameShape_setBucket.trans hs', hperm.trans hvalues, ?_⟩
    · simp only [placeValue, insertValueImpl, hb]
      rw [nextDistance_eq (by omega), hl.toPlaced.nextBucket]
      exact ht'
    · rw [hframe i, bucket_setBucket hi, if_pos rfl]
      · rfl
      · intro s hs
        rw [show (t.setBucket i (.full d h v)).ring = t.ring from rfl, walk_walk]
        exact walk_ne hc.lt (by omega) (by omega)

end Spinet.Table
