import Spinet.Table.Displace

/-!
# Insertion

A rehash moves every value to a table with twice as many buckets (`rehashImpl_spec`), where the
stored hashes lead to the same buckets as the hashes of the keys (`bucketForHash_stored`). The
operations keep a table `Valid`, in which some position is always empty. `insertImpl_spec` is what
`insert` does: it finds the key, or throws, or puts the value into the bucket that it returns.
-/

namespace Spinet.Table

open Probing RobinHash

variable {K V : Type} {T : Traits K V} {t t' : RobinHash V} {i d h q : ℕ} {v : V} {key : K}

/-- What holds of a table between two operations. -/
structure Valid (T : Traits K V) (t : RobinHash V) : Prop extends Layout T t where
  /-- No two values have the same key. -/
  keys : (t.elements.map T.key).Nodup
  /-- `m_nb_elements` is the number of values. -/
  count : t.nbElements = t.elements.length
  /-- The load threshold is half the number of buckets. -/
  threshold : t.loadThreshold = t.buckets.length / 2
  /-- It is not exceeded. -/
  load : t.elements.length ≤ t.loadThreshold

/-- A new table is valid. -/
theorem valid_init (T : Traits K V) : Valid T (RobinHash.init V) := by
  refine ⟨⟨⟨⟨0, rfl⟩, .inr ⟨rfl, rfl⟩, fun i d h v hb => ?_⟩, fun i _ => ?_⟩, ?_, rfl, ?_, ?_⟩
  · simp [bucket, init] at hb
  · simp [RobinHash.dist, bucket, init, Bucket.dist]
  · simp [elements, init]
  · simp [init]
  · simp [elements, init]

/-- Some position of the ring is empty. -/
theorem Valid.vacant (hv : Valid T t) : ∃ q < t.ring, t.dist q = -1 := by
  rcases hv.length with hlen | ⟨hnil, -⟩
  · have hload := hv.load
    rw [hv.threshold, hlen] at hload
    have hpos : 0 < t.ring := ring_pos
    have hlt : (t.buckets.filterMap Bucket.value).length < t.buckets.length := by
      rw [hlen]
      exact (show t.elements.length < t.ring by omega)
    obtain ⟨i, hi, hnone⟩ := exists_vacant hlt
    refine ⟨i, by rw [← hlen]; exact hi, ?_⟩
    rw [RobinHash.dist, bucket_eq_getElem hi]
    cases hb : t.buckets[i] with
    | empty => rfl
    | full d h v => rw [hb] at hnone; cases hnone
  · exact ⟨0, ring_pos, by simp [RobinHash.dist, bucket, hnil, Bucket.dist]⟩

/-! ## Rehashing -/

/-- Powers of two are recognised. -/
theorem isPowerOfTwo_two_pow (k : ℕ) : isPowerOfTwo (2 ^ k) = true := by
  unfold isPowerOfTwo
  rw [Nat.and_two_pow_sub_one_eq_mod, Nat.mod_self]
  simp

/-- The constructor throws, or makes an empty table of the size asked for, if that is a power of
two. -/
theorem construct_spec (T : Traits K V) (k : ℕ) :
    (∃ what, construct T (2 ^ k) = .error (.lengthError what)) ∨
      ∃ new, construct T (2 ^ k) = .ok new ∧ Layout T new ∧ new.buckets.length = 2 ^ k ∧
        new.ring = 2 ^ k ∧ new.elements = [] ∧ new.loadThreshold = 2 ^ k / 2 := by
  have hpos : 0 < 2 ^ k := Nat.two_pow_pos k
  unfold construct
  split
  · exact .inl ⟨_, rfl⟩
  simp only [roundUpToPowerOfTwo, isPowerOfTwo_two_pow, ↓reduceIte]
  split
  · exact .inl ⟨_, rfl⟩
  have hempty : ∀ i, (List.replicate (2 ^ k) (Bucket.empty : Bucket V)).getD i .empty =
      .empty := by
    intro i
    rw [List.getD_eq_getElem?_getD, List.getElem?_replicate]
    split <;> rfl
  have hring : 2 ^ k - 1 + 1 = 2 ^ k := by omega
  refine .inr ⟨_, rfl, ⟨⟨⟨k, hring⟩, .inl ?_, fun i d h v hb => ?_⟩, fun i _ => ?_⟩, ?_, hring, ?_,
    rfl⟩
  · simp [ring, hring]
  · simp only [bucket, hempty] at hb
    cases hb
  · simp only [RobinHash.dist, bucket, hempty, Bucket.dist]
    omega
  · simp
  · simp [elements, List.filterMap_replicate, Bucket.value]

/-- Where the stored hash is used, it leads to the same bucket as the hash. -/
theorem bucketForHash_stored (hp : Placed T t)
    (huse : T.useStoredHashOnRehash t.ring = true) (hash : ℕ) :
    t.bucketForHash (T.truncateHash hash) = t.bucketForHash hash := by
  simp only [Traits.useStoredHashOnRehash, Bool.and_eq_true, decide_eq_true_eq] at huse
  obtain ⟨k, hk⟩ := hp.pow
  have hle : 2 ^ k ≤ 2 ^ 32 := by
    rw [← hk]
    have := huse.2
    omega
  have hdvd : 2 ^ k ∣ 2 ^ 32 := Nat.pow_dvd_pow 2 ((Nat.pow_le_pow_iff_right (by omega)).1 hle)
  rw [hp.bucketForHash, hp.bucketForHash]
  unfold walk Traits.truncateHash
  rw [if_pos huse.1, Nat.add_zero, Nat.add_zero, hk, Nat.mod_mod_of_dvd _ hdvd]

/-- A truncated hash is not truncated any further. -/
theorem truncateHash_truncateHash (T : Traits K V) (hash : ℕ) :
    T.truncateHash (T.truncateHash hash) = T.truncateHash hash := by
  unfold Traits.truncateHash
  split
  · rw [Nat.mod_mod]
  · rfl

/-- A value of the old table goes to the new one. -/
theorem rehashBucket_spec {new : RobinHash V} (hl : Layout T new)
    (hlen : new.buckets.length = new.ring) (hsize : new.elements.length < 32767)
    (hroom : new.elements.length < new.buckets.length)
    (hh : h = T.truncateHash (T.hash (T.key v))) :
    ∃ new', rehashBucket T new (.full d h v) = .ok new' ∧ Layout T new' ∧ SameShape new new' ∧
      new'.elements.Perm (v :: new.elements) := by
  obtain ⟨q, hq, hnone⟩ := exists_vacant hroom
  have hvacant : new.dist q = -1 := by
    rw [RobinHash.dist, bucket_eq_getElem hq]
    cases hb : new.buckets[q] with
    | empty => rfl
    | full d h v => rw [hb] at hnone; cases hnone
  -- Both hashes give the ideal bucket, and both are truncated to what is stored.
  have hhash : rehashBucket T new (.full d h v) = new.insertValueOnRehash
      (walk new.ring (T.hash (T.key v)) 0) 0 (T.truncateHash (T.hash (T.key v))) v := by
    simp only [rehashBucket]
    by_cases huse : T.useStoredHashOnRehash new.buckets.length = true
    · rw [if_pos huse, hh, bucketForHash_stored hl.toPlaced (by rw [← hlen]; exact huse),
        truncateHash_truncateHash, hl.toPlaced.bucketForHash]
    · rw [if_neg huse, hl.toPlaced.bucketForHash]
  have hc := Passed.carried (T := T) (t := new) (v := v) (d := 0) fun j hj => absurd hj (by omega)
  obtain ⟨g, hgm, hwalk⟩ := exists_walk hc.lt (hlen ▸ hq)
  obtain ⟨new', hnew', hl', hs', hperm, -⟩ := displace_spec false g (new.buckets.length + 1) new
    _ 0 _ v hl hc hlen hsize (by rw [hwalk, hvacant]) (by omega)
  exact ⟨new', hhash.trans hnew', hl', hs', hperm⟩

/-- The loop of `rehash_impl` moves the values of the buckets that it comes to. -/
theorem foldlM_rehashBucket : ∀ (bs : List (Bucket V)) (new : RobinHash V), Layout T new →
    new.buckets.length = new.ring →
    (∀ d h v, .full d h v ∈ bs → h = T.truncateHash (T.hash (T.key v))) →
    (bs.filterMap Bucket.value).length + new.elements.length ≤ 32767 →
    (bs.filterMap Bucket.value).length + new.elements.length ≤ new.buckets.length →
    ∃ new', bs.foldlM (rehashBucket T) new = .ok new' ∧ Layout T new' ∧ SameShape new new' ∧
      new'.elements.Perm (bs.filterMap Bucket.value ++ new.elements) := by
  intro bs
  induction bs with
  | nil =>
    intro new hl _ _ _ _
    exact ⟨new, rfl, hl, SameShape.refl new, List.Perm.refl _⟩
  | cons b bs ih =>
    intro new hl hlen hh hsize hroom
    have hh' : ∀ d h v, .full d h v ∈ bs → h = T.truncateHash (T.hash (T.key v)) :=
      fun d h v hmem => hh d h v (List.mem_cons_of_mem _ hmem)
    cases b with
    | empty => exact ih new hl hlen hh' hsize hroom
    | full d h v =>
      simp only [List.filterMap_cons, Bucket.value, List.length_cons] at hsize hroom
      obtain ⟨new₁, hnew₁, hl₁, hs₁, hperm₁⟩ := rehashBucket_spec (d := d) hl hlen (by omega)
        (by omega) (hh d h v List.mem_cons_self)
      have hlength := hperm₁.length_eq
      rw [List.length_cons] at hlength
      obtain ⟨new₂, hnew₂, hl₂, hs₂, hperm₂⟩ := ih new₁ hl₁
        (hs₁.length.trans (hlen.trans (congrArg (· + 1) hs₁.mask.symm))) hh' (by omega)
        (by rw [hs₁.length]; omega)
      refine ⟨new₂, ?_, hl₂, hs₁.trans hs₂, ?_⟩
      · rw [List.foldlM_cons, hnew₁]
        exact hnew₂
      · simp only [List.filterMap_cons, Bucket.value, List.cons_append]
        exact hperm₂.trans ((hperm₁.append_left _).trans List.perm_middle)

/-- A rehash throws, or moves the values to a table of the size asked for. -/
theorem rehashImpl_spec (hv : Valid T t) (hsize : t.elements.length ≤ 32767) {k : ℕ}
    (hk : t.elements.length ≤ 2 ^ k) :
    (∃ what, t.rehashImpl T (2 ^ k) = .error (.lengthError what)) ∨
      ∃ t', t.rehashImpl T (2 ^ k) = .ok t' ∧ Layout T t' ∧ t'.buckets.length = 2 ^ k ∧
        t'.ring = 2 ^ k ∧ t'.elements.Perm t.elements ∧ t'.loadThreshold = 2 ^ k / 2 ∧
        t'.nbElements = t.nbElements := by
  unfold rehashImpl
  rcases construct_spec T k with ⟨what, hthrow⟩ | ⟨new, hnew, hl, hlen, hring, hnil, hload⟩
  · exact .inl ⟨what, by rw [hthrow]; rfl⟩
  have hh : ∀ d h v, .full d h v ∈ t.buckets → h = T.truncateHash (T.hash (T.key v)) := by
    intro d h v hmem
    obtain ⟨i, hi, hb⟩ := List.getElem_of_mem hmem
    rw [← bucket_eq_getElem hi] at hb
    exact (hv.placed i d h v hb).2
  obtain ⟨new', hnew', hl', hs', hperm⟩ := foldlM_rehashBucket t.buckets new hl
    (hlen.trans hring.symm) hh (by rw [hnil]; exact hsize) (by rw [hnil, hlen]; exact hk)
  rw [hnil, List.append_nil] at hperm
  have hsame : SameBuckets new' { new' with nbElements := t.nbElements } := ⟨rfl, rfl⟩
  refine .inr ⟨{ new' with nbElements := t.nbElements }, ?_, hsame.layout hl',
    hs'.length.trans hlen, (congrArg (· + 1) hs'.mask).trans hring, hperm,
    hs'.loadThreshold.trans hload, rfl⟩
  rw [hnew]
  simp only [bind, Except.bind]
  rw [hnew']
  rfl

/-- `rehash_on_extreme_load` throws, or leaves a table with the same values and room for one more;
without a rehash the buckets are the same. -/
theorem rehashOnExtremeLoad_spec (hv : Valid T t) (hsize : t.elements.length ≤ 32767) :
    (∃ what, t.rehashOnExtremeLoad T = .error (.lengthError what)) ∨
      ∃ t' rehashed, t.rehashOnExtremeLoad T = .ok (t', rehashed) ∧ Valid T t' ∧
        t'.elements.Perm t.elements ∧ t'.elements.length < t'.loadThreshold ∧
        t'.buckets.length = t'.ring ∧ (rehashed = false → SameBuckets t t') := by
  unfold rehashOnExtremeLoad
  split
  · -- The table grows.
    unfold nextBucketCount
    split
    · exact .inl ⟨_, rfl⟩
    obtain ⟨k, hk⟩ := hv.pow
    have hload := hv.load
    have hcount : (t.mask + 1) * growthFactor = 2 ^ (k + 1) := by
      rw [Nat.pow_succ, ← hk]
      rfl
    have hlength : t.buckets.length ≤ 2 ^ k := by
      rcases hv.length with hlen | ⟨hnil, -⟩
      · omega
      · simp [hnil]
    have hpos : 0 < 2 ^ k := Nat.two_pow_pos k
    rw [hv.threshold] at hload
    have hpow : 2 ^ (k + 1) = 2 ^ k * 2 := Nat.pow_succ ..
    rcases rehashImpl_spec (k := k + 1) hv hsize (by omega) with ⟨what, hthrow⟩ |
      ⟨t', ht', hl', hlen', hring', hperm, hload', hnb'⟩
    · exact .inl ⟨what, by simp only [bind, Except.bind, hcount, hthrow]⟩
    · have hsame : SameBuckets t' { t' with growOnNextInsert := false } := ⟨rfl, rfl⟩
      refine .inr ⟨_, true, by simp only [bind, Except.bind, hcount, ht']; rfl,
        ⟨hsame.layout hl', ?_, ?_, ?_, ?_⟩, hperm, ?_, hlen'.trans hring'.symm, nofun⟩
      · exact (hperm.map T.key).nodup_iff.2 hv.keys
      · exact hnb'.trans (hv.count.trans hperm.length_eq.symm)
      · exact hload'.trans (congrArg (· / 2) hlen'.symm)
      · show t'.elements.length ≤ t'.loadThreshold
        rw [hperm.length_eq, hload']
        omega
      · show t'.elements.length < t'.loadThreshold
        rw [hperm.length_eq, hload']
        omega
  · -- There is room.
    rename_i hroom
    simp only [Bool.or_eq_true, decide_eq_true_eq, not_or, Nat.not_le] at hroom
    have hlt := hroom.2
    rw [hv.count] at hlt
    have hsame : SameBuckets t { t with tryShrinkOnNextInsert := false } := ⟨rfl, rfl⟩
    refine .inr ⟨_, false, rfl, ⟨hsame.layout hv.toLayout, hv.keys, hv.count, hv.threshold,
      hv.load⟩, List.Perm.refl _, hlt, ?_, fun _ => hsame⟩
    rcases hv.length with hlen | ⟨hnil, -⟩
    · exact hlen
    · have hthreshold := hv.threshold
      rw [hnil, List.length_nil] at hthreshold
      omega

/-! ## `insert` -/

/-- `insert` finds a value with the same key and changes nothing; or there is none, and it throws,
or the table has the new value as well, in the bucket that is returned. -/
theorem insertImpl_spec [DecidableEq K] (hv : Valid T t) (hsize : t.elements.length < 32767)
    (v : V) :
    (∃ i d h w, t.insertImpl T v = .ok (t, i, false) ∧ t.bucket i = .full d h w ∧
      T.key w = T.key v) ∨
    ((∀ w ∈ t.elements, T.key w ≠ T.key v) ∧
      ((∃ what, t.insertImpl T v = .error (.lengthError what)) ∨
        ∃ t' i, t.insertImpl T v = .ok (t', i, true) ∧ Valid T t' ∧
          t'.elements.Perm (v :: t.elements) ∧ (t'.bucket i).value = some v)) := by
  obtain ⟨q, hqm, hq⟩ := hv.vacant
  unfold insertImpl
  rcases probe_ideal hv.toLayout hsize.le hqm hq (T.key v) with ⟨i, d, h, w, hprobe, hb, hkey⟩ |
    ⟨d, hprobe, hstop, hp⟩
  · exact .inl ⟨i, d, h, w, by simp only [hprobe]; rfl, hb, hkey⟩
  have hnone := hp.key_not_mem hv.toLayout hstop
  refine .inr ⟨hnone, ?_⟩
  rcases rehashOnExtremeLoad_spec hv hsize.le with ⟨what, hthrow⟩ |
    ⟨t₁, rehashed, ht₁, hv₁, hperm₁, hroom, hlen₁, hsame⟩
  · exact .inl ⟨what, by simp only [hprobe, bind, Except.bind, hthrow]⟩
  -- Where the search for the key in the new table ends.
  have hsize₁ : t₁.elements.length < 32767 := by
    rw [hperm₁.length_eq]
    exact hsize
  have hnone₁ : ∀ w ∈ t₁.elements, T.key w ≠ T.key v := fun w hw =>
    hnone w (hperm₁.mem_iff.1 hw)
  obtain ⟨q₁, hqm₁, hq₁⟩ := hv₁.vacant
  obtain ⟨d₁, hskip, hstop₁, hp₁⟩ : ∃ d₁,
      t₁.searchAgain rehashed (T.hash (T.key v)) (walk t.ring (T.hash (T.key v)) d) d =
        .ok (walk t₁.ring (T.hash (T.key v)) d₁, d₁) ∧
      t₁.dist (walk t₁.ring (T.hash (T.key v)) d₁) < d₁ ∧ Passed T t₁ (T.key v) d₁ := by
    cases rehashed with
    | true => exact skip_ideal hv₁.toLayout hsize₁.le hqm₁ hq₁ hnone₁
    | false =>
      have hsame := hsame rfl
      refine ⟨d, by rw [hsame.ring]; rfl, by rw [hsame.ring, hsame.dist]; exact hstop,
        fun j hj => ?_⟩
      rw [hsame.ring, hsame.dist, hsame.bucket]
      exact hp j hj
  obtain ⟨t₂, ht₂, hl₂, hs₂, hperm₂, hvalue⟩ := placeValue_spec hv₁.toLayout hlen₁ hsize₁ hqm₁ hq₁
    hp₁ hstop₁
  have hsame₂ : SameBuckets t₂ { t₂ with nbElements := t₂.nbElements + 1 } := ⟨rfl, rfl⟩
  have hlength := hperm₂.length_eq
  rw [List.length_cons] at hlength
  refine .inr ⟨{ t₂ with nbElements := t₂.nbElements + 1 }, _, ?_,
    ⟨hsame₂.layout hl₂, ?_, ?_, ?_, ?_⟩, hperm₂.trans (hperm₁.cons v), hvalue⟩
  · simp only [hprobe, bind, Except.bind, ht₁, hskip, ht₂]
    rfl
  · have hmap : (t₂.elements.map T.key).Perm (T.key v :: t₁.elements.map T.key) := hperm₂.map T.key
    refine hmap.nodup_iff.2 (List.nodup_cons.2 ⟨?_, hv₁.keys⟩)
    intro hmem
    obtain ⟨w, hw, hkey⟩ := List.mem_map.1 hmem
    exact hnone₁ w hw hkey
  · show t₂.nbElements + 1 = t₂.elements.length
    rw [hlength, hs₂.nbElements, hv₁.count]
  · show t₂.loadThreshold = t₂.buckets.length / 2
    rw [hs₂.loadThreshold, hs₂.length, hv₁.threshold]
  · show t₂.elements.length ≤ t₂.loadThreshold
    rw [hlength, hs₂.loadThreshold]
    omega

end Spinet.Table
