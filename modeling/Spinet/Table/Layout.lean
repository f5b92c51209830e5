import Spinet.Library.Probing
import Spinet.Table.RobinHash

/-!
# How a table is laid out

What holds of a table between two operations. The buckets are a ring of `mask + 1` positions, a
power of two, so that the masks of `bucket_for_hash` and of `next_bucket` are remainders; every
value stands as many buckets after its ideal one as its distance says (`Placed`); and the distances
are ordered (`Layout`), but for one bucket during an erasure (`Holed`).

`Carried` is what holds of a value on its way to a bucket: it may take a bucket whose value is not
farther from its ideal one (`Carried.place`), and what it takes the place of goes on in the same way
(`Carried.swap`).
-/

namespace Spinet.Table

open Probing

variable {K V : Type} {T : Traits K V} {t t' : RobinHash V} {b : Bucket V} {i j p q d h : ℕ} {v : V}

namespace Bucket

/-- A distance is `-1` at least. -/
theorem neg_one_le_dist (b : Bucket V) : -1 ≤ b.dist := by
  cases b <;> simp only [dist] <;> omega

/-- The distance tells an empty bucket from a full one. -/
theorem dist_eq_neg_one : b.dist = -1 ↔ b = .empty := by
  cases b with
  | empty => simp [dist]
  | full d h v => simp [dist]

/-- A bucket has a value where its distance is not negative. -/
theorem isSome_value : b.value.isSome ↔ 0 ≤ b.dist := by
  cases b <;> simp [dist, value]

end Bucket

/-- The next distance, where it fits. -/
theorem nextDistance_eq (hd : d < 32767) : nextDistance d = .ok (d + 1) := if_pos hd

namespace RobinHash

/-- The number of positions of the ring. -/
def ring (t : RobinHash V) : ℕ := t.mask + 1

/-- The distances. -/
def dist (t : RobinHash V) (i : ℕ) : ℤ := (t.bucket i).dist

/-- The values, in the order of their buckets. -/
def elements (t : RobinHash V) : List V := t.buckets.filterMap Bucket.value

/-- A ring is not empty. -/
theorem ring_pos : 0 < t.ring := Nat.succ_pos _

/-- Outside of the array there is no value. -/
theorem lt_of_full (hb : t.bucket i = .full d h v) : i < t.buckets.length := by
  by_contra hi
  rw [bucket, List.getD_eq_getElem?_getD, List.getElem?_eq_none (by omega)] at hb
  cases hb

/-- The bucket at a position of the array. -/
theorem bucket_eq_getElem (hi : i < t.buckets.length) : t.bucket i = t.buckets[i] := by
  rw [bucket, List.getD_eq_getElem?_getD, List.getElem?_eq_getElem hi, Option.getD_some]

/-- A bucket after one has been written. -/
theorem bucket_setBucket (hi : i < t.buckets.length) :
    (t.setBucket i b).bucket j = if j = i then b else t.bucket j := by
  unfold bucket setBucket
  rw [List.getD_eq_getElem?_getD, List.getElem?_set]
  by_cases hij : i = j
  · subst hij
    simp [hi]
  · rw [if_neg hij, if_neg (Ne.symm hij), List.getD_eq_getElem?_getD]

/-- The distances after a bucket has been written. -/
theorem dist_setBucket (hi : i < t.buckets.length) :
    (t.setBucket i b).dist = Function.update t.dist i b.dist := by
  funext j
  unfold dist
  rw [bucket_setBucket hi, Function.update_apply]
  split <;> rfl

/-- The values after a bucket has been written: the old one goes and the new one comes. -/
theorem elements_setBucket (hi : i < t.buckets.length) (b : Bucket V) :
    ((t.bucket i).value.toList ++ (t.setBucket i b).elements).Perm
      (b.value.toList ++ t.elements) := by
  rw [bucket_eq_getElem hi]
  exact perm_filterMap_set hi b

/-- A value is in a bucket. -/
theorem mem_elements : v ∈ t.elements ↔ ∃ i d h, t.bucket i = .full d h v := by
  unfold elements
  rw [List.mem_filterMap]
  constructor
  · rintro ⟨b, hb, hv⟩
    obtain ⟨i, hi, rfl⟩ := List.getElem_of_mem hb
    rw [← bucket_eq_getElem hi] at hv
    cases hbi : t.bucket i with
    | empty => rw [hbi] at hv; cases hv
    | full d h w =>
      rw [hbi] at hv
      cases hv
      exact ⟨i, d, h, hbi⟩
  · rintro ⟨i, d, h, hb⟩
    have hi := lt_of_full hb
    refine ⟨t.bucket i, ?_, by rw [hb]; rfl⟩
    rw [bucket_eq_getElem hi]
    exact List.getElem_mem hi

/-- The other members of two tables are the same, but for `m_grow_on_next_insert`. -/
structure SameShape (t t' : RobinHash V) : Prop where
  /-- The ring has the same positions. -/
  mask : t'.mask = t.mask
  /-- There are as many buckets. -/
  length : t'.buckets.length = t.buckets.length
  /-- `m_nb_elements`. -/
  nbElements : t'.nbElements = t.nbElements
  /-- `m_load_threshold`. -/
  loadThreshold : t'.loadThreshold = t.loadThreshold
  /-- `m_try_shrink_on_next_insert`. -/
  tryShrink : t'.tryShrinkOnNextInsert = t.tryShrinkOnNextInsert

/-- A table has its own shape. -/
theorem SameShape.refl (t : RobinHash V) : SameShape t t := ⟨rfl, rfl, rfl, rfl, rfl⟩

/-- The shape is kept by one step after another. -/
theorem SameShape.trans {t'' : RobinHash V} (h : SameShape t t') (h' : SameShape t' t'') :
    SameShape t t'' :=
  ⟨h'.mask.trans h.mask, h'.length.trans h.length, h'.nbElements.trans h.nbElements,
    h'.loadThreshold.trans h.loadThreshold, h'.tryShrink.trans h.tryShrink⟩

/-- Writing a bucket keeps the shape. -/
theorem sameShape_setBucket : SameShape t (t.setBucket i b) :=
  ⟨rfl, by simp [setBucket], rfl, rfl, rfl⟩

end RobinHash

open RobinHash

/-- The ring of a table is a power of two, and every value is where its hash and its distance say.
-/
structure Placed (T : Traits K V) (t : RobinHash V) : Prop where
  /-- The number of positions is a power of two. -/
  pow : ∃ k, t.ring = 2 ^ k
  /-- There is a bucket for each position, or none at all and one position. -/
  length : t.buckets.length = t.ring ∨ t.buckets = [] ∧ t.ring = 1
  /-- A value stands its distance after its ideal bucket, with its truncated hash. -/
  placed : ∀ i d h v, t.bucket i = .full d h v →
    walk t.ring (T.hash (T.key v)) d = i ∧ h = T.truncateHash (T.hash (T.key v))

/-- A table between two operations. -/
structure Layout (T : Traits K V) (t : RobinHash V) : Prop extends Placed T t where
  /-- The distances are ordered. -/
  ordered : Ordered t.ring t.dist

/-- A table during an erasure: position `p` is empty, and the distances are ordered but there. -/
structure Holed (T : Traits K V) (t : RobinHash V) (p : ℕ) : Prop extends Placed T t where
  /-- The order of the distances. -/
  hole : Hole t.ring t.dist p

/-- A value on its way to a bucket, which has come to position `i` with distance `d`. -/
structure Carried (T : Traits K V) (t : RobinHash V) (i d h : ℕ) (v : V) : Prop where
  /-- It is on the ring. -/
  lt : i < t.ring
  /-- It has made as many steps as its distance says. -/
  ideal : walk t.ring (T.hash (T.key v)) d = i
  /-- It has its truncated hash. -/
  hash : h = T.truncateHash (T.hash (T.key v))
  /-- It is not too far for the bucket before. -/
  prev : ∀ j < t.ring, walk t.ring j 1 = i → d ≤ t.dist j + 1

namespace Placed

/-- A mask is a remainder. -/
theorem and_mask (hp : Placed T t) (x : ℕ) : x &&& t.mask = x % t.ring := by
  obtain ⟨k, hk⟩ := hp.pow
  have hmask : t.mask = 2 ^ k - 1 := by
    rw [← hk]
    rfl
  rw [hmask, Nat.and_two_pow_sub_one_eq_mod, hk]

/-- `bucket_for_hash` is the start of a walk. -/
theorem bucketForHash (hp : Placed T t) (hash : ℕ) : t.bucketForHash hash = walk t.ring hash 0 :=
  hp.and_mask hash

/-- `next_bucket` is a step of a walk. -/
theorem nextBucket (hp : Placed T t) (i : ℕ) : t.nextBucket i = walk t.ring i 1 :=
  hp.and_mask (i + 1)

/-- A position of the ring with a value is one of the array, and if there is one, then all are. -/
theorem length_eq_ring (hp : Placed T t) (hb : t.bucket i = .full d h v) :
    t.buckets.length = t.ring := by
  rcases hp.length with hlen | ⟨hnil, -⟩
  · exact hlen
  · have := lt_of_full hb
    rw [hnil] at this
    exact absurd this (by simp)

/-- The number of values, as a number of positions. -/
theorem length_elements (hp : Placed T t) :
    t.elements.length = ((Finset.range t.ring).filter fun i => 0 ≤ t.dist i).card := by
  have hcard : t.elements.length =
      ((Finset.range t.buckets.length).filter fun i => 0 ≤ t.dist i).card := by
    unfold elements
    rw [length_filterMap_eq_card .empty]
    congr 1
    refine Finset.filter_congr fun i _ => ?_
    exact Bucket.isSome_value
  rcases hp.length with hlen | ⟨hnil, hring⟩
  · rw [hcard, hlen]
  · have hneg : ∀ i ∈ Finset.range t.ring, ¬ 0 ≤ t.dist i := by
      intro i _
      simp [RobinHash.dist, bucket, hnil, Bucket.dist]
    rw [Finset.filter_false_of_mem hneg]
    simp [elements, hnil]

/-- A bucket is written with a value that belongs there, or emptied. -/
theorem set (hp : Placed T t) (hi : i < t.buckets.length)
    (hb : ∀ d h v, b = .full d h v →
      walk t.ring (T.hash (T.key v)) d = i ∧ h = T.truncateHash (T.hash (T.key v))) :
    Placed T (t.setBucket i b) := by
  refine ⟨hp.pow, ?_, fun j d h v hj => ?_⟩
  · rcases hp.length with hlen | ⟨hnil, -⟩
    · exact .inl ((sameShape_setBucket (t := t) (i := i) (b := b)).length.trans hlen)
    · rw [hnil] at hi
      exact absurd hi (by simp)
  · rw [bucket_setBucket hi] at hj
    split at hj
    · rename_i hji
      rw [hji]
      exact hb d h v hj
    · exact hp.placed j d h v hj

end Placed

/-- Where some position is empty, every distance is less than the number of values. -/
theorem Layout.dist_lt (hl : Layout T t) (hqm : q < t.ring) (hq : t.dist q = -1)
    (hb : t.bucket i = .full d h v) : d < t.elements.length := by
  have hi : i < t.ring := by
    rw [← (hl.placed i d h v hb).1]
    exact walk_lt ring_pos
  have hlt := hl.ordered.dist_lt_card hqm (by omega) hi
  rw [← hl.length_elements] at hlt
  simp only [RobinHash.dist, hb, Bucket.dist] at hlt
  omega

namespace Carried

/-- The value takes a bucket that is empty, or whose value is not farther from its ideal one. -/
theorem place (hc : Carried T t i d h v) (hl : Layout T t) (hi : i < t.buckets.length)
    (hle : t.dist i ≤ d) : Layout T (t.setBucket i (.full d h v)) := by
  refine ⟨hl.toPlaced.set hi ?_, ?_⟩
  · rintro d' h' v' ⟨⟩
    exact ⟨hc.ideal, hc.hash⟩
  · rw [dist_setBucket hi]
    exact hl.ordered.update hle hc.prev

/-- A value goes on past a bucket whose value is as far from its ideal one. -/
theorem step (hc : Carried T t i d h v) {d' h' : ℕ} {v' : V} (hb : t.bucket i = .full d' h' v')
    (hle : d ≤ d') : Carried T t (walk t.ring i 1) (d + 1) h v := by
  refine ⟨walk_lt ring_pos, ?_, hc.hash, fun j hj hnext => ?_⟩
  · rw [← walk_walk, hc.ideal]
  · obtain rfl := walk_one_cancel hj hc.lt hnext
    simp only [RobinHash.dist, hb, Bucket.dist]
    omega

/-- The value that another one takes the place of goes on. -/
theorem swap (hc : Carried T t i d h v) (hl : Layout T t) {d' h' : ℕ} {v' : V}
    (hb : t.bucket i = .full d' h' v') (hle : d' ≤ d) :
    Carried T (t.setBucket i (.full d h v)) (walk t.ring i 1) (d' + 1) h' v' := by
  obtain ⟨hideal, hhash⟩ := hl.placed i d' h' v' hb
  refine ⟨walk_lt ring_pos, ?_, hhash, fun j hj hnext => ?_⟩
  · rw [← walk_walk]
    exact congrArg (walk t.ring · 1) hideal
  · obtain rfl := walk_one_cancel hj hc.lt hnext
    rw [dist_setBucket (lt_of_full hb), Function.update_self]
    simp only [Bucket.dist]
    omega

end Carried

/-- Two tables have the same buckets; their counters and flags may differ. -/
structure SameBuckets (t t' : RobinHash V) : Prop where
  /-- `m_buckets_data`. -/
  buckets : t'.buckets = t.buckets
  /-- `m_mask`. -/
  mask : t'.mask = t.mask

namespace SameBuckets

/-- They have the same positions. -/
theorem ring (hs : SameBuckets t t') : t'.ring = t.ring := by
  unfold RobinHash.ring
  rw [hs.mask]

/-- They have the same buckets one by one. -/
theorem bucket (hs : SameBuckets t t') (i : ℕ) : t'.bucket i = t.bucket i := by
  unfold RobinHash.bucket
  rw [hs.buckets]

/-- They have the same distances. -/
theorem dist (hs : SameBuckets t t') : t'.dist = t.dist := by
  funext i
  unfold RobinHash.dist
  rw [hs.bucket]

/-- They have the same values. -/
theorem elements (hs : SameBuckets t t') : t'.elements = t.elements := by
  unfold RobinHash.elements
  rw [hs.buckets]

/-- The layout does not depend on the counters and flags. -/
theorem layout (hs : SameBuckets t t') (hl : Layout T t) : Layout T t' := by
  refine ⟨⟨?_, ?_, fun i d h v hb => ?_⟩, ?_⟩
  · rw [hs.ring]
    exact hl.pow
  · rw [hs.buckets, hs.ring]
    exact hl.length
  · rw [hs.bucket] at hb
    rw [hs.ring]
    exact hl.placed i d h v hb
  · rw [hs.ring, hs.dist]
    exact hl.ordered

/-- Nor does it matter for a value that is carried. -/
theorem carried (hs : SameBuckets t t') (hc : Carried T t i d h v) : Carried T t' i d h v := by
  refine ⟨?_, ?_, hc.hash, ?_⟩
  · rw [hs.ring]
    exact hc.lt
  · rw [hs.ring]
    exact hc.ideal
  · rw [hs.ring, hs.dist]
    exact hc.prev

end SameBuckets

/-- To note a long probe sets a flag. -/
theorem sameBuckets_noteProbe (noteLong : Bool) (d : ℕ) (b : Bucket V) :
    SameBuckets (t.setBucket i b) ((t.noteProbe noteLong d).setBucket i b) := by
  unfold noteProbe
  split <;> exact ⟨rfl, rfl⟩

/-- And it keeps the shape. -/
theorem sameShape_noteProbe (noteLong : Bool) (d : ℕ) (b : Bucket V) :
    SameShape t ((t.noteProbe noteLong d).setBucket i b) := by
  unfold noteProbe
  split <;> exact ⟨rfl, by simp [setBucket], rfl, rfl, rfl⟩

end Spinet.Table
