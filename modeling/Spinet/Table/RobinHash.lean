import Mathlib.Algebra.GroupWithZero.Nat
import Mathlib.Data.Int.Basic
import Mathlib.Data.List.Basic

/-!
# The hash tables of a Runtime

`tsl::robin_hash`, on which `all_handles_` (a `robin_map`) and `all_sockets_` (a `robin_set`) are
built, with what both leave at its default: the growth policy that doubles a power of two, the
maximum load factor `0.5f`, and the minimum load factor `0.0f`. With these the load threshold of a
table of `count` buckets is exactly `count / 2`, and a table never shrinks.

A table has no bucket array at first; then `m_buckets` points to one static bucket that is empty.
A bucket has a distance from the ideal bucket of its value, which is `-1` where there is none.

The loops of the source have no bound. Here they have one, and where it is reached an operation
ends in `Fault.endless`. The source counts the distances in `std::int_least16_t`; where a distance
does not fit, an operation ends in `Fault.distance`.
-/

namespace Spinet.Table

/-- How an operation may fail. -/
inductive Fault
  /-- It throws `std::length_error`. -/
  | lengthError (what : String)
  /-- A distance leaves the range of `distance_type`. -/
  | distance
  /-- A loop does not end. -/
  | endless
deriving DecidableEq, Repr

/-- The parameters of a table of values `V` with keys `K`. -/
structure Traits (K V : Type) where
  /-- `KeySelect`. -/
  key : V → K
  /-- `Hash`, a `std::size_t`. -/
  hash : K → ℕ
  /-- `STORE_HASH`. -/
  storeHash : Bool
  /-- `m_buckets_data.max_size()`. -/
  maxSize : ℕ

/-- `bucket_entry`. -/
inductive Bucket (V : Type)
  | empty
  /-- A value with its distance and its truncated hash. -/
  | full (dist hash : ℕ) (value : V)
deriving DecidableEq, Repr

/-- A table. -/
structure RobinHash (V : Type) where
  /-- `m_buckets_data`; its length is `m_bucket_count`. -/
  buckets : List (Bucket V)
  /-- `m_mask` of the growth policy. -/
  mask : ℕ
  /-- `m_nb_elements`. -/
  nbElements : ℕ
  /-- `m_load_threshold`. -/
  loadThreshold : ℕ
  /-- `m_grow_on_next_insert`. -/
  growOnNextInsert : Bool
  /-- `m_try_shrink_on_next_insert`. -/
  tryShrinkOnNextInsert : Bool
deriving DecidableEq, Repr

variable {K V : Type}

namespace Bucket

/-- `dist_from_ideal_bucket`. -/
def dist : Bucket V → ℤ
  | .empty => -1
  | .full d _ _ => d

/-- `value`, where there is one. -/
def value : Bucket V → Option V
  | .empty => none
  | .full _ _ v => some v

end Bucket

/-- `DIST_FROM_IDEAL_BUCKET_LIMIT`. -/
def distFromIdealBucketLimit : ℕ := 4096

/-- `dist_from_ideal_bucket++` on an `std::int_least16_t`. -/
def nextDistance (dist : ℕ) : Except Fault ℕ :=
  if dist < 32767 then .ok (dist + 1) else .error .distance

/-! ## The growth policy -/

/-- `GrowthFactor`. -/
def growthFactor : ℕ := 2

/-- `power_of_two_growth_policy::max_bucket_count`. -/
def maxPolicyCount : ℕ := (2 ^ 64 - 1) / 2 + 1

/-- `is_power_of_two`. -/
def isPowerOfTwo (value : ℕ) : Bool := value != 0 && value &&& (value - 1) == 0

/-- `round_up_to_power_of_two`. -/
def roundUpToPowerOfTwo (value : ℕ) : ℕ :=
  if isPowerOfTwo value then value
  else if value = 0 then 1
  else [1, 2, 4, 8, 16, 32].foldl (fun value i => value ||| (value >>> i)) (value - 1) + 1

/-- `max_bucket_count` of the table. -/
def Traits.maxBucketCount (T : Traits K V) : ℕ := min maxPolicyCount T.maxSize

/-- `truncate_hash`, and `0` where hashes are not stored. -/
def Traits.truncateHash (T : Traits K V) (hash : ℕ) : ℕ := if T.storeHash then hash % 2 ^ 32 else 0

/-- `USE_STORED_HASH_ON_REHASH`, where a `std::size_t` has 64 bits. -/
def Traits.useStoredHashOnRehash (T : Traits K V) (bucketCount : ℕ) : Bool :=
  T.storeHash && decide (bucketCount - 1 ≤ 2 ^ 32 - 1)

namespace RobinHash

/-- A table that was constructed by default. -/
def init (V : Type) : RobinHash V :=
  { buckets := [], mask := 0, nbElements := 0, loadThreshold := 0, growOnNextInsert := false,
    tryShrinkOnNextInsert := false }

/-- The constructor, with the growth policy's. -/
def construct (T : Traits K V) (bucketCount : ℕ) : Except Fault (RobinHash V) :=
  if maxPolicyCount < bucketCount then
    .error (.lengthError "The hash table exceeds its maximum size.")
  else
    let bucketCount := if 0 < bucketCount then roundUpToPowerOfTwo bucketCount else 0
    if T.maxBucketCount < bucketCount then
      .error (.lengthError "The map exceeds its maximum bucket count.")
    else
      .ok { init V with
        buckets := List.replicate bucketCount .empty
        mask := bucketCount - 1
        loadThreshold := bucketCount / 2 }

/-- `m_buckets[i]`, where a table without buckets has the static empty one. -/
def bucket (t : RobinHash V) (i : ℕ) : Bucket V := t.buckets.getD i .empty

/-- Writes a bucket. -/
def setBucket (t : RobinHash V) (i : ℕ) (b : Bucket V) : RobinHash V :=
  { t with buckets := t.buckets.set i b }

/-- `bucket_for_hash`. -/
def bucketForHash (t : RobinHash V) (hash : ℕ) : ℕ := hash &&& t.mask

/-- `next_bucket`. -/
def nextBucket (t : RobinHash V) (index : ℕ) : ℕ := (index + 1) &&& t.mask

/-- `next_bucket_count`. -/
def nextBucketCount (t : RobinHash V) : Except Fault ℕ :=
  if maxPolicyCount / growthFactor < t.mask + 1 then
    .error (.lengthError "The hash table exceeds its maximum size.")
  else .ok ((t.mask + 1) * growthFactor)

/-! ## Lookup -/

/-- How the search for a key ends. -/
inductive Probe
  /-- At a bucket that has it. -/
  | found (ibucket : ℕ)
  /-- At the first bucket that is closer to the ideal one of its value than the search is. -/
  | missing (ibucket dist : ℕ)
deriving DecidableEq, Repr

/-- The loop of `find_impl`, which is also the first one of `insert_impl`. -/
def probe [DecidableEq K] (T : Traits K V) (t : RobinHash V) (key : K) :
    ℕ → ℕ → ℕ → Except Fault Probe
  | 0, _, _ => .error .endless
  | fuel + 1, ibucket, dist =>
    match t.bucket ibucket with
    | .empty => .ok (.missing ibucket dist)
    | .full d _ v =>
      if dist ≤ d then
        if T.key v = key then .ok (.found ibucket)
        else nextDistance dist >>= fun dist => probe T t key fuel (t.nextBucket ibucket) dist
      else .ok (.missing ibucket dist)

/-- `find_impl`: the bucket, or `none` for `end()`. -/
def findImpl [DecidableEq K] (T : Traits K V) (t : RobinHash V) (key : K) :
    Except Fault (Option ℕ) := do
  match ← probe T t key (t.buckets.length + 1) (t.bucketForHash (T.hash key)) 0 with
  | .found ibucket => return some ibucket
  | .missing _ _ => return none

/-! ## Insertion -/

/-- Where a probe has got long, the next insertion is to rehash. -/
def noteProbe (t : RobinHash V) (noteLong : Bool) (dist : ℕ) : RobinHash V :=
  if noteLong && decide (distFromIdealBucketLimit ≤ dist) then
    { t with growOnNextInsert := true }
  else t

/-- The loop of `insert_value_impl` and the one of `insert_value_on_rehash`: the value goes on until
it comes to an empty bucket, and takes the place of every value on its way that is closer to its
ideal bucket, which then goes on instead. Only `insert_value_impl` asks for a rehash where the
probes get long. -/
def displace (noteLong : Bool) : ℕ → RobinHash V → ℕ → ℕ → ℕ → V → Except Fault (RobinHash V)
  | 0, _, _, _, _, _ => .error .endless
  | fuel + 1, t, ibucket, dist, hash, value =>
    match t.bucket ibucket with
    | .empty => .ok (t.setBucket ibucket (.full dist hash value))
    | .full d h v =>
      if d < dist then
        let t := t.noteProbe noteLong dist
        nextDistance d >>= fun d =>
          displace noteLong fuel (t.setBucket ibucket (.full dist hash value))
            (t.nextBucket ibucket) d h v
      else
        nextDistance dist >>= fun dist =>
          displace noteLong fuel t (t.nextBucket ibucket) dist hash value

/-- `insert_value_on_rehash`. -/
def insertValueOnRehash (t : RobinHash V) (ibucket dist hash : ℕ) (value : V) :
    Except Fault (RobinHash V) :=
  displace false (t.buckets.length + 1) t ibucket dist hash value

/-- `insert_value_impl`, whose callers have seen that the bucket is not empty. -/
def insertValueImpl (t : RobinHash V) (ibucket dist hash : ℕ) (value : V) :
    Except Fault (RobinHash V) :=
  match t.bucket ibucket with
  | .empty => .ok (t.setBucket ibucket (.full dist hash value))
  | .full d h v =>
    nextDistance d >>= fun d =>
      displace true (t.buckets.length + 1) (t.setBucket ibucket (.full dist hash value))
        (t.nextBucket ibucket) d h v

/-- What the loop of `rehash_impl` does with a bucket of the old table. -/
def rehashBucket (T : Traits K V) (new : RobinHash V) : Bucket V → Except Fault (RobinHash V)
  | .empty => .ok new
  | .full _ h v =>
    let hash := if T.useStoredHashOnRehash new.buckets.length then h else T.hash (T.key v)
    new.insertValueOnRehash (new.bucketForHash hash) 0 (T.truncateHash hash) v

/-- `rehash_impl`. -/
def rehashImpl (T : Traits K V) (t : RobinHash V) (count : ℕ) : Except Fault (RobinHash V) := do
  let new ← construct T count
  let new ← t.buckets.foldlM (rehashBucket T) new
  return { new with nbElements := t.nbElements }

/-- `rehash_on_extreme_load`: the table, and whether it has been rehashed. The minimum load factor
is zero, and so an erasure is never followed by a rehash. -/
def rehashOnExtremeLoad (T : Traits K V) (t : RobinHash V) : Except Fault (RobinHash V × Bool) :=
  if t.growOnNextInsert || decide (t.loadThreshold ≤ t.nbElements) then do
    let t ← t.rehashImpl T (← t.nextBucketCount)
    return ({ t with growOnNextInsert := false }, true)
  else
    return ({ t with tryShrinkOnNextInsert := false }, false)

/-- The second loop of `insert_impl`, after a rehash. -/
def skip (t : RobinHash V) : ℕ → ℕ → ℕ → Except Fault (ℕ × ℕ)
  | 0, _, _ => .error .endless
  | fuel + 1, ibucket, dist =>
    match t.bucket ibucket with
    | .empty => .ok (ibucket, dist)
    | .full d _ _ =>
      if dist ≤ d then nextDistance dist >>= fun dist => skip t fuel (t.nextBucket ibucket) dist
      else .ok (ibucket, dist)

/-- Where `insert_impl` goes on: a rehash has moved the values, and so it searches again. -/
def searchAgain (t : RobinHash V) (rehashed : Bool) (hash ibucket dist : ℕ) :
    Except Fault (ℕ × ℕ) :=
  if rehashed then t.skip (t.buckets.length + 1) (t.bucketForHash hash) 0 else .ok (ibucket, dist)

/-- What `insert_impl` does at the bucket at which its search has ended. -/
def placeValue (t : RobinHash V) (ibucket dist hash : ℕ) (value : V) :
    Except Fault (RobinHash V) :=
  match t.bucket ibucket with
  | .empty => .ok (t.setBucket ibucket (.full dist hash value))
  | .full _ _ _ => t.insertValueImpl ibucket dist hash value

/-- `insert_impl`: the table, the bucket, and whether the value has been inserted. -/
def insertImpl [DecidableEq K] (T : Traits K V) (t : RobinHash V) (value : V) :
    Except Fault (RobinHash V × ℕ × Bool) := do
  let hash := T.hash (T.key value)
  match ← probe T t (T.key value) (t.buckets.length + 1) (t.bucketForHash hash) 0 with
  | .found ibucket => return (t, ibucket, false)
  | .missing ibucket dist =>
    let (t, rehashed) ← t.rehashOnExtremeLoad T
    let (ibucket, dist) ← t.searchAgain rehashed hash ibucket dist
    let t ← t.placeValue ibucket dist (T.truncateHash hash) value
    return ({ t with nbElements := t.nbElements + 1 }, ibucket, true)

/-! ## Erasure -/

/-- The loop of `erase_from_bucket`: the values after an empty bucket move back by one, up to one
that is in its ideal bucket or an empty bucket. -/
def backwardShift : ℕ → RobinHash V → ℕ → ℕ → Except Fault (RobinHash V)
  | 0, _, _, _ => .error .endless
  | fuel + 1, t, previous, ibucket =>
    match t.bucket ibucket with
    | .full (d + 1) h v =>
      backwardShift fuel ((t.setBucket previous (.full d h v)).setBucket ibucket .empty) ibucket
        (t.nextBucket ibucket)
    | _ => .ok t

/-- `erase_from_bucket`. -/
def eraseFromBucket (t : RobinHash V) (pos : ℕ) : Except Fault (RobinHash V) :=
  let t := { t.setBucket pos .empty with nbElements := t.nbElements - 1 }
  backwardShift (t.buckets.length + 1) t pos (t.nextBucket pos)

/-- `erase` of an iterator. -/
def eraseAt (t : RobinHash V) (pos : ℕ) : Except Fault (RobinHash V) := do
  return { ← t.eraseFromBucket pos with tryShrinkOnNextInsert := true }

/-- `erase` of a key: the table, and how many values have been erased. -/
def erase [DecidableEq K] (T : Traits K V) (t : RobinHash V) (key : K) :
    Except Fault (RobinHash V × ℕ) := do
  match ← t.findImpl T key with
  | some pos => return ({ ← t.eraseFromBucket pos with tryShrinkOnNextInsert := true }, 1)
  | none => return (t, 0)

/-- An assignment through `value()` of an iterator, which leaves the key as it is. -/
def assignAt (t : RobinHash V) (pos : ℕ) (value : V) : RobinHash V :=
  match t.bucket pos with
  | .empty => t
  | .full d h _ => t.setBucket pos (.full d h value)

/-! ## Iteration -/

/-- The loop of `begin`: the first bucket from `i` on that has a value, or the end. -/
def beginFrom (t : RobinHash V) : ℕ → ℕ → ℕ
  | 0, i => i
  | fuel + 1, i =>
    if i < t.buckets.length ∧ (t.bucket i).value.isNone then beginFrom t fuel (i + 1) else i

/-- `begin`. -/
def begin (t : RobinHash V) : ℕ := t.beginFrom t.buckets.length 0

/-- The loop of `operator++`. The last bucket is marked as such. -/
def increment (t : RobinHash V) : ℕ → ℕ → ℕ
  | 0, i => i
  | fuel + 1, i =>
    if i + 1 = t.buckets.length then i + 1
    else if (t.bucket (i + 1)).value.isSome then i + 1
    else increment t fuel (i + 1)

/-- What a loop over the table visits from a bucket on. -/
def visitFrom (t : RobinHash V) : ℕ → ℕ → List V
  | 0, _ => []
  | fuel + 1, i =>
    if i = t.buckets.length then []
    else (t.bucket i).value.toList ++ visitFrom t fuel (t.increment t.buckets.length i)

/-- What a loop over the table visits. -/
def visit (t : RobinHash V) : List V := t.visitFrom (t.buckets.length + 1) t.begin

end RobinHash

end Spinet.Table
