import Mathlib.Data.Multiset.Filter
import Spinet.Library.Machine
import Spinet.Table.Erase

/-!
# A table answers as a finite map does

Any sequence of the operations that a `Runtime` makes on `all_handles_` and `all_sockets_`, from a
table that was constructed by default. Which values a map holds is known from the answers so far
(`held`): an insertion that has taken place adds one, an erasure takes one away. `Answer` says which
answers a finite map with these values may give.

`answers_always` is the result: as long as no more than 32767 values are in the table, so that every
distance fits into `std::int_least16_t`, every loop ends, no distance overflows, and every answer is
one of a finite map. Only an insertion that has to grow the table may throw instead, and then the
table is as before.
-/

namespace Spinet.Table

open Transition RobinHash

variable {K V : Type}

/-- An operation on a table. -/
inductive Operation (K V : Type)
  /-- `find`. -/
  | find (key : K)
  /-- `insert`. -/
  | insert (value : V)
  /-- `erase` of a key. -/
  | erase (key : K)
  /-- `find`, and `erase` of the iterator that is returned. -/
  | eraseFound (key : K)
  /-- `find`, and an assignment through `value()` of the iterator that is returned. -/
  | assignFound (value : V)
  /-- `size`. -/
  | size
  /-- A loop over the table. -/
  | visit
  /-- `swap` with a table that was constructed by default. -/
  | release
deriving DecidableEq, Repr

/-- An answer. -/
inductive Answer (K V : Type)
  /-- `find` has returned an iterator to this value, or `end()`. -/
  | found (key : K) (value : Option V)
  /-- `insert` has returned an iterator to a value, and whether the new one has been inserted. -/
  | inserted (value : V) (isNew : Bool) (pointee : Option V)
  /-- `erase` has returned how many values it has erased. -/
  | erased (key : K) (number : ℕ)
  /-- Whether there was a value to assign to. -/
  | assigned (value : V) (isOld : Bool)
  /-- `size` has returned. -/
  | size (number : ℕ)
  /-- A loop has visited these. -/
  | visited (values : List V)
  /-- The table has been swapped out. -/
  | released
  /-- An exception has been thrown. -/
  | threw (what : String)
deriving DecidableEq, Repr

variable [DecidableEq K]

/-- The values of a map after an answer. -/
def after (T : Traits K V) (values : Multiset V) : Answer K V → Multiset V
  | .inserted v true _ => v ::ₘ values
  | .erased key _ => values.filter fun v => T.key v ≠ key
  | .assigned v true => v ::ₘ values.filter fun w => T.key w ≠ T.key v
  | .released => 0
  | _ => values

/-- The values of a map that has given these answers. -/
def held (T : Traits K V) (answers : List (Answer K V)) : Multiset V := answers.foldl (after T) 0

/-- What a finite map may answer after other answers. -/
def Proper (T : Traits K V) (past : List (Answer K V)) : Answer K V → Prop
  | .found key r => ∀ v, r = some v ↔ v ∈ held T past ∧ T.key v = key
  | .inserted v isNew pointee =>
    isNew = true ∧ (∀ w ∈ held T past, T.key w ≠ T.key v) ∧ pointee = some v ∨
      isNew = false ∧ ∃ w ∈ held T past, T.key w = T.key v ∧ pointee = some w
  | .erased key n => n = ((held T past).filter fun v => T.key v = key).card
  | .assigned v isOld => isOld = true ↔ ∃ w ∈ held T past, T.key w = T.key v
  | .size n => n = (held T past).card
  | .visited vs => ↑vs = held T past
  | .released => True
  | .threw _ => True

/-- An operation with a result, or with an exception that leaves the table as it was. Any other
fault leaves no step. -/
def outcome {α : Type} (t : RobinHash V) (r : Except Fault α)
    (f : α → RobinHash V × List (Answer K V)) : Option (RobinHash V × List (Answer K V)) :=
  match r with
  | .ok a => some (f a)
  | .error (.lengthError what) => some (t, [.threw what])
  | .error .distance => none
  | .error .endless => none

/-- The step of an operation. -/
def step (T : Traits K V) (t : RobinHash V) :
    Operation K V → Option (RobinHash V × List (Answer K V))
  | .find key =>
    outcome t (t.findImpl T key) fun r => (t, [.found key (r.bind fun i => (t.bucket i).value)])
  | .insert v =>
    outcome t (t.insertImpl T v) fun r => (r.1, [.inserted v r.2.2 (r.1.bucket r.2.1).value])
  | .erase key => outcome t (t.erase T key) fun r => (r.1, [.erased key r.2])
  | .eraseFound key =>
    outcome t (do
      match ← t.findImpl T key with
      | some i => return (← t.eraseAt i, 1)
      | none => return (t, 0)) fun r => (r.1, [.erased key r.2])
  | .assignFound v =>
    outcome t (t.findImpl T (T.key v)) fun
      | some i => (t.assignAt i v, [.assigned v true])
      | none => (t, [.assigned v false])
  | .size => some (t, [.size t.nbElements])
  | .visit => some (t, [.visited t.visit])
  | .release => some (RobinHash.init V, [.released])

/-- The machine of one table. -/
def machine (T : Traits K V) : Machine (RobinHash V) (Operation K V) (Answer K V) := ⟨step T⟩

/-- A table that was constructed by default. -/
def start (K V : Type) : Config (RobinHash V) (Answer K V) := ⟨RobinHash.init V, []⟩

/-- The condition on an operation: there is room for a value that is inserted. -/
def Fits (c : Config (RobinHash V) (Answer K V)) : Operation K V → Prop
  | .insert _ => c.state.nbElements < 32767
  | _ => True

instance (c : Config (RobinHash V) (Answer K V)) (a : Operation K V) : Decidable (Fits c a) := by
  unfold Fits
  split <;> infer_instance

/-! ## The values that are held -/

variable {T : Traits K V} {t t' : RobinHash V} {tr : List (Answer K V)} {i d h : ℕ} {v w : V}
  {key : K} {s : Multiset V}

/-- The values after one more answer. -/
theorem held_concat (e : Answer K V) : held T (tr ++ [e]) = after T (held T tr) e := by
  unfold held
  rw [List.foldl_append]
  rfl

/-- Where one value has a key, the others are those that do not have it. -/
theorem filter_of_perm (hv : Valid T t) (hkey : T.key v = key) {vs : List V}
    (hperm : t.elements.Perm (v :: vs)) :
    (t.elements : Multiset V).filter (fun w => T.key w ≠ key) = ↑vs ∧
      ((t.elements : Multiset V).filter fun w => T.key w = key).card = 1 := by
  have hcoe : (t.elements : Multiset V) = v ::ₘ ↑vs := Multiset.coe_eq_coe.2 hperm
  have hkeys := hv.keys
  rw [(hperm.map T.key).nodup_iff, List.map_cons, List.nodup_cons, hkey] at hkeys
  have hother : ∀ w ∈ (vs : Multiset V), T.key w ≠ key := by
    intro w hw hw'
    exact hkeys.1 (hw' ▸ List.mem_map_of_mem (f := T.key) (Multiset.mem_coe.1 hw))
  rw [hcoe, Multiset.filter_cons_of_neg _ (by simp [hkey]), Multiset.filter_eq_self.2 hother,
    Multiset.filter_cons_of_pos (p := fun w => T.key w = key) _ hkey,
    Multiset.filter_eq_nil.2 hother]
  exact ⟨rfl, rfl⟩

/-- Where no value has a key, an erasure takes nothing. -/
theorem filter_of_forall (hnone : ∀ w ∈ t.elements, T.key w ≠ key) :
    (t.elements : Multiset V).filter (fun w => T.key w ≠ key) = ↑t.elements ∧
      ((t.elements : Multiset V).filter fun w => T.key w = key).card = 0 := by
  rw [Multiset.filter_eq_self.2 (fun w hw => hnone w (Multiset.mem_coe.1 hw)),
    Multiset.filter_eq_nil.2 (fun w hw => hnone w (Multiset.mem_coe.1 hw))]
  exact ⟨rfl, rfl⟩

omit [DecidableEq K] in
/-- A bucket with a key tells what a search for it finds. -/
theorem found_iff (hv : Valid T t) (hb : t.bucket i = .full d h w) (hkey : T.key w = key) (v : V) :
    (t.bucket i).value = some v ↔ v ∈ t.elements ∧ T.key v = key := by
  have hmem : w ∈ t.elements := mem_elements.2 ⟨i, d, h, hb⟩
  rw [hb]
  simp only [Bucket.value, Option.some.injEq]
  constructor
  · rintro rfl
    exact ⟨hmem, hkey⟩
  · rintro ⟨hv', hkey'⟩
    exact List.inj_on_of_nodup_map hv.keys hmem hv' (hkey.trans hkey'.symm)

/-! ## One operation -/

/-- The operation returns an answer of a finite map, or throws, and the table holds the values that
the answers say. -/
def Answered (T : Traits K V) (t : RobinHash V) (tr : List (Answer K V)) (a : Operation K V) :
    Prop :=
  ∃ t' e, step T t a = some (t', [e]) ∧ Valid T t' ∧ t'.elements.length ≤ 32767 ∧
    held T (tr ++ [e]) = ↑t'.elements ∧ Proper T tr e

/-- What an operation with one answer has to show. -/
theorem Answered.of_step {a : Operation K V} {e : Answer K V} (hheld : held T tr = ↑t.elements)
    (hstep : step T t a = some (t', [e])) (hv : Valid T t') (hsize : t'.elements.length ≤ 32767)
    (hproper : Proper T tr e) (hafter : after T (↑t.elements) e = ↑t'.elements) :
    Answered T t tr a := by
  refine ⟨t', e, hstep, hv, hsize, ?_, hproper⟩
  rw [held_concat, hheld, hafter]

/-- An operation that takes off the value with a key. -/
theorem answered_taken {a : Operation K V} (hv : Valid T t) (hsize : t.elements.length ≤ 32767)
    (hheld : held T tr = ↑t.elements) (hstep : step T t a = some (t', [.erased key 1]))
    (hv' : Valid T t') (hkey : T.key v = key) (hperm : t.elements.Perm (v :: t'.elements)) :
    Answered T t tr a := by
  have hlength := hperm.length_eq
  rw [List.length_cons] at hlength
  obtain ⟨hrest, hone⟩ := filter_of_perm hv hkey hperm
  refine .of_step hheld hstep hv' (by omega) ?_ hrest
  simp only [Proper, hheld]
  exact hone.symm

/-- An operation that finds no value to take off. -/
theorem answered_untaken {a : Operation K V} (hv : Valid T t) (hsize : t.elements.length ≤ 32767)
    (hheld : held T tr = ↑t.elements) (hstep : step T t a = some (t, [.erased key 0]))
    (hnone : ∀ w ∈ t.elements, T.key w ≠ key) : Answered T t tr a := by
  obtain ⟨hrest, hzero⟩ := filter_of_forall hnone
  refine .of_step hheld hstep hv hsize ?_ hrest
  simp only [Proper, hheld]
  exact hzero.symm

/-- `find`. -/
theorem answered_find (hv : Valid T t) (hsize : t.elements.length ≤ 32767)
    (hheld : held T tr = ↑t.elements) (key : K) : Answered T t tr (.find key) := by
  obtain ⟨q, hqm, hq⟩ := hv.vacant
  rcases findImpl_spec hv.toLayout hsize hqm hq key with ⟨i, d, h, w, hfind, hb, hkey⟩ |
    ⟨hfind, hnone⟩
  · refine .of_step (e := .found key (t.bucket i).value) hheld
      (by simp only [step, hfind, outcome]; rfl) hv hsize ?_ rfl
    intro v
    rw [hheld]
    exact found_iff hv hb hkey v
  · refine .of_step (e := .found key none) hheld (by simp only [step, hfind, outcome]; rfl) hv
      hsize ?_ rfl
    intro v
    rw [hheld]
    simp only [reduceCtorEq, false_iff, not_and, Multiset.mem_coe]
    exact hnone v

/-- `insert`: the value is there already, or there is no room, or it is new. -/
theorem answered_insert (hv : Valid T t) (hsize : t.elements.length ≤ 32767)
    (hheld : held T tr = ↑t.elements) (v : V) (hroom : t.nbElements < 32767) :
    Answered T t tr (.insert v) := by
  rw [hv.count] at hroom
  rcases insertImpl_spec hv hroom v with ⟨i, d, h, w, hins, hb, hkey⟩ |
    ⟨hnone, ⟨what, hins⟩ | ⟨t', i, hins, hv', hperm, hvalue⟩⟩
  · refine .of_step (e := .inserted v false (some w)) hheld
      (by simp only [step, hins, outcome, hb]; rfl) hv hsize (.inr ⟨rfl, w, ?_, hkey, rfl⟩) rfl
    rw [hheld]
    exact mem_elements.2 ⟨i, d, h, hb⟩
  · exact .of_step (e := .threw what) hheld (by simp only [step, hins, outcome]) hv hsize trivial
      rfl
  · have hlength := hperm.length_eq
    rw [List.length_cons] at hlength
    refine .of_step (e := .inserted v true (some v)) hheld
      (by simp only [step, hins, outcome, hvalue]) hv' (by omega) (.inl ⟨rfl, ?_, rfl⟩)
      (Multiset.coe_eq_coe.2 hperm).symm
    rw [hheld]
    exact hnone

/-- `erase` of a key. -/
theorem answered_erase (hv : Valid T t) (hsize : t.elements.length ≤ 32767)
    (hheld : held T tr = ↑t.elements) (key : K) : Answered T t tr (.erase key) := by
  rcases erase_spec hv hsize key with ⟨t', v, herase, hv', hkey, hperm⟩ | ⟨herase, hnone⟩
  · exact answered_taken hv hsize hheld (by simp only [step, herase, outcome]) hv' hkey hperm
  · exact answered_untaken hv hsize hheld (by simp only [step, herase, outcome]) hnone

/-- `erase` of what `find` has found. -/
theorem answered_eraseFound (hv : Valid T t) (hsize : t.elements.length ≤ 32767)
    (hheld : held T tr = ↑t.elements) (key : K) : Answered T t tr (.eraseFound key) := by
  obtain ⟨q, hqm, hq⟩ := hv.vacant
  rcases findImpl_spec hv.toLayout hsize hqm hq key with ⟨i, d, h, v, hfind, hb, hkey⟩ |
    ⟨hfind, hnone⟩
  · obtain ⟨t', herase, hv', hperm⟩ := eraseAt_spec hv hb
    refine answered_taken hv hsize hheld ?_ hv' hkey hperm
    simp only [step, hfind, bind, Except.bind, herase]
    rfl
  · refine answered_untaken hv hsize hheld ?_ hnone
    simp only [step, hfind, bind, Except.bind]
    rfl

/-- Assignment through what `find` has found. -/
theorem answered_assignFound (hv : Valid T t) (hsize : t.elements.length ≤ 32767)
    (hheld : held T tr = ↑t.elements) (v : V) : Answered T t tr (.assignFound v) := by
  obtain ⟨q, hqm, hq⟩ := hv.vacant
  rcases findImpl_spec hv.toLayout hsize hqm hq (T.key v) with ⟨i, d, h, w, hfind, hb, hkey⟩ |
    ⟨hfind, hnone⟩
  · obtain ⟨hv', hperm⟩ := assignAt_spec hv hb hkey.symm
    have hlength := hperm.length_eq
    rw [List.length_cons, List.length_cons] at hlength
    have hold : w ∈ t.elements := mem_elements.2 ⟨i, d, h, hb⟩
    refine .of_step (e := .assigned v true) hheld (by simp only [step, hfind, outcome]) hv'
      (by omega) ?_ ?_
    · simp only [Proper, hheld, true_iff]
      exact ⟨w, hold, hkey⟩
    · -- The value that has been there is the one that has the key.
      obtain ⟨vs, hvs⟩ : ∃ vs, t.elements.Perm (w :: vs) := by
        obtain ⟨l₁, l₂, hsplit⟩ := List.append_of_mem hold
        exact ⟨l₁ ++ l₂, by rw [hsplit]; exact List.perm_middle⟩
      obtain ⟨hrest, -⟩ := filter_of_perm hv hkey hvs
      have hnew : (t.assignAt i v).elements.Perm (v :: vs) := by
        refine (List.perm_cons w).1 (hperm.trans ?_)
        exact (hvs.cons v).trans (List.Perm.swap w v vs)
      simp only [after]
      rw [hrest]
      exact (Multiset.coe_eq_coe.2 hnew).symm
  · refine .of_step (e := .assigned v false) hheld (by simp only [step, hfind, outcome]) hv hsize
      ?_ rfl
    simp only [Proper, hheld, Bool.false_eq_true, false_iff, not_exists, not_and,
      Multiset.mem_coe]
    exact hnone

/-- An operation that fits returns an answer of a finite map, or throws. -/
theorem step_spec (hv : Valid T t) (hsize : t.elements.length ≤ 32767)
    (hheld : held T tr = ↑t.elements) (a : Operation K V) (hfits : Fits ⟨t, tr⟩ a) :
    Answered T t tr a := by
  cases a with
  | find key => exact answered_find hv hsize hheld key
  | insert v => exact answered_insert hv hsize hheld v hfits
  | erase key => exact answered_erase hv hsize hheld key
  | eraseFound key => exact answered_eraseFound hv hsize hheld key
  | assignFound v => exact answered_assignFound hv hsize hheld v
  | size =>
    refine .of_step (e := .size t.nbElements) hheld rfl hv hsize ?_ rfl
    simp only [Proper, hheld, Multiset.coe_card]
    exact hv.count
  | visit =>
    refine .of_step (e := .visited t.visit) hheld rfl hv hsize ?_ rfl
    simp only [Proper, hheld, visit_eq_elements]
  | release =>
    exact .of_step (e := .released) hheld rfl (valid_init T)
      (by simp [elements, RobinHash.init]) trivial rfl

/-! ## Every run -/

/-- What holds of a table and of its answers in every run whose insertions fit. -/
structure Faithful (T : Traits K V) (c : Config (RobinHash V) (Answer K V)) : Prop where
  /-- The table is laid out. -/
  valid : Valid T c.state
  /-- Its values are those of the map that gives the answers. -/
  held : held T c.trace = ↑c.state.elements
  /-- Every answer is one of a finite map. -/
  answers : Allowed (Proper T) c.trace
  /-- The next operation returns or throws, if it fits: no loop is endless and no distance too
  large. -/
  returns : ∀ a, Fits c a → (next (machine T) c a).isSome

/-- In every run in which no more than 32767 values are inserted at a time, the table is a finite
map. -/
theorem answers_always (T : Traits K V) {c : Config (RobinHash V) (Answer K V)}
    (h : ReachVia (machine T) Fits (start K V) c) : Faithful T c := by
  have hinv : Valid T c.state ∧ c.state.elements.length ≤ 32767 ∧
      held T c.trace = ↑c.state.elements ∧ Allowed (Proper T) c.trace := by
    refine h.invariant_step (I := fun t tr => Valid T t ∧ t.elements.length ≤ 32767 ∧
      held T tr = ↑t.elements ∧ Allowed (Proper T) tr) ?_ ?_
    · exact ⟨valid_init T, by simp [start, elements, RobinHash.init], rfl, trivial⟩
    · rintro t tr a t' es ⟨hv, hsize, hheld, hallowed⟩ hfits hstep
      obtain ⟨t₁, e, hstep', hv', hsize', hheld', hproper⟩ := step_spec hv hsize hheld a hfits
      obtain ⟨rfl, rfl⟩ : t₁ = t' ∧ [e] = es := by
        simpa using hstep'.symm.trans hstep
      exact ⟨hv', hsize', hheld', allowed_append.2 ⟨hallowed, hproper, trivial⟩⟩
  obtain ⟨hv, hsize, hheld, hallowed⟩ := hinv
  refine ⟨hv, hheld, hallowed, fun a hfits => ?_⟩
  obtain ⟨t', e, hstep, -⟩ := step_spec hv hsize hheld a hfits
  simp only [next, machine, hstep, Option.map_some, Option.isSome_some]

/-- Pairs with their first component as key and as hash. -/
def pairs (limit : ℕ) : Traits ℕ (ℕ × ℕ) := ⟨Prod.fst, id, false, limit⟩

/-- Operations among which a value gives way to another, and comes back when that is erased. -/
def givingWay : List (Operation ℕ (ℕ × ℕ)) :=
  [.insert (1, 10), .insert (4, 40), .insert (5, 50), .insert (8, 80), .find 5, .erase 1, .find 5,
    .insert (5, 51)]

/-- The answers to these. -/
theorem answers_always_givingWay :
    ∃ c, run (machine (pairs 64)) (start ℕ (ℕ × ℕ)) givingWay = some c ∧
      c.trace = [.inserted (1, 10) true (some (1, 10)), .inserted (4, 40) true (some (4, 40)),
        .inserted (5, 50) true (some (5, 50)), .inserted (8, 80) true (some (8, 80)),
        .found 5 (some (5, 50)), .erased 1 1, .found 5 (some (5, 50)),
        .inserted (5, 51) false (some (5, 50))] ∧
      Faithful (pairs 64) c := by
  have hfits : Steps (machine (pairs 64)) Fits (start ℕ (ℕ × ℕ)) givingWay := by decide
  exact ⟨_, rfl, rfl, answers_always _ (hfits.reachVia rfl)⟩

end Spinet.Table
