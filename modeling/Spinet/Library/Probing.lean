import Mathlib.Data.Finset.Card
import Mathlib.Data.Finset.Range
import Mathlib.Data.Int.ModEq
import Mathlib.Data.List.Perm.Basic
import Mathlib.Data.Nat.ModEq
import Mathlib.Order.Interval.Finset.Nat
import Mathlib.Tactic.Ring

/-!
# Robin Hood probing on a ring

An open-addressing table keeps its entries on a ring of `m` positions. An entry has an ideal
position and stands some steps after it; `dist i` is the number of these steps for the entry at
position `i`, and `-1` where there is none. In a Robin Hood table the distances grow by at most one
from a position to the next (`Ordered`). So whoever looks for an entry may stop at the first
position whose distance is less than the number of steps made (`Ordered.le_of_walk`), and no
distance reaches the number of entries (`Ordered.dist_lt_card`).

A stronger entry may take a position of a weaker one (`Ordered.update`). To remove an entry leaves a
hole, across which the distances may grow by two (`Hole`); moving the next entry into the hole moves
the hole (`Hole.shift`), until the next entry is at its ideal position or there is none
(`Hole.close`).

The last part is on the entries of such a table as a list, and says what writing to one position
does to them.
-/

namespace Probing

/-- The position `k` steps after `i` on a ring of `m` positions. -/
def walk (m i k : ℕ) : ℕ := (i + k) % m

variable {m i j k p q b : ℕ} {dist : ℕ → ℤ}

/-- A walk ends on the ring. -/
theorem walk_lt (hm : 0 < m) : walk m i k < m := Nat.mod_lt _ hm

/-- A walk of no step. -/
theorem walk_zero (hi : i < m) : walk m i 0 = i := Nat.mod_eq_of_lt hi

/-- One walk after another. -/
theorem walk_walk : walk m (walk m i j) k = walk m i (j + k) := by
  unfold walk
  rw [Nat.mod_add_mod, Nat.add_assoc]

/-- Every position is reached in less than one round. -/
theorem exists_walk (hi : i < m) (hq : q < m) : ∃ g, g < m ∧ walk m i g = q := by
  refine ⟨(q + (m - i)) % m, Nat.mod_lt _ (by omega), ?_⟩
  unfold walk
  rw [Nat.add_mod_mod, show i + (q + (m - i)) = q + m by omega, Nat.add_mod_right,
    Nat.mod_eq_of_lt hq]

/-- In less than one round no position is reached twice. -/
theorem walk_inj (hj : j < m) (hk : k < m) (h : walk m i j = walk m i k) : j = k := by
  have hmod : j ≡ k [MOD m] := Nat.ModEq.add_left_cancel' i h
  exact hmod.eq_of_lt_of_lt hj hk

/-- In less than one round no walk comes back. -/
theorem walk_ne (hi : i < m) (hk : 0 < k) (hkm : k < m) : walk m i k ≠ i := by
  intro h
  have h0 := walk_inj (i := i) (j := k) (k := 0) hkm (by omega) (by rw [h, walk_zero hi])
  omega

/-- Two positions with the same next one are the same. -/
theorem walk_one_cancel (hi : i < m) (hj : j < m) (h : walk m i 1 = walk m j 1) : i = j := by
  have hmod : i ≡ j [MOD m] := Nat.ModEq.add_right_cancel' 1 h
  exact hmod.eq_of_lt_of_lt hi hj

/-- From a position to the next, the distances grow by at most one. -/
def Ordered (m : ℕ) (dist : ℕ → ℤ) : Prop := ∀ i < m, dist (walk m i 1) ≤ dist i + 1

/-- Along a walk, the distances grow by at most one each step. -/
theorem Ordered.walk_le (ho : Ordered m dist) (hi : i < m) (k : ℕ) :
    dist (walk m i k) ≤ dist i + k := by
  induction k with
  | zero =>
    rw [walk_zero hi]
    omega
  | succ k ih =>
    have hstep := ho (walk m i k) (walk_lt (by omega))
    rw [walk_walk] at hstep
    push_cast
    omega

/-- From the ideal position of an entry to where it stands, no distance is less than the number of
steps made. -/
theorem Ordered.le_of_walk (ho : Ordered m dist) (hm : 0 < m) {d : ℕ} (hd : dist (walk m b d) = d)
    (hj : j ≤ d) : (j : ℤ) ≤ dist (walk m b j) := by
  have hle := ho.walk_le (i := walk m b j) (walk_lt hm) (d - j)
  rw [walk_walk, show j + (d - j) = d by omega, hd] at hle
  push_cast [hj] at hle
  omega

/-- Where some position has no entry, every distance is less than the number of entries. -/
theorem Ordered.dist_lt_card (ho : Ordered m dist) (hqm : q < m) (hq : dist q < 0) (hp : p < m) :
    dist p < ((Finset.range m).filter fun i => 0 ≤ dist i).card := by
  rcases lt_or_ge (dist p) 0 with hneg | hpos
  · omega
  obtain ⟨d, hd⟩ := Int.eq_ofNat_of_zero_le hpos
  obtain ⟨j, hjm, rfl⟩ := exists_walk hqm hp
  have hdj : d < j := by
    have := ho.walk_le hqm j
    omega
  -- The entry and the ones before it, back to its ideal position.
  have hcard : (Finset.range (d + 1)).card ≤
      ((Finset.range m).filter fun i => 0 ≤ dist i).card := by
    refine Finset.card_le_card_of_injOn (fun x => walk m q (j - x)) ?_ ?_
    · intro x hx
      have hxd : x < d + 1 := by simpa using hx
      have hle := ho.walk_le (i := walk m q (j - x)) (walk_lt (by omega)) x
      rw [walk_walk, show j - x + x = j by omega] at hle
      simp only [Finset.coe_filter, Finset.mem_range, Set.mem_ofPred_eq]
      exact ⟨walk_lt (by omega), by omega⟩
    · intro x hx y hy hxy
      have hxd : x < d + 1 := by simpa using hx
      have hyd : y < d + 1 := by simpa using hy
      have := walk_inj (by omega) (by omega) hxy
      omega
  rw [Finset.card_range] at hcard
  omega

/-- An entry may be put where there is a weaker one or none, if it is not too strong for the
position before. -/
theorem Ordered.update (ho : Ordered m dist) {x : ℤ} (hle : dist p ≤ x)
    (hprev : ∀ i < m, walk m i 1 = p → x ≤ dist i + 1) :
    Ordered m (Function.update dist p x) := by
  intro i hi
  by_cases hip : i = p
  · subst hip
    rw [Function.update_self]
    by_cases hnext : walk m i 1 = i
    · rw [hnext, Function.update_self]
      omega
    · rw [Function.update_of_ne hnext]
      have := ho i hi
      omega
  · rw [Function.update_of_ne hip]
    by_cases hnext : walk m i 1 = p
    · rw [hnext, Function.update_self]
      exact hprev i hi hnext
    · rw [Function.update_of_ne hnext]
      exact ho i hi

/-- Position `p` has no entry, and the distances grow by at most one from a position to the next,
and by at most two across `p`. -/
structure Hole (m : ℕ) (dist : ℕ → ℤ) (p : ℕ) : Prop where
  /-- There is no entry. -/
  vacant : dist p = -1
  /-- Everywhere else the distances are ordered. -/
  ordered : ∀ i < m, i ≠ p → dist (walk m i 1) ≤ dist i + 1
  /-- Across the hole they are ordered as if it still had its entry. -/
  across : ∀ i < m, walk m i 1 = p → dist (walk m p 1) ≤ dist i + 2

/-- Removing an entry leaves a hole. -/
theorem Hole.of_ordered (ho : Ordered m dist) (hlow : ∀ i, -1 ≤ dist i) (hp : p < m) :
    Hole m (Function.update dist p (-1)) p := by
  refine ⟨Function.update_self .., fun i hi hip => ?_, fun i hi hnext => ?_⟩
  · rw [Function.update_of_ne hip, Function.update_apply]
    split
    · have := hlow i
      omega
    · exact ho i hi
  · have hlast := hlow i
    by_cases hip : i = p
    · -- A single position is its own next one.
      rw [← hip, hnext, ← hip, Function.update_self]
      omega
    · rw [Function.update_of_ne hip, Function.update_apply]
      split
      · omega
      · have h1 := ho i hi
        have h2 := ho p hp
        rw [hnext] at h1
        omega

/-- Where the next entry is at its ideal position, or there is none, the distances are ordered. -/
theorem Hole.close (hh : Hole m dist p) (hnext : dist (walk m p 1) ≤ 0) : Ordered m dist := by
  intro i hi
  by_cases hip : i = p
  · rw [hip, hh.vacant]
    omega
  · exact hh.ordered i hi hip

/-- Moving the next entry into the hole moves the hole. -/
theorem Hole.shift (hh : Hole m dist p) (hlow : ∀ i, -1 ≤ dist i) (hp : p < m) {e : ℤ}
    (hnext : dist (walk m p 1) = e) (he : 0 < e) :
    Hole m (Function.update (Function.update dist p (e - 1)) (walk m p 1) (-1)) (walk m p 1) := by
  have hne : p ≠ walk m p 1 := by
    intro h
    rw [← h, hh.vacant] at hnext
    omega
  refine ⟨Function.update_self .., fun i hi hip => ?_, fun i hi hi' => ?_⟩
  · have hlast := hlow i
    by_cases hnext' : walk m i 1 = walk m p 1
    · -- Only the old hole comes before the new one.
      obtain rfl := walk_one_cancel hi hp hnext'
      rw [Function.update_self, Function.update_of_ne hip, Function.update_self]
      omega
    · rw [Function.update_of_ne hnext', Function.update_of_ne hip]
      have hipp : i ≠ p := fun h => hnext' (by rw [h])
      rw [Function.update_of_ne hipp, Function.update_apply]
      split
      · rename_i hto
        have := hh.across i hi hto
        omega
      · exact hh.ordered i hi hipp
  · obtain rfl := walk_one_cancel hi hp hi'
    rw [Function.update_of_ne hne, Function.update_self, Function.update_apply,
      Function.update_apply]
    have hover := hh.ordered (walk m i 1) (walk_lt (by omega)) hne.symm
    split_ifs <;> omega

/-! ## The entries -/

variable {α β : Type*} {f : β → Option α} {l : List β}

/-- What writing to one position does to the entries: the old one goes and the new one comes. -/
theorem perm_filterMap_set (hi : i < l.length) (x : β) :
    ((f l[i]).toList ++ (l.set i x).filterMap f).Perm ((f x).toList ++ l.filterMap f) := by
  have hsplit : l = l.take i ++ l[i] :: l.drop (i + 1) := by
    rw [List.getElem_cons_drop, List.take_append_drop]
  rw [List.set_eq_take_append_cons_drop, if_pos hi]
  conv_rhs => rw [hsplit]
  generalize l[i] = y
  generalize l.take i = l₁
  generalize l.drop (i + 1) = l₂
  rw [List.filterMap_append, List.filterMap_append]
  cases hx : f x <;> cases hy : f y <;>
    simp only [hx, hy, List.filterMap_cons, Option.toList_none, Option.toList_some,
      List.nil_append, List.cons_append]
  · exact List.Perm.refl _
  · exact List.perm_middle.symm
  · exact List.perm_middle
  · exact (List.perm_middle.cons _).trans
      ((List.Perm.swap _ _ _).trans (List.perm_middle.symm.cons _))

/-- The number of entries, as a number of positions. -/
theorem length_filterMap_eq_card (e : β) :
    (l.filterMap f).length =
      ((Finset.range l.length).filter fun i => (f (l.getD i e)).isSome).card := by
  have hl : l = (List.range l.length).map fun i => l.getD i e := by
    refine List.ext_getElem (by simp) fun i h₁ h₂ => ?_
    rw [List.getElem_map, List.getElem_range, List.getD_eq_getElem?_getD,
      List.getElem?_eq_getElem h₁, Option.getD_some]
  conv_lhs =>
    rw [hl, List.length_filterMap_eq_countP, List.countP_map, List.countP_eq_length_filter]
  rw [Finset.card_def, Finset.filter_val, Finset.range_val, Multiset.range, Multiset.filter_coe,
    Multiset.coe_card]
  simp only [Function.comp_def, Bool.decide_eq_true]

/-- Fewer entries than positions leave a position without one. -/
theorem exists_vacant (h : (l.filterMap f).length < l.length) :
    ∃ i, ∃ hi : i < l.length, f l[i] = none := by
  obtain ⟨x, hx, hnone⟩ := List.length_filterMap_lt_length_iff_exists.1 h
  obtain ⟨i, hi, rfl⟩ := List.getElem_of_mem hx
  exact ⟨i, hi, hnone⟩

end Probing
