import Mathlib.Data.Int.CardIntervalMod

/-!
# Taking turns

A counter that starts at 0 and wraps around at `m` chooses one of `w` by its value modulo `w`. While
the counter has not wrapped, no choice is ahead of another one by more than one turn. Each time it
wraps in the middle of a round, the choices before that are ahead by one more (`turns_le`).
-/

namespace RoundRobin

/-- What is chosen after `i` choices. -/
def choice (m w i : ℕ) : ℕ := i % m % w

/-- How often `j` is among the first `n` choices. -/
def turns (m w j n : ℕ) : ℕ := Nat.count (fun i => choice m w i = j) n

variable {m w j n : ℕ}

theorem turns_zero (m w j : ℕ) : turns m w j 0 = 0 := Nat.count_zero _

/-- A choice is one more turn. -/
theorem turns_succ (m w j n : ℕ) :
    turns m w j (n + 1) = turns m w j n + if choice m w n = j then 1 else 0 := Nat.count_succ _ n

/-- Before the counter wraps, every choice has had its turn in each full round, and those that have
come up in the last round have had one more. -/
theorem turns_of_le (hj : j < w) (hn : n ≤ m) :
    turns m w j n = n / w + if j < n % w then 1 else 0 := by
  have hw : 0 < w := Nat.zero_lt_of_lt hj
  have hmodEq : turns m w j n = Nat.count (· ≡ j [MOD w]) n := by
    unfold turns
    rw [Nat.count_eq_card_filter_range, Nat.count_eq_card_filter_range]
    refine congrArg Finset.card (Finset.filter_congr fun i hi => ?_)
    have hlt : i < m := Nat.lt_of_lt_of_le (Finset.mem_range.1 hi) hn
    rw [choice, Nat.mod_eq_of_lt hlt, Nat.ModEq, Nat.mod_eq_of_lt hj]
  rw [hmodEq, Nat.count_modEq_card n hw, Nat.mod_eq_of_lt hj]

/-- After each wrap the choices are the same again. -/
theorem turns_mul_add (m w j q r : ℕ) :
    turns m w j (m * q + r) = q * turns m w j m + turns m w j r := by
  have hshift : ∀ n, turns m w j (m + n) = turns m w j m + turns m w j n := by
    intro n
    unfold turns choice
    rw [Nat.count_add]
    simp only [Nat.add_mod_left]
  induction q with
  | zero => simp
  | succ q ih =>
    calc turns m w j (m * (q + 1) + r) = turns m w j (m + (m * q + r)) := by
          congr 1
          ring
      _ = turns m w j m + (q * turns m w j m + turns m w j r) := by rw [hshift, ih]
      _ = (q + 1) * turns m w j m + turns m w j r := by ring

/-- Before the counter wraps, no choice is ahead of another by more than one turn. -/
theorem turns_le_of_le {i : ℕ} (hi : i < w) (hj : j < w) (hn : n ≤ m) :
    turns m w i n ≤ turns m w j n + 1 := by
  rw [turns_of_le hi hn, turns_of_le hj hn]
  split <;> split <;> omega

/-- No choice is ahead of another by more than one turn, and one more for each wrap. -/
theorem turns_le {i : ℕ} (hm : 0 < m) (hi : i < w) (hj : j < w) :
    turns m w i n ≤ turns m w j n + (n / m + 1) := by
  have hfull := turns_le_of_le hi hj (Nat.le_refl m)
  have hrest := turns_le_of_le hi hj (Nat.mod_lt n hm).le
  rw [← Nat.div_add_mod n m, turns_mul_add, turns_mul_add, Nat.div_add_mod n m]
  have hmul := Nat.mul_le_mul_left (n / m) hfull
  rw [Nat.mul_add, Nat.mul_one] at hmul
  omega

end RoundRobin
