import Mathlib.Data.Nat.Digits.Lemmas
import Mathlib.Data.List.Basic
import Mathlib.Tactic.IntervalCases

/-!
# Numerals with separators

Texts such as `192.168.0.1` and `2001:db8:1:2`: numbers written in a base of at most sixteen, with a
separator between them. `write` gives the text and `read` takes it apart; `read_write` says that
nothing is lost, and `length_write_lt` how long the text is.
-/

namespace Numerals

/-- The value of a digit, in either case. -/
def digitValue (c : Char) : Option ℕ :=
  if '0' ≤ c ∧ c ≤ '9' then some (c.toNat - '0'.toNat)
  else if 'a' ≤ c ∧ c ≤ 'f' then some (c.toNat - 'a'.toNat + 10)
  else if 'A' ≤ c ∧ c ≤ 'F' then some (c.toNat - 'A'.toNat + 10)
  else none

/-- A numeral without leading zeros. -/
def numeral (base n : ℕ) : List Char :=
  if n = 0 then ['0'] else ((Nat.digits base n).map Nat.digitChar).reverse

/-- A numeral, read on from a number. -/
def valueFrom (base : ℕ) : ℕ → List Char → Option ℕ
  | n, [] => some n
  | n, c :: cs =>
    match digitValue c with
    | some d => if d < base then valueFrom base (base * n + d) cs else none
    | none => none

/-- The value of a numeral. -/
def value (base : ℕ) (cs : List Char) : Option ℕ :=
  if cs = [] then none else valueFrom base 0 cs

/-- The text of some numbers. -/
def write (base : ℕ) (sep : Char) (ns : List ℕ) : List Char :=
  [sep].intercalate (ns.map (numeral base))

/-- The numbers of a text. -/
def read (base : ℕ) (sep : Char) (cs : List Char) : Option (List ℕ) :=
  (cs.splitOn sep).mapM (value base)

variable {base n : ℕ} {sep : Char} {ns : List ℕ} {cs : List Char}

/-- Digits can be read. -/
theorem digitValue_digitChar {d : ℕ} (hd : d < 16) : digitValue d.digitChar = some d := by
  interval_cases d <;> rfl

/-- Reading goes on from what has been read. -/
theorem valueFrom_append (xs ys : List Char) (m : ℕ) :
    valueFrom base m (xs ++ ys) = (valueFrom base m xs).bind fun k => valueFrom base k ys := by
  induction xs generalizing m with
  | nil => rfl
  | cons c xs ih =>
    rw [List.cons_append, valueFrom, valueFrom]
    split
    · split
      · exact ih _
      · rfl
    · rfl

/-- The digits of a number, most significant first, are read as the number. -/
theorem valueFrom_digits (hbase : base ≤ 16) (ds : List ℕ) (hds : ∀ d ∈ ds, d < base) :
    valueFrom base 0 (ds.map Nat.digitChar).reverse = some (Nat.ofDigits base ds) := by
  -- The least significant digit comes first in the list, and is read last.
  induction ds with
  | nil => rfl
  | cons d ds ih =>
    have hd : d < base := hds d (List.mem_cons_self ..)
    rw [List.map_cons, List.reverse_cons, valueFrom_append,
      ih fun x hx => hds x (List.mem_cons_of_mem _ hx), Option.bind_some, valueFrom,
      digitValue_digitChar (Nat.lt_of_lt_of_le hd hbase)]
    simp only [hd, if_true, valueFrom, Nat.ofDigits_cons]
    rw [Nat.add_comm]

/-- A numeral can be read. -/
theorem value_numeral (hlt : 1 < base) (hbase : base ≤ 16) (n : ℕ) :
    value base (numeral base n) = some n := by
  unfold numeral
  split
  · subst n
    have hzero : value base ['0'] = valueFrom base 0 ['0'] := rfl
    rw [hzero, valueFrom, show digitValue '0' = some 0 from rfl]
    simp [valueFrom, Nat.lt_trans Nat.zero_lt_one hlt]
  · rename_i hn
    have hne : ((Nat.digits base n).map Nat.digitChar).reverse ≠ [] := by
      simpa [Nat.digits_eq_nil_iff_eq_zero] using hn
    rw [value, if_neg hne, valueFrom_digits hbase _ fun d hd => Nat.digits_lt_base hlt hd,
      Nat.ofDigits_digits]

/-- Every character of a numeral is a digit. -/
theorem digitValue_of_mem (hlt : 1 < base) (hbase : base ≤ 16) {c : Char}
    (hc : c ∈ numeral base n) : digitValue c ≠ none := by
  unfold numeral at hc
  split at hc
  · obtain rfl := List.mem_singleton.1 hc
    simp [digitValue]
  · obtain ⟨d, hd, rfl⟩ := List.mem_map.1 (List.mem_reverse.1 hc)
    rw [digitValue_digitChar (Nat.lt_of_lt_of_le (Nat.digits_lt_base hlt hd) hbase)]
    simp

/-- Every character of a numeral is one of the digits of the base. -/
theorem exists_digit_of_mem (hlt : 1 < base) {c : Char} (hc : c ∈ numeral base n) :
    ∃ d < base, d.digitChar = c := by
  unfold numeral at hc
  split at hc
  · obtain rfl := List.mem_singleton.1 hc
    exact ⟨0, Nat.lt_trans Nat.zero_lt_one hlt, rfl⟩
  · obtain ⟨d, hd, rfl⟩ := List.mem_map.1 (List.mem_reverse.1 hc)
    exact ⟨d, Nat.digits_lt_base hlt hd, rfl⟩

/-- A numeral has a digit. -/
theorem numeral_ne_nil : numeral base n ≠ [] := by
  unfold numeral
  split
  · exact List.cons_ne_nil _ _
  · simpa [Nat.digits_eq_nil_iff_eq_zero]

/-- What has been written can be read. -/
theorem read_write (hlt : 1 < base) (hbase : base ≤ 16) (hsep : digitValue sep = none)
    (hns : ns ≠ []) : read base sep (write base sep ns) = some ns := by
  have hnot : ∀ l ∈ ns.map (numeral base), sep ∉ l := by
    intro l hl hmem
    obtain ⟨n, -, rfl⟩ := List.mem_map.1 hl
    exact digitValue_of_mem hlt hbase hmem hsep
  rw [read, write, List.splitOn_intercalate sep hnot (by simpa using hns)]
  clear hnot hns
  induction ns with
  | nil => rfl
  | cons n ns ih => simp [value_numeral hlt hbase, ih]

/-- Every character of a numeral that can be read is a digit. -/
theorem digitValue_of_valueFrom {m k : ℕ} (h : valueFrom base m cs = some k) {c : Char}
    (hc : c ∈ cs) : digitValue c ≠ none := by
  induction cs generalizing m with
  | nil => cases hc
  | cons x cs ih =>
    rw [valueFrom] at h
    split at h
    · rename_i d hd
      split at h
      · rcases List.mem_cons.1 hc with rfl | hc
        · simp [hd]
        · exact ih h hc
      · cases h
    · cases h

/-- The characters of a joined text. -/
theorem mem_intercalate {c : Char} {ls : List (List Char)} (h : c ∈ [sep].intercalate ls) :
    c = sep ∨ ∃ l ∈ ls, c ∈ l := by
  induction ls with
  | nil => cases h
  | cons l ls ih =>
    cases ls with
    | nil =>
      rw [List.intercalate_singleton] at h
      exact .inr ⟨l, List.mem_cons_self .., h⟩
    | cons l' ls =>
      rw [List.intercalate_cons_cons] at h
      rcases List.mem_append.1 h with h | h
      · rcases List.mem_append.1 h with h | h
        · exact .inr ⟨l, List.mem_cons_self .., h⟩
        · exact .inl (List.mem_singleton.1 h)
      · rcases ih h with heq | ⟨x, hx, hc⟩
        · exact .inl heq
        · exact .inr ⟨x, List.mem_cons_of_mem _ hx, hc⟩

/-- The numbers of a text are the values of its pieces. -/
theorem forall₂_of_read (h : read base sep cs = some ns) :
    List.Forall₂ (fun l n => value base l = some n) (cs.splitOn sep) ns := by
  rw [read] at h
  generalize cs.splitOn sep = ls at h
  induction ls generalizing ns with
  | nil =>
    obtain rfl := Option.some.inj h
    exact .nil
  | cons l ls ih =>
    simp only [List.mapM_cons, Option.pure_def, Option.bind_eq_bind, Option.bind_eq_some_iff] at h
    obtain ⟨n, hn, ns', hns', heq⟩ := h
    obtain rfl := Option.some.inj heq
    exact .cons hn (ih hns')

/-- A text that can be read is one of digits and separators. -/
theorem digitValue_of_read (h : read base sep cs = some ns) {c : Char} (hc : c ∈ cs) :
    c = sep ∨ digitValue c ≠ none := by
  have hjoin : [sep].intercalate (cs.splitOn sep) = cs := List.intercalate_splitOn sep
  rw [← hjoin] at hc
  refine (mem_intercalate hc).imp_right ?_
  rintro ⟨l, hl, hc⟩
  have hread : ∀ l ∈ cs.splitOn sep, value base l ≠ none := by
    have hboth := (forall₂_of_read h).imp fun l n hn =>
      show value base l ≠ none ∧ value base l = some n from ⟨by simp [hn], hn⟩
    exact ((List.forall₂_and_left _ _).1 hboth).1
  obtain ⟨n, hn⟩ := Option.ne_none_iff_exists'.1 (hread l hl)
  rw [value] at hn
  split at hn
  · cases hn
  · exact digitValue_of_valueFrom hn hc

/-- How long a numeral is. -/
theorem length_numeral_le {k : ℕ} (hlt : 1 < base) (hk : 0 < k) (hn : n < base ^ k) :
    (numeral base n).length ≤ k := by
  unfold numeral
  split
  · exact hk
  · rw [List.length_reverse, List.length_map]
    exact (Nat.digits_length_le_iff hlt n).2 hn

/-- How long a text is. -/
theorem length_write_lt {k : ℕ} (hlt : 1 < base) (hk : 0 < k) (hne : ns ≠ [])
    (hns : ∀ n ∈ ns, n < base ^ k) : (write base sep ns).length < (k + 1) * ns.length := by
  unfold write
  induction ns with
  | nil => exact absurd rfl hne
  | cons n ns ih =>
    have hn := length_numeral_le hlt hk (hns n (List.mem_cons_self ..))
    rw [List.map_cons, List.length_cons, Nat.mul_add, Nat.mul_one]
    cases ns with
    | nil =>
      rw [List.map_nil, List.intercalate_singleton]
      omega
    | cons m ns =>
      have hrest := ih (List.cons_ne_nil _ _) fun x hx => hns x (List.mem_cons_of_mem _ hx)
      rw [List.map_cons] at hrest ⊢
      rw [List.intercalate_cons_cons, List.length_append, List.length_append, List.length_singleton]
      omega

end Numerals
