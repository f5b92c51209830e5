import Mathlib.Logic.Relation
import Mathlib.Tactic.ByContra

/-!
# Objects that are kept by references

An object lives as long as something has a reference to it: something outside of the objects that
are considered (`held`), or another object, which gives its references up when it is destroyed
(`owns`). If no reference is held from outside any more, destroying objects one after another gets
rid of the `Collectable` ones: those all of whose owners are. The others are held, or owned by one
that stays, and an object on a cycle stays (`not_collectable_of_cycle`).

A step of a program leaves an object collectable if it gives out no new reference to any
(`Collectable.step`).
-/

namespace Ownership

variable {α : Type*}

/-- The objects that are destroyed once no reference from outside is added: they are not held, and
all their owners are collectable. -/
inductive Collectable (held : α → Prop) (owns : α → α → Prop) : α → Prop
  | intro {a : α} : ¬ held a → (∀ b, owns b a → Collectable held owns b) → Collectable held owns a

variable {held held' : α → Prop} {owns owns' : α → α → Prop} {a b : α}

/-- A collectable object is not held. -/
theorem Collectable.not_held (h : Collectable held owns a) : ¬ held a := by
  cases h with
  | intro hnot _ => exact hnot

/-- The owners of a collectable object are collectable. -/
theorem Collectable.owner (h : Collectable held owns a) (hb : owns b a) :
    Collectable held owns b := by
  cases h with
  | intro _ howners => exact howners b hb

/-- What is not collectable is held, or has an owner that is not collectable. -/
theorem not_collectable_iff :
    ¬ Collectable held owns a ↔ held a ∨ ∃ b, owns b a ∧ ¬ Collectable held owns b := by
  constructor
  · intro h
    by_contra hno
    rw [not_or, not_exists] at hno
    refine h (.intro hno.1 fun b hb => ?_)
    by_contra hc
    exact hno.2 b ⟨hb, hc⟩
  · rintro (hheld | ⟨b, hb, hc⟩) h
    · exact h.not_held hheld
    · exact hc (h.owner hb)

/-- A step that gives out no new reference to a collectable object leaves it collectable. -/
theorem Collectable.step (h : Collectable held owns a)
    (hstep : ∀ x, Collectable held owns x → ¬ held' x ∧ ∀ y, owns' y x → owns y x) :
    Collectable held' owns' a := by
  -- The induction is on why the object was collectable: its owners come before it.
  induction h with
  | @intro x hnot howners ih =>
    obtain ⟨hnot', howns⟩ := hstep x (.intro hnot howners)
    exact .intro hnot' fun y hy => ih y (howns y hy)

/-- An object on a cycle of references is not collectable. -/
theorem not_collectable_of_cycle (h : Relation.TransGen owns a a) :
    ¬ Collectable held owns a := by
  intro hc
  -- The owner of the object that is next on the cycle lies on it as well, so it cannot come first.
  induction hc with
  | intro _ _ ih =>
    obtain ⟨b, hab, hba⟩ := Relation.TransGen.tail'_iff.1 h
    refine ih b hba ?_
    exact Relation.TransGen.head' hba hab

end Ownership
