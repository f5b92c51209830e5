import Mathlib.Data.List.Rotate

/-!
# Words on a circle

What goes round has no first letter: it is a word up to rotation. `Within w u` says that `w` comes
from `u`, with both on a circle, by leaving out letters; so no letter comes twice and the order
around the circle is kept. Going on along the circle changes nothing of this (`Within.rotate`).
-/

namespace Circle

open List (IsRotated)

variable {α : Type*} {w w' u : List α}

/-- A word on a circle comes from another one by leaving out letters. -/
def Within (w u : List α) : Prop := ∃ v : List α, IsRotated v u ∧ w.Sublist v

/-- Nothing has been left out yet. -/
theorem within_self (u : List α) : Within u u := ⟨u, .refl u, .refl u⟩

/-- More letters may be left out. -/
theorem Within.sublist (h : Within w u) (hsub : w'.Sublist w) : Within w' u := by
  obtain ⟨v, hv, hw⟩ := h
  exact ⟨v, hv, hsub.trans hw⟩

/-- It does not matter where the word is cut open. -/
theorem Within.rotate (h : Within w u) (hrot : IsRotated w' w) : Within w' u := by
  obtain ⟨v, hv, hw⟩ := h
  obtain ⟨n, rfl⟩ := hrot.symm
  rw [List.rotate_eq_drop_append_take_mod]
  rw [← List.take_append_drop (n % w.length) w, List.append_sublist_iff] at hw
  obtain ⟨x, y, rfl, hx, hy⟩ := hw
  exact ⟨y ++ x, List.isRotated_append.trans hv, hy.append hx⟩

end Circle
