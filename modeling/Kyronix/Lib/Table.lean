import Mathlib

/-! Tables with empty slots: what there is to find after a slot is written. -/
namespace Kyronix.Lib

open Function

variable {ι β : Type*} [DecidableEq ι] {t : ι → Option β} {i j : ι} {o : Option β} {b : β}

theorem of_update (h : update t i o j = some b) : j = i ∧ o = some b ∨ j ≠ i ∧ t j = some b := by
  by_cases hj : j = i
  · rw [hj, update_self] at h
    exact .inl ⟨hj, h⟩
  · rw [update_of_ne hj] at h
    exact .inr ⟨hj, h⟩

theorem of_update_none (h : update t i none j = some b) : j ≠ i ∧ t j = some b :=
  (of_update h).resolve_left fun h => nomatch h.2

theorem forall_update_some {P : ι → β → Prop} (hi : ∀ b, o = some b → P i b)
    (hother : ∀ j b, j ≠ i → t j = some b → P j b) : ∀ j b, update t i o j = some b → P j b := by
  intro j b hj
  rcases of_update hj with ⟨rfl, ho⟩ | ⟨hne, hj⟩
  · exact hi b ho
  · exact hother j b hne hj

end Kyronix.Lib
