import Kyronix.Lib.Table

/-! Counted references. A resource has no more holders than its count says; one holder it may have
without being counted. -/
namespace Kyronix.Lib.Refs

open Function Finset

variable {X F : Type*} {holds : X → Option F} {count : F → ℕ} {x y : X} {f : F}

def Counted (holds : X → Option F) (count : F → ℕ) : Prop :=
  ∀ f (xs : Finset X), (∀ x ∈ xs, holds x = some f) → xs.card ≤ max 1 (count f)

theorem Counted.unique (h : Counted holds count) (hf : count f ≤ 1) (hx : holds x = some f)
    (hy : holds y = some f) : x = y := by
  classical
  by_contra hne
  have hpair : ∀ z ∈ ({x, y} : Finset X), holds z = some f := by
    intro z hz
    rcases mem_insert.mp hz with rfl | hz
    · exact hx
    · rw [mem_singleton.mp hz, hy]
  have hcard := h f {x, y} hpair
  rw [card_pair hne, max_eq_left hf] at hcard
  exact absurd hcard (by decide)

theorem Counted.sub {holds' : X → Option F} (h : Counted holds count)
    (hsub : ∀ x f, holds' x = some f → holds x = some f) : Counted holds' count :=
  fun f xs hxs => h f xs fun x hx => hsub x f (hxs x hx)

theorem Counted.recount [DecidableEq F] (h : Counted holds count) (hf : ∀ x, holds x ≠ some f)
    (c : ℕ) : Counted holds (update count f c) := by
  intro g xs hxs
  by_cases hg : g = f
  · have hempty : xs = ∅ := by
      apply eq_empty_of_forall_notMem
      intro x hx
      exact hf x (hg ▸ hxs x hx)
    rw [hempty, card_empty]
    exact Nat.zero_le _
  · rw [update_of_ne hg]
    exact h g xs hxs

section

variable [DecidableEq X]

variable (h : Counted holds count)
include h

theorem Counted.forget (x : X) : Counted (update holds x none) count :=
  h.sub fun _ _ hy => (of_update_none hy).2

theorem Counted.drop [DecidableEq F] (hx : holds x = some f) :
    Counted (update holds x none) (update count f (count f - 1)) := by
  intro g xs hxs
  have hold : ∀ y ∈ xs, y ≠ x ∧ holds y = some g := fun y hy => of_update_none (hxs y hy)
  by_cases hg : g = f
  · subst hg
    have hnot : x ∉ xs := fun hin => (hold x hin).1 rfl
    have hcard := h g (insert x xs) fun y hy => by
      rcases mem_insert.mp hy with rfl | hy
      · exact hx
      · exact (hold y hy).2
    rw [card_insert_of_notMem hnot] at hcard
    rw [update_self]
    omega
  · rw [update_of_ne hg]
    exact h g xs fun y hy => (hold y hy).2

theorem Counted.take (hf : ∀ y, holds y ≠ some f) (x : X) :
    Counted (update holds x (some f)) count := by
  intro g xs hxs
  by_cases hg : g = f
  · have hsub : xs ⊆ {x} := by
      intro y hy
      rw [mem_singleton]
      by_contra hyx
      have hyf := hxs y hy
      rw [update_of_ne hyx, hg] at hyf
      exact hf y hyf
    exact (card_le_card hsub).trans (le_max_left ..)
  · refine h g xs fun y hy => ?_
    rcases of_update (hxs y hy) with ⟨-, hyg⟩ | ⟨-, hyg⟩
    · exact absurd (Option.some.inj hyg).symm hg
    · exact hyg

theorem Counted.share [DecidableEq F] (hf : 1 ≤ count f) (x : X) :
    Counted (update holds x (some f)) (update count f (count f + 1)) := by
  intro g xs hxs
  have hold : ∀ y ∈ xs.erase x, holds y = some g := by
    intro y hy
    obtain ⟨hyx, hy⟩ := mem_erase.mp hy
    have hyg := hxs y hy
    rwa [update_of_ne hyx] at hyg
  have hcard := h g (xs.erase x) hold
  by_cases hg : g = f
  · subst hg
    rw [update_self]
    have hle := pred_card_le_card_erase (s := xs) (a := x)
    omega
  · rw [update_of_ne hg]
    have hnot : x ∉ xs := by
      intro hx
      have hxg := hxs x hx
      rw [update_self] at hxg
      exact hg (Option.some.inj hxg).symm
    rwa [erase_eq_of_notMem hnot] at hcard

end

end Kyronix.Lib.Refs
