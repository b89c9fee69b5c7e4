import Mathlib

/-! The 64-bit machine word as a linear order, and additions on it that do not wrap. -/
namespace Kyronix.Lib.Word

scoped instance linearOrder : LinearOrder UInt64 where
  le_refl := UInt64.le_refl
  le_trans := @UInt64.le_trans
  le_antisymm := @UInt64.le_antisymm
  le_total := UInt64.le_total
  lt_iff_le_not_ge a b := by
    simp only [UInt64.lt_iff_toNat_lt, UInt64.le_iff_toNat_le]
    omega
  toDecidableLE := inferInstance
  toDecidableLT := inferInstance
  toDecidableEq := inferInstance
  min_def _ _ := rfl
  max_def _ _ := rfl
  compare_eq_compareOfLessAndEq _ _ := by with_unfolding_all rfl

theorem toNat_add_of_lt {a b : UInt64} (h : a < a + b) : (a + b).toNat = a.toNat + b.toNat := by
  have hlt := UInt64.lt_iff_toNat_lt.mp h
  have ha := a.toNat_lt
  have hb := b.toNat_lt
  rw [UInt64.toNat_add] at hlt ⊢
  rcases Nat.lt_or_ge (a.toNat + b.toNat) (2 ^ 64) with hs | hs
  · exact Nat.mod_eq_of_lt hs
  · rw [Nat.mod_eq_sub_mod hs, Nat.mod_eq_of_lt (by omega)] at hlt
    omega

end Kyronix.Lib.Word
