import Mathlib

/-! Words as sets of bits: inclusion, and how the bit operations keep it. -/
namespace Kyronix.Lib.BitSet

open BitVec

variable {a b c d : UInt64}

def Within (a b : UInt64) : Prop := a &&& ~~~ b = 0

instance (a b : UInt64) : Decidable (Within a b) := inferInstanceAs (Decidable (_ = _))

theorem within_iff :
    Within a b ↔ ∀ i, i < 64 → a.toBitVec.getLsbD i = true → b.toBitVec.getLsbD i = true := by
  unfold Within
  rw [← UInt64.toBitVec_inj]
  constructor
  · intro h i hi ha
    have hbit := congrArg (fun w => BitVec.getLsbD w i) h
    simpa [hi, ha] using hbit
  · intro h
    apply eq_of_getLsbD_eq
    intro i hi
    have hbit := h i hi
    cases ha : a.toBitVec.getLsbD i with
    | false => simp [ha]
    | true => simp [ha, hi, hbit ha]

theorem within_refl (a : UInt64) : Within a a := within_iff.mpr fun _ _ h => h

theorem Within.trans (h : Within a b) (h' : Within b c) : Within a c := by
  rw [within_iff] at h h' ⊢
  exact fun i hi ha => h' i hi (h i hi ha)

theorem within_zero (b : UInt64) : Within 0 b := UInt64.zero_and

theorem Within.eq_zero (h : Within a 0) : a = 0 := by
  have hne : ~~~ (0 : UInt64) = -1 := by decide
  unfold Within at h
  rwa [hne, UInt64.and_neg_one] at h

theorem within_and_left (a b : UInt64) : Within (a &&& b) a := by
  rw [within_iff]
  intro i _ h
  simp only [UInt64.toBitVec_and, getLsbD_and, Bool.and_eq_true] at h
  exact h.1

theorem within_and_right (a b : UInt64) : Within (a &&& b) b := by
  rw [UInt64.and_comm]
  exact within_and_left b a

theorem within_and (h : Within a b) (h' : Within a c) : Within a (b &&& c) := by
  rw [within_iff] at h h' ⊢
  intro i hi ha
  simp only [UInt64.toBitVec_and, getLsbD_and, Bool.and_eq_true]
  exact ⟨h i hi ha, h' i hi ha⟩

theorem Within.mask (h : Within a b) (m : UInt64) : Within (a &&& m) (b &&& m) :=
  within_and ((within_and_left a m).trans h) (within_and_right a m)

theorem within_or (h : Within a c) (h' : Within b c) : Within (a ||| b) c := by
  rw [within_iff] at h h' ⊢
  intro i hi hab
  simp only [UInt64.toBitVec_or, getLsbD_or, Bool.or_eq_true] at hab
  exact hab.elim (h i hi) (h' i hi)

theorem within_bit {k : UInt64} (hk : k.toNat < 64) (h : b &&& 1 <<< k ≠ 0) :
    Within (1 <<< k) b := by
  have hbit : ∀ i, i < 64 → ((1 : UInt64) <<< k).toBitVec.getLsbD i = decide (i = k.toNat) := by
    intro i hi
    have hmod : k.toNat % 64 = k.toNat := Nat.mod_eq_of_lt hk
    have hpow : ((1 : UInt64) <<< k).toBitVec = BitVec.twoPow 64 k.toNat := by
      rw [UInt64.toBitVec_shiftLeft, twoPow_eq]
      simp [hmod, shiftLeft_eq']
    rw [hpow, getLsbD_twoPow]
    simp [hk, eq_comm]
  rw [within_iff]
  intro i hi hone
  rw [hbit i hi, decide_eq_true_eq] at hone
  subst hone
  by_contra hb
  apply h
  rw [← UInt64.toBitVec_inj]
  apply eq_of_getLsbD_eq
  intro j hj
  rw [UInt64.toBitVec_and, getLsbD_and, hbit j hj]
  by_cases hjk : j = k.toNat
  · subst hjk
    simp [Bool.not_eq_true _ ▸ hb]
  · simp [hjk]

end Kyronix.Lib.BitSet
