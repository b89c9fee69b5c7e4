import Mathlib

/-! Rotating scans of a finite table: the first place behind a cursor that meets a condition, and
that a place that always meets it is found after at most as many scans as there are places. -/
namespace Kyronix.Lib.Rotation

open List

variable {n : ℕ} {start b c t : Fin n} {p : Fin n → Bool}

def pick (start : Fin n) (p : Fin n → Bool) : Option (Fin n) :=
  ((List.finRange n).find? fun b => decide (start ≤ b) && p b).or
    ((List.finRange n).find? fun b => decide (b < start) && p b)

def gap (start b : Fin n) : ℕ := if start ≤ b then b - start else n + b - start

def after (b : Fin n) : Fin n := ⟨(b + 1) % n, Nat.mod_lt _ (Nat.zero_lt_of_lt b.isLt)⟩

theorem gap_lt (start b : Fin n) : gap start b < n := by
  have hs := start.isLt
  have hb := b.isLt
  unfold gap
  split
  · omega
  · next h =>
    have hlt := Fin.lt_def.mp (not_le.mp h)
    omega

theorem find_finRange {q : Fin n → Bool} (h : (List.finRange n).find? q = some b) :
    q b = true ∧ ∀ c, q c = true → b ≤ c := by
  obtain ⟨hb, hmin⟩ := Fin.find?_eq_some_iff.mp (Fin.find?_eq_find?_finRange.trans h)
  refine ⟨hb, fun c hc => not_lt.mp fun hlt => ?_⟩
  rw [hmin c hlt] at hc
  cases hc

theorem find_finRange_none {q : Fin n → Bool} (h : (List.finRange n).find? q = none) (c : Fin n) :
    q c = false := by
  simpa using List.find?_eq_none.mp h c (mem_finRange c)

theorem pick_some (h : pick start p = some b) :
    p b = true ∧ ∀ c, p c = true → gap start b ≤ gap start c := by
  unfold pick at h
  rcases Option.or_eq_some_iff.mp h with h | ⟨hnone, h⟩
  · obtain ⟨hb, hmin⟩ := find_finRange h
    simp only [Bool.and_eq_true, decide_eq_true_eq] at hb hmin
    refine ⟨hb.2, fun c hc => ?_⟩
    have hbound := b.isLt
    unfold gap
    rw [if_pos hb.1]
    split
    · next hle =>
      have hbc := Fin.le_def.mp (hmin c ⟨hle, hc⟩)
      omega
    · omega
  · obtain ⟨hb, hmin⟩ := find_finRange h
    simp only [Bool.and_eq_true, decide_eq_true_eq] at hb hmin
    refine ⟨hb.2, fun c hc => ?_⟩
    have hlow : c < start := by
      by_contra hle
      have hfalse := find_finRange_none hnone c
      simp [hc, not_lt.mp hle] at hfalse
    have hbc := Fin.le_def.mp (hmin c ⟨hlow, hc⟩)
    unfold gap
    rw [if_neg hb.1.not_ge, if_neg hlow.not_ge]
    omega

theorem pick_none (h : pick start p = none) (c : Fin n) : p c = false := by
  unfold pick at h
  obtain ⟨h₁, h₂⟩ := Option.or_eq_none_iff.mp h
  have hhigh := find_finRange_none h₁ c
  have hlow := find_finRange_none h₂ c
  by_cases hle : start ≤ c
  · simpa [hle] using hhigh
  · simpa [not_le.mp hle] using hlow

theorem gap_after (hne : b ≠ t) (hle : gap start b ≤ gap start t) :
    gap (after b) t < gap start t := by
  have hs := start.isLt
  have hb := b.isLt
  have ht := t.isLt
  have hval : b.val ≠ t.val := fun h => hne (Fin.ext h)
  have hafter : (after b).val = if b.val + 1 = n then 0 else b.val + 1 := by
    unfold after
    split
    · next h => exact (congrArg (· % n) h).trans (Nat.mod_self n)
    · exact Nat.mod_eq_of_lt (by omega)
  unfold gap at hle ⊢
  simp only [Fin.le_def, hafter] at hle ⊢
  split_ifs at hle ⊢ <;> omega

def scans : Fin n → List (Fin n → Bool) → List (Option (Fin n))
  | _, [] => []
  | last, p :: ps => pick (after last) p :: scans ((pick (after last) p).getD last) ps

theorem mem_scans {last : Fin n} {ps : List (Fin n → Bool)} (hps : ∀ p ∈ ps, p t = true)
    (hlen : gap (after last) t < ps.length) : some t ∈ scans last ps := by
  induction ps generalizing last with
  | nil => cases hlen
  | cons p ps ih =>
    have hp := hps p mem_cons_self
    unfold scans
    cases hpick : pick (after last) p with
    | none => exact absurd hp (by simp [pick_none hpick t])
    | some b =>
      by_cases hbt : b = t
      · rw [hbt]
        exact mem_cons_self
      · have hgap := gap_after hbt ((pick_some hpick).2 t hp)
        rw [length_cons] at hlen
        exact mem_cons_of_mem _ (ih (fun q hq => hps q (mem_cons_of_mem p hq)) (by
          rw [Option.getD_some]
          omega))

end Kyronix.Lib.Rotation
