import Mathlib

/-! Counted dependencies. Each node lists the nodes it depends on, and each has a count of the
nodes that list it. -/
namespace Kyronix.Lib.Deps

open Function Finset

variable {N : Type*} [Fintype N] [DecidableEq N] {deps : N → List N} {users : N → ℕ} {c p : N}

def dependants (deps : N → List N) (p : N) : Finset N := Finset.univ.filter (p ∈ deps ·)

theorem mem_dependants : c ∈ dependants deps p ↔ p ∈ deps c := by
  rw [dependants, mem_filter]
  exact and_iff_right (mem_univ c)

structure Counted (deps : N → List N) (users : N → ℕ) : Prop where
  nodup : ∀ c, (deps c).Nodup
  users : ∀ p, users p = (dependants deps p).card

section

variable (h : Counted deps users)
include h

theorem Counted.notMem_of_zero (hp : users p = 0) (c : N) : p ∉ deps c := by
  intro hc
  rw [h.users p, card_eq_zero] at hp
  have hmem := mem_dependants.mpr hc
  rw [hp] at hmem
  exact notMem_empty c hmem

theorem Counted.zero (hp : ∀ c, p ∉ deps c) : users p = 0 := by
  rw [h.users p, card_eq_zero]
  exact eq_empty_of_forall_notMem fun c hc => hp c (mem_dependants.mp hc)

theorem Counted.depend (hp : p ∉ deps c) :
    Counted (update deps c (deps c ++ [p])) (update users p (users p + 1)) := by
  refine ⟨fun d => ?_, fun q => ?_⟩
  · by_cases hd : d = c
    · subst hd
      simpa [List.nodup_append, h.nodup d] using fun a ha => ne_of_mem_of_not_mem ha hp
    · simpa [hd] using h.nodup d
  · have hmem : ∀ d, q ∈ update deps c (deps c ++ [p]) d ↔ q ∈ deps d ∨ d = c ∧ q = p := by
      intro d
      by_cases hd : d = c
      · subst hd
        simp
      · simp [hd]
    by_cases hq : q = p
    · subst hq
      have hins : dependants (update deps c (deps c ++ [q])) q =
          insert c (dependants deps q) := by
        ext d
        simp [mem_dependants, hmem, or_comm]
      have hnot : c ∉ dependants deps q := fun hc => hp (mem_dependants.mp hc)
      rw [update_self, hins, card_insert_of_notMem hnot, h.users q]
    · have hsame : dependants (update deps c (deps c ++ [p])) q = dependants deps q := by
        ext d
        simp [mem_dependants, hmem, hq]
      rw [update_of_ne hq, hsame, h.users q]

theorem Counted.forget (c : N) :
    Counted (update deps c []) (fun p => users p - (deps c).count p) := by
  refine ⟨fun d => ?_, fun q => ?_⟩
  · by_cases hd : d = c
    · simp [hd]
    · simpa [hd] using h.nodup d
  · have hleft : dependants (update deps c []) q = (dependants deps q).erase c := by
      ext d
      by_cases hd : d = c <;> simp [mem_dependants, hd]
    rw [hleft, h.users q]
    by_cases hq : q ∈ deps c
    · rw [List.count_eq_one_of_mem (h.nodup c) hq,
        card_erase_of_mem (mem_dependants.mpr hq)]
    · rw [List.count_eq_zero_of_not_mem hq, Nat.sub_zero,
        erase_eq_of_notMem fun hc => hq (mem_dependants.mp hc)]

end

omit [Fintype N] [DecidableEq N] in
theorem acyclic_of_rank {r : N → N → Prop} {rank : N → ℕ} (h : ∀ c p, r c p → rank p < rank c)
    (m : N) : ¬ Relation.TransGen r m m := by
  intro hm
  have hlt : ∀ {c p}, Relation.TransGen r c p → rank p < rank c := by
    intro c p hcp
    induction hcp with
    | single hstep => exact h _ _ hstep
    | tail _ hstep ih => exact (h _ _ hstep).trans ih
  exact lt_irrefl _ (hlt hm)

omit [Fintype N] [DecidableEq N] in
theorem not_stuck_of_acyclic [Finite N] {r : N → N → Prop} (hr : ∀ x, ¬ Relation.TransGen r x x)
    {P : ℕ → N → Prop} (hP : ∀ n x, P (n + 1) x → ∃ y, r x y ∧ P n y) (x : N) :
    ¬ P (Nat.card N) x := by
  have hlt : ∀ x y, r x y →
      {z | Relation.TransGen r y z}.ncard < {z | Relation.TransGen r x z}.ncard :=
    fun x y hxy => Set.ncard_lt_ncard ⟨fun z hz => .head hxy hz, fun h => hr y (h (.single hxy))⟩
  have hle : ∀ n x, P n x → n ≤ {z | Relation.TransGen r x z}.ncard := by
    intro n
    induction n with
    | zero => exact fun _ _ => Nat.zero_le _
    | succ n ih =>
      intro x hx
      obtain ⟨y, hxy, hy⟩ := hP n x hx
      exact (ih y hy).trans_lt (hlt x y hxy)
  intro hx
  have hself : {z | Relation.TransGen r x z} ≠ Set.univ := fun h => hr x (h ▸ Set.mem_univ x :)
  exact absurd (hle _ x hx) (Set.ncard_lt_card hself).not_ge

end Kyronix.Lib.Deps
