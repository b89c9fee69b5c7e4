import Mathlib

/-! Totals over the cells of a store, and how they move when a cell is rewritten or taken into use.
Then stores of objects whose counts are those of a multiset of references. -/
namespace Kyronix.Lib.Ledger

open Function Multiset Finset

variable {ι M : Type*} {β : ι → Type*} [AddCommMonoid M]

def total (w : ∀ i, β i → M) (f : ∀ i, β i) (t : Finset ι) : M := ∑ i ∈ t, w i (f i)

variable [DecidableEq ι] {w : ∀ i, β i → M} {f : ∀ i, β i} {t : Finset ι} {i : ι}

theorem total_congr_update (hi : i ∉ t) (v : β i) : total w (update f i v) t = total w f t := by
  apply sum_congr rfl
  intro j hj
  have hne : j ≠ i := fun e => hi (e ▸ hj)
  rw [update_of_ne hne]

theorem total_update (hi : i ∈ t) (v : β i) :
    total w (update f i v) t + w i (f i) = total w f t + w i v := by
  have hrest := total_congr_update (w := w) (f := f) (notMem_erase i t) v
  have hnew := add_sum_erase t (fun j => w j (update f i v j)) hi
  have hold := add_sum_erase t (fun j => w j (f j)) hi
  unfold total at hrest ⊢
  rw [← hnew, ← hold, hrest]
  simp only [update_self]
  abel

theorem total_insert (hi : i ∉ t) (v : β i) :
    total w (update f i v) (insert i t) = total w f t + w i v := by
  have hrest := total_congr_update (w := w) (f := f) hi v
  unfold total at hrest ⊢
  rw [sum_insert hi, hrest, update_self, add_comm]

omit [DecidableEq ι] in
theorem mem_total {γ : Type*} {w : ∀ i, β i → Multiset γ} {x : γ} (hi : i ∈ t)
    (hx : x ∈ w i (f i)) : x ∈ total w f t := mem_sum.mpr ⟨i, hi, hx⟩

theorem total_update_univ [Fintype ι] (v : β i) :
    total w (update f i v) Finset.univ + w i (f i) = total w f Finset.univ + w i v :=
  total_update (mem_univ i) v

section Counts

variable {β : ℕ → Type*} {cnt : ∀ {i}, β i → ℕ} {dyn : ∀ {i}, β i → Bool}
  {cell : ∀ i, Option (β i)} {next i : ℕ} {E E' : Multiset ℕ} {b : β i}

/-- Objects numbered as they are made, with `E` all the references. Dynamic ones have exact counts,
what is referred to is there, and what is there is referred to. -/
structure Counts (cnt : ∀ {i}, β i → ℕ) (dyn : ∀ {i}, β i → Bool) (cell : ∀ i, Option (β i))
    (next : ℕ) (E : Multiset ℕ) : Prop where
  count : ∀ {i} {b : β i}, cell i = some b → dyn b = true → cnt b = E.count i
  live : ∀ {i}, i ∈ E → ∃ b, cell i = some b
  bound : ∀ {i} {b : β i}, cell i = some b → i < next
  pos : ∀ {i} {b : β i}, cell i = some b → dyn b = true → 0 < cnt b

theorem update_some_cases {i j : ℕ} {o : Option (β i)} {b : β j}
    (h : update cell i o j = some b) :
    (∃ e : i = j, e ▸ o = some b) ∨ j ≠ i ∧ cell j = some b := by
  by_cases heq : j = i
  · subst heq
    rw [update_self] at h
    exact .inl ⟨rfl, h⟩
  · rw [update_of_ne heq] at h
    exact .inr ⟨heq, h⟩

section

variable (h : Counts cnt dyn cell next E)
include h

theorem Counts.put {next' : ℕ} (hle : next ≤ next') (hi : i < next') {o : Option (β i)}
    (hc : ∀ b, o = some b → dyn b = true → cnt b = E'.count i ∧ 0 < cnt b)
    (hlive : i ∈ E' → ∃ b, o = some b) (hother : ∀ j, j ≠ i → E'.count j = E.count j) :
    Counts cnt dyn (update cell i o) next' E' where
  count := by
    intro j b hb hd
    rcases update_some_cases hb with ⟨rfl, heq⟩ | ⟨hne, hold⟩
    · exact (hc b heq hd).1
    · rw [hother j hne]
      exact h.count hold hd
  live := by
    intro j hj
    by_cases heq : j = i
    · subst heq
      rw [update_self]
      exact hlive hj
    · rw [update_of_ne heq]
      apply h.live
      rw [← count_pos] at hj ⊢
      rwa [hother j heq] at hj
  bound := by
    intro j b hb
    rcases update_some_cases hb with ⟨rfl, _⟩ | ⟨_, hold⟩
    · exact hi
    · exact (h.bound hold).trans_le hle
  pos := by
    intro j b hb hd
    rcases update_some_cases hb with ⟨rfl, heq⟩ | ⟨_, hold⟩
    · exact (hc b heq hd).2
    · exact h.pos hold hd

theorem Counts.recount (hb : cell i = some b) (b' : β i)
    (hc : dyn b' = true → cnt b' = E'.count i ∧ 0 < cnt b')
    (hother : ∀ j, j ≠ i → E'.count j = E.count j) :
    Counts cnt dyn (update cell i (some b')) next E' :=
  h.put le_rfl (h.bound hb) (by rintro _ ⟨⟩; exact hc) (fun _ => ⟨b', rfl⟩) hother

theorem Counts.create (b : β next) (hc : cnt b = 1) :
    Counts cnt dyn (update cell next (some b)) (next + 1) (next ::ₘ E) := by
  have hnone : next ∉ E := by
    intro hmem
    obtain ⟨b, hb⟩ := h.live hmem
    exact Nat.lt_irrefl _ (h.bound hb)
  refine h.put (Nat.le_succ _) (Nat.lt_succ_self _) ?_ (fun _ => ⟨b, rfl⟩)
    fun j hne => count_cons_of_ne hne E
  rintro _ ⟨⟩ _
  rw [hc, count_cons_self, count_eq_zero.mpr hnone]
  exact ⟨rfl, Nat.one_pos⟩

theorem Counts.take (hb : cell i = some b) {b' : β i} (hc : cnt b' = cnt b + 1)
    (hd : dyn b' = dyn b) :
    Counts cnt dyn (update cell i (some b')) next (i ::ₘ E) := by
  apply h.recount hb
  · intro hd'
    rw [hc, h.count hb (hd ▸ hd'), count_cons_self]
    exact ⟨rfl, Nat.succ_pos _⟩
  · exact fun j hne => count_cons_of_ne hne E

end

theorem Counts.drop (h : Counts cnt dyn cell next (i ::ₘ E)) (hb : cell i = some b) {b' : β i}
    (hc : cnt b' = cnt b - 1) (hd : dyn b' = dyn b) (hne : ¬ (cnt b = 1 ∧ dyn b = true)) :
    Counts cnt dyn (update cell i (some b')) next E := by
  apply h.recount hb
  · intro hd'
    have hdb : dyn b = true := hd ▸ hd'
    have hcount := h.count hb hdb
    rw [count_cons_self] at hcount
    have hpos := h.pos hb hdb
    have hne1 : cnt b ≠ 1 := fun h1 => hne ⟨h1, hdb⟩
    omega
  · exact fun j hne => (count_cons_of_ne hne E).symm

theorem Counts.last (h : Counts cnt dyn cell next (i ::ₘ E)) (hb : cell i = some b)
    (hc : cnt b = 1) (hd : dyn b = true) : Counts cnt dyn (update cell i none) next E := by
  have hcount := h.count hb hd
  rw [hc, count_cons_self] at hcount
  refine h.put le_rfl (h.bound hb) nofun (fun hi => ?_)
    fun j hne => (count_cons_of_ne hne E).symm
  exact absurd hi (count_eq_zero.mp (Nat.succ.inj hcount).symm)

end Counts

end Kyronix.Lib.Ledger
