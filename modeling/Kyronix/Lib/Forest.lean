import Mathlib

/-! Trees of pointer blocks: a table of roots, and blocks that hold the numbers of other blocks, 0
for none. An address is a root with the indices to take from it on. -/
namespace Kyronix.Lib.IndexTree

open List Function

variable {R : Type*}

def follow (mem : ℕ → ℕ → ℕ) : ℕ → List ℕ → ℕ
  | b, [] => b
  | b, i :: is => if b = 0 then 0 else follow mem (mem b i) is

theorem follow_zero (mem : ℕ → ℕ → ℕ) (is : List ℕ) : follow mem 0 is = 0 := by
  cases is with
  | nil => rfl
  | cons i is => exact if_pos rfl

theorem follow_append (mem : ℕ → ℕ → ℕ) (b : ℕ) (is js : List ℕ) :
    follow mem b (is ++ js) = follow mem (follow mem b is) js := by
  induction is generalizing b with
  | nil => rfl
  | cons i is ih =>
    rw [cons_append, follow, follow]
    split
    · rw [follow_zero]
    · exact ih _

structure Forest (R : Type*) where
  root : R → ℕ
  mem : ℕ → ℕ → ℕ

open Forest

structure Shape (R : Type*) where
  level : R → ℕ
  width : ℕ

variable {F G : Forest R} {S : Shape R} {a : R × List ℕ} {r : R} {q : List ℕ} {i x : ℕ}

def Forest.block (F : Forest R) (a : R × List ℕ) : ℕ := follow F.mem (F.root a.1) a.2

def Shape.Addr (S : Shape R) (a : R × List ℕ) : Prop :=
  a.2.length ≤ S.level a.1 ∧ ∀ i ∈ a.2, i < S.width

def Shape.Inner (S : Shape R) (a : R × List ℕ) : Prop :=
  a.2.length < S.level a.1 ∧ ∀ i ∈ a.2, i < S.width

def Shape.Leaf (S : Shape R) (a : R × List ℕ) : Prop :=
  a.2.length = S.level a.1 ∧ ∀ i ∈ a.2, i < S.width

theorem Shape.Inner.addr (h : S.Inner a) : S.Addr a := ⟨h.1.le, h.2⟩

theorem Shape.Leaf.addr (h : S.Leaf a) : S.Addr a := ⟨h.1.le, h.2⟩

theorem Shape.Leaf.not_inner (h : S.Leaf a) : ¬ S.Inner a := fun hi => hi.1.ne h.1

theorem Shape.Addr.init (h : S.Addr (r, q ++ [i])) : S.Inner (r, q) ∧ i < S.width := by
  refine ⟨⟨?_, fun j hj => h.2 j (mem_append_left _ hj)⟩, h.2 i (by simp)⟩
  have hlen := h.1
  rw [length_append, length_singleton] at hlen
  exact hlen

theorem Forest.block_snoc (F : Forest R) (r : R) (q : List ℕ) (i : ℕ) :
    F.block (r, q ++ [i]) = if F.block (r, q) = 0 then 0 else F.mem (F.block (r, q)) i :=
  follow_append F.mem (F.root r) q [i]

def Apart (S : Shape R) (F : Forest R) : Prop :=
  ∀ a b, S.Inner a → S.Inner b → F.block a ≠ 0 → F.block a = F.block b → a = b

theorem block_congr (hroot : G.root = F.root)
    (hmem : ∀ a, S.Inner a → F.block a ≠ 0 → ∀ i < S.width,
      G.mem (F.block a) i = F.mem (F.block a) i) (ha : S.Addr a) : G.block a = F.block a := by
  obtain ⟨r, q⟩ := a
  induction q using List.reverseRecOn with
  | nil => exact congrFun hroot r
  | append_singleton q i ih =>
    obtain ⟨hq, hi⟩ := ha.init
    rw [block_snoc, block_snoc, ih hq.addr]
    split
    · rfl
    · next hne => exact hmem _ hq hne i hi

theorem Apart.congr (h : Apart S F) (hblock : ∀ a, S.Addr a → G.block a = F.block a) :
    Apart S G := by
  intro a b ha hb
  rw [hblock a ha.addr, hblock b hb.addr]
  exact h a b ha hb

section Writes

variable [DecidableEq R]

def Forest.putRoot (F : Forest R) (r : R) (x : ℕ) : Forest R :=
  { F with root := update F.root r x }

def Forest.putCell (F : Forest R) (b i x : ℕ) : Forest R :=
  { F with mem := update F.mem b (update (F.mem b) i x) }

theorem block_putRoot (hx : S.level r = 0 ∨ F.root r = 0 ∧ ∀ j < S.width, F.mem x j = 0)
    (ha : S.Addr a) : (F.putRoot r x).block a = if a = (r, []) then x else F.block a := by
  obtain ⟨r', q⟩ := a
  unfold block putRoot
  dsimp only
  by_cases hr : r' = r
  · subst hr
    rw [update_self]
    cases q with
    | nil => exact (if_pos rfl).symm
    | cons j js =>
      rw [if_neg (by simp)]
      rcases hx with hx | ⟨hx, hzero⟩
      · have hlen := ha.1
        rw [hx] at hlen
        cases hlen
      · have hj : j < S.width := ha.2 j mem_cons_self
        rw [hx, follow_zero, follow, hzero j hj, follow_zero, ite_self]
  · rw [update_of_ne hr, if_neg (by simp [hr])]

theorem block_putCell (hap : Apart S F) (hq : S.Inner (r, q)) (hb : F.block (r, q) ≠ 0)
    (hx : q.length + 1 = S.level r ∨
      F.block (r, q ++ [i]) = 0 ∧ x ≠ F.block (r, q) ∧ ∀ j < S.width, F.mem x j = 0)
    (ha : S.Addr a) :
    (F.putCell (F.block (r, q)) i x).block a = if a = (r, q ++ [i]) then x else F.block a := by
  obtain ⟨r', q'⟩ := a
  induction q' using List.reverseRecOn with
  | nil =>
    rw [if_neg (by simp)]
    rfl
  | append_singleton q' j ih =>
    obtain ⟨hq', hj⟩ := ha.init
    have htarget : (r', q' ++ [j]) = (r, q ++ [i]) ↔ (r', q') = (r, q) ∧ j = i := by
      simp only [Prod.mk.injEq, append_singleton_inj, and_assoc]
    rw [block_snoc, ih hq'.addr]
    by_cases hnew : (r', q') = (r, q ++ [i])
    · -- under the new block there is nothing, as there was before
      obtain ⟨rfl, rfl⟩ := Prod.mk.inj hnew
      have hlonger : (r', q ++ [i] ++ [j]) ≠ (r', q ++ [i]) := by simp
      rw [if_pos rfl, if_neg hlonger, block_snoc F r' (q ++ [i]) j]
      rcases hx with hx | ⟨hnone, hne, hzero⟩
      · have hlen := hq'.1
        rw [length_append, length_singleton, hx] at hlen
        exact absurd hlen (lt_irrefl _)
      · rw [if_pos hnone]
        split
        · rfl
        · unfold putCell
          dsimp only
          rw [update_of_ne hne]
          exact hzero j hj
    · rw [if_neg hnew]
      by_cases hold : (r', q') = (r, q)
      · obtain ⟨rfl, rfl⟩ := Prod.mk.inj hold
        rw [if_neg hb]
        unfold putCell
        dsimp only
        rw [update_self]
        by_cases hji : j = i
        · rw [hji, update_self, if_pos rfl]
        · rw [update_of_ne hji, if_neg fun h => hji (htarget.mp h).2, F.block_snoc,
            if_neg hb]
      · rw [if_neg fun h => hold (htarget.mp h).1, F.block_snoc]
        split
        · rfl
        · next hne =>
          have hother : F.block (r', q') ≠ F.block (r, q) :=
            fun heq => hold (hap _ _ hq' hq hne heq)
          unfold putCell
          dsimp only
          rw [update_of_ne hother]

theorem Apart.update {t : R × List ℕ} (h : Apart S F)
    (hblock : ∀ a, S.Addr a → G.block a = if a = t then x else F.block a)
    (hfresh : S.Inner t → ∀ a, S.Inner a → F.block a ≠ x) : Apart S G := by
  intro a b ha hb hne heq
  rw [hblock a ha.addr] at hne heq
  rw [hblock b hb.addr] at heq
  by_cases hat : a = t
  · rw [if_pos hat] at heq
    by_cases hbt : b = t
    · exact hat.trans hbt.symm
    · rw [if_neg hbt] at heq
      exact absurd heq.symm (hfresh (hat ▸ ha) b hb)
  · rw [if_neg hat] at hne heq
    by_cases hbt : b = t
    · rw [if_pos hbt] at heq
      exact absurd heq (hfresh (hbt ▸ hb) a ha)
    · rw [if_neg hbt] at heq
      exact h a b ha hb hne heq

end Writes

variable {mem : ℕ → ℕ → ℕ} {p b d e m s t : ℕ}

def count (mem : ℕ → ℕ → ℕ) (p : ℕ) : ℕ → ℕ → ℕ
  | 0, b => if b = 0 then 0 else 1
  | d + 1, b => if b = 0 then 0 else 1 + ∑ i ∈ Finset.range p, count mem p d (mem b i)

theorem count_zero (mem : ℕ → ℕ → ℕ) (p d : ℕ) : count mem p d 0 = 0 := by
  cases d with
  | zero => rfl
  | succ d => exact if_pos rfl

def filled (p : ℕ) : ℕ → ℕ → ℕ
  | 0, m => m
  | d + 1, m => filled p d m + (m + p ^ (d + 1) - 1) / p ^ (d + 1)

def rank (p : ℕ) : List ℕ → ℕ
  | [] => 0
  | i :: is => i * p ^ is.length + rank p is

theorem rank_lt {is : List ℕ} (h : ∀ i ∈ is, i < p) : rank p is < p ^ is.length := by
  induction is with
  | nil => exact Nat.one_pos
  | cons i is ih =>
    have hi : i + 1 ≤ p := h i mem_cons_self
    have his := ih fun j hj => h j (mem_cons_of_mem i hj)
    calc rank p (i :: is) < i * p ^ is.length + p ^ is.length := Nat.add_lt_add_left his _
      _ = (i + 1) * p ^ is.length := (Nat.succ_mul _ _).symm
      _ ≤ p * p ^ is.length := Nat.mul_le_mul_right _ hi
      _ = p ^ (i :: is).length := by rw [length_cons, pow_succ, mul_comm]

def Within (mem : ℕ → ℕ → ℕ) (p d b m : ℕ) : Prop :=
  ∀ is : List ℕ, is.length = d → (∀ i ∈ is, i < p) → follow mem b is ≠ 0 → rank p is < m

def Tidy (mem : ℕ → ℕ → ℕ) (p d b : ℕ) : Prop :=
  ∀ q : List ℕ, q.length < d → (∀ i ∈ q, i < p) → follow mem b q ≠ 0 →
    ∃ is, (q ++ is).length = d ∧ (∀ i ∈ is, i < p) ∧ follow mem b (q ++ is) ≠ 0

section Children

variable {i : ℕ} {is : List ℕ}

theorem follow_cons (hb : b ≠ 0) (i : ℕ) (is : List ℕ) :
    follow mem b (i :: is) = follow mem (mem b i) is := if_neg hb

theorem rank_cons_lt_iff (hlen : is.length = d) (hlt : ∀ j ∈ is, j < p) :
    rank p (i :: is) < m ↔ rank p is < min (m - i * p ^ d) (p ^ d) := by
  have hrank := rank_lt hlt
  rw [hlen] at hrank
  rw [rank, hlen]
  omega

theorem Within.child (h : Within mem p (d + 1) b m) (hb : b ≠ 0) (hi : i < p) :
    Within mem p d (mem b i) (min (m - i * p ^ d) (p ^ d)) := by
  intro is hlen hlt hne
  rw [← rank_cons_lt_iff hlen hlt]
  apply h (i :: is) (by rw [length_cons, hlen]) (forall_mem_cons.mpr ⟨hi, hlt⟩)
  rw [follow_cons hb]
  exact hne

theorem Tidy.child (h : Tidy mem p (d + 1) b) (hb : b ≠ 0) (hi : i < p) :
    Tidy mem p d (mem b i) := by
  intro q hq hlt hne
  obtain ⟨is, hlen, his, hend⟩ := h (i :: q) (Nat.succ_lt_succ hq)
    (forall_mem_cons.mpr ⟨hi, hlt⟩) (by rw [follow_cons hb]; exact hne)
  refine ⟨is, Nat.succ.inj hlen, his, ?_⟩
  rw [cons_append, follow_cons hb] at hend
  exact hend

end Children

end Kyronix.Lib.IndexTree
