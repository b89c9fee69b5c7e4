import Kyronix.Fs.Ext2Map

/-! How many blocks an inode has, and what `i_blocks` says (`ext2_reg_write`, `ext2_reg_truncate`,
`ext2_write_file`). Calls that fail are not followed; the bytes that are written are a parameter. -/
namespace Kyronix.Fs.Ext2

open Lib.IndexTree Function List Vol

variable {v w : Vol} {ino ino' : Inode} {p bi n b x : ℕ} {r : Fin 15} {is : List ℕ}

namespace Vol

def inodeSize64 (v : Vol) (ino : Inode) : ℕ :=
  if v.largeFile && ino.regular then ino.iSize ||| ino.iDirAcl <<< 32 else ino.iSize

def blocksOf (v : Vol) (size : ℕ) : ℕ := (size + v.blockSize - 1) % 2 ^ 64 / v.blockSize % 2 ^ 32

/-- Index blocks are at one place and hold no data. -/
structure Mapped (v : Vol) (ino : Inode) : Prop where
  apart : Apart (shape v.ptrs) (v.forest ino)
  own : ∀ a, (shape v.ptrs).Leaf a → v.block ino a ≠ 0 →
    ∀ c, (shape v.ptrs).Inner c → v.block ino c ≠ v.block ino a

def Marked (v : Vol) (ino : Inode) : Prop :=
  ∀ a, (shape v.ptrs).Addr a → v.block ino a ≠ 0 → v.InUse (v.block ino a)

/-- No index block is there for nothing. -/
def Tidy (v : Vol) (ino : Inode) : Prop :=
  ∀ a, (shape v.ptrs).Inner a → v.block ino a ≠ 0 →
    ∃ t, (shape v.ptrs).Leaf t ∧ a.1 = t.1 ∧ a.2 <+: t.2 ∧ v.block ino t ≠ 0

/-- Block `bi` is there, or `alloc_block` and `set_block_ptr` can give the inode one. -/
def Ready (v : Vol) (ino : Inode) (bi : ℕ) : Prop :=
  v.getBlockNr ino bi ≠ 0 ∨
    v.Numbered ∧ v.Marked ino ∧ (v.Complete ino (blockPath v.ptrs bi) ∨ v.Plain)

end Vol

theorem mul_add_div (i : ℕ) {j : ℕ} (hj : j < p) : (i * p + j) / p = i := by
  rw [mul_comm, Nat.mul_add_div (by omega), Nat.div_eq_of_lt hj, add_zero]

namespace Vol

section Congr

variable (hblock : ∀ a, (shape v.ptrs).Addr a → w.block ino' a = v.block ino a)
include hblock

theorem Mapped.congr (h : v.Mapped ino) (hp : w.ptrs = v.ptrs) : w.Mapped ino' := by
  have hap : Apart (shape v.ptrs) (w.forest ino') := h.apart.congr hblock
  refine ⟨hp.symm ▸ hap, fun a ha hne c hc => ?_⟩
  rw [hp] at ha hc
  rw [hblock a ha.addr] at hne ⊢
  rw [hblock c hc.addr]
  exact h.own a ha hne c hc

theorem Marked.congr (h : v.Marked ino) (hg : Grown v w) : w.Marked ino' := by
  intro a ha hne
  rw [hg.ptrs] at ha
  rw [hblock a ha] at hne ⊢
  exact hg.inUse (h a ha hne)

theorem Tidy.congr (h : v.Tidy ino) (hp : w.ptrs = v.ptrs) : w.Tidy ino' := by
  intro a ha hne
  rw [hp] at ha ⊢
  rw [hblock a ha.addr] at hne
  obtain ⟨t, ht, hr, hpre, hend⟩ := h a ha hne
  refine ⟨t, ht, hr, hpre, ?_⟩
  rw [hblock t ht.addr]
  exact hend

end Congr

theorem Marked.index (h : v.Marked ino) : v.IndexUsed ino := fun a ha => h a ha.addr

theorem Marked.alloc (h : v.Marked ino) (hf : Taken v w x) (hx : x ≠ 0) (a : Fin 15 × List ℕ)
    (ha : (shape v.ptrs).Inner a) : w.block ino a ≠ x := by
  intro heq
  rw [h.index.alloc hf ha.addr] at heq
  exact hf.free (heq ▸ h.index a ha (heq ▸ hx))

structure Added (v w : Vol) (ino ino' : Inode) (t : Fin 15 × List ℕ) (b : ℕ) : Prop where
  mapped : w.Mapped ino'
  marked : w.Marked ino'
  tidy : v.Tidy ino → w.Tidy ino'
  apart : ∀ c, (shape v.ptrs).Inner c → w.block ino' c ≠ b
  leaf : ∀ a, (shape v.ptrs).Leaf a → (w.block ino' a ≠ 0 ↔ v.block ino a ≠ 0 ∨ a = t)

theorem Sets.added {t : Fin 15 × List ℕ} (hset : Sets v w ino ino' t b) (h : v.Mapped ino)
    (hm : v.Marked ino) (ht : (shape v.ptrs).Leaf t) (hb : b ≠ 0) (huse : v.InUse b)
    (hin : ∀ c, (shape v.ptrs).Inner c → v.block ino c ≠ b) : Added v w ino ino' t b := by
  have hg := hset.grown
  have hinner : ∀ c, (shape v.ptrs).Inner c → ∀ y, v.InUse y →
      (v.block ino c ≠ y) → w.block ino' c ≠ y := by
    intro c hc y hy hne
    rcases hset.inner c hc with heq | ⟨-, -, hfree, -⟩
    · rw [heq]
      exact hne
    · intro heq
      exact hfree (heq ▸ hy)
  have hleaf : ∀ a, (shape v.ptrs).Leaf a → (w.block ino' a ≠ 0 ↔ v.block ino a ≠ 0 ∨ a = t) := by
    intro a ha
    rw [hset.leaf a ha]
    split
    · next heq => exact iff_of_true hb (.inr heq)
    · next hne => simp [hne]
  have hnot : ∀ c, (shape v.ptrs).Inner c → w.block ino' c ≠ b :=
    fun c hc => hinner c hc b huse (hin c hc)
  have hdata : ∀ a, (shape v.ptrs).Leaf a → w.block ino' a ≠ 0 → v.InUse (w.block ino' a) ∧
      ∀ c, (shape v.ptrs).Inner c → w.block ino' c ≠ w.block ino' a := by
    intro a ha hne
    rw [hset.leaf a ha] at hne ⊢
    split
    · exact ⟨huse, hnot⟩
    · next hat =>
      rw [if_neg hat] at hne
      have hused := hm a ha.addr hne
      exact ⟨hused, fun c hc => hinner c hc _ hused (h.own a ha hne c hc)⟩
  refine ⟨⟨hset.apart, fun a ha hne c hc => ?_⟩, fun a ha hne => ?_, fun htidy a ha hne => ?_, hnot,
    hleaf⟩
  · rw [hg.ptrs] at ha hc
    exact (hdata a ha hne).2 c hc
  · rcases ha.1.lt_or_eq with hlt | heq
    · exact hset.used hm.index a ⟨hlt, ha.2⟩ hne
    · rw [hg.ptrs] at ha heq
      exact hg.inUse (hdata a ⟨heq, ha.2⟩ hne).1
  · rw [hg.ptrs] at ha ⊢
    rcases hset.inner a ha with heq | ⟨-, -, -, hr, hpre⟩
    · rw [heq] at hne
      obtain ⟨t', ht', hr, hpre, hend⟩ := htidy a ha hne
      exact ⟨t', ht', hr, hpre, (hleaf t' ht').mpr (.inl hend)⟩
    · exact ⟨t, ht, hr, hpre, (hleaf t ht).mpr (.inr rfl)⟩

structure SameSize (ino ino' : Inode) : Prop where
  iSize : ino'.iSize = ino.iSize
  iDirAcl : ino'.iDirAcl = ino.iDirAcl
  regular : ino'.regular = ino.regular

theorem SameSize.trans {jno : Inode} (h : SameSize ino jno) (h' : SameSize jno ino') :
    SameSize ino ino' :=
  ⟨h'.iSize.trans h.iSize, h'.iDirAcl.trans h.iDirAcl, h'.regular.trans h.regular⟩

structure Wrote (v w : Vol) (ino ino' : Inode) (bis : List ℕ) : Prop where
  grown : Grown v w
  size : SameSize ino ino'
  mapped : w.Mapped ino'
  marked : v.Marked ino → w.Marked ino'
  tidy : v.Tidy ino → w.Tidy ino'
  inner : ∀ a, (shape v.ptrs).Inner a → v.block ino a ≠ 0 → w.block ino' a ≠ 0
  blocks : ∀ bi, bi < blockLimit v.ptrs →
    (w.getBlockNr ino' bi ≠ 0 ↔ v.getBlockNr ino bi ≠ 0 ∨ bi ∈ bis)

theorem Wrote.ready {bis : List ℕ} (h : Wrote v w ino ino' bis) (hbi : bi < blockLimit v.ptrs)
    (hr : v.Ready ino bi) : w.Ready ino' bi := by
  refine hr.imp (fun hthere => (h.blocks bi hbi).mpr (.inl hthere)) ?_
  rintro ⟨hv, hm, hmore⟩
  refine ⟨hv.alike h.grown.toAlike, h.marked hm, hmore.imp (fun hall q hq hpre => ?_)
    fun hplain => hplain.alike h.grown.toAlike⟩
  rw [h.grown.ptrs] at hq hpre ⊢
  exact h.inner _ hq (hall q hq hpre)

section Empty

variable (v) (h : ∀ r, ino.iBlock r = 0)
include h

theorem Mapped.empty : v.Mapped ino :=
  ⟨(IndexOk.empty v h).apart, fun _ _ hne => absurd (v.block_zero (h _)) hne⟩

theorem Marked.empty : v.Marked ino :=
  fun _ _ hne => absurd (v.block_zero (h _)) hne

theorem Tidy.empty : v.Tidy ino := fun _ _ hne => absurd (v.block_zero (h _)) hne

end Empty

theorem Ready.empty (hr : v.Ready ino bi) (h : ∀ r, ino.iBlock r = 0) (ha : Alike v w)
    (h' : ∀ r, ino'.iBlock r = 0) : w.Ready ino' bi := by
  refine hr.imp (fun hne => ?_) ?_
  · rw [getBlockNr_eq] at hne
    exact absurd (v.block_zero (h _)) hne
  · rintro ⟨hv, -, hmore⟩
    refine ⟨hv.alike ha, .empty w h', hmore.imp (fun hall q hq hpre => ?_) fun hplain =>
      hplain.alike ha⟩
    rw [ha.ptrs] at hq hpre
    exact absurd (v.block_zero (h _)) (hall q hq hpre)

def Sized (v : Vol) : Prop := ∃ k ≤ 2, v.blockSize = 1024 * 2 ^ k

theorem Sized.ptrs (h : v.Sized) : 0 < v.ptrs ∧ v.ptrs ≤ 1024 ∧ 512 ∣ v.blockSize := by
  obtain ⟨k, hk, hbs⟩ := h
  unfold Vol.ptrs
  rw [hbs]
  interval_cases k <;> decide

theorem Alike.blocksOf (h : Alike v w) (size : ℕ) : w.blocksOf size = v.blocksOf size := by
  unfold Vol.blocksOf
  rw [h.blockSize]

theorem Alike.inodeSize64 (h : Alike v w) (hs : SameSize ino ino') :
    w.inodeSize64 ino' = v.inodeSize64 ino := by
  unfold Vol.inodeSize64
  rw [h.largeFile, hs.regular, hs.iSize, hs.iDirAcl]

theorem Sized.alike (hs : v.Sized) (h : Alike v w) : w.Sized := by
  obtain ⟨k, hk, hbs⟩ := hs
  exact ⟨k, hk, h.blockSize.trans hbs⟩

section Calls

variable {inoNr off len size : ℕ} {patch : Chunk → (ℕ → ℕ) → ℕ → ℕ}

end Calls

end Vol

end Kyronix.Fs.Ext2
