import Mathlib

/-! The blocks of an ext2 volume and their allocation (`ext2.c`). The metadata cache is transparent,
so a block is what was last written to it. A transfer whose failure the code ignores is a parameter
where index blocks depend on it; one that fails changes nothing. The bitmaps and the group
descriptors are kept beside the blocks. -/
namespace Kyronix.Fs.Ext2

open Function

/-- What a call of `alloc_block` meets: whether the copy of the bitmap of a group gets its memory
and both transfers, whether the block of zeros gets memory and is written, and whether
`set_block_ptr` then gets the new block written into the index block above it. -/
structure AllocEnv where
  bitmap : ℕ → Bool
  read : ℕ → Bool
  write : ℕ → Bool
  zeros : Bool
  linked : Bool

/-- `mem` are the 32-bit words of the blocks, `bits` the bitmap of each group, and `env` is what
each call of `alloc_block` meets, `allocs` of which were made. -/
structure Vol where
  blockSize : ℕ
  blocksPerGroup : ℕ
  inodesPerGroup : ℕ
  firstDataBlock : ℕ
  blocksCount : ℕ
  largeFile : Bool
  mem : ℕ → ℕ → ℕ
  bits : ℕ → ℕ → Bool
  freeBlocks : ℕ → ℕ
  hints : ℕ → ℕ
  env : ℕ → AllocEnv
  allocs : ℕ

namespace Vol

variable {v w : Vol} {b x : ℕ}

/-- The bit of the block is set; what comes before the first data block has no bit. -/
def InUse (v : Vol) (b : ℕ) : Prop :=
  b < v.firstDataBlock ∨
    v.bits ((b - v.firstDataBlock) / v.blocksPerGroup)
      ((b - v.firstDataBlock) % v.blocksPerGroup) = true

instance (v : Vol) (b : ℕ) : Decidable (v.InUse b) := inferInstanceAs (Decidable (_ ∨ _))

structure Alike (v w : Vol) : Prop where
  blockSize : w.blockSize = v.blockSize
  blocksPerGroup : w.blocksPerGroup = v.blocksPerGroup
  firstDataBlock : w.firstDataBlock = v.firstDataBlock
  largeFile : w.largeFile = v.largeFile
  env : w.env = v.env

structure Grown (v w : Vol) : Prop extends Alike v w where
  bits : ∀ g i, v.bits g i = true → w.bits g i = true

theorem Alike.refl (v : Vol) : Alike v v := ⟨rfl, rfl, rfl, rfl, rfl⟩

theorem Alike.trans {u : Vol} (h : Alike v w) (h' : Alike w u) : Alike v u where
  blockSize := h'.blockSize.trans h.blockSize
  blocksPerGroup := h'.blocksPerGroup.trans h.blocksPerGroup
  firstDataBlock := h'.firstDataBlock.trans h.firstDataBlock
  largeFile := h'.largeFile.trans h.largeFile
  env := h'.env.trans h.env

theorem Grown.refl (v : Vol) : Grown v v := ⟨.refl v, fun _ _ => id⟩

theorem Grown.trans {u : Vol} (h : Grown v w) (h' : Grown w u) : Grown v u :=
  ⟨h.toAlike.trans h'.toAlike, fun g i hi => h'.bits g i (h.bits g i hi)⟩

theorem Grown.inUse (h : Grown v w) (hb : v.InUse b) : w.InUse b := by
  unfold InUse at hb ⊢
  rw [h.firstDataBlock, h.blocksPerGroup]
  exact hb.imp_right (h.bits _ _)

/-- The numbering of blocks starts with the first group, so that `alloc_block` gives out what is
free. -/
structure Numbered (v : Vol) : Prop where
  first : v.firstDataBlock = 0
  groups : 0 < v.blocksPerGroup

/-- What it gives out is zeroed and entered where it belongs as well. -/
structure Plain (v : Vol) : Prop extends Numbered v where
  zeros : ∀ k, (v.env k).zeros = true
  linked : ∀ k, (v.env k).linked = true

theorem Numbered.alike (h : v.Numbered) (hg : Alike v w) : w.Numbered :=
  ⟨hg.firstDataBlock.trans h.first, hg.blocksPerGroup ▸ h.groups⟩

theorem Plain.alike (h : v.Plain) (hg : Alike v w) : w.Plain :=
  ⟨h.toNumbered.alike hg, hg.env ▸ h.zeros, hg.env ▸ h.linked⟩

/-- `alloc_block` gave out a free block, which is in use now; the other blocks are as they were. -/
structure Taken (v w : Vol) (x : ℕ) : Prop where
  grown : Grown v w
  free : ¬ v.InUse x
  used : w.InUse x
  other : ∀ b, b ≠ x → w.mem b = v.mem b

structure Fresh (v w : Vol) (x : ℕ) : Prop extends Taken v w x where
  zero : ∀ i, w.mem x i = 0

variable {preferred : ℕ}

end Vol

end Kyronix.Fs.Ext2
