import Kyronix.Fs.Dirent
import Kyronix.Fs.Ext2Blocks

/-! Directories of an ext2 volume (`ext2_lookup`, `ext2_add_dirent`, `ext2_remove_dirent`) as finite
maps from names to inode numbers, 0 for no entry. Calls that fail are not followed further, and the
transfers of directory blocks and of the inode succeed. -/
namespace Kyronix.Fs.Ext2

open Lib.IndexTree Lib.Bytes Function List Vol

variable {v w : Vol} {ino ino' : Inode} {n blk new inoNr : ℕ} {b : ℕ → UInt8}
  {name : List UInt8} {ftype : UInt8} {k₁ k₂ : List ℕ}

namespace Vol

def bytes (v : Vol) (blk : ℕ) : ℕ → UInt8 := byteOf (v.mem blk)

def numBlocks (v : Vol) (ino : Inode) : ℕ := v.blocksOf (v.inodeSize64 ino)

def dirBlocks (v : Vol) (ino : Inode) : List ℕ :=
  (List.range (v.numBlocks ino)).map (v.getBlockNr ino)

def inBlock {α : Type} (v : Vol) (f : (ℕ → UInt8) → Option α) (blk : ℕ) : Option α :=
  if blk = 0 then none else f (v.bytes blk)

def lookup (v : Vol) (ino : Inode) (name : List UInt8) (room : Bool) : ℕ :=
  if room then
    ((v.dirBlocks ino).findSome? (v.inBlock fun b => findIn v.blockSize b name)).getD 0
  else 0

def entriesIn (v : Vol) (blk : ℕ) : List (List UInt8 × ℕ) :=
  if blk = 0 then [] else entriesOf v.blockSize (v.bytes blk)

def dirEntries (v : Vol) (ino : Inode) : List (List UInt8 × ℕ) :=
  (v.dirBlocks ino).flatMap v.entriesIn

end Vol

def valueOf (es : List (List UInt8 × ℕ)) (name : List UInt8) : ℕ := (es.lookup name).getD 0

def Vol.dirMap (v : Vol) (ino : Inode) : List UInt8 → ℕ := valueOf (v.dirEntries ino)

section Entries

variable {e₁ e₂ : List (List UInt8 × ℕ)}

theorem lookup_eq_none {es : List (List UInt8 × ℕ)} :
    es.lookup name = none ↔ name ∉ es.map Prod.fst := by
  rw [lookup_eq_none_iff]
  simp only [bne_iff_ne, mem_map, not_exists, not_and]
  exact forall₂_congr fun e _ => ne_comm

end Entries

theorem lookup_flatMap (hname : name.length ≤ 255) (blks : List ℕ) :
    (blks.flatMap v.entriesIn).lookup name =
      blks.findSome? (v.inBlock fun b => findIn v.blockSize b name) := by
  induction blks with
  | nil => rfl
  | cons blk blks ih =>
    have hblk : (v.entriesIn blk).lookup name =
        v.inBlock (fun b => findIn v.blockSize b name) blk := by
      unfold entriesIn inBlock
      split
      · rfl
      · exact (findIn_eq hname).symm
    rw [flatMap_cons, lookup_append, ih, hblk, List.findSome?_cons]
    cases v.inBlock (fun b => findIn v.blockSize b name) blk with
    | none => rfl
    | some m => rfl

theorem lookup_eq (v : Vol) (ino : Inode) (hname : name.length ≤ 255) :
    v.lookup ino name true = v.dirMap ino name :=
  congrArg (·.getD 0) (lookup_flatMap hname _).symm

theorem Vol.Sized.range (hs : v.Sized) : 264 ≤ v.blockSize ∧ v.blockSize < 2 ^ 16 := by
  obtain ⟨k, hk, hbs⟩ := hs
  rw [hbs]
  interval_cases k <;> decide

def Vol.HasRoom (v : Vol) (ino : Inode) (name : List UInt8) : Prop :=
  ∃ blk ∈ v.dirBlocks ino, blk ≠ 0 ∧
    ∃ p ∈ stops v.blockSize (v.bytes blk) 0, direntLen name.length ≤ slack (v.bytes blk) p

end Kyronix.Fs.Ext2
