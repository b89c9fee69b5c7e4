import Kyronix.Lib.Forest
import Kyronix.Fs.Ext2Vol

/-! The block map of an inode (`get_block_nr`, `set_block_ptr`): twelve direct pointers and three
trees of index blocks. What a call that fails leaves behind is not followed. -/
namespace Kyronix.Fs.Ext2

open Lib.IndexTree Function List

structure Inode where
  iBlock : Fin 15 → ℕ
  iSize : ℕ
  iBlocks : ℕ
  iDirAcl : ℕ
  regular : Bool

variable {v w : Vol} {ino ino' : Inode} {p bi b x group : ℕ} {r : Fin 15} {q is : List ℕ}

namespace Vol

def ptrs (v : Vol) : ℕ := v.blockSize / 4

def writeBlock (v : Vol) (blk : ℕ) (buf : ℕ → ℕ) : Vol :=
  { v with mem := update v.mem blk buf }

def indirectLookup (v : Vol) (blk idx : ℕ) : ℕ := if blk = 0 then 0 else v.mem blk idx

def getBlockNr (v : Vol) (ino : Inode) (bi : ℕ) : ℕ :=
  let ptrs := v.ptrs
  if h : bi < 12 then ino.iBlock ⟨bi, by omega⟩
  else
    let bi := bi - 12
    if bi < ptrs then v.indirectLookup (ino.iBlock 12) bi
    else
      let bi := bi - ptrs
      if bi < ptrs * ptrs then
        let l1 := v.indirectLookup (ino.iBlock 13) (bi / ptrs)
        v.indirectLookup l1 (bi % ptrs)
      else
        let bi := bi - ptrs * ptrs
        let l1 := v.indirectLookup (ino.iBlock 14) (bi / (ptrs * ptrs))
        let l2 := v.indirectLookup l1 (bi / ptrs % ptrs)
        v.indirectLookup l2 (bi % ptrs)

end Vol

def shape (p : ℕ) : Shape (Fin 15) := ⟨fun r => r.val - 11, p⟩

def blockLimit (p : ℕ) : ℕ := 12 + p + p * p + p * p * p

def blockPath (p bi : ℕ) : Fin 15 × List ℕ :=
  if h : bi < 12 then (⟨bi, by omega⟩, [])
  else if bi - 12 < p then (12, [bi - 12])
  else if bi - 12 - p < p * p then (13, [(bi - 12 - p) / p, (bi - 12 - p) % p])
  else (14, [(bi - 12 - p - p * p) / (p * p), (bi - 12 - p - p * p) / p % p,
    (bi - 12 - p - p * p) % p])

namespace Vol

def forest (v : Vol) (ino : Inode) : Forest (Fin 15) := ⟨ino.iBlock, v.mem⟩

def block (v : Vol) (ino : Inode) (a : Fin 15 × List ℕ) : ℕ := (v.forest ino).block a

theorem indirectLookup_follow (v : Vol) (b : ℕ) (is : List ℕ) (i : ℕ) :
    v.indirectLookup (follow v.mem b is) i = follow v.mem b (is ++ [i]) :=
  (follow_append v.mem b is [i]).symm

theorem getBlockNr_eq (v : Vol) (ino : Inode) (bi : ℕ) :
    v.getBlockNr ino bi = v.block ino (blockPath v.ptrs bi) := by
  unfold getBlockNr blockPath block Forest.block forest
  dsimp only
  split
  · rfl
  split
  · exact v.indirectLookup_follow _ [] _
  have htwo : ∀ b i j, v.indirectLookup (v.indirectLookup b i) j = follow v.mem b [i, j] :=
    fun b i j => (congrArg (v.indirectLookup · j) (v.indirectLookup_follow b [] i)).trans
      (v.indirectLookup_follow b [i] j)
  split
  · exact htwo ..
  · exact (congrArg (v.indirectLookup · _) (htwo ..)).trans (v.indirectLookup_follow _ [_, _] _)

def IndexUsed (v : Vol) (ino : Inode) : Prop :=
  ∀ a, (shape v.ptrs).Inner a → v.block ino a ≠ 0 → v.InUse (v.block ino a)

structure IndexOk (v : Vol) (ino : Inode) : Prop where
  apart : Apart (shape v.ptrs) (v.forest ino)
  used : v.IndexUsed ino

def Puts (v w : Vol) (ino ino' : Inode) (t : Fin 15 × List ℕ) (x : ℕ) : Prop :=
  ∀ a, (shape v.ptrs).Addr a → w.block ino' a = if a = t then x else v.block ino a

theorem Alike.ptrs (h : Alike v w) : w.ptrs = v.ptrs := by
  unfold Vol.ptrs
  rw [h.blockSize]

theorem IndexOk.puts {t : Fin 15 × List ℕ} (h : IndexOk v ino) (hg : Grown v w)
    (hputs : Puts v w ino ino' t x)
    (ht : (shape v.ptrs).Inner t → x ≠ 0 ∧ ¬ v.InUse x ∧ w.InUse x) : IndexOk w ino' := by
  have hap : Apart (shape v.ptrs) (w.forest ino') := by
    refine h.apart.update hputs fun htin a ha heq => ?_
    obtain ⟨hx, hfree, -⟩ := ht htin
    have heq : v.block ino a = x := heq
    exact hfree (heq ▸ h.used a ha (heq ▸ hx))
  refine ⟨hg.ptrs.symm ▸ hap, ?_⟩
  intro a ha hne
  rw [hg.ptrs] at ha
  rw [hputs a ha.addr] at hne ⊢
  split
  · next hat => exact (ht (hat ▸ ha)).2.2
  · next hat =>
    rw [if_neg hat] at hne
    exact hg.inUse (h.used a ha hne)

theorem IndexUsed.alloc (h : v.IndexUsed ino) (hf : Taken v w x) {a : Fin 15 × List ℕ}
    (ha : (shape v.ptrs).Addr a) : w.block ino a = v.block ino a := by
  refine block_congr (F := v.forest ino) (G := w.forest ino) rfl ?_ ha
  intro c hc hne i _
  refine congrFun (hf.other _ ?_) i
  intro heq
  exact hf.free (heq ▸ h c hc hne)

theorem writeBlock_grown (v : Vol) (blk : ℕ) (buf : ℕ → ℕ) : Grown v (v.writeBlock blk buf) :=
  ⟨⟨rfl, rfl, rfl, rfl, rfl⟩, fun _ _ => id⟩

theorem IndexOk.attach {i : ℕ} (h : IndexOk v ino) (hf : Fresh v w x) (hx : x ≠ 0)
    (hq : (shape v.ptrs).Inner (r, q)) (hb : v.block ino (r, q) ≠ 0)
    (hnone : v.mem (v.block ino (r, q)) i = 0) :
    let u := w.writeBlock (v.block ino (r, q)) (update (v.mem (v.block ino (r, q))) i x)
    Grown v u ∧ Puts v u ino ino (r, q ++ [i]) x ∧ IndexOk u ino := by
  set blk := v.block ino (r, q) with hblk
  set u := w.writeBlock blk (update (v.mem blk) i x) with hu
  have hgrown : Grown v u := hf.grown.trans (w.writeBlock_grown _ _)
  have hsame : (w.forest ino).block (r, q) = blk := h.used.alloc hf.toTaken hq.addr
  have hxb : x ≠ blk := by
    intro heq
    exact hf.free (heq ▸ h.used _ hq hb)
  have hap : Apart (shape v.ptrs) (w.forest ino) := h.apart.congr fun a => h.used.alloc hf.toTaken
  have hputs : Puts v u ino ino (r, q ++ [i]) x := by
    intro a ha
    have hcell : u.forest ino = (w.forest ino).putCell ((w.forest ino).block (r, q)) i x := by
      rw [hsame, hu]
      unfold writeBlock forest Forest.putCell
      dsimp only
      rw [hf.other blk hxb.symm]
    have hzero : (w.forest ino).block (r, q ++ [i]) = 0 := by
      rw [Forest.block_snoc, hsame, if_neg hb]
      exact (congrFun (hf.other blk hxb.symm) i).trans hnone
    unfold block
    rw [hcell, block_putCell hap hq (hsame ▸ hb)
      (.inr ⟨hzero, hsame ▸ hxb, fun j _ => hf.zero j⟩) ha]
    rw [show (w.forest ino).block a = v.block ino a from h.used.alloc hf.toTaken ha]
    rfl
  refine ⟨hgrown, hputs, h.puts hgrown hputs fun _ => ⟨hx, hf.free, ?_⟩⟩
  exact (w.writeBlock_grown _ _).inUse hf.used

theorem IndexOk.attachRoot (h : IndexOk v ino) (hf : Fresh v w x) (hx : x ≠ 0)
    (hnone : ino.iBlock r = 0) :
    let ino' := { ino with iBlock := update ino.iBlock r x }
    Puts v w ino ino' (r, []) x ∧ IndexOk w ino' := by
  set ino' := { ino with iBlock := update ino.iBlock r x } with hino'
  have hputs : Puts v w ino ino' (r, []) x := by
    intro a ha
    have hroot : (w.forest ino').block a = if a = (r, []) then x else (w.forest ino).block a :=
      block_putRoot (F := w.forest ino) (.inr ⟨hnone, fun j _ => hf.zero j⟩) ha
    rw [show (w.forest ino).block a = v.block ino a from h.used.alloc hf.toTaken ha] at hroot
    exact hroot
  exact ⟨hputs, h.puts hf.grown hputs fun _ => ⟨hx, hf.free, hf.used⟩⟩

structure Sets (v w : Vol) (ino ino' : Inode) (t : Fin 15 × List ℕ) (b : ℕ) : Prop where
  grown : Grown v w
  leaf : ∀ a, (shape v.ptrs).Leaf a → w.block ino' a = if a = t then b else v.block ino a
  inner : ∀ a, (shape v.ptrs).Inner a → w.block ino' a = v.block ino a ∨
    v.block ino a = 0 ∧ w.block ino' a ≠ 0 ∧ ¬ v.InUse (w.block ino' a) ∧ a.1 = t.1 ∧ a.2 <+: t.2
  apart : Apart (shape w.ptrs) (w.forest ino')
  used : v.IndexUsed ino → w.IndexUsed ino'

theorem Sets.store (h : Apart (shape v.ptrs) (v.forest ino)) {t : Fin 15 × List ℕ}
    (ht : (shape v.ptrs).Leaf t) (hg : Grown v w) (hputs : Puts v w ino ino' t b) :
    Sets v w ino ino' t b := by
  have hinner : ∀ a, (shape v.ptrs).Inner a → w.block ino' a = v.block ino a := by
    intro a ha
    exact (hputs a ha.addr).trans (if_neg fun heq : a = t => ht.not_inner (heq ▸ ha))
  have hap : Apart (shape v.ptrs) (w.forest ino') :=
    h.update hputs fun hin => absurd hin ht.not_inner
  refine ⟨hg, fun a ha => hputs a ha.addr, fun a ha => .inl (hinner a ha), hg.ptrs.symm ▸ hap,
    fun hu a ha hne => ?_⟩
  rw [hg.ptrs] at ha
  rw [hinner a ha] at hne ⊢
  exact hg.inUse (hu a ha hne)

theorem Sets.attached {u : Vol} {jno : Inode} {s t : Fin 15 × List ℕ} (hg : Grown v u)
    (hputs : Puts v u ino jno s x) (hs : (shape v.ptrs).Inner s) (hx : x ≠ 0)
    (hfree : ¬ v.InUse x) (hnone : v.block ino s = 0) (hpre : s.1 = t.1 ∧ s.2 <+: t.2)
    (hu : u.IndexUsed jno) (h : Sets u w jno ino' t b) : Sets v w ino ino' t b where
  grown := hg.trans h.grown
  leaf := by
    intro a ha
    rw [h.leaf a (hg.ptrs.symm ▸ ha), hputs a ha.addr]
    rw [if_neg (c := a = s) fun heq => ha.not_inner (heq ▸ hs)]
  inner := by
    intro a ha
    have hput := hputs a ha.addr
    rcases h.inner a (hg.ptrs.symm ▸ ha) with heq | ⟨hzero, hne, hnew, hp⟩
    · by_cases has : a = s
      · rw [if_pos has] at hput
        refine .inr ⟨has ▸ hnone, ?_, ?_, has ▸ hpre⟩
        · rw [heq, hput]
          exact hx
        · rw [heq, hput]
          exact hfree
      · rw [if_neg has] at hput
        exact .inl (heq.trans hput)
    · have has : a ≠ s := by
        intro has
        rw [if_pos has] at hput
        exact hx (hput.symm.trans hzero)
      rw [if_neg has] at hput
      exact .inr ⟨hput.symm.trans hzero, hne, fun hu => hnew (hg.inUse hu), hp⟩
  apart := h.apart
  used := fun _ => h.used hu

def Spared (v w : Vol) (ino : Inode) : Prop :=
  ∀ y, v.InUse y → (∀ c, (shape v.ptrs).Inner c → v.block ino c ≠ y) → w.mem y = v.mem y

theorem Spared.attached {u : Vol} {jno : Inode} {s : Fin 15 × List ℕ} (hvu : Spared v u ino)
    (hg : Grown v u) (hputs : Puts v u ino jno s x) (hfree : ¬ v.InUse x)
    (h : Spared u w jno) : Spared v w ino := by
  intro y hy hnot
  refine (h y (hg.inUse hy) fun c hc heq => ?_).trans (hvu y hy hnot)
  rw [hg.ptrs] at hc
  rw [hputs c hc.addr] at heq
  split at heq
  · exact hfree (heq ▸ hy)
  · exact hnot c hc heq

/-- No index block is missing on the way to `t`. -/
def Complete (v : Vol) (ino : Inode) (t : Fin 15 × List ℕ) : Prop :=
  ∀ q, (shape v.ptrs).Inner (t.1, q) → q <+: t.2 → v.block ino (t.1, q) ≠ 0

end Vol

theorem Vol.block_zero (v : Vol) {a : Fin 15 × List ℕ} (h : ino.iBlock a.1 = 0) :
    v.block ino a = 0 := by
  unfold Vol.block Forest.block Vol.forest
  dsimp only
  rw [h, follow_zero]

theorem Vol.IndexOk.empty (v : Vol) (h : ∀ r, ino.iBlock r = 0) : v.IndexOk ino :=
  ⟨fun _ _ _ _ hne => absurd (v.block_zero (h _)) hne,
    fun _ _ hne => absurd (v.block_zero (h _)) hne⟩

end Kyronix.Fs.Ext2
