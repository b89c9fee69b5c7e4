import Kyronix.Lib.Cache
import Kyronix.Lib.Run

/-! The metadata cache of the ext2 driver (`ext2.c`): 16 sets of 4 ways, write-back, with
round-robin victims and an uncached write path beside it. Every transfer succeeds. -/
namespace Kyronix.Fs.Ext2

open Lib.Cache Lib.Run Function

def metaCacheEntries : ℕ := 64
def metaCacheWays : ℕ := 4
def metaCacheSets : ℕ := metaCacheEntries / metaCacheWays

abbrev Slot := Fin metaCacheEntries

/-- `sb` is what writing the in-memory superblock out does to the block it lies in, `sbBlock`. -/
structure MetaCache (B : Type*) extends Cached Slot ℕ B where
  next : Fin metaCacheSets → Fin metaCacheWays
  sbDirty : Bool
  sbBlock : ℕ
  sb : B → B

variable {B : Type*} {c : MetaCache B} {m : ℕ → B} {blk : ℕ} {s : Slot}

def metaCacheSet (blk : ℕ) : Fin metaCacheSets := ⟨blk % metaCacheSets, Nat.mod_lt _ (by decide)⟩

def slotAt (set : Fin metaCacheSets) (way : Fin metaCacheWays) : Slot :=
  ⟨set * metaCacheWays + way, by
    have hs := set.isLt
    have hw := way.isLt
    simp only [metaCacheSets, metaCacheWays, metaCacheEntries] at *
    omega⟩

def waySlots (blk : ℕ) : List Slot := (List.finRange metaCacheWays).map (slotAt (metaCacheSet blk))

namespace MetaCache

def metaCacheFind (c : MetaCache B) (blk : ℕ) : Option Slot :=
  (waySlots blk).find? fun s => (c.line s).valid && (c.line s).key == blk

def metaCacheVictim (c : MetaCache B) (blk : ℕ) : Slot × MetaCache B :=
  match (waySlots blk).find? fun s => !(c.line s).valid with
  | some s => (s, c)
  | none =>
    let set := metaCacheSet blk
    let s := slotAt set (c.next set)
    let next := ⟨(c.next set + 1) % metaCacheWays, Nat.mod_lt _ (by decide)⟩
    let c := { c with next := update c.next set next }
    (s, if (c.line s).dirty then { c with toCached := c.toCached.writeBack s } else c)

def readBlock (c : MetaCache B) (blk : ℕ) : B := c.dev blk

def writeBlock (c : MetaCache B) (blk : ℕ) (b : B) : MetaCache B :=
  let c' := { c with toCached := c.toCached.put blk b }
  match c.metaCacheFind blk with
  | some s => { c' with toCached := c'.toCached.invalidate s }
  | none => c'

def readMetaBlock (c : MetaCache B) (blk : ℕ) : B × MetaCache B :=
  match c.metaCacheFind blk with
  | some s => ((c.line s).data, c)
  | none =>
    let (s, c) := c.metaCacheVictim blk
    (c.readBlock blk, { c with toCached := c.toCached.load s blk })

def writeMetaBlock (c : MetaCache B) (blk : ℕ) (b : B) : MetaCache B :=
  let (s, c) := match c.metaCacheFind blk with
    | some s => (s, c)
    | none => c.metaCacheVictim blk
  { c with toCached := c.toCached.store s blk b }

def flushMetadata (c : MetaCache B) : MetaCache B :=
  let c := { c with toCached := (List.finRange metaCacheEntries).foldl Cached.flushLine c.toCached }
  if c.sbDirty then
    { c with toCached := c.toCached.put c.sbBlock (c.sb (c.dev c.sbBlock)), sbDirty := false }
  else c

end MetaCache

def Home (blk : ℕ) (s : Slot) : Prop := s.val / metaCacheWays = blk % metaCacheSets

theorem mem_waySlots : s ∈ waySlots blk ↔ Home blk s := by
  unfold waySlots Home slotAt metaCacheSet
  simp only [List.mem_map, List.mem_finRange, true_and, Fin.ext_iff]
  constructor
  · rintro ⟨way, hs⟩
    have hw := way.isLt
    simp only [metaCacheWays] at *
    omega
  · intro hs
    refine ⟨⟨s.val % metaCacheWays, Nat.mod_lt _ (by decide)⟩, ?_⟩
    simp only [metaCacheWays] at *
    omega

theorem MetaCache.metaCacheFind_some (h : c.metaCacheFind blk = some s) :
    c.Holds s blk ∧ Home blk s := by
  have hs := List.find?_some h
  rw [Bool.and_eq_true, beq_iff_eq] at hs
  exact ⟨hs, mem_waySlots.mp (List.mem_of_find?_eq_some h)⟩

theorem MetaCache.metaCacheFind_none (hc : Coherent Home c.toCached m)
    (h : c.metaCacheFind blk = none) (s : Slot) : ¬ c.Holds s blk := by
  intro hs
  have hno := List.find?_eq_none.mp h s (mem_waySlots.mpr (hc.home hs))
  rw [hs.1, hs.2] at hno
  simp at hno

structure Victim (c c' : MetaCache B) (m : ℕ → B) (blk : ℕ) (s : Slot) : Prop where
  coherent : Coherent Home c'.toCached m
  clean : (c'.line s).dirty = false
  home : Home blk s
  miss : ∀ s', ¬ c'.Holds s' blk
  sbDirty : c'.sbDirty = c.sbDirty

theorem MetaCache.metaCacheVictim_spec (hc : Coherent Home c.toCached m)
    (hmiss : ∀ s, ¬ c.Holds s blk) :
    Victim c (c.metaCacheVictim blk).2 m blk (c.metaCacheVictim blk).1 := by
  unfold MetaCache.metaCacheVictim
  split
  · next s hs =>
    have hv : (c.line s).valid = false := by simpa using List.find?_some hs
    exact ⟨hc, hc.idle hv, mem_waySlots.mp (List.mem_of_find?_eq_some hs), hmiss, rfl⟩
  · next hs =>
    have hmem : slotAt (metaCacheSet blk) (c.next (metaCacheSet blk)) ∈ waySlots blk :=
      List.mem_map_of_mem (List.mem_finRange _)
    have hhome := mem_waySlots.mp hmem
    have hv := List.find?_eq_none.mp hs _ hmem
    rw [Bool.not_eq_true', Bool.not_eq_false] at hv
    dsimp only
    split
    · exact ⟨hc.writeBack ⟨hv, rfl⟩, dirty_writeBack_self, hhome,
        fun s' hs' => hmiss s' (holds_writeBack.mp hs'), rfl⟩
    · next hd => exact ⟨hc, by simpa using hd, hhome, hmiss, rfl⟩

structure Stands (c : MetaCache B) (m : ℕ → B) : Prop where
  coherent : Coherent Home c.toCached m
  sbClean : c.sbDirty = false

namespace Stands

theorem writeBlock (h : Stands c m) (blk : ℕ) (b : B) :
    Stands (c.writeBlock blk b) (update m blk b) := by
  unfold MetaCache.writeBlock
  dsimp only
  split
  · next s hs =>
    exact ⟨h.coherent.put_invalidate b (MetaCache.metaCacheFind_some hs).1, h.sbClean⟩
  · next hs =>
    exact ⟨h.coherent.put b (MetaCache.metaCacheFind_none h.coherent hs), h.sbClean⟩

theorem readMetaBlock (h : Stands c m) (blk : ℕ) :
    (c.readMetaBlock blk).1 = m blk ∧ Stands (c.readMetaBlock blk).2 m := by
  unfold MetaCache.readMetaBlock
  split
  · next s hs => exact ⟨h.coherent.hit (MetaCache.metaCacheFind_some hs).1, h⟩
  · next hs =>
    have hv := MetaCache.metaCacheVictim_spec h.coherent
      (MetaCache.metaCacheFind_none h.coherent hs)
    exact ⟨hv.coherent.dev_of_miss hv.miss, hv.coherent.load hv.miss hv.clean hv.home,
      hv.sbDirty.trans h.sbClean⟩

theorem writeMetaBlock (h : Stands c m) (blk : ℕ) (b : B) :
    Stands (c.writeMetaBlock blk b) (update m blk b) := by
  unfold MetaCache.writeMetaBlock
  cases hs : c.metaCacheFind blk with
  | some s =>
    obtain ⟨hold, hhome⟩ := MetaCache.metaCacheFind_some hs
    exact ⟨h.coherent.store b (.inl hold) hhome, h.sbClean⟩
  | none =>
    have hv := MetaCache.metaCacheVictim_spec h.coherent
      (MetaCache.metaCacheFind_none h.coherent hs)
    exact ⟨hv.coherent.store b (.inr ⟨hv.miss, hv.clean⟩) hv.home, hv.sbDirty.trans h.sbClean⟩

theorem flushMetadata (h : Stands c m) : Stands c.flushMetadata m ∧ c.flushMetadata.dev = m := by
  obtain ⟨hc, hd⟩ := h.coherent.flush (List.finRange metaCacheEntries)
  have hd := fun s => hd s (List.mem_finRange s)
  unfold MetaCache.flushMetadata
  generalize (List.finRange metaCacheEntries).foldl Cached.flushLine c.toCached = flushed at hc hd ⊢
  dsimp only
  rw [h.sbClean, if_neg Bool.false_ne_true]
  exact ⟨⟨hc, rfl⟩, hc.dev_of_clean hd⟩

end Stands

inductive MetaOp (B : Type*)
  | readMetaBlock (blk : ℕ)
  | writeMetaBlock (blk : ℕ) (b : B)
  | writeBlock (blk : ℕ) (b : B)
  | flushMetadata

def MetaOp.run (c : MetaCache B) : MetaOp B → MetaCache B
  | .readMetaBlock blk => (c.readMetaBlock blk).2
  | .writeMetaBlock blk b => c.writeMetaBlock blk b
  | .writeBlock blk b => c.writeBlock blk b
  | .flushMetadata => c.flushMetadata

def MetaOp.written (m : ℕ → B) : MetaOp B → ℕ → B
  | .writeMetaBlock blk b => update m blk b
  | .writeBlock blk b => update m blk b
  | _ => m

/-- The cache as `ext2_mount` leaves it: no slot valid or dirty. -/
def MetaCache.mounted (dev : ℕ → B) (blocks : Slot → ℕ) (data : Slot → B)
    (next : Fin metaCacheSets → Fin metaCacheWays) (sbBlock : ℕ) (sb : B → B) : MetaCache B where
  line s := ⟨blocks s, data s, false, false⟩
  dev := dev
  next := next
  sbDirty := false
  sbBlock := sbBlock
  sb := sb

theorem Stands.run (h : Stands c m) (op : MetaOp B) : Stands (op.run c) (op.written m) := by
  cases op with
  | readMetaBlock blk => exact (h.readMetaBlock blk).2
  | writeMetaBlock blk b => exact h.writeMetaBlock blk b
  | writeBlock blk b => exact h.writeBlock blk b
  | flushMetadata => exact h.flushMetadata.1

theorem Stands.exec (h : Stands c m) (ops : List (MetaOp B)) :
    Stands (exec MetaOp.run c ops) (exec MetaOp.written m ops) := by
  induction ops generalizing c m with
  | nil => exact h
  | cons op ops ih => exact ih (h.run op)

/-- A metadata read gives what was last written, no block has two valid slots, and a flush leaves
the device with what was last written. -/
theorem meta_cache_transparent (dev : ℕ → B) (blocks : Slot → ℕ) (data : Slot → B)
    (next : Fin metaCacheSets → Fin metaCacheWays) (sbBlock : ℕ) (sb : B → B)
    (ops : List (MetaOp B)) :
    let c := exec MetaOp.run (MetaCache.mounted dev blocks data next sbBlock sb) ops
    let last := exec MetaOp.written dev ops
    (∀ blk, (c.readMetaBlock blk).1 = last blk) ∧
    (∀ s s', (c.line s).valid = true → (c.line s').valid = true →
      (c.line s).key = (c.line s').key → s = s') ∧
    ∀ blk, c.flushMetadata.dev blk = last blk := by
  intro c last
  have hstart : Stands (MetaCache.mounted dev blocks data next sbBlock sb) dev :=
    ⟨coherent_of_empty (fun _ => rfl) (fun _ => rfl), rfl⟩
  have h : Stands c last := hstart.exec ops
  refine ⟨fun blk => (h.readMetaBlock blk).1, ?_, fun blk => congrFun h.flushMetadata.2 blk⟩
  intro s s' hs hs' heq
  exact h.coherent.one ⟨hs, heq⟩ ⟨hs', rfl⟩

end Kyronix.Fs.Ext2
