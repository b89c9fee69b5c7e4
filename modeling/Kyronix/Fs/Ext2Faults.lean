import Kyronix.Fs.Ext2Cache

/-! The metadata cache over a device whose writes can fail. `fails k` says whether the `k`-th write
from the start fails; a failed write leaves the device as it was. -/
namespace Kyronix.Fs.Ext2

open Lib.Cache Lib.Run Function List Cached

structure FaultyCache (B : Type*) extends MetaCache B where
  -- `g_meta_cache` is not NULL
  present : Bool
  fails : ℕ → Bool
  writes : ℕ
  -- the last contents successfully written to each block since the mount
  last : ℕ → Option B

namespace FaultyCache

variable {B : Type*}

variable (c : FaultyCache B) (blk : ℕ)

def attempt (ok failed : Cached Slot ℕ B) : Bool × FaultyCache B :=
  if c.fails c.writes = true then (false, { c with toCached := failed, writes := c.writes + 1 })
  else (true, { c with toCached := ok, writes := c.writes + 1 })

def dirtyCleared (c : Cached Slot ℕ B) (s : Slot) : Cached Slot ℕ B :=
  { c with line := update c.line s { c.line s with dirty := false } }

def wrote (b : B) : FaultyCache B :=
  { c with last := update c.last blk (some b) }

def metaCacheVictim : Slot × FaultyCache B :=
  match (waySlots blk).find? fun s => !(c.line s).valid with
  | some s => (s, c)
  | none =>
    let set := metaCacheSet blk
    let s := slotAt set (c.next set)
    let next := ⟨(c.next set + 1) % metaCacheWays, Nat.mod_lt _ (by decide)⟩
    let c := { c with next := update c.next set next }
    -- the result of the write is not looked at
    (s, if (c.line s).dirty = true then
          (c.attempt (c.toCached.writeBack s) (dirtyCleared c.toCached s)).2
        else c)

def writeBlock (b : B) : ℤ × FaultyCache B :=
  let (ok, c) := c.attempt (c.toCached.put blk b) c.toCached
  if ok = true then
    let c := c.wrote blk b
    match c.metaCacheFind blk with
    | some s => (0, { c with toCached := c.toCached.invalidate s })
    | none => (0, c)
  else (-1, c)

def readMetaBlock (readable : Bool) : Option B × FaultyCache B :=
  if c.present = false then (if readable = true then some (c.dev blk) else none, c)
  else
    match c.metaCacheFind blk with
    | some s => (some (c.line s).data, c)
    | none =>
      let (s, c) := c.metaCacheVictim blk
      if readable = true then (some (c.dev blk), { c with toCached := c.toCached.load s blk })
      else (none, c)

def writeMetaBlock (b : B) : ℤ × FaultyCache B :=
  if c.present = false then c.writeBlock blk b
  else
    let (s, c) := match c.metaCacheFind blk with
      | some s => (s, c)
      | none => c.metaCacheVictim blk
    (0, { c with toCached := c.toCached.store s blk b }.wrote blk b)

def writeSb : FaultyCache B := { c with sbDirty := true }

def flushSlot (r : ℤ × FaultyCache B) (s : Slot) : ℤ × FaultyCache B :=
  let (rc, c) := r
  if ((c.line s).valid && (c.line s).dirty) = true then
    let (ok, c) := c.attempt (c.toCached.writeBack s) c.toCached
    (if ok = true then rc else -1, c)
  else (rc, c)

def flushMetadata (c : FaultyCache B) : ℤ × FaultyCache B :=
  let (rc, c) := (List.finRange metaCacheEntries).foldl flushSlot (0, c)
  if c.sbDirty = true then
    let (ok, c) := c.attempt (c.toCached.put c.sbBlock (c.sb (c.dev c.sbBlock))) c.toCached
    if ok = true then (rc, { c with sbDirty := false }) else (-1, c)
  else (rc, c)

inductive Op (B : Type*)
  | readMetaBlock (blk : ℕ) (readable : Bool)
  | writeMetaBlock (blk : ℕ) (b : B)
  | writeBlock (blk : ℕ) (b : B)
  | writeSb
  | flushMetadata

def run : Op B → FaultyCache B
  | .readMetaBlock blk readable => (c.readMetaBlock blk readable).2
  | .writeMetaBlock blk b => (c.writeMetaBlock blk b).2
  | .writeBlock blk b => (c.writeBlock blk b).2
  | .writeSb => c.writeSb
  | .flushMetadata => c.flushMetadata.2

def mounted (c : MetaCache B) (present : Bool) (fails : ℕ → Bool) : FaultyCache B where
  toMetaCache := c
  present := present
  fails := fails
  writes := 0
  last := fun _ => none

def FlushKeeps : Prop :=
  let r := c.flushMetadata
  r.1 = 0 → ∀ blk b, r.2.last blk = some b → r.2.dev blk = b

/-- The block is cached, or its set has a free slot or a clean victim, or the write succeeds. -/
def Evicts : Prop :=
  c.present = true → c.metaCacheFind blk = none →
    (∀ s ∈ waySlots blk, (c.line s).valid = true) →
    (c.line (slotAt (metaCacheSet blk) (c.next (metaCacheSet blk)))).dirty = true →
    c.fails c.writes = false

def CallOk : Op B → Prop
  | .readMetaBlock blk _ => blk ≠ c.sbBlock ∧ c.Evicts blk
  | .writeMetaBlock blk _ => blk ≠ c.sbBlock ∧ c.Evicts blk
  | .writeBlock blk _ => blk ≠ c.sbBlock
  | _ => True

variable {c : FaultyCache B} {m : ℕ → B} {blk : ℕ}

structure Faithful (c : FaultyCache B) (m : ℕ → B) : Prop where
  coherent : Coherent Home c.toCached m
  last : ∀ blk b, c.last blk = some b → m blk = b
  sbMiss : ∀ s, ¬ c.Holds s c.sbBlock
  sbLast : c.last c.sbBlock = none

theorem attempt_of_ok {ok failed : Cached Slot ℕ B} (h : c.fails c.writes = false) :
    c.attempt ok failed = (true, { c with toCached := ok, writes := c.writes + 1 }) := by
  rw [attempt, h, if_neg Bool.false_ne_true]

theorem attempt_of_fail {ok failed : Cached Slot ℕ B} (h : c.fails c.writes = true) :
    c.attempt ok failed = (false, { c with toCached := failed, writes := c.writes + 1 }) := by
  rw [attempt, if_pos h]

structure Victim (c c' : FaultyCache B) (m : ℕ → B) (blk : ℕ) (s : Slot) : Prop where
  faithful : Faithful c' m
  clean : (c'.line s).dirty = false
  home : Home blk s
  miss : ∀ s', ¬ c'.Holds s' blk
  sbBlock : c'.sbBlock = c.sbBlock

theorem metaCacheVictim_spec (h : Faithful c m) (hp : c.present = true)
    (hfind : c.metaCacheFind blk = none) (he : c.Evicts blk) :
    Victim c (c.metaCacheVictim blk).2 m blk (c.metaCacheVictim blk).1 := by
  have hmiss := MetaCache.metaCacheFind_none h.coherent hfind
  unfold metaCacheVictim
  split
  · next s hs =>
    have hv : (c.line s).valid = false := by simpa using List.find?_some hs
    exact ⟨h, h.coherent.idle hv, mem_waySlots.mp (mem_of_find?_eq_some hs), hmiss, rfl⟩
  · next hs =>
    have hvalid : ∀ s ∈ waySlots blk, (c.line s).valid = true := by
      intro s hmem
      simpa using List.find?_eq_none.mp hs s hmem
    have hmem : slotAt (metaCacheSet blk) (c.next (metaCacheSet blk)) ∈ waySlots blk :=
      mem_map_of_mem (mem_finRange _)
    have hhome := mem_waySlots.mp hmem
    dsimp only
    split
    · next hd =>
      have hok := he hp hfind hvalid hd
      rw [attempt, if_neg (by simp [hok])]
      exact ⟨⟨h.coherent.writeBack ⟨hvalid _ hmem, rfl⟩, h.last,
          fun s' hs' => h.sbMiss s' (holds_writeBack.mp hs'), h.sbLast⟩,
        dirty_writeBack_self, hhome, fun s' hs' => hmiss s' (holds_writeBack.mp hs'), rfl⟩
    · next hd => exact ⟨⟨h.coherent, h.last, h.sbMiss, h.sbLast⟩, by simpa using hd, hhome, hmiss,
        rfl⟩

namespace Faithful

section

variable (h : Faithful c m) (hb : blk ≠ c.sbBlock)
include h hb

theorem wrote (b : B) {c' : FaultyCache B} (hc : Coherent Home c'.toCached (update m blk b))
    (hl : c'.last = update c.last blk (some b)) (hs : c'.sbBlock = c.sbBlock)
    (hm : ∀ s, ¬ c'.Holds s c.sbBlock) : Faithful c' (update m blk b) := by
  refine ⟨hc, ?_, by rwa [hs], ?_⟩
  · intro k b' hk
    rw [hl] at hk
    by_cases hkb : k = blk
    · subst hkb
      rw [update_self] at hk ⊢
      exact Option.some.inj hk
    · rw [update_of_ne hkb] at hk ⊢
      exact h.last k b' hk
  · rw [hl, hs, update_of_ne hb.symm]
    exact h.sbLast

theorem writeBlock (b : B) : ∃ m', Faithful (c.writeBlock blk b).2 m' := by
  unfold FaultyCache.writeBlock
  cases hf : c.fails c.writes with
  | true =>
    rw [attempt_of_fail hf]
    exact ⟨m, h.coherent, h.last, h.sbMiss, h.sbLast⟩
  | false =>
    rw [attempt_of_ok hf]
    refine ⟨update m blk b, ?_⟩
    dsimp only
    rw [if_pos rfl]
    split
    · next s hs =>
      have hold : c.Holds s blk := (MetaCache.metaCacheFind_some hs).1
      refine h.wrote hb b (h.coherent.put_invalidate b hold) rfl rfl ?_
      intro s' hs'
      apply h.sbMiss s'
      by_cases heq : s' = s
      · subst heq
        exact absurd hs'.1 (by simp [invalidate])
      · simpa [Cached.Holds, invalidate, put, FaultyCache.wrote, heq] using hs'
    · next hs =>
      exact h.wrote hb b (h.coherent.put b (MetaCache.metaCacheFind_none h.coherent hs)) rfl rfl
        h.sbMiss

theorem store (b : B) {s : Slot} (hc : Coherent Home (c.toCached.store s blk b) (update m blk b)) :
    Faithful ({ c with toCached := c.toCached.store s blk b }.wrote blk b)
      (update m blk b) := by
  refine h.wrote hb b hc rfl rfl ?_
  intro s' hs'
  by_cases heq : s' = s
  · subst heq
    have hkey : blk = c.sbBlock := by
      simpa [Cached.Holds, Cached.store, FaultyCache.wrote] using hs'.2
    exact hb hkey
  · apply h.sbMiss s'
    simpa [Cached.Holds, Cached.store, FaultyCache.wrote, heq] using hs'

theorem writeMetaBlock (he : c.Evicts blk) (b : B) :
    ∃ m', Faithful (c.writeMetaBlock blk b).2 m' := by
  unfold FaultyCache.writeMetaBlock
  split
  · exact h.writeBlock hb b
  · next hp =>
    refine ⟨update m blk b, ?_⟩
    cases hs : c.metaCacheFind blk with
    | some s =>
      obtain ⟨hold, hhome⟩ := MetaCache.metaCacheFind_some hs
      exact h.store hb b (h.coherent.store b (.inl hold) hhome)
    | none =>
      have hv := metaCacheVictim_spec h (by simpa using hp) hs he
      exact hv.faithful.store (hv.sbBlock ▸ hb) b
        (hv.faithful.coherent.store b (.inr ⟨hv.miss, hv.clean⟩) hv.home)

theorem readMetaBlock (he : c.Evicts blk)
    (readable : Bool) : Faithful (c.readMetaBlock blk readable).2 m := by
  unfold FaultyCache.readMetaBlock
  split
  · exact h
  · next hp =>
    cases hs : c.metaCacheFind blk with
    | some s => exact h
    | none =>
      have hv := metaCacheVictim_spec h (by simpa using hp) hs he
      dsimp only
      split
      · refine ⟨hv.faithful.coherent.load hv.miss hv.clean hv.home, hv.faithful.last, ?_,
          hv.faithful.sbLast⟩
        intro s' hs'
        by_cases heq : s' = (c.metaCacheVictim blk).1
        · subst heq
          have hkey : blk = (c.metaCacheVictim blk).2.sbBlock := by
            simpa [Cached.Holds, load] using hs'.2
          exact hb (hkey.trans hv.sbBlock)
        · apply hv.faithful.sbMiss s'
          simpa [Cached.Holds, load, heq] using hs'
      · exact hv.faithful

end

theorem flushSlot {rc : ℤ} (h : Faithful c m) (s : Slot) :
    Faithful (FaultyCache.flushSlot (rc, c) s).2 m := by
  unfold FaultyCache.flushSlot
  dsimp only
  split
  · next hs =>
    have hvalid := (Bool.and_eq_true_iff.mp hs).1
    cases hf : c.fails c.writes with
    | true =>
      rw [attempt_of_fail hf]
      exact ⟨h.coherent, h.last, h.sbMiss, h.sbLast⟩
    | false =>
      rw [attempt_of_ok hf]
      exact ⟨h.coherent.writeBack ⟨hvalid, rfl⟩, h.last,
        fun s' hs' => h.sbMiss s' (holds_writeBack.mp hs'), h.sbLast⟩
  · exact h

end Faithful

theorem flushSlot_clean {rc : ℤ} (h : Faithful c m) (s : Slot)
    (h0 : (flushSlot (rc, c) s).1 = 0) :
    rc = 0 ∧ ∀ s', s' = s ∨ (c.line s').dirty = false →
      ((flushSlot (rc, c) s).2.line s').dirty = false := by
  unfold flushSlot at h0 ⊢
  dsimp only at h0 ⊢
  split at h0
  · next hs =>
    rw [if_pos hs]
    cases hf : c.fails c.writes with
    | true =>
      rw [attempt_of_fail hf] at h0
      exact absurd h0 (neg_ne_zero.mpr one_ne_zero)
    | false =>
      rw [attempt_of_ok hf] at h0 ⊢
      refine ⟨h0, fun s' hs' => ?_⟩
      by_cases heq : s' = s
      · subst heq
        exact dirty_writeBack_self
      · simpa [writeBack, heq] using hs'
  · next hs =>
    rw [if_neg hs]
    refine ⟨h0, fun s' hs' => ?_⟩
    rcases hs' with rfl | hs'
    · cases hv : (c.line s').valid with
      | false => exact h.coherent.idle hv
      | true => simpa [hv] using hs
    · exact hs'

theorem flushSlots_spec (h : Faithful c m) (ss : List Slot) :
    Faithful (ss.foldl flushSlot (0, c)).2 m ∧ ((ss.foldl flushSlot (0, c)).1 = 0 →
      ∀ s ∈ ss, ((ss.foldl flushSlot (0, c)).2.line s).dirty = false) := by
  induction ss using List.reverseRecOn with
  | nil => exact ⟨h, fun _ s hs => absurd hs not_mem_nil⟩
  | append_singleton ss s ih =>
    obtain ⟨hf, hd⟩ := ih
    rw [foldl_append, foldl_cons, foldl_nil]
    refine ⟨hf.flushSlot s, fun h0 s' hs' => ?_⟩
    obtain ⟨hrc, hclean⟩ := flushSlot_clean hf s h0
    rcases mem_append.mp hs' with hs' | hs'
    · exact hclean s' (.inr (hd hrc s' hs'))
    · exact hclean s' (.inl (mem_singleton.mp hs'))

theorem flushMetadata_spec (h : Faithful c m) :
    (∃ m', Faithful c.flushMetadata.2 m') ∧ FlushKeeps c := by
  obtain ⟨hf, hd⟩ := flushSlots_spec h (List.finRange metaCacheEntries)
  unfold FlushKeeps flushMetadata
  rcases hr : (List.finRange metaCacheEntries).foldl flushSlot (0, c) with ⟨rc, c'⟩
  rw [hr] at hf hd
  have hdev : rc = 0 → c'.dev = m := fun h0 =>
    hf.coherent.dev_of_clean fun s => hd h0 s (mem_finRange s)
  dsimp only
  split
  · cases hw : c'.fails c'.writes with
    | true =>
      rw [attempt_of_fail hw]
      exact ⟨⟨m, hf.coherent, hf.last, hf.sbMiss, hf.sbLast⟩,
        fun h0 => absurd h0 (neg_ne_zero.mpr one_ne_zero)⟩
    | false =>
      rw [attempt_of_ok hw]
      rw [if_pos rfl]
      -- only the superblock's own block changes on the device
      have hne : ∀ k b, c'.last k = some b → k ≠ c'.sbBlock := by
        intro k b hk heq
        rw [heq, hf.sbLast] at hk
        cases hk
      refine ⟨⟨_, hf.coherent.put _ hf.sbMiss, ?_, hf.sbMiss, hf.sbLast⟩, ?_⟩
      · intro k b hk
        rw [update_of_ne (hne k b hk)]
        exact hf.last k b hk
      · intro h0 k b hk
        show update c'.dev _ _ k = b
        rw [update_of_ne (hne k b hk), hdev h0]
        exact hf.last k b hk
  · refine ⟨⟨m, hf⟩, fun h0 k b hk => ?_⟩
    rw [hdev h0]
    exact hf.last k b hk

theorem Faithful.run (h : ∃ m, Faithful c m) {op : Op B} (hop : CallOk c op) :
    ∃ m, Faithful (c.run op) m := by
  obtain ⟨m, h⟩ := h
  cases op with
  | readMetaBlock blk readable => exact ⟨m, h.readMetaBlock hop.1 hop.2 readable⟩
  | writeMetaBlock blk b => exact h.writeMetaBlock hop.1 hop.2 b
  | writeBlock blk b => exact h.writeBlock hop b
  | writeSb => exact ⟨m, h.coherent, h.last, h.sbMiss, h.sbLast⟩
  | flushMetadata => exact (flushMetadata_spec h).1

/-- In a run in which no eviction loses its write, a flush that succeeds leaves what was last
written to each block. -/
theorem flush_keeps_along (c : MetaCache B) (present : Bool) (fails : ℕ → Bool)
    (hc : ∀ s, (c.line s).valid = false ∧ (c.line s).dirty = false) (ops : List (Op B))
    (hops : Along run CallOk (mounted c present fails) ops) :
    Always run FlushKeeps (mounted c present fails) ops := by
  have hempty : Coherent Home c.toCached c.dev :=
    coherent_of_empty (fun s => (hc s).1) (fun s => (hc s).2)
  have hstart : Faithful (mounted c present fails) c.dev :=
    ⟨hempty, nofun, fun s hs => absurd hs.1 (by simp [mounted, (hc s).1]), rfl⟩
  have hall := hops.always (P := fun c => ∃ m, Faithful c m) ⟨_, hstart⟩
    fun c op h hop => Faithful.run h hop
  intro pre hpre
  obtain ⟨m, hm⟩ := hall pre hpre
  exact (flushMetadata_spec hm).2

def zeros : MetaCache ℕ := .mounted (fun _ => 0) (fun _ => 0) (fun _ => 0)
  (fun _ => ⟨0, by decide⟩) 1 id

theorem flush_keeps_after_failed_flush :
    Always run FlushKeeps (mounted zeros true (· == 0))
      [.writeMetaBlock 0 7, .flushMetadata, .flushMetadata] := by
  apply flush_keeps_along
  · intro s
    exact ⟨rfl, rfl⟩
  · refine along_cons.mpr ⟨⟨by decide, ?_⟩, along_cons.mpr ⟨trivial, along_cons.mpr
      ⟨trivial, along_nil⟩⟩⟩
    intro _ _ _ hdirty
    exact absurd hdirty (by decide)

/-- Five blocks of one set: the write-back of the first fails, the flush reports success, and the
device does not have the block. -/
theorem failed_eviction_lost :
    ¬ Always run FlushKeeps (mounted zeros true (· == 0))
      ([0, 16, 32, 48, 64].map fun blk => .writeMetaBlock blk 7) := by
  intro h
  have hend := h _ prefix_rfl
  have hdev := hend (by decide +kernel) 0 7 (by decide +kernel)
  exact absurd hdev (by decide +kernel)

end FaultyCache

end Kyronix.Fs.Ext2
