import Kyronix.Mm.PageLoops

/-! `mmap` of every kind of file (`mem.c`, `shmem.c`, `devfs.c`, `fbdev.c`, `uio.c`). A call without
`MAP_FIXED` that fails leaves mappings and pages as it found them. -/
namespace Kyronix.Mm

open Lib Word Lib.Intervals

variable {n : ℕ}

structure Shmem where
  pages : List (Option ℕ)
  size : UInt64
  -- whether the next growths of the array of pages get their memory
  room : List Bool

def shmemMaxPages : ℕ := 256 * 1024

def shmemGrowArray (o : Shmem) (want : ℕ) : Bool × Shmem :=
  if want ≤ o.pages.length then (true, o)
  else if !o.room.headD true then (false, { o with room := o.room.tail })
  else (true, { o with
    pages := o.pages ++ List.replicate (want - o.pages.length) none
    room := o.room.tail })

variable (x : Mem n × Shmem)

def shmemPagePhys (off : UInt64) : Option ℕ × Mem n × Shmem :=
  let idx := off.toNat / 4096
  if idx ≥ shmemMaxPages then (none, x)
  else
    match shmemGrowArray x.2 (idx + 1) with
    | (false, o) => (none, x.1, o)
    | (true, o) =>
      match o.pages.getD idx none with
      | some f => (some f, x.1, o)
      | none =>
        match pmmAllocZeroed x.1 with
        | (none, s) => (none, s, o)
        | (some f, s) => (some f, s, { o with pages := o.pages.set idx (some f) })

-- `shmem_read` of a page into the frame `f`: the offset is page aligned, so its loop runs once
def shmemRead (f : ℕ) (off : UInt64) : Mem n × Shmem :=
  if off ≥ x.2.size then x
  else
    match shmemPagePhys x off with
    | (none, x) => x
    | (some src, s, o) =>
      (s.fill f fun i => if i < o.size - off then s.page src i else s.page f i, o)

/-- Where the loop of `mmap` gets the frame of a page, by its offset, and what it does with it once
it is mapped. Neither touches a page table. -/
structure PageSource (n : ℕ) where
  get : UInt64 → Mem n × Shmem → Option ℕ × Mem n × Shmem
  fill : UInt64 → ℕ → Mem n × Shmem → Mem n × Shmem
  same_get : ∀ o x, SameMaps x.1 (get o x).2.1
  same_fill : ∀ o f x, SameMaps x.1 (fill o f x).1

def freshPage : Option ℕ × Mem n × Shmem :=
  ((pmmAllocZeroed x.1).1, (pmmAllocZeroed x.1).2, x.2)

theorem shmemPagePhys_same (off : UInt64) : SameMaps x.1 (shmemPagePhys x off).2.1 := by
  unfold shmemPagePhys
  dsimp only
  split
  · exact .refl _
  split
  · exact .refl _
  split
  · exact .refl _
  have h := sameMaps_pmmAllocZeroed x.1
  split
  all_goals
    next hs =>
    rw [hs] at h
    exact h

theorem shmemRead_same (f : ℕ) (off : UInt64) : SameMaps x.1 (shmemRead x f off).1 := by
  have h := shmemPagePhys_same x off
  unfold shmemRead
  split
  · exact .refl _
  split
  · next hs =>
    rw [hs] at h
    exact h
  · next hs =>
    rw [hs] at h
    exact SameMaps.trans h (sameMaps_fill ..)

def anonPages : PageSource n where
  get _ := freshPage
  fill _ _ x := x
  same_get _ x := sameMaps_pmmAllocZeroed x.1
  same_fill _ _ _ := .refl _

-- the bytes of the file, where there are any: a page stays zero beyond its end
def regularPages (off size : UInt64) (data : Option (UInt64 → UInt8)) : PageSource n where
  get _ := freshPage
  fill o f x :=
    match data with
    | none => x
    | some d =>
      if off < size ∧ o < size - off then
        (x.1.fill f fun i => if i < size - (off + o) then d (off + o + i) else x.1.page f i, x.2)
      else x
  same_get _ x := sameMaps_pmmAllocZeroed x.1
  same_fill o f x := by
    split
    · exact .refl _
    · split
      · exact sameMaps_fill ..
      · exact .refl _

def shmemPrivatePages (off : UInt64) : PageSource n where
  get _ := freshPage
  fill o f x := shmemRead x f (off + o)
  same_get _ x := sameMaps_pmmAllocZeroed x.1
  same_fill o f x := shmemRead_same x f (off + o)

-- the page of the object itself, with one more reference
def shmemSharedPages (off : UInt64) : PageSource n where
  get o x :=
    match shmemPagePhys x (off + o) with
    | (none, x) => (none, x)
    | (some f, s, obj) => (if (pmmRetain s f).1 then some f else none, (pmmRetain s f).2, obj)
  fill _ _ x := x
  same_get o x := by
    have h := shmemPagePhys_same x (off + o)
    split
    · next hs =>
      rw [hs] at h
      exact h
    · next hs =>
      rw [hs] at h
      exact SameMaps.trans h (sameMaps_pmmRetain ..)
  same_fill _ _ _ := .refl _

def mapSource (src : PageSource n) (p : ℕ) (addr len : UInt64) (flags : PteFlags) :
    List UInt64 → Mem n × Shmem → ℤ × Mem n × Shmem
  | [], x => (0, x)
  | va :: rest, x =>
    match src.get (va - addr) x with
    | (none, s, o) => (-enomem, rollbackNewMapping s p addr (va - addr) len, o)
    | (some f, s, o) =>
      match vmmMap s p va f flags with
      | (false, s) => (-enomem, rollbackNewMapping (pmmFree s f) p addr (va - addr) len, o)
      | (true, s) => mapSource src p addr len flags rest (src.fill (va - addr) f (s, o))

inductive CharDevice where
  | devmem
  | fb0 (pitch height physAddr : UInt64)
  | uio (bars barSizes : ℕ → UInt64)

-- a page that cannot be mapped is passed over
def deviceMap (p : ℕ) (va len phys : UInt64) (vflags : PteFlags) (s : Mem n) : Mem n :=
  (pageRange va len).foldl (fun s page =>
    (vmmMap s p page ((phys + (page - va)).toNat / 4096)
      { vflags with user := true, write := true }).2) s

def devmemMmap (s : Mem n) (p euid : ℕ) (off len va : UInt64) (vflags : PteFlags) : ℤ × Mem n :=
  if euid ≠ 0 then (-eperm, s)
  else if va ≥ userLimit ∨ len > userLimit - va then (-einval, s)
  else if pageDown off + len < pageDown off then (-einval, s)
  else (va.toNat, deviceMap p va len (pageDown off) vflags s)

def fb0Mmap (pitch height physAddr : UInt64) (s : Mem n) (p euid : ℕ) (off len va : UInt64)
    (vflags : PteFlags) : ℤ × Mem n :=
  if euid ≠ 0 then (-eperm, s)
  else
    let fbSize := pageUp (pitch * height)
    if off % pageBytes ≠ 0 ∨ off ≥ fbSize then (-einval, s)
    else
      let len := min len (fbSize - off)
      if va ≥ userLimit ∨ len > userLimit - va then (-einval, s)
      else (va.toNat, deviceMap p va len (physAddr + off) vflags s)

-- page `N` of the file is the base address register `N`
def uioMmap (bars barSizes : ℕ → UInt64) (s : Mem n) (p euid : ℕ) (off len va : UInt64)
    (vflags : PteFlags) : ℤ × Mem n :=
  if euid ≠ 0 then (-eperm, s)
  else if off % pageBytes ≠ 0 then (-einval, s)
  else
    let bar := off.toNat / 4096
    if bar ≥ 6 then (-einval, s)
    else if bars bar = 0 then (-enodev, s)
    else
      let sz := pageUp (if barSizes bar = 0 ∨ barSizes bar > len then len else barSizes bar)
      if sz = 0 ∨ sz > len then (-einval, s)
      else if va ≥ userLimit ∨ sz > userLimit - va then (-einval, s)
      else (va.toNat, deviceMap p va sz (bars bar) vflags s)

def chrMmap (dev : CharDevice) : Mem n → ℕ → ℕ → UInt64 → UInt64 → UInt64 → PteFlags → ℤ × Mem n :=
  match dev with
  | .devmem => devmemMmap
  | .fb0 pitch height physAddr => fb0Mmap pitch height physAddr
  | .uio bars barSizes => uioMmap bars barSizes

inductive MapFile where
  | bad
  | chr (dev : CharDevice)
  | shmem
  | regular (size : UInt64) (data : Option (UInt64 → UInt8))

structure MmapArgs where
  addr : UInt64
  length : UInt64
  prot : UInt64
  flags : UInt64
  off : UInt64
  file : MapFile
  -- the descriptor was opened with `O_RDONLY`
  rdonly : Bool

def MmapArgs.anon (a : MmapArgs) : Bool := a.flags &&& mapAnon != 0

-- what the checks of the descriptor refuse, before anything is changed
def mmapFileCheck (a : MmapArgs) : Option ℤ :=
  if a.anon then none
  else
    match a.file with
    | .bad => some (-ebadf)
    | _ =>
      if a.flags &&& mapShared ≠ 0 ∧ a.prot &&& protWrite ≠ 0 ∧ a.rdonly then some (-eacces)
      else none

def mmapSource (a : MmapArgs) : PageSource n :=
  if a.anon then anonPages
  else
    match a.file with
    | .regular size data => regularPages a.off size data
    | .shmem =>
      if a.flags &&& mapShared ≠ 0 then shmemSharedPages a.off else shmemPrivatePages a.off
    | _ => anonPages

-- a range entered in the table, and its pages by the loop of the kind of file
def mmapPages (p : ℕ) (a : MmapArgs) (va length : UInt64) : ℤ × Mem n × Shmem :=
  match x.1.setVmas p (vmaAdd (x.1.vmas p) va length a.prot.toUInt32 a.flags.toUInt32 true) with
  | (rc, s) =>
    if rc < 0 then (rc, s, x.2)
    else if a.prot &&& protAll = 0 then (va.toNat, s, x.2)
    else
      match mapSource (mmapSource a) p va length (flagsOfProt a.prot) (pageRange va length)
          (s, x.2) with
      | (rc, x) => (if rc < 0 then rc else va.toNat, x)

def mmapDevice (p euid : ℕ) (a : MmapArgs) (dev : CharDevice)
    (va length : UInt64) : ℤ × Mem n × Shmem :=
  match x.1.setVmas p (vmaAdd (x.1.vmas p) va length a.prot.toUInt32 a.flags.toUInt32 false) with
  | (rc, s) =>
    if rc < 0 then (rc, s, x.2)
    else if a.prot &&& protAll = 0 then (va.toNat, s, x.2)
    else
      match chrMmap dev s p euid a.off length va (flagsOfProt a.prot) with
      | (mr, s) =>
        if mr < 0 then (mr, (s.setVmas p (vmaRemove (s.vmas p) va length)).2, x.2)
        else (mr, s, x.2)

def mmapAt (p euid : ℕ) (a : MmapArgs) (va length : UInt64) : ℤ × Mem n × Shmem :=
  if a.anon then mmapPages x p a va length
  else
    match a.file with
    | .bad => (-ebadf, x)
    | .chr dev => mmapDevice x p euid a dev va length
    | .shmem =>
      if a.off > 0 - 1 - length then (-einval, x) else mmapPages x p a va length
    | .regular .. => mmapPages x p a va length

/-- The object is that of the file, if it is shared memory. -/
def sysMmapFd (p euid : ℕ) (a : MmapArgs) : ℤ × Mem n × Shmem :=
  if a.length = 0 then (-einval, x)
  else if a.length > lenMax then (-einval, x)
  else
    let length := pageUp a.length
    if !protValid a.prot || !mmapFlagsValid a.flags then (-einval, x)
    else if a.off % pageBytes ≠ 0 then (-einval, x)
    else
      match mmapFileCheck a with
      | some rc => (rc, x)
      | none =>
        match mmapPickAddr x.1 p a.addr length a.flags with
        | .error rc => (rc, x)
        | .ok (va, s) =>
          match mmapFixedReplace s p va length a.flags with
          | (rc, s) =>
            if rc < 0 then (rc, s, x.2) else mmapAt (s, x.2) p euid a va length

section

variable {x : Mem n × Shmem} {p euid : ℕ} {a : MmapArgs} {va addr len length : UInt64}
  {s s' : Mem n}

theorem mmapPickAddr_same {flags : UInt64} (hfix : flags &&& mapFixed = 0)
    (h : mmapPickAddr s p addr length flags = .ok (va, s')) : SameMaps s s' := by
  rw [mmapPickAddr, if_neg (by simp [hfix])] at h
  split at h
  · cases h
  · cases h
    exact ⟨rfl, rfl, rfl, rfl⟩

theorem mapSource_failed {prot mapFlags : UInt32} {free : Bool} (src : PageSource n)
    (flags : PteFlags) (hc : Canon (s.vmas p))
    (hok : (vmaAdd (s.vmas p) addr len prot mapFlags free).1 = 0) {done rest : List UInt64}
    (hm : MappedSoFar (s.setVmas p (vmaAdd (s.vmas p) addr len prot mapFlags free)).2 p done x.1)
    (hd : pageRange addr len = done ++ rest)
    (hneg : (mapSource src p addr len flags rest x).1 < 0) :
    SameView s (mapSource src p addr len flags rest x).2.1 := by
  induction rest generalizing done x with
  | nil => exact absurd hneg (lt_irrefl 0)
  | cons va rest ih =>
    rw [mapSource] at hneg ⊢
    have hget := src.same_get (va - addr) x
    rcases hr : src.get (va - addr) x with ⟨_ | f, s₁, o⟩ <;> rw [hr] at hget hneg
    · exact rollbackNewMapping_view hc hok (hm.same hget) hd
    rcases hv : vmmMap s₁ p va f flags with ⟨_ | _, s₂⟩
    · have h₂ := (hget.trans (vmmMap_refused hv)).trans (sameMaps_pmmFree s₂ f)
      simp only [hv]
      exact rollbackNewMapping_view hc hok (hm.same h₂) hd
    · simp only [hv] at hneg ⊢
      have h₂ := ((hm.same hget).map (vmmMap_mapped hv)).same (src.same_fill (va - addr) f (s₂, o))
      exact ih h₂ (by simpa using hd) hneg

theorem mmapPages_failed (hc : Canon (x.1.vmas p)) (hneg : (mmapPages x p a va length).1 < 0) :
    SameView x.1 (mmapPages x p a va length).2.1 := by
  revert hneg
  unfold mmapPages
  rcases hset : x.1.setVmas p (vmaAdd (x.1.vmas p) va length a.prot.toUInt32 a.flags.toUInt32 true)
    with ⟨rc, s₁⟩
  dsimp only
  rcases setVmas_vmaAdd hc hset with ⟨hlt, hview⟩ | ⟨hz, hok, rfl⟩
  · rw [if_pos hlt]
    exact fun _ => hview
  · rw [if_neg hz.not_lt]
    split
    · exact fun hneg => absurd hneg (Int.natCast_nonneg _).not_gt
    intro hneg
    refine mapSource_failed _ _ hc hok (.nil _) rfl ?_
    split at hneg
    · next hn => exact hn
    · exact absurd hneg (Int.natCast_nonneg _).not_gt

def Refuses (s : Mem n) (r : ℤ × Mem n) : Prop := r.1 < 0 → r.2 = s

theorem refuses_same (rc : ℤ) : Refuses s (rc, s) := fun _ => rfl

theorem refuses_nat (k : ℕ) : Refuses s ((k : ℤ), s') :=
  fun h => absurd h (Int.natCast_nonneg k).not_gt

theorem Refuses.ite {c : Prop} [Decidable c] {r r' : ℤ × Mem n} (h : Refuses s r)
    (h' : Refuses s r') : Refuses s (if c then r else r') := by
  split
  · exact h
  · exact h'

theorem chrMmap_refuses (dev : CharDevice) (off : UInt64) (vflags : PteFlags) :
    Refuses s (chrMmap dev s p euid off length va vflags) := by
  have hdone : ∀ s' : Mem n, Refuses s ((va.toNat : ℤ), s') := fun _ => refuses_nat va.toNat
  cases dev with
  | devmem | fb0 pitch height physAddr =>
    exact (refuses_same _).ite ((refuses_same _).ite ((refuses_same _).ite (hdone _)))
  | uio bars barSizes =>
    exact (refuses_same _).ite ((refuses_same _).ite ((refuses_same _).ite ((refuses_same _).ite
      ((refuses_same _).ite ((refuses_same _).ite (hdone _))))))

theorem mmapDevice_failed {dev : CharDevice} (hc : Canon (x.1.vmas p))
    (hneg : (mmapDevice x p euid a dev va length).1 < 0) :
    SameView x.1 (mmapDevice x p euid a dev va length).2.1 := by
  revert hneg
  unfold mmapDevice
  rcases hset : x.1.setVmas p (vmaAdd (x.1.vmas p) va length a.prot.toUInt32 a.flags.toUInt32 false)
    with ⟨rc, s₁⟩
  dsimp only
  rcases setVmas_vmaAdd hc hset with ⟨hlt, hview⟩ | ⟨hz, hok, hs⟩
  · rw [if_pos hlt]
    exact fun _ => hview
  · rw [if_neg hz.not_lt]
    split
    · exact fun hneg => absurd hneg (Int.natCast_nonneg _).not_gt
    have href : Refuses s₁ (chrMmap dev s₁ p euid a.off length va (flagsOfProt a.prot)) :=
      chrMmap_refuses dev a.off (flagsOfProt a.prot)
    split
    · next hmr =>
      rw [href hmr, ← hs]
      exact fun _ => undo_vmaAdd hc hok (.refl _)
    · next hmr => exact fun hneg => absurd hneg hmr

theorem mmapAt_failed (hc : Canon (x.1.vmas p)) (hneg : (mmapAt x p euid a va length).1 < 0) :
    SameView x.1 (mmapAt x p euid a va length).2.1 := by
  revert hneg
  unfold mmapAt
  split
  · exact mmapPages_failed hc
  cases a.file with
  | bad => exact fun _ => (SameMaps.refl x.1).view
  | chr dev => exact mmapDevice_failed hc
  | shmem =>
    dsimp only
    split
    · exact fun _ => (SameMaps.refl x.1).view
    · exact mmapPages_failed hc
  | regular size data => exact mmapPages_failed hc

theorem sysMmapFd_failed (hc : Canon (x.1.vmas p)) (hfix : a.flags &&& mapFixed = 0)
    (hneg : (sysMmapFd x p euid a).1 < 0) : SameView x.1 (sysMmapFd x p euid a).2.1 := by
  revert hneg
  unfold sysMmapFd
  dsimp only
  iterate 6
    split
    · exact fun _ => (SameMaps.refl x.1).view
  next va s₁ hpick =>
  have hsame := mmapPickAddr_same hfix hpick
  simp only [mmapFixedReplace, hfix, if_true, lt_irrefl, if_false]
  exact fun hneg => hsame.view.trans (mmapAt_failed (by rw [hsame.vmas]; exact hc) hneg)

end

/-- What `vma_add` enters can be taken out again, and a call that fails takes it out. -/
theorem added_range_undone :
    (∀ (t : VmaTable n) (ops : List VmaOp), t = vmaExec ops vmaReset →
      ∀ (start len : UInt64) (prot mapFlags : UInt32) (free : Bool),
      (vmaAdd t start len prot mapFlags free).1 = 0 →
      (vmaRemove (vmaAdd t start len prot mapFlags free).2 start len).1 = 0 ∧
      lookup (vmaRemove (vmaAdd t start len prot mapFlags free).2 start len).2 = lookup t) ∧
    ∀ (x : Mem n × Shmem) (p euid : ℕ) (a : MmapArgs) (ops : List VmaOp),
      x.1.vmas p = vmaExec ops vmaReset → a.flags &&& mapFixed = 0 →
      (sysMmapFd x p euid a).1 < 0 → SameView x.1 (sysMmapFd x p euid a).2.1 := by
  refine ⟨fun t ops ht start len prot mapFlags free hok => ?_,
    fun x p euid a ops ht hfix hneg => ?_⟩
  · exact vmaRemove_vmaAdd (ht ▸ canon_vmaExec ops canon_vmaReset) hok
  · exact sysMmapFd_failed (ht ▸ canon_vmaExec ops canon_vmaReset) hfix hneg

def shortOfFrames : Mem 4 := { Mem.boot with mmapBump := fun _ => 0x40000000, supply := [7] }

def twoPages : MmapArgs :=
  { addr := 0, length := 0x2000, prot := 3, flags := 0x22, off := 0, file := .bad, rdonly := false }

theorem added_range_undone_short :
    (sysMmapFd (shortOfFrames, ⟨[], 0, []⟩) 1 0 twoPages).1 = -enomem ∧
      SameView shortOfFrames (sysMmapFd (shortOfFrames, ⟨[], 0, []⟩) 1 0 twoPages).2.1 ∧
      lookup (vmaRemove (vmaAdd (vmaReset : VmaTable 1) 0x1000 0x2000 3 0x22 true).2 0x1000
        0x2000).2 = lookup (vmaReset : VmaTable 1) := by
  have hfail : (sysMmapFd (shortOfFrames, ⟨[], 0, []⟩) 1 0 twoPages).1 = -enomem := by
    decide +kernel
  refine ⟨hfail,
    added_range_undone.2 (shortOfFrames, ⟨[], 0, []⟩) 1 0 twoPages [] rfl (by decide) ?_, ?_⟩
  · rw [hfail]
    exact neg_errno_lt
  · exact (added_range_undone.1 vmaReset [] rfl 0x1000 0x2000 3 0x22 true (by decide +kernel)).2

end Kyronix.Mm
