import Kyronix.Mm.Cow

/-! `munmap` and the ways a page comes back (`vmm.c`, the page fault of `idt.c`). The call drops the
result of the removal, so its range can stay mapped; and the stack grows into pages no mapping
covers. -/
namespace Kyronix.Mm

open Lib Word Lib.Run Lib.Intervals Function

variable {n : ℕ}

inductive PageFaultResult where
  | handled
  | sigsegv
  | sigbus
deriving DecidableEq, Repr

def faultIn (s : Mem n) (p : ℕ) (page : UInt64) (flags : PteFlags) : PageFaultResult × Mem n :=
  match pmmAllocZeroed s with
  | (none, s) => (.sigbus, s)
  | (some f, s) =>
    match vmmMap s p page f flags with
    | (false, s) => (.sigbus, pmmFree s f)
    | (true, s) => (.handled, s)

def inStackWindow (page : UInt64) : Bool :=
  decide (userStackGrowBase ≤ page) && decide (page < userStackTop)

def userPageFault (s : Mem n) (p : ℕ) (addr : UInt64) (write exec near : Bool) :
    PageFaultResult × Mem n :=
  match (s.pt p).pte (pageDown addr) with
  | some _ =>
    if !write then (.sigsegv, s)
    else
      match vmmHandleCowFault s p addr with
      | (rc, s) => (if rc > 0 then .handled else .sigsegv, s)
  | none =>
    let page := pageDown addr
    if !exec && near && inStackWindow page then faultIn s p page vmmUdata
    else if vmaPageFaultAllowed (s.vmas p) page write exec then
      faultIn s p page (vmaPageFlags (s.vmas p) page)
    else (.sigsegv, s)

-- the pages that `vmm_user_range_fault_in` walks over
def rangePages (virt len : UInt64) : List UInt64 :=
  (List.range ((pageDown (virt + len - 1) - pageDown virt).toNat / 4096 + 1)).map fun i =>
    pageDown virt + UInt64.ofNat (4096 * i)

def faultInPage (s : Mem n) (p : ℕ) (write : Bool) (pg : UInt64) : Bool × Mem n :=
  match (s.pt p).pte pg with
  | some e =>
    if !e.flags.user then (false, s)
    else if write && !e.flags.write then
      if !e.flags.cow then (false, s)
      else
        match vmmHandleCowFault s p pg with
        | (rc, s) => (decide (rc > 0), s)
    else (true, s)
  | none =>
    if !vmaPageFaultAllowed (s.vmas p) pg write false then (false, s)
    else
      match faultIn s p pg (vmaPageFlags (s.vmas p) pg) with
      | (r, s) => (r == .handled, s)

def faultInPages (p : ℕ) (write : Bool) : List UInt64 → Mem n → Bool × Mem n
  | [], s => (true, s)
  | pg :: rest, s =>
    match faultInPage s p write pg with
    | (false, s) => (false, s)
    | (true, s) => faultInPages p write rest s

def vmmUserRangeFaultIn (s : Mem n) (p : ℕ) (virt len : UInt64) (write : Bool) : Bool × Mem n :=
  if len = 0 then (true, s)
  else if virt + len < virt then (false, s)
  else faultInPages p write (rangePages virt len) s

/-- Neither a fault nor a system call that reaches for the page gets it mapped. -/
structure Refused (s : Mem n) (p : ℕ) (page : UInt64) : Prop where
  fault : ∀ addr write exec near, pageDown addr = page →
    userPageFault s p addr write exec near = (.sigsegv, s)
  faultIn : ∀ virt len write, len ≠ 0 → page ∈ rangePages virt len →
    (vmmUserRangeFaultIn s p virt len write).1 = false ∧
      (vmmUserRangeFaultIn s p virt len write).2.entry (p, page) = none

section

variable {s s' : Mem n} {p : ℕ} {page va : UInt64}

structure Bare (s : Mem n) (p : ℕ) (page : UInt64) : Prop where
  absent : s.entry (p, page) = none
  bare : lookup (s.vmas p) page = none

section

variable (h : Bare s p page)
include h

theorem Bare.same (hs : SameMaps s s') : Bare s' p page :=
  ⟨by rw [hs.entry, h.absent], by rw [hs.vmas, h.bare]⟩

theorem Bare.mapped {e : Pte} (hm : MappedPage s s' p va e) (hne : page ≠ va) : Bare s' p page := by
  refine ⟨?_, by rw [hm.vmas, h.bare]⟩
  rw [hm.entry, update_of_ne (fun hc => hne (Prod.ext_iff.mp hc).2), h.absent]

theorem Bare.faultIn (hne : page ≠ va) (flags : PteFlags) :
    Bare (faultIn s p va flags).2 p page := by
  have hal := sameMaps_pmmAllocZeroed s
  rw [Mm.faultIn]
  rcases ha : pmmAllocZeroed s with ⟨_ | f, s₁⟩ <;> rw [ha] at hal
  · exact h.same hal
  dsimp only
  rcases hm : vmmMap s₁ p va f flags with ⟨_ | _, s₂⟩
  · exact (h.same hal).same ((vmmMap_refused hm).trans (sameMaps_pmmFree ..))
  · exact (h.same hal).mapped (vmmMap_mapped hm) hne

theorem Bare.setPte {e e' : Pte} (hs : s.entry (p, va) = some e) :
    Bare (s.setPte p va e') p page := by
  refine ⟨?_, h.bare⟩
  have hne : (p, page) ≠ (p, va) := by
    intro heq
    have habs := h.absent
    rw [heq, hs] at habs
    cases habs
  rw [entry_setPte, update_of_ne hne, h.absent]

theorem Bare.cow (virt : UInt64) : Bare (vmmHandleCowFault s p virt).2 p page := by
  unfold vmmHandleCowFault
  rcases he : (s.pt p).pte (pageDown virt) with _ | e
  · exact h
  have he : s.entry (p, pageDown virt) = some e := he
  dsimp only
  split
  · exact h
  split
  · rw [vmmProtect]
    split
    · exact h
    · exact h.setPte he
  · have hal := sameMaps_pmmAlloc s
    rcases ha : pmmAlloc s with ⟨_ | f, s₁⟩ <;> rw [ha] at hal
    · exact h.same hal
    · have h₁ := (h.same hal).same (sameMaps_fill s₁ f (s₁.page e.frame))
      have he₁ : (s₁.fill f (s₁.page e.frame)).entry (p, pageDown virt) = some e := by
        show s₁.entry (p, pageDown virt) = some e
        rw [hal.entry, he]
      exact (h₁.setPte he₁).same (sameMaps_pmmFree ..)

theorem Bare.faultInPage (write : Bool) (pg : UInt64) : Bare (faultInPage s p write pg).2 p page ∧
      (pg = page → (faultInPage s p write pg).1 = false) := by
  unfold Mm.faultInPage
  rcases he : (s.pt p).pte pg with _ | e
  · dsimp only
    split
    · exact ⟨h, fun _ => rfl⟩
    · next hallowed =>
      have hne : page ≠ pg := by
        rintro rfl
        simp [vmaPageFaultAllowed, h.bare] at hallowed
      exact ⟨h.faultIn hne _, fun heq => absurd heq.symm hne⟩
  · have hne : page ≠ pg := by
      rintro rfl
      exact absurd (h.absent.symm.trans he) (by simp)
    refine ⟨?_, fun heq => absurd heq.symm hne⟩
    dsimp only
    split
    · exact h
    split
    · split
      · exact h
      · exact h.cow pg
    · exact h

theorem Bare.faultInPages (write : Bool) {l : List UInt64} (hl : page ∈ l) :
    (faultInPages p write l s).1 = false ∧ (faultInPages p write l s).2.entry (p, page) = none := by
  induction l generalizing s with
  | nil => cases hl
  | cons pg rest ih =>
    obtain ⟨hb, hpage⟩ := h.faultInPage write pg
    rw [Mm.faultInPages]
    rcases hr : Mm.faultInPage s p write pg with ⟨_ | _, s₁⟩ <;> rw [hr] at hb hpage
    · exact ⟨rfl, hb.absent⟩
    · rcases List.mem_cons.mp hl with rfl | hl
      · exact absurd (hpage rfl) (by simp)
      · exact ih hb hl

theorem Bare.refused (hw : inStackWindow page = false) : Refused s p page := by
  refine ⟨fun addr write exec near hpage => ?_, fun virt len write hlen hmem => ?_⟩
  · have hpte : (s.pt p).pte page = none := h.absent
    have hvma : vmaPageFaultAllowed (s.vmas p) page write exec = false := by
      simp [vmaPageFaultAllowed, h.bare]
    unfold userPageFault
    simp [hpage, hpte, hw, hvma]
  · rw [vmmUserRangeFaultIn, if_neg hlen]
    split
    · exact ⟨rfl, h.absent⟩
    · exact h.faultInPages write hmem

end

theorem not_refused (habs : s.entry (p, page) = none) (hal : pageDown page = page)
    (hw : inStackWindow page = true) : ¬ Refused s p page := by
  intro h
  have hf := congrArg Prod.fst (h.fault page false false true hal)
  have hpte : (s.pt p).pte page = none := habs
  unfold userPageFault at hf
  simp only [hal, hpte, hw, Bool.not_false, Bool.and_true, if_true] at hf
  rw [Mm.faultIn] at hf
  split at hf
  · cases hf
  · split at hf <;> cases hf

end

/-- What `munmap` is for. A page that stays mapped is not faulted in again. -/
structure Unmaps (s : Mem n) (p : ℕ) (addr len : UInt64) (s' : Mem n) : Prop where
  gone : ∀ a, InRange addr len a → lookup (s'.vmas p) a = none
  refused : ∀ page ∈ pageRange addr len, s'.entry (p, page) = none → ∀ supply tables,
    Refused { s' with supply := supply, tables := tables } p page
  outside : ∀ a, ¬ InRange addr len a →
    lookup (s'.vmas p) a = lookup (s.vmas p) a ∧ s'.entry (p, a) = s.entry (p, a)

section

variable {s s' : Mem n} {p : ℕ} {addr len : UInt64}

theorem rangeEnd_of_userMapRangeOk (h : userMapRangeOk addr len = true) :
    rangeEnd addr len = some (addr + len) := by
  have hok := userMapRangeOk_iff.mp h
  refine rangeEnd_of_lt ?_
  rw [UInt64.lt_iff_toNat_lt, UInt64.toNat_add]
  omega

theorem sysMunmap_zero (h : (sysMunmap s p addr len).1 = 0) :
    userMapRangeOk addr (pageUp len) = true ∧
      (sysMunmap s p addr len).2 = ((unmapOwnedPages s p addr (pageUp len)).setVmas p
        (vmaRemoveOverlaps ((unmapOwnedPages s p addr (pageUp len)).vmas p) addr
          (pageUp len))).2 := by
  unfold sysMunmap at h ⊢
  split at h
  · exact absurd h (neg_errno_lt).ne
  split at h
  · exact absurd h (neg_errno_lt).ne
  dsimp only at h
  split at h
  · exact absurd h (neg_errno_lt).ne
  next h₁ h₂ h₃ =>
  rw [if_neg h₁, if_neg h₂, if_neg h₃]
  exact ⟨by simpa using h₃, rfl⟩

theorem sysMunmap_entry (h : (sysMunmap s p addr len).1 = 0) :
    (∀ x, (sysMunmap s p addr len).2.entry x =
      if x.1 = p ∧ x.2 ∈ pageRange addr (pageUp len) ∧ vmaPageMapped (s.vmas p) x.2 then none
      else s.entry x) ∧
    (sysMunmap s p addr len).2.vmas p = (vmaRemoveOverlaps (s.vmas p) addr (pageUp len)).2 := by
  obtain ⟨-, hs⟩ := sysMunmap_zero h
  have hu := unmapOwnedPages_unmapped s p addr (pageUp len)
  rw [hs]
  refine ⟨hu.entry, ?_⟩
  rw [hu.vmas]
  exact update_self ..

theorem pageDown_of_mem {page : UInt64} (hal : addr.toNat % 4096 = 0)
    (h : page ∈ pageRange addr len) : pageDown page = page := by
  have hp := pageRange_aligned hal len page h
  apply UInt64.toNat_inj.mp
  rw [toNat_pageDown]
  omega

theorem Stuck.lookup {t : VmaTable n} {end_ : UInt64} (hc : Canon t) (hlt : addr < end_)
    (h : Stuck t addr end_) : lookup t addr ≠ none := by
  obtain ⟨v, hu, hlo, hhi, -⟩ := h
  have hat : At (segs t) addr (t v).attrs :=
    ⟨v, _, trivial, Vma.seg?_of_used hu, ⟨hlo.le, hlt.trans hhi⟩, rfl⟩
  rw [(lookup_eq_some hc.separate).mpr hat]
  exact Option.some_ne_none _

/-- The range does not lie strictly inside one mapping with no slot free, and where the stack may
grow its pages are mapped behind the table's back. -/
theorem munmap_complete_iff (ops : List VmaOp) (ht : s.vmas p = vmaExec ops vmaReset)
    (h : (sysMunmap s p addr len).1 = 0) :
    Unmaps s p addr (pageUp len) (sysMunmap s p addr len).2 ↔
      ¬ Stuck (s.vmas p) addr (addr + pageUp len) ∧
        ∀ page ∈ pageRange addr (pageUp len), inStackWindow page = true →
          lookup (s.vmas p) page = none ∧ (s.entry (p, page)).isSome := by
  have hc : Canon (s.vmas p) := ht ▸ canon_vmaExec ops canon_vmaReset
  obtain ⟨hok, -⟩ := sysMunmap_zero h
  have hal := userMapRangeOk_aligned hok
  have he := rangeEnd_of_userMapRangeOk hok
  obtain ⟨hentry, hvmas⟩ := sysMunmap_entry h
  have hframe := (removeOverlaps_refines hc.separate addr (pageUp len)).frame
  have hpages := pageRange_inRange hok
  have houtside : ∀ a, ¬ InRange addr (pageUp len) a →
      lookup ((sysMunmap s p addr len).2.vmas p) a = lookup (s.vmas p) a ∧
        (sysMunmap s p addr len).2.entry (p, a) = s.entry (p, a) := by
    intro a ha
    rw [hvmas, hentry, if_neg fun hx => ha (hpages a hx.2.1)]
    exact ⟨hframe a ha, rfl⟩
  constructor
  · intro hu
    have hstuck : ¬ Stuck (s.vmas p) addr (addr + pageUp len) := by
      intro hst
      have hlt := (rangeEnd_spec he).1
      rcases vmaRemoveOverlaps_cases hc.separate he with ⟨-, hsame, -⟩ | ⟨-, hnot⟩
      · have hnone := hu.gone addr ((inRange_iff he).mpr ⟨le_rfl, hlt⟩)
        rw [hvmas, hsame] at hnone
        exact hst.lookup hc hlt hnone
      · exact hnot hst
    refine ⟨hstuck, fun page hpage hwin => ?_⟩
    -- an absent page of the window comes back when the stack grows
    by_contra hnot
    have hnone : (sysMunmap s p addr len).2.entry (p, page) = none := by
      rw [hentry]
      split
      · rfl
      · next hx =>
        rw [Option.eq_none_iff_forall_ne_some]
        intro e hse
        refine hnot ⟨?_, by rw [hse]; rfl⟩
        by_contra hl
        exact hx ⟨rfl, hpage, Option.isSome_iff_ne_none.mpr hl⟩
    exact not_refused (s := (sysMunmap s p addr len).2) hnone (pageDown_of_mem hal hpage) hwin
      (hu.refused page hpage hnone _ _)
  · rintro ⟨hstuck, hwin⟩
    have hgone : ∀ a, InRange addr (pageUp len) a →
        lookup ((sysMunmap s p addr len).2.vmas p) a = none := by
      intro a ha
      rcases vmaRemoveOverlaps_cases hc.separate he with ⟨-, -, hst⟩ | ⟨hz, -⟩
      · exact absurd hst hstuck
      · rw [hvmas, ((removeOverlaps_refines hc.separate addr (pageUp len)).effect hz).2]
        exact if_pos ha
    refine ⟨hgone, fun page hpage hnone supply tables => ?_, houtside⟩
    have hbare :
        Bare { (sysMunmap s p addr len).2 with supply := supply, tables := tables } p page :=
      ⟨hnone, hgone page (hpages page hpage)⟩
    refine hbare.refused ?_
    by_contra hw
    obtain ⟨hl, hsome⟩ := hwin page hpage (by simpa using hw)
    rw [hentry, if_neg] at hnone
    · rw [hnone] at hsome
      cases hsome
    · rintro ⟨-, -, hm⟩
      rw [vmaPageMapped, hl] at hm
      cases hm

end

def crowdMmap (i : ℕ) : MemCall :=
  ⟨1, .mmap 0 0x3000 0 (crowdFlags i).toUInt64 (fun _ => 0), [], []⟩

def crowdCalls (k : ℕ) : List MemCall :=
  ⟨1, .spawn 0x10000000 0x40000000, [], []⟩ :: (List.range k).map crowdMmap

structure Crowded (k : ℕ) (s : Mem n) : Prop where
  alive : s.alive 1 = true
  vmas : s.vmas 1 = crowded k
  bump : s.mmapBump 1 = crowdStart k
  brk : s.brk 1 = 0x10000000 ∧ s.brkBase 1 = 0x10000000
  entry : ∀ x, s.entry x = none

variable {k : ℕ}

theorem pageUp_crowdStart (hk : k ≤ 4096) : pageUp (crowdStart k) = crowdStart k := by
  have h := toNat_crowdStart hk
  have hone : (pageBytes - 1).toNat = 4095 := rfl
  apply UInt64.toNat_inj.mp
  rw [pageUp, toNat_pageDown, UInt64.toNat_add, hone, h]
  omega

theorem userMapRangeOk_crowdStart (hk : k ≤ 4096) :
    userMapRangeOk (crowdStart k) 0x3000 = true := by
  rw [userMapRangeOk_iff, toNat_crowdStart hk, show (0x3000 : UInt64).toNat = 0x3000 from rfl]
  omega

theorem sysMmap_reserve {s : Mem n} {p : ℕ} {va length flags : UInt64} {t : VmaTable n}
    (file : UInt64 → UInt8) (hlen : ¬ length = 0 ∧ ¬ length > lenMax ∧ pageUp length = length)
    (hflags : mmapFlagsValid flags = true) (hfix : flags &&& mapFixed = 0)
    (hpick : pickFrom (s.vmas p) length (n + 16) (pageUp (s.mmapBump p)) = some va)
    (hadd : vmaAdd (s.vmas p) va length 0 flags.toUInt32 true = (0, t)) :
    sysMmap s p 0 length 0 flags file = ((va.toNat : ℤ), { s with
      mmapBump := update s.mmapBump p (va + length)
      vmas := update s.vmas p t }) := by
  have hadd' : vmaAdd (s.vmas p) va length (0 : UInt64).toUInt32 flags.toUInt32 true = (0, t) :=
    hadd
  have hprot : protValid 0 = true := by decide
  have haddr : mmapPickAddr s p 0 length flags =
      .ok (va, { s with mmapBump := update s.mmapBump p (va + length) }) := by
    rw [mmapPickAddr, if_neg (by simp [hfix]), hpick]
  unfold sysMmap
  rw [if_neg hlen.1, if_neg hlen.2.1]
  dsimp only
  rw [hlen.2.2, hprot, hflags, haddr]
  simp only [Bool.not_true, Bool.or_false, Bool.false_eq_true, if_false, mmapFixedReplace, hfix,
    if_true, lt_irrefl, Mem.setVmas, hadd']
  rfl

theorem Crowded.mmap {s : Mem n} (h : Crowded k s) (hk : k < n) (hn : n ≤ 2048) :
    Crowded (k + 1) (memStep s (crowdMmap k)) := by
  have hk' : k < 4096 := by omega
  have hflags : mmapFlagsValid (crowdFlags k).toUInt64 = true ∧
      (crowdFlags k).toUInt64 &&& mapFixed = 0 ∧
      (crowdFlags k).toUInt64.toUInt32 = crowdFlags k := by
    rw [crowdFlags]
    split <;> decide
  have hpick : pickFrom (s.vmas 1) 0x3000 (n + 16) (pageUp (s.mmapBump 1)) =
      some (crowdStart k) := by
    rw [h.vmas, h.bump, pageUp_crowdStart hk'.le, pickFrom, userMapRangeOk_crowdStart hk'.le,
      vmaConflicts_crowded hk']
    rfl
  have hadd : vmaAdd (s.vmas 1) (crowdStart k) 0x3000 0 (crowdFlags k).toUInt64.toUInt32 true =
      (0, crowded (k + 1)) := by
    rw [hflags.2.2, h.vmas]
    exact vmaAdd_crowded hk hn
  have hcall := sysMmap_reserve (s := s.load (crowdMmap k)) (fun _ => 0)
    ⟨by decide, by decide, by decide⟩ hflags.1 hflags.2.1 hpick hadd
  have hstep : memStep s (crowdMmap k) =
      (sysMmap (s.load (crowdMmap k)) 1 0 0x3000 0 (crowdFlags k).toUInt64 fun _ => 0).2 := by
    rw [memStep, if_pos]
    · rfl
    · simp [crowdMmap, h.alive]
  rw [hstep, hcall]
  refine ⟨h.alive, ?_, ?_, h.brk, h.entry⟩
  · exact update_self 1 (crowded (k + 1) : VmaTable n) s.vmas
  · exact (update_self 1 _ s.mmapBump).trans (crowdStart_succ hk')

theorem crowdCalls_crowded (hk : k ≤ n) (hn : n ≤ 2048) :
    Crowded k (exec memStep (Mem.boot : Mem n) (crowdCalls k)) := by
  induction k with
  | zero =>
    refine ⟨rfl, rfl, rfl, ⟨rfl, rfl⟩, fun x => ?_⟩
    show (update (fun _ => PageTable.empty) 1 PageTable.empty x.1).pte x.2 = none
    rw [update_apply]
    split <;> rfl
  | succ k ih =>
    have hsplit : crowdCalls (k + 1) = crowdCalls k ++ [crowdMmap k] := by
      rw [crowdCalls, List.range_succ, List.map_append]
      rfl
    rw [hsplit, exec_concat]
    exact (ih (Nat.le_of_succ_le hk)).mmap hk hn

theorem munmap_small {s : Mem n} {p : ℕ} {addr : UInt64} (hal : ¬ addr % pageBytes ≠ 0)
    (hok : userMapRangeOk addr 0x1000 = true) : (sysMunmap s p addr 0x1000).1 = 0 := by
  have hup : pageUp 0x1000 = 0x1000 := by decide
  unfold sysMunmap
  rw [if_neg (not_or.mpr ⟨hal, by decide⟩), if_neg (by decide)]
  dsimp only
  rw [hup, hok, if_neg (by decide)]

/-- With all slots in use the middle page of a mapping stays mapped. -/
theorem munmap_keeps_range :
    let s := exec memStep (Mem.boot : Mem vmmVmaMax) (crowdCalls vmmVmaMax)
    let r := sysMunmap s 1 0x40001000 0x1000
    r.1 = 0 ∧ lookup (r.2.vmas 1) 0x40001000 = some ⟨0, 0x22, true⟩ := by
  intro s r
  have hs : Crowded vmmVmaMax s := crowdCalls_crowded le_rfl le_rfl
  have hz : r.1 = 0 := munmap_small (by decide) (by decide)
  have hup : pageUp 0x1000 = 0x1000 := by decide
  have hstuck : Stuck (s.vmas 1) 0x40001000 0x40002000 := by
    rw [hs.vmas]
    refine ⟨firstSlot, ?_, ?_, ?_, emptySlot_of_used used_crowded⟩ <;> rw [crowded_firstSlot]
    all_goals decide
  have hcanon : Canon (s.vmas 1) := hs.vmas ▸ canon_full
  have hsame : (vmaRemoveOverlaps (s.vmas 1) 0x40001000 0x1000).2 = s.vmas 1 := by
    have he : rangeEnd 0x40001000 0x1000 = some 0x40002000 := by decide
    rcases vmaRemoveOverlaps_cases hcanon.separate he with ⟨-, h, -⟩ | ⟨-, h⟩
    · exact h
    · exact absurd hstuck h
  refine ⟨hz, ?_⟩
  rw [(sysMunmap_entry hz).2, hup, hsame, hs.vmas, lookup,
    containing_full firstSlot (by decide) (by decide)]
  show some (crowded vmmVmaMax firstSlot).attrs = _
  rw [crowded_firstSlot]
  rfl

def threePages : Mem 4 :=
  { (Mem.boot : Mem 4) with
    vmas := fun _ => vmaExec [.add 0x40000000 0x3000 3 0x22 true] vmaReset }

theorem munmap_complete_middle :
    (sysMunmap threePages 1 0x40001000 0x1000).1 = 0 ∧
      Unmaps threePages 1 0x40001000 0x1000 (sysMunmap threePages 1 0x40001000 0x1000).2 := by
  have hz : (sysMunmap threePages 1 0x40001000 0x1000).1 = 0 :=
    munmap_small (by decide) (by decide)
  have hup : pageUp 0x1000 = 0x1000 := by decide
  refine ⟨hz, ?_⟩
  have h := munmap_complete_iff (s := threePages) (p := 1) [.add 0x40000000 0x3000 3 0x22 true] rfl
    hz
  rw [hup] at h
  refine h.mpr ⟨?_, ?_⟩
  · rintro ⟨v, -, -, -, hfull⟩
    exact absurd hfull (by decide +kernel)
  · intro page hpage hwin
    have hpage' : page = 0x40001000 := by simpa [pageRange] using hpage
    rw [hpage'] at hwin
    exact absurd hwin (by decide)

end Kyronix.Mm
