import Kyronix.Mm.CowOps

/-! The calls of a process: page faults and stores, the memory system calls, fork and exit. -/
namespace Kyronix.Mm

open Lib Word Lib.Intervals Lib.Refs Function Safe Option

variable {n : ℕ} {A : Set ℕ} {s s' s'' : Mem n} {kind : ℕ → Bool} {p f : ℕ} {va : UInt64} {e : Pte}

theorem pmmRefCount_eq (h : Ok s) (f : ℕ) : pmmRefCount s f = s.refs f := by
  obtain ⟨kind, h⟩ := h
  rw [pmmRefCount]
  split
  · rfl
  · exact (h.beyond f (by omega)).symm

theorem pmmFree_pt (t : ℕ → PageTable) :
    pmmFree { s with pt := t } f = { pmmFree s f with pt := t } := by
  by_cases hf : f < pmmRefMaxFrames
  · by_cases h₀ : s.refs f = 0
    · simp only [pmmFree, hf, h₀, if_true]
    · simp only [pmmFree, hf, h₀, if_true, if_false]
  · simp only [pmmFree, hf, if_false]

section

variable (h : Ok s) (hp : p ∈ A)
include h hp

theorem replace_safe (hx : s.entry (p, va) = some e) (hf : Loose s f)
    (hlive : s.alive p = true) (flags : PteFlags) :
    Safe A s (pmmFree (s.setPte p va ⟨f, flags⟩) e.frame) := by
  obtain ⟨hfree, hs⟩ := unmapFree_safe h hp hx
  have hloose : Loose (pmmFree (vmmUnmap s p va) e.frame) f := by
    obtain ⟨kind, h⟩ := h
    have hbeyond := (h.unmap p va).beyond
    refine ⟨?_, fun x hx' => ?_, (pmmFree_refs_le hbeyond _ f).trans hf.once⟩
    · rw [(pmmFree_spec hbeyond e.frame).2.2.2 f (Or.inl (hf.not_held (holds_of_entry hx)).symm)]
      exact hf.used
    · rw [hs.holds, holds_vmmUnmap] at hx'
      exact forall_update_some (P := fun _ g => g ≠ f)
        (fun _ h => absurd h.symm (some_ne_none _)) (fun y g _ hy => hf.not_held hy) x f hx' rfl
  have hva : va.toNat % 4096 = 0 := by
    obtain ⟨kind, h⟩ := h
    exact h.aligned _ e hx
  have hlive' : (pmmFree (vmmUnmap s p va) e.frame).alive p = true := by rwa [hfree.alive]
  have hset := hfree.trans (setPte_safe hfree.ok hp hlive' hva hloose flags)
  -- the entry was cleared first, which leaves no trace
  apply hset.trans
  have hunmap : pmmFree (vmmUnmap s p va) e.frame = _ := pmmFree_pt _
  have hpte : pmmFree (s.setPte p va ⟨f, flags⟩) e.frame = _ := pmmFree_pt _
  rw [hunmap] at hset ⊢
  rw [hpte]
  refine hset.ok.safe_of_same ⟨?_, rfl, rfl, rfl⟩ rfl rfl rfl
  calc (s.setPte p va ⟨f, flags⟩).entry
      = update (vmmUnmap s p va).entry (p, va) (some ⟨f, flags⟩) := by
        rw [entry_setPte, entry_vmmUnmap, update_idem]
    _ = _ := entry_setPte.symm

theorem vmmHandleCowFault_safe (hlive : s.alive p = true) (virt : UInt64) :
    Safe A s (vmmHandleCowFault s p virt).2 := by
  rw [vmmHandleCowFault]
  cases hx : (s.pt p).pte (pageDown virt) with
  | none => exact refl h
  | some e =>
    dsimp only
    split
    · exact refl h
    split
    · rename_i hone
      rw [pmmRefCount_eq h] at hone
      obtain ⟨kind, h⟩ := h
      rw [vmmProtect, hx]
      exact reflag_safe h hp hx fun _ => Or.inr hone.le
    · rcases ha : pmmAlloc s with ⟨_ | f, s₁⟩
      · exact (pmmAlloc_safe h ha).1
      · obtain ⟨hsafe, hs, hloose⟩ := pmmAlloc_safe (A := A) h ha
        obtain ⟨hfill, hf⟩ := fill_loose_safe (A := A) hsafe.ok (hloose f rfl) (s₁.page e.frame)
        have hsafe' := hsafe.trans hfill
        refine hsafe'.trans (replace_safe hsafe'.ok hp ?_ hf (by rwa [hsafe'.alive]) _)
        exact (congrFun hs.entry _).trans hx

theorem handleUserPageFault_safe (hlive : s.alive p = true) (addr : UInt64)
    (write near : Bool) : Safe A s (handleUserPageFault s p addr write near).2 := by
  rw [handleUserPageFault]
  cases (s.pt p).pte (pageDown addr) with
  | some e =>
    cases write with
    | false => exact refl h
    | true => exact vmmHandleCowFault_safe h hp hlive addr
  | none =>
    dsimp only
    split
    · rcases ha : pmmAllocZeroed s with ⟨_ | f, s₁⟩
      · exact (pmmAllocZeroed_safe h ha).1
      dsimp only
      rcases hm : vmmMap s₁ p (pageDown addr) f _ with ⟨_ | _, s₂⟩
      · exact (mapNew_safe h hp hlive (pageDown_aligned addr) ha hm).2.1 rfl
      · exact (mapNew_safe h hp hlive (pageDown_aligned addr) ha hm).1
    · exact refl h

theorem writeByte_safe (addr : UInt64) (b : UInt8) : Safe A s (writeByte s p addr b) := by
  rw [writeByte, userWritable]
  cases hx : (s.pt p).pte (pageDown addr) with
  | none => exact refl h
  | some e =>
    split
    case h_2 => exact refl h
    case h_1 f hf =>
      obtain ⟨hw, ⟨⟩⟩ := ite_none_right_eq_some.mp hf
      have hx' : s.holds (p, pageDown addr) = some e.frame := holds_of_entry hx
      obtain ⟨kind, h⟩ := h
      by_cases hone : s.refs e.frame ≤ 1
      · exact fill_held_safe ⟨kind, h⟩ hp hx' hone _
      -- a writable frame that is held more than once is a shared one
      have hkind : kind e.frame = true := by
        by_contra hk
        exact hone (h.cow (p, pageDown addr) e hx (Bool.and_eq_true_iff.mp hw).2
          (Bool.eq_false_iff.mpr hk))
      refine safe_of_frames ⟨kind, h.congr (sameSpaces_fill _) rfl rfl⟩ (sameSpaces_fill _)
        (fun q vb g _ hpriv hg => ?_) fun _ _ _ => le_rfl
      obtain ⟨k, hk, hshared⟩ := hpriv
      obtain ⟨e', hx'', rfl⟩ := entry_of_holds hg
      have hne : e'.frame ≠ e.frame := by
        intro heq
        rw [← heq, h.kinds q vb e' k hx'' hk, hshared] at hkind
        cases hkind
      exact update_of_ne hne ..

theorem userStore_safe (hlive : s.alive p = true) (addr : UInt64)
    (b : UInt8) (near : Bool) : Safe A s (userStore s p addr b near) := by
  rw [userStore]
  split
  · exact writeByte_safe h hp addr b
  · have hsafe := handleUserPageFault_safe h hp hlive addr true near
    rcases hf : handleUserPageFault s p addr true near with ⟨_ | _, s₁⟩
    · rwa [hf] at hsafe
    · rw [hf] at hsafe
      exact hsafe.trans (writeByte_safe hsafe.ok hp addr b)

end

theorem pageUp_aligned (x : UInt64) : (pageUp x).toNat % 4096 = 0 := pageDown_aligned _

theorem userMapRangeOk_aligned {len : UInt64} (h : userMapRangeOk va len = true) :
    va.toNat % 4096 = 0 :=
  (userMapRangeOk_iff.mp h).2.1

theorem pickFrom_ok {t : VmaTable n} {length : UInt64} (tries : ℕ) {start : UInt64}
    (h : pickFrom t length tries start = some va) :
    userMapRangeOk va length = true ∧ vmaConflicts t va length = false := by
  induction tries generalizing start with
  | zero => cases h
  | succ tries ih =>
    rw [pickFrom] at h
    split at h
    · cases h
    · rename_i hok
      split at h
      · rename_i hfree
        cases h
        exact ⟨by simpa using hok, by simpa using hfree⟩
      · exact ih h

structure Picked (s s' : Mem n) (va : UInt64) : Prop where
  same : SameSpaces s s'
  used : s'.used = s.used
  refs : s'.refs = s.refs
  page : s'.page = s.page
  aligned : va.toNat % 4096 = 0

theorem mmapPickAddr_picked {addr length flags : UInt64}
    (h : mmapPickAddr s p addr length flags = .ok (va, s')) : Picked s s' va := by
  unfold mmapPickAddr at h
  split at h
  · dsimp only at h
    split at h
    · cases h
    · rename_i hok
      split at h
      · cases h
      · cases h
        exact ⟨⟨rfl, rfl, rfl, rfl⟩, rfl, rfl, rfl, userMapRangeOk_aligned (by simpa using hok)⟩
  · split at h
    · cases h
    · rename_i hpick
      cases h
      exact ⟨⟨rfl, rfl, rfl, rfl⟩, rfl, rfl, rfl,
        userMapRangeOk_aligned (pickFrom_ok _ hpick).1⟩

theorem mremapPickAddr_picked {newSz flags newAddr : UInt64}
    (h : mremapPickAddr s p newSz flags newAddr = .ok (va, s')) : Picked s s' va := by
  unfold mremapPickAddr at h
  split at h
  · split at h
    · cases h
    · rename_i hok
      cases h
      rw [Bool.or_eq_true, not_or, Bool.not_eq_true', Bool.not_eq_false] at hok
      exact ⟨⟨rfl, rfl, rfl, rfl⟩, rfl, rfl, rfl, userMapRangeOk_aligned hok.1⟩
  · exact mmapPickAddr_picked h

theorem Picked.safe (h : Picked s s' va) (hok : Ok s) : Safe A s s' :=
  hok.safe_of_same h.same h.used h.refs h.page

theorem Picked.clear {start len : UInt64} (h : Picked s s' va) (hc : Clear s p start len) :
    Clear s' p start len := by
  rw [Clear, h.same.vmas, h.same.holds, h.refs]
  exact hc

section

variable (h : Ok s) (hp : p ∈ A)
include h hp

theorem mmapFixedReplace_safe {addr len : UInt64}
    (ha : addr.toNat % 4096 = 0) (hl : len.toNat % 4096 = 0) (hc : Clear s p addr len)
    (flags : UInt64) :
    Safe A s (mmapFixedReplace s p addr len flags).2 ∧
      Clear (mmapFixedReplace s p addr len flags).2 p addr len := by
  rw [mmapFixedReplace]
  split
  · exact ⟨refl h, hc⟩
  have hu := unmapOwnedPages_safe hp h addr len
  have hr := hu.trans (removeOverlaps_safe hp hu.ok addr len)
  refine ⟨hr, fun vb hin _ f hx => ?_⟩
  -- what is still present was in no mapping before
  obtain ⟨e, hx', rfl⟩ := entry_of_holds hx
  obtain ⟨hx₀, hout⟩ := (unmapOwnedPages_unmapped s p addr len).entry_some hx'
  have hvb : vb.toNat % 4096 = 0 := by
    obtain ⟨kind, h⟩ := h
    exact h.aligned _ e hx₀
  rcases hr.noWorse _ _ hx with hone | ⟨hx₁, hle⟩
  · exact hone
  · have hnone := not_isSome_iff_eq_none.mp (hout (mem_pageRange ha hl hvb hin))
    exact hle.trans (hc vb hin hnone _ hx₁)

theorem sysMmap_safe (hlive : s.alive p = true)
    {addr length prot flags : UInt64} (file : UInt64 → UInt8)
    (hc : ∀ va s', mmapPickAddr s p addr (pageUp length) flags = .ok (va, s') →
      Clear s p va (pageUp length)) : Safe A s (sysMmap s p addr length prot flags file).2 := by
  unfold sysMmap
  split
  · exact refl h
  split
  · exact refl h
  dsimp only
  split
  · exact refl h
  rcases hpick : mmapPickAddr s p addr (pageUp length) flags with rc | ⟨va, s₁⟩
  · exact refl h
  have hpicked := mmapPickAddr_picked hpick
  have h₁ : Safe A s s₁ := hpicked.safe h
  have hc₁ := hpicked.clear (hc va s₁ hpick)
  obtain ⟨hrep, hc₂⟩ := mmapFixedReplace_safe h₁.ok hp hpicked.aligned (pageUp_aligned length) hc₁
    flags
  have h₂ := h₁.trans hrep
  dsimp only
  split
  · exact h₂
  have h₃ := h₂.trans (add_safe hp h₂.ok hc₂ prot.toUInt32 flags.toUInt32 true)
  split
  · exact h₃
  split
  · exact h₃
  · have hl := pageRange_aligned hpicked.aligned (pageUp length)
    exact h₃.trans (mapPages_safe hp _ _ _ _ hl h₃.ok (by rwa [h₃.alive]))

theorem sysMunmap_safe (addr len : UInt64) : Safe A s (sysMunmap s p addr len).2 := by
  unfold sysMunmap
  split
  · exact refl h
  split
  · exact refl h
  dsimp only
  split
  · exact refl h
  · have hu := unmapOwnedPages_safe hp h addr (pageUp len)
    exact hu.trans (removeOverlaps_safe hp hu.ok addr (pageUp len))

theorem unmapRemove_safe (addr len : UInt64) : Safe A s ((unmapOwnedPages s p addr len).setVmas p
      (vmaRemove ((unmapOwnedPages s p addr len).vmas p) addr len)).2 := by
  have hu := unmapOwnedPages_safe hp h addr len
  exact hu.trans (remove_safe hp hu.ok addr len)

theorem mremapMove_safe (hlive : s.alive p = true)
    {newVa newSz : UInt64} (hva : newVa.toNat % 4096 = 0) (hc : Clear s p newVa newSz)
    (oldAddr oldSz : UInt64) (old : VmaAttrs) :
    Safe A s (mremapMove s p oldAddr oldSz newSz old newVa).2 := by
  unfold mremapMove
  have h₁ := add_safe hp h hc old.prot old.mapFlags true
  dsimp only
  split
  · exact h₁
  have h₂ := h₁.trans (mapPages_safe hp newVa newSz
    (protFlags (hasProt old protWrite) (hasProt old protExec)) (oldPage p oldAddr oldSz newVa)
    (pageRange_aligned hva newSz) h₁.ok (by rwa [h₁.alive]))
  split
  · exact h₂
  · exact h₂.trans (unmapRemove_safe h₂.ok hp oldAddr oldSz)

theorem sysMremap_safe (hlive : s.alive p = true) {oldAddr oldSz newSz flags newAddr : UInt64}
    (hc : ∀ va s', mremapPickAddr s p (pageUp newSz) flags newAddr = .ok (va, s') →
      Clear s p va (pageUp newSz)) :
    Safe A s (sysMremap s p oldAddr oldSz newSz flags newAddr).2 := by
  unfold sysMremap
  iterate 5
    split
    · exact refl h
  dsimp only
  split
  · exact refl h
  split
  · exact refl h
  split
  · exact refl h
  split
  · split
    · exact refl h
    · exact unmapRemove_safe h hp ..
  split
  · exact refl h
  rcases hpick : mremapPickAddr s p (pageUp newSz) flags newAddr with rc | ⟨va, s₁⟩
  · exact refl h
  · have hpicked := mremapPickAddr_picked hpick
    have h₁ : Safe A s s₁ := hpicked.safe h
    exact h₁.trans (mremapMove_safe h₁.ok hp (by rwa [h₁.alive]) hpicked.aligned
      (hpicked.clear (hc va s₁ hpick)) ..)

end

theorem pageRange_inRange {addr len : UInt64} (h : userMapRangeOk addr len = true) :
    ∀ va ∈ pageRange addr len, InRange addr len va :=
  fun _ => inRange_of_mem ((userMapRangeOk_iff.mp h).2.2.trans (by norm_num))

theorem sysMprotect_safe (h : Inv s kind) (hp : p ∈ A) {addr len prot : UInt64}
    (hc : prot &&& protWrite ≠ 0 → ∀ va, InRange addr (pageUp len) va → ∀ f,
      s.holds (p, va) = some f → kind f = true ∨ s.refs f ≤ 1) :
    Safe A s (sysMprotect s p addr len prot).2 := by
  have hrefl : Safe A s s := refl ⟨kind, h⟩
  unfold sysMprotect
  iterate 4
    split
    · exact hrefl
  dsimp only
  split
  · exact hrefl
  rename_i hok
  have hw : (flagsOfProt prot).write = true → ∀ va ∈ pageRange addr (pageUp len), ∀ f,
      s.holds (p, va) = some f → kind f = true ∨ s.refs f ≤ 1 := by
    intro hf va hva
    exact hc (by simpa [flagsOfProt, protFlags] using hf) va
      (pageRange_inRange (by simpa using hok) va hva)
  split
  · exact hrefl
  cases vmaRangeOk (s.vmas p) addr (pageUp len) with
  | false => exact protectPages_safe hp h hw
  | true =>
    have hprot := h.below (protect_refines (h.separate p) addr (pageUp len) prot.toUInt32).separate
      (vmaProtect_below (h.separate p) addr (pageUp len) prot.toUInt32)
    have h₁ := setVmas_safe hp ⟨kind, hprot⟩
    simp only [if_true]
    split
    · exact h₁
    · exact h₁.trans (protectPages_safe hp hprot hw)

theorem vmas_vmmMap {flags : PteFlags} : (vmmMap s p va f flags).2.vmas = s.vmas := by
  unfold vmmMap
  split
  · rfl
  dsimp only
  split
  · rfl
  split <;> rfl

theorem vmas_brkPages (old : UInt64) (l : List UInt64) : (brkPages p old l s).2.vmas = s.vmas := by
  induction l generalizing s with
  | nil => rfl
  | cons va l ih =>
    have hal := (sameMaps_pmmAllocZeroed s).vmas
    rw [brkPages]
    rcases ha : pmmAllocZeroed s with ⟨_ | f, s₁⟩ <;> rw [ha] at hal
    · exact (foldl_freePage ..).vmas.trans hal
    · dsimp only
      have hv : (vmmMap s₁ p va f vmmUdata).2.vmas = s.vmas := vmas_vmmMap.trans hal
      rcases hm : vmmMap s₁ p va f vmmUdata with ⟨_ | _, s₂⟩ <;> rw [hm] at hv
      · exact (foldl_freePage ..).vmas.trans ((sameMaps_pmmFree ..).vmas.trans hv)
      · exact ih.trans hv

def BrkClear (s : Mem n) (p : ℕ) (hi : UInt64) : Prop :=
  ∀ va, s.brkBase p ≤ va → va < hi → ∀ f, s.holds (p, va) = some f →
    s.Private p va ∨ s.refs f ≤ 1

theorem brkAdd_safe (h : Ok s) (hp : p ∈ A) {newEnd : UInt64} (hlo : s.brkBase p ≤ newEnd)
    (hc : BrkClear s p newEnd) (oldEnd : UInt64) :
    Safe A s (brkAdd (brkDrop s p oldEnd) p newEnd) ∧ Safe A s (brkDrop s p oldEnd) := by
  obtain ⟨kind, h⟩ := h
  have hdrop : Inv (brkDrop s p oldEnd) kind ∧ Safe A s (brkDrop s p oldEnd) ∧
      (brkDrop s p oldEnd).holds = s.holds ∧ (brkDrop s p oldEnd).entry = s.entry ∧
      (brkDrop s p oldEnd).refs = s.refs := by
    rw [brkDrop]
    split
    · exact ⟨h.below (removeOverlaps_refines (h.separate p) ..).separate
        (vmaRemoveOverlaps_below (h.separate p) _ _), removeOverlaps_safe hp ⟨kind, h⟩ ..,
        rfl, rfl, rfl⟩
    · exact ⟨h, refl ⟨kind, h⟩, rfl, rfl, rfl⟩
  obtain ⟨hinv, hsafe, hholds, hentry, hrefs⟩ := hdrop
  refine ⟨hsafe.trans (setVmas_safe hp (hinv.addVma fun va hin _ e hx => ?_)), hsafe⟩
  rw [hsafe.brkBase] at hin
  rw [hrefs]
  rw [hentry] at hx
  have hle := UInt64.le_iff_toNat_le.mp hlo
  obtain ⟨hin₁, hin₂⟩ := hin
  rw [UInt64.toNat_sub_of_le _ _ hlo] at hin₂
  have hhi : va < newEnd := UInt64.lt_iff_toNat_lt.mpr (by omega)
  rcases hc va (UInt64.le_iff_toNat_le.mpr hin₁) hhi _ (holds_of_entry hx) with
    ⟨k, hk, hshared⟩ | hone
  · right
    rw [h.kinds p va e k hx hk, hshared]
    rfl
  · exact Or.inl hone

theorem toNat_pageUp {x : UInt64} (h : x ≤ userLimit) :
    (pageUp x).toNat = (x.toNat + 4095) / 4096 * 4096 := by
  have hone : (pageBytes - 1).toNat = 4095 := rfl
  have hlim : userLimit.toNat = 0x800000000000 := rfl
  have hx := UInt64.le_iff_toNat_le.mp h
  rw [pageUp, toNat_pageDown, UInt64.toNat_add, hone, Nat.mod_eq_of_lt (by omega)]

theorem self_le_pageUp {x : UInt64} (h : x ≤ userLimit) : x ≤ pageUp x := by
  rw [UInt64.le_iff_toNat_le, toNat_pageUp h]
  omega

theorem BrkClear.mono {hi hi' : UInt64} (h : BrkClear s p hi) (hs : Safe A s s')
    (hvmas : s'.vmas = s.vmas)
    (hnew : ∀ va, hi ≤ va → va < hi' → ∀ f, s'.holds (p, va) = some f → s'.refs f ≤ 1) :
    BrkClear s' p hi' := by
  intro va hlo hhi f hx
  rcases le_or_gt hi va with hva | hva
  · exact Or.inr (hnew va hva hhi f hx)
  rcases hs.noWorse _ f hx with hone | ⟨hx₀, hle⟩
  · exact Or.inr hone
  rw [hs.brkBase] at hlo
  rcases h va hlo hva f hx₀ with hpriv | hone
  · left
    rwa [Mem.Private, hvmas]
  · exact Or.inr (hle.trans hone)

theorem Safe.setBrk (h : Safe A s s') (brk : ℕ → UInt64) : Safe A s { s' with brk := brk } :=
  h.trans (h.ok.safe_of_same ⟨rfl, rfl, rfl, rfl⟩ rfl rfl rfl)

theorem mem_pagesBetween {lo hi : UInt64} (hlo : lo.toNat % 4096 = 0) (hhi : hi.toNat % 4096 = 0)
    (hva : va.toNat % 4096 = 0) (h : lo ≤ va) (h' : va < hi) : va ∈ pagesBetween lo hi := by
  have hlt := UInt64.lt_iff_toNat_lt.mp (lt_of_le_of_lt h h')
  have hle' := UInt64.le_iff_toNat_le.mp h
  have hlt' := UInt64.lt_iff_toNat_lt.mp h'
  have hsub := UInt64.toNat_sub_of_le _ _ (lt_of_le_of_lt h h').le
  rw [pagesBetween, if_pos (lt_of_le_of_lt h h')]
  exact mem_pageRange hlo (by omega) hva ⟨hle', by omega⟩

theorem pagesBetween_aligned {lo hi : UInt64} (hlo : lo.toNat % 4096 = 0) :
    ∀ va ∈ pagesBetween lo hi, va.toNat % 4096 = 0 := by
  rw [pagesBetween]
  split
  · exact pageRange_aligned hlo _
  · exact fun va hva => nomatch hva

theorem sysBrk_safe (h : Ok s) (hp : p ∈ A) (hlive : s.alive p = true) {addr : UInt64}
    (hc : addr ≠ 0 → BrkClear s p (pageUp (min addr (s.brk p)))) :
    Safe A s (sysBrk s p addr).2 := by
  unfold sysBrk
  split
  · exact refl h
  rename_i h₀
  replace hc := hc h₀
  split
  · exact refl h
  rename_i hbase
  split
  · exact refl h
  rename_i hmax
  rw [not_or, not_le, not_lt] at hmax
  dsimp only
  split
  · rename_i hshrink
    rw [min_eq_left hshrink] at hc
    have hfree := foldl_safe (freePage_safe hp) h (pagesBetween (pageUp addr) (pageUp (s.brk p)))
    have hc₁ := hc.mono hfree (foldl_freePage ..).vmas fun va hva hva' =>
      absurd hva' (not_lt.mpr hva)
    have hlo := (le_of_not_gt hbase).trans (self_le_pageUp hmax.1.le)
    rw [← hfree.brkBase] at hlo
    obtain ⟨hadd, hdrop⟩ := brkAdd_safe hfree.ok hp hlo hc₁ (pageUp (s.brk p))
    apply setBrk
    split
    · exact hfree.trans hadd
    · exact hfree.trans hdrop
  · rename_i hgrow
    rw [min_eq_right (le_of_not_ge hgrow)] at hc
    rcases hb : brkPages p (pageUp (s.brk p)) (pagesBetween (pageUp (s.brk p)) (pageUp addr)) s
      with ⟨_ | _, s₁⟩
    · exact (brkPages_safe hp (pagesBetween_aligned (pageUp_aligned _)) h hlive hb).1
    obtain ⟨hsafe, hnew⟩ := brkPages_safe hp (pagesBetween_aligned (pageUp_aligned _)) h hlive hb
    have hvmas := vmas_brkPages (p := p) (s := s) (pageUp (s.brk p))
      (pagesBetween (pageUp (s.brk p)) (pageUp addr))
    rw [hb] at hvmas
    have hc₁ : BrkClear s₁ p (pageUp addr) := by
      refine hc.mono hsafe hvmas fun va hva hva' f hx => ?_
      obtain ⟨kind, hinv⟩ := hsafe.ok
      obtain ⟨e, hx', rfl⟩ := entry_of_holds hx
      exact hnew rfl va (mem_pagesBetween (pageUp_aligned _) (pageUp_aligned _)
        (hinv.aligned _ e hx') hva hva') _ hx
    have hlo : s₁.brkBase p ≤ pageUp addr := by
      rw [hsafe.brkBase]
      exact (le_of_not_gt hbase).trans (self_le_pageUp hmax.1.le)
    exact (hsafe.trans (brkAdd_safe hsafe.ok hp hlo hc₁ (pageUp (s.brk p))).1).setBrk _

structure Shares (A : Set ℕ) (s s' : Mem n) : Prop where
  ok : Ok s'
  quiet : Quiet A s s'

theorem Safe.shares (h : Safe A s s') : Shares A s s' := ⟨h.ok, h.quiet⟩

theorem Shares.trans (h : Shares A s s') (h' : Shares A s' s'') : Shares A s s'' :=
  ⟨h'.ok, h.quiet.trans h'.quiet⟩

theorem empty_shares (h : Ok s) (hp : p ∈ A) (hnone : ∀ vb, s.entry (p, vb) = none)
    (hentry : s'.entry = s.entry) (hsep : Separate (segs (s'.vmas p)))
    (hother : ∀ q, q ≠ p → s'.vmas q = s.vmas q ∧ s'.alive q = s.alive q) (hused : s'.used = s.used)
    (hrefs : s'.refs = s.refs) (hpage : s'.page = s.page) : Shares A s s' := by
  obtain ⟨kind, h⟩ := h
  have hholds : s'.holds = s.holds := by rw [Mem.holds, Mem.holds, hentry]
  refine ⟨⟨kind, ?_, ?_, ?_, ?_, ?_, ?_, ?_, ?_⟩, ?_⟩
  · intro q
    by_cases hq : q = p
    · rwa [hq]
    · rw [(hother q hq).1]
      exact h.separate q
  · intro q vb hq
    rw [hentry]
    by_cases hqp : q = p
    · rw [hqp]
      exact hnone vb
    · rw [(hother q hqp).2] at hq
      exact h.dead q vb hq
  · rw [hentry]
    exact h.aligned
  · rw [hholds, hused]
    exact h.used
  · rw [hholds, hrefs]
    exact h.counted
  · rw [hrefs]
    exact h.beyond
  · rw [hentry]
    intro q vb e k hx hk
    by_cases hqp : q = p
    · rw [hqp, hnone vb] at hx
      cases hx
    · rw [(hother q hqp).1] at hk
      exact h.kinds q vb e k hx hk
  · rw [hentry, hrefs]
    exact h.cow
  · intro q hq hlive
    have hqp : q ≠ p := by
      rintro rfl
      exact hq hp
    refine ⟨?_, fun _ => by rw [hentry], (hother q hqp).1, fun _ _ _ _ => by rw [hpage]⟩
    rwa [(hother q hqp).2]

theorem vmmSpaceNew_shares (h : Ok s) (hp : p ∈ A) (hdead : s.alive p = false) :
    Shares A s (vmmSpaceNew s p) ∧ ∀ vb, (vmmSpaceNew s p).entry (p, vb) = none := by
  have hnone : ∀ vb, s.entry (p, vb) = none := by
    obtain ⟨kind, h⟩ := h
    exact fun vb => h.dead p vb hdead
  have hentry : (vmmSpaceNew s p).entry = s.entry := by
    funext ⟨q, vb⟩
    by_cases hq : q = p
    · rw [hq, hnone vb]
      simp [Mem.entry, vmmSpaceNew, PageTable.empty]
    · simp [Mem.entry, vmmSpaceNew, hq]
  refine ⟨empty_shares h hp hnone hentry ?_ (fun q hq => ⟨?_, ?_⟩) rfl rfl rfl, ?_⟩
  · simp only [vmmSpaceNew, update_self]
    exact separate_vmaReset
  · exact update_of_ne hq ..
  · exact update_of_ne hq ..
  · rwa [hentry]

theorem vmmSpaceFree_shares (h : Ok s) (hp : p ∈ A) : Shares A s (vmmSpaceFree s p) := by
  have hfree := foldl_safe (freePage_safe hp) h (s.pt p).pages
  refine hfree.shares.trans (empty_shares hfree.ok hp (fun vb => ?_) rfl ?_ (fun q hq => ⟨rfl, ?_⟩)
    rfl rfl rfl)
  · by_contra hx
    obtain ⟨e, hx⟩ := ne_none_iff_exists'.mp hx
    obtain ⟨hx₀, hout⟩ := (foldl_freePage p _ s).entry_some hx
    exact hout (((s.pt p).mem_pages vb).mpr (isSome_of_mem hx₀)) rfl
  · obtain ⟨kind, h⟩ := hfree.ok
    exact h.separate p
  · exact update_of_ne hq ..

theorem setBreaks_shares (h : Ok s) (brk brkBase mmapBump : ℕ → UInt64) :
    Shares A s { s with brk := brk, brkBase := brkBase, mmapBump := mmapBump } := by
  obtain ⟨kind, h⟩ := h
  exact ⟨⟨kind, h.separate, h.dead, h.aligned, h.used, h.counted, h.beyond, h.kinds, h.cow⟩,
    fun q _ hq => ⟨hq, fun _ => rfl, rfl, fun _ _ _ _ => rfl⟩⟩

/-! The walk of a fork. -/

section fork

variable {src dst : ℕ}

structure Forking (s : Mem n) (src dst : ℕ) : Prop where
  ok : Ok s
  ne : dst ≠ src
  alive : s.alive dst = true
  vmas : s.vmas dst = s.vmas src

theorem Forking.safe (h : Forking s src dst) (hs : Safe A s s') (hvmas : s'.vmas = s.vmas) :
    Forking s' src dst := by
  refine ⟨hs.ok, h.ne, ?_, ?_⟩
  · rw [hs.alive]
    exact h.alive
  · rw [hvmas]
    exact h.vmas

variable {k : VmaAttrs}

theorem lookup_of_vmaRangeInfo {t : VmaTable n} {len : UInt64}
    (h : vmaRangeInfo t va len = some k) : lookup t va = some k := by
  unfold vmaRangeInfo at h
  split at h
  · cases h
  split at h
  · cases h
  · rename_i hk
    split at h
    · rwa [← h]
    · cases h

theorem pmmRetain_true (h : pmmRetain s f = (true, s')) :
    f < pmmRefMaxFrames ∧ 1 ≤ s.refs f ∧
      s' = { s with refs := update s.refs f (s.refs f + 1) } := by
  unfold pmmRetain at h
  split at h
  · cases h
  split at h
  · cases h
  · cases h
    refine ⟨by omega, by omega, rfl⟩

theorem pmmRetain_false (h : pmmRetain s f = (false, s')) : s' = s := by
  unfold pmmRetain at h
  split at h
  · cases h
    rfl
  split at h
  · cases h
    rfl
  · cases h

theorem forkFlags_write {shared : Bool} (h : (forkFlags e shared).write = true) :
    shared = true := by
  rw [forkFlags] at h
  split at h
  · cases h
  · rename_i hw
    rw [h, Bool.true_and, Bool.not_eq_true', Bool.not_eq_false] at hw
    exact hw

theorem share_inv (h : Inv s kind) (hlive : s.alive dst = true)
    (hvmas : s.vmas dst = s.vmas src) (hx : s.entry (src, va) = some e)
    (hk : lookup (s.vmas src) va = some k) (hmax : e.frame < pmmRefMaxFrames)
    (hone : 1 ≤ s.refs e.frame) (hvmas' : s'.vmas = s.vmas) (halive' : s'.alive = s.alive)
    (hused' : s'.used = s.used)
    (hrefs' : s'.refs = update s.refs e.frame (s.refs e.frame + 1))
    (hentry' : s'.entry = update (update s.entry (src, va)
      (some ⟨e.frame, forkFlags e k.shared⟩)) (dst, va) (some ⟨e.frame, forkFlags e k.shared⟩)) :
    Inv s' kind := by
  have hkind : kind e.frame = k.shared := h.kinds src va e k hx hk
  have h₁ : Inv (s.setPte src va ⟨e.frame, forkFlags e k.shared⟩) kind :=
    h.reflag hx fun hw => Or.inl (hkind.trans (forkFlags_write hw))
  have hx₁ : (s.setPte src va ⟨e.frame, forkFlags e k.shared⟩).entry (src, va) =
      some ⟨e.frame, forkFlags e k.shared⟩ := by
    rw [entry_setPte, update_self]
  refine h₁.share (e := ⟨e.frame, forkFlags e k.shared⟩) hvmas' halive' hused' hrefs' ?_ hlive
    (h.aligned _ e hx) hmax hone (h.used _ e.frame (holds_of_entry hx)) (fun k' hk' => ?_)
    fun hpriv => ⟨?_, fun x e' hx' hf => ?_⟩
  · rw [hentry', entry_setPte]
  · have hk₀ : lookup (s.vmas dst) va = some k' := hk'
    rw [hvmas, hk] at hk₀
    rw [hkind, Option.some.inj hk₀]
  · by_contra hw
    rw [hkind, forkFlags_write (Bool.eq_true_of_not_eq_false hw)] at hpriv
    cases hpriv
  · by_contra hw
    rw [Bool.not_eq_false] at hw
    have hle := h₁.cow x e' hx' hw (hf ▸ hpriv)
    rw [hf] at hle
    have heq := h₁.counted.unique hle (hf ▸ holds_of_entry hx') (holds_of_entry hx₁)
    rw [heq, hx₁] at hx'
    rw [← Option.some.inj hx'] at hw
    rw [hkind, forkFlags_write hw] at hpriv
    cases hpriv

theorem forkCopy_shares (h : Forking s src dst) (hdst : dst ∈ A) (hva : va.toNat % 4096 = 0) :
    Shares A s (forkCopy s dst va e).2 ∧ Forking (forkCopy s dst va e).2 src dst := by
  rw [forkCopy]
  rcases ha : pmmAlloc s with ⟨_ | f, s₁⟩
  · obtain ⟨hsafe, hs, -⟩ := pmmAlloc_safe (A := A) h.ok ha
    exact ⟨hsafe.shares, h.safe hsafe hs.vmas⟩
  obtain ⟨hsafe, hs, hloose⟩ := pmmAlloc_safe (A := A) h.ok ha
  obtain ⟨hfill, hf⟩ := fill_loose_safe (A := A) hsafe.ok (hloose f rfl) (s₁.page e.frame)
  have h₁ := hsafe.trans hfill
  have hlive : (s₁.fill f (s₁.page e.frame)).alive dst = true := by
    rw [h₁.alive]
    exact h.alive
  have hvmas : (vmmMap (s₁.fill f (s₁.page e.frame)) dst va f e.flags).2.vmas = s.vmas :=
    vmas_vmmMap.trans hs.vmas
  dsimp only
  rcases hm : vmmMap (s₁.fill f (s₁.page e.frame)) dst va f e.flags with ⟨_ | _, s₂⟩ <;>
    rw [hm] at hvmas <;> obtain ⟨hmap, hfail, -⟩ := vmmMap_safe h₁.ok hdst hlive hva hf hm
  · have h₂ := h₁.trans hmap
    have h₃ := h₂.trans (free_loose_safe h₂.ok (hfail rfl))
    exact ⟨h₃.shares, h.safe h₃ ((sameMaps_pmmFree ..).vmas.trans hvmas)⟩
  · exact ⟨(h₁.trans hmap).shares, h.safe (h₁.trans hmap) hvmas⟩

theorem pmmFree_retained (hmax : f < pmmRefMaxFrames) (hone : 1 ≤ s.refs f) :
    pmmFree { s with refs := update s.refs f (s.refs f + 1) } f = s := by
  have hgt : s.refs f + 1 > 1 := by omega
  simp [pmmFree, hmax, hgt]

theorem entry_forkShare (hne : dst ≠ src) (hx : s.entry (src, va) = some e) (shared : Bool) :
    (if e.flags.write && !shared then (s.setPte dst va ⟨e.frame, forkFlags e shared⟩).setPte src va
        ⟨e.frame, forkFlags e shared⟩ else s.setPte dst va ⟨e.frame, forkFlags e shared⟩).entry =
      update (update s.entry (src, va) (some ⟨e.frame, forkFlags e shared⟩))
        (dst, va) (some ⟨e.frame, forkFlags e shared⟩) := by
  split
  · rw [entry_setPte, entry_setPte, update_comm]
    simpa using hne
  · rename_i hw
    have hflags : forkFlags e shared = e.flags := if_neg hw
    rw [entry_setPte, hflags]
    congr 1
    symm
    rw [update_eq_iff]
    exact ⟨hx.symm, fun _ _ => rfl⟩

section

variable (h : Forking s src dst) (hsrc : src ∈ A) (hdst : dst ∈ A)
include h hsrc hdst

theorem forkShare_shares (hx : s.entry (src, va) = some e) (hk : lookup (s.vmas src) va = some k)
    (hr : pmmRetain s e.frame = (true, s')) :
    Shares A s (forkShare s' dst src va e k.shared).2 ∧
      Forking (forkShare s' dst src va e k.shared).2 src dst := by
  obtain ⟨hmax, hone, rfl⟩ := pmmRetain_true hr
  rw [forkShare]
  rcases hm : vmmMap { s with refs := update s.refs e.frame (s.refs e.frame + 1) } dst va
    e.frame (forkFlags e k.shared) with ⟨_ | _, s₁⟩
  · obtain ⟨tables, rfl⟩ := vmmMap_false hm
    have hback : pmmFree { s with
        refs := update s.refs e.frame (s.refs e.frame + 1), tables := tables } e.frame =
        { s with tables := tables } := pmmFree_retained (s := { s with tables := tables }) hmax hone
    dsimp only
    rw [hback]
    have hsafe : Safe A s { s with tables := tables } :=
      h.ok.safe_of_same ⟨rfl, rfl, rfl, rfl⟩ rfl rfl rfl
    exact ⟨hsafe.shares, h.safe hsafe rfl⟩
  · obtain ⟨tables, rfl⟩ := vmmMap_true hm
    dsimp only
    have hentry := entry_forkShare (s := { s with
      refs := update s.refs e.frame (s.refs e.frame + 1), tables := tables })
      h.ne hx k.shared
    generalize ht : (if e.flags.write && !k.shared then _ else _) = t at hentry ⊢
    have hfields : t.vmas = s.vmas ∧ t.alive = s.alive ∧ t.used = s.used ∧
        t.refs = update s.refs e.frame (s.refs e.frame + 1) ∧ t.page = s.page := by
      rw [← ht]
      split <;> exact ⟨rfl, rfl, rfl, rfl, rfl⟩
    obtain ⟨hvmas, halive, hused, hrefs, hpage⟩ := hfields
    obtain ⟨kind, hinv⟩ := h.ok
    have hok : Ok t :=
      ⟨kind, share_inv hinv h.alive h.vmas hx hk hmax hone hvmas halive hused hrefs hentry⟩
    refine ⟨⟨hok, fun q hq hlive => ⟨by rwa [halive], fun vb => ?_, by rw [hvmas],
      fun _ _ _ _ => by rw [hpage]⟩⟩, hok, h.ne, ?_, ?_⟩
    · rw [hentry, update_of_ne, update_of_ne]
      · rfl
      · rintro ⟨⟩
        exact hq hsrc
      · rintro ⟨⟩
        exact hq hdst
    · rw [halive]
      exact h.alive
    · rw [hvmas]
      exact h.vmas

theorem forkPage_shares (hx : s.entry (src, va) = some e) :
    Shares A s (forkPage s dst src va e).2 ∧ Forking (forkPage s dst src va e).2 src dst := by
  have hva : va.toNat % 4096 = 0 := by
    obtain ⟨kind, hinv⟩ := h.ok
    exact hinv.aligned _ e hx
  unfold forkPage
  cases hinfo : vmaRangeInfo (s.vmas src) va pageBytes with
  | none => exact forkCopy_shares h hdst hva
  | some k =>
    by_cases hfree : k.freeOnUnmap = true
    case neg =>
      simp only [any_some, hfree]
      exact forkCopy_shares h hdst hva
    case pos =>
      simp only [any_some, hfree, if_true]
      rcases hr : pmmRetain s e.frame with ⟨_ | _, s₁⟩
      · rw [pmmRetain_false hr]
        exact forkCopy_shares h hdst hva
      · exact forkShare_shares h hsrc hdst hx (lookup_of_vmaRangeInfo hinfo) hr

theorem forkPages_shares (l : List UInt64) :
    Shares A s (forkPages dst src l s).2 ∧ Forking (forkPages dst src l s).2 src dst := by
  induction l generalizing s with
  | nil => exact ⟨(refl h.ok).shares, h⟩
  | cons va l ih =>
    have hentry : Shares A s (forkEntry s dst src va).2 ∧
        Forking (forkEntry s dst src va).2 src dst := by
      rw [forkEntry]
      cases hx : (s.pt src).pte va with
      | none => exact ⟨(refl h.ok).shares, h⟩
      | some e => exact forkPage_shares h hsrc hdst hx
    rw [forkPages]
    rcases hf : forkEntry s dst src va with ⟨_ | _, s₁⟩ <;> rw [hf] at hentry
    · exact hentry
    · obtain ⟨h₂, hforking'⟩ := ih hentry.2
      exact ⟨hentry.1.trans h₂, hforking'⟩

end

theorem sysFork_shares (h : Ok s) (hsrc : src ∈ A) (hdst : dst ∈ A) (hlive : s.alive src = true) :
    Shares A s (sysFork s src dst) := by
  rw [sysFork]
  split
  · exact (refl h).shares
  rename_i hdead
  have hne : dst ≠ src := by
    rintro rfl
    exact hdead hlive
  obtain ⟨hnew, hnone⟩ := vmmSpaceNew_shares h hdst (Bool.eq_false_iff.mpr hdead)
  rw [vmmForkUserCow]
  generalize ht : vmmSpaceNew s dst = t at hnew hnone ⊢
  have hlive' : t.alive dst = true := by
    rw [← ht]
    exact update_self ..
  have hcopy : Shares A t { t with vmas := update t.vmas dst (t.vmas src) } := by
    refine empty_shares hnew.ok hdst hnone rfl ?_ (fun q hq => ⟨?_, rfl⟩) rfl rfl rfl
    · obtain ⟨kind, hinv⟩ := hnew.ok
      dsimp only
      rw [update_self]
      exact hinv.separate src
    · exact update_of_ne hq ..
  have hforking : Forking { t with vmas := update t.vmas dst (t.vmas src) } src dst := by
    refine ⟨hcopy.ok, hne, hlive', ?_⟩
    dsimp only
    rw [update_self, update_of_ne hne.symm]
  obtain ⟨hwalk, -⟩ := forkPages_shares hforking hsrc hdst (t.pt src).pages
  have hall := (hnew.trans hcopy).trans hwalk
  rcases hf : forkPages dst src (t.pt src).pages _ with ⟨_ | _, s₁⟩ <;> rw [hf] at hall
  · exact hall.trans (vmmSpaceFree_shares hall.ok hdst)
  · exact hall.trans (setBreaks_shares hall.ok ..)

end fork

end Kyronix.Mm
