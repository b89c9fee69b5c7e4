import Kyronix.Mm.Brk
import Kyronix.Mm.Mmap

/-! `mremap` (`mem.c`): what a call does to contents, to the sharing of frames and, if it fails, to
the state it found. -/
namespace Kyronix.Mm

open Lib Word Lib.Run Lib.Intervals Function List Mem

variable {n : ℕ}

section

variable {t : VmaTable n} {start len end_ cur : UInt64} {k : VmaAttrs}

end

def Mem.bytes (s : Mem n) (p : ℕ) (va : UInt64) : UInt64 → UInt8 :=
  (s.readPage p va).getD fun _ => 0

def FramesHeld (s : Mem n) : Prop := ∀ x f, s.holds x = some f → s.used f = true

section

variable {s s' s₀ : Mem n} {p f : ℕ} {va : UInt64}

theorem FramesHeld.same (h : FramesHeld s) (hentry : s'.entry = s.entry)
    (hused : s'.used = s.used) : FramesHeld s' := by
  intro x f hx
  rw [hused]
  refine h x f ?_
  rwa [holds, hentry] at hx

structure KeptFrames (s₀ s : Mem n) : Prop where
  page : ∀ f, s₀.used f = true → s.page f = s₀.page f
  used : ∀ f, s₀.used f = true → s.used f = true

theorem KeptFrames.readPage {s₁ : Mem n} (h : ∀ f, s₁.used f = true → s.page f = s₁.page f)
    (hheld : FramesHeld s₁) (hentry : s.entry = s₁.entry) (q : ℕ) (va : UInt64) :
    s.readPage q va = s₁.readPage q va := by
  rw [Mem.readPage, Mem.readPage, hentry]
  cases he : s₁.entry (q, va) with
  | none => rfl
  | some e =>
    rw [Option.map_some, Option.map_some, h e.frame (hheld (q, va) e.frame (holds_of_entry he))]

structure Filled (s₀ : Mem n) (p : ℕ) (data : UInt64 → UInt64 → UInt8) (done : List UInt64)
    (s : Mem n) : Prop where
  mapped : MappedSoFar s₀ p done s
  kept : KeptFrames s₀ s
  there : ∀ va ∈ done, ∃ e, s.entry (p, va) = some e ∧ s.page e.frame = data va ∧
    s₀.used e.frame = false ∧ s.used e.frame = true

theorem Filled.nil (s : Mem n) (data : UInt64 → UInt64 → UInt8) : Filled s p data [] s :=
  ⟨.nil s, ⟨fun _ _ => rfl, fun _ h => h⟩, fun _ h => absurd h not_mem_nil⟩

theorem pmmAllocZeroed_some (ha : pmmAllocZeroed s = (some f, s')) :
    SameMaps s s' ∧ s.used f = false ∧ s'.used = update s.used f true ∧
      ∀ g, g ≠ f → s'.page g = s.page g := by
  obtain ⟨hfree, rest, -, rfl⟩ := pmmAllocZeroed_some_iff.mp ha
  exact ⟨⟨rfl, rfl, rfl, rfl⟩, hfree, rfl, fun g hg => update_of_ne hg ..⟩

variable {done : List UInt64}

theorem Filled.alloc {data : UInt64 → UInt64 → UInt8}
    (h : Filled s₀ p data done s) (ha : pmmAllocZeroed s = (some f, s')) :
    Filled s₀ p data done s' ∧ s₀.used f = false ∧ (∀ va ∈ done, ∀ e,
      s'.entry (p, va) = some e → e.frame ≠ f) ∧ s'.used f = true := by
  obtain ⟨hsame, hfree, hused, hpage⟩ := pmmAllocZeroed_some ha
  have hf₀ : s₀.used f = false := by
    by_contra hu
    rw [h.kept.used f (by simpa using hu)] at hfree
    cases hfree
  have hne : ∀ g, s.used g = true → g ≠ f := by
    rintro g hg rfl
    rw [hfree] at hg
    cases hg
  refine ⟨⟨h.mapped.same hsame, ⟨fun g hg => ?_, fun g hg => ?_⟩, fun va hva => ?_⟩, hf₀,
    fun va hva e he => ?_, by rw [hused, update_self]⟩
  · rw [hpage g (hne g (h.kept.used g hg)), h.kept.page g hg]
  · rw [hused, update_of_ne (hne g (h.kept.used g hg)), h.kept.used g hg]
  · obtain ⟨e, he, hd, h₀, hu⟩ := h.there va hva
    refine ⟨e, by rw [hsame.entry, he], by rw [hpage _ (hne _ hu), hd], h₀, ?_⟩
    rw [hused, update_of_ne (hne _ hu), hu]
  · obtain ⟨e', he', -, -, hu⟩ := h.there va hva
    rw [hsame.entry, he'] at he
    cases he
    exact hne _ hu

variable {flags : PteFlags}

theorem Filled.map {data : UInt64 → UInt64 → UInt8}
    (h : Filled s₀ p data done s) (hf₀ : s₀.used f = false) (hu : s.used f = true)
    (hne : ∀ vb ∈ done, ∀ e, s.entry (p, vb) = some e → e.frame ≠ f)
    (hm : vmmMap s p va f flags = (true, s')) :
    Filled s₀ p data (done ++ [va]) (s'.fill f (data va)) := by
  have hmap := vmmMap_mapped hm
  obtain ⟨hused, hpage⟩ : s'.used = s.used ∧ s'.page = s.page := by
    obtain ⟨tables, rfl⟩ := vmmMap_true hm
    exact ⟨rfl, rfl⟩
  have hfill : ∀ g, g ≠ f → (s'.fill f (data va)).page g = s.page g := by
    intro g hg
    show update s'.page f _ g = _
    rw [update_of_ne hg, hpage]
  have hne₀ : ∀ g, s₀.used g = true → g ≠ f := by
    rintro g hg rfl
    rw [hf₀] at hg
    cases hg
  refine ⟨(h.mapped.map hmap).same (sameMaps_fill ..), ⟨fun g hg => ?_, fun g hg => ?_⟩,
    fun vb hvb => ?_⟩
  · rw [hfill g (hne₀ g hg), h.kept.page g hg]
  · show s'.used g = true
    rw [hused, h.kept.used g hg]
  · show ∃ e, s'.entry (p, vb) = some e ∧ _ ∧ _ ∧ s'.used e.frame = true
    rw [hmap.entry, hused]
    by_cases hv : vb = va
    · subst hv
      refine ⟨⟨f, flags⟩, update_self .., ?_, hf₀, hu⟩
      exact update_self ..
    · have hd : vb ∈ done := by simpa [hv] using hvb
      obtain ⟨e, he, hdata, h₀, hu'⟩ := h.there vb hd
      refine ⟨e, ?_, ?_, h₀, hu'⟩
      · rw [update_of_ne (fun hc => hv (Prod.ext_iff.mp hc).2), he]
      · rw [hfill _ (hne vb hd e he), hdata]

end

section

variable {s s' : Mem n} {objs : List Shmem} {p : ℕ} {k : VmaAttrs}
  {oldAddr old new flags newAddr addr len page : UInt64}

variable {r : ℤ × Mem n}

variable {va : UInt64}

variable {newVa : UInt64}

structure MoveRanges (t : VmaTable n) (oldAddr old newVa new : UInt64) (k : VmaAttrs) : Prop where
  canon : Canon t
  added : (vmaAdd t newVa new k.prot k.mapFlags true).1 = 0
  covered : Covered t oldAddr (oldAddr + old)
  oldEnd : rangeEnd oldAddr old = some (oldAddr + old)
  aligned : old.toNat % 4096 = 0
  le : old ≤ new

variable {t : VmaTable n}

section

variable (h : MoveRanges t oldAddr old newVa new k)
include h

theorem MoveRanges.mapped (hp : page ∈ pageRange oldAddr old) : (lookup t page).isSome := by
  obtain ⟨h₁, h₂⟩ := mem_pageRange_within h.oldEnd hp
  exact h.covered page h₁ h₂

theorem MoveRanges.free (hva : va ∈ pageRange newVa new) : lookup t va = none := by
  have hin := mem_pageRange_within (rangeEnd_of_vmaAdd h.canon.separate h.added) hva
  rw [lookup_eq_none h.canon.separate]
  exact fun k => (lookup_vmaAdd h.canon h.added).1.not_at hin

theorem MoveRanges.disjoint (hva : page ∈ pageRange newVa new) : page ∉ pageRange oldAddr old := by
  intro hp
  have hsome := h.mapped hp
  rw [h.free hva] at hsome
  cases hsome

end

structure MovedPages (s : Mem n) (p : ℕ) (oldAddr old newVa new : UInt64) (s' : Mem n) : Prop where
  gone : ∀ page ∈ pageRange oldAddr old, s'.entry (p, page) = none
  there : ∀ va ∈ pageRange newVa new, ∃ e, s'.entry (p, va) = some e ∧
    s'.page e.frame = oldPage p oldAddr old newVa s va ∧ s.used e.frame = false
  rest : ∀ x, (x.1 = p → x.2 ∉ pageRange oldAddr old ∧ x.2 ∉ pageRange newVa new) →
    s'.entry x = s.entry x

theorem Filled.moved {s₀ s₁ : Mem n}
    (h : MoveRanges (s.vmas p) oldAddr old newVa new k)
    (hs₀ : (s.setVmas p (vmaAdd (s.vmas p) newVa new k.prot k.mapFlags true)).2 = s₀)
    (hf : Filled s₀ p (oldPage p oldAddr old newVa s₀) (pageRange newVa new) s₁)
    (hu : Unmapped p (pageRange oldAddr old) (vmaPageMapped (s₁.vmas p)) s₁ s')
    (hpage : s'.page = s₁.page) : MovedPages s p oldAddr old newVa new s' := by
  have hentry : s₀.entry = s.entry := by
    rw [← hs₀]
    rfl
  have htab : s₁.vmas p = (vmaAdd (s.vmas p) newVa new k.prot k.mapFlags true).2 := by
    rw [hf.mapped.vmas, ← hs₀]
    exact update_self ..
  refine ⟨fun page hp => ?_, fun va hva => ?_, fun x hx => ?_⟩
  · have htracked : vmaPageMapped (s₁.vmas p) page = true := by
      rw [vmaPageMapped, htab, (lookup_vmaAdd h.canon h.added).2, putMap]
      split
      · rfl
      · exact h.mapped hp
    rw [hu.entry, if_pos ⟨rfl, hp, htracked⟩]
  · obtain ⟨e, he, hd, h₀, -⟩ := hf.there va hva
    refine ⟨e, ?_, ?_, ?_⟩
    · rw [hu.entry, if_neg fun hx => h.disjoint hva hx.2.1, he]
    · rw [hpage, hd, ← hs₀]
      rfl
    · rw [← hs₀] at h₀
      exact h₀
  · rw [hu.entry, if_neg fun hc => (hx hc.1).1 hc.2.1, hf.mapped.rest x fun hp => (hx hp).2, hentry]

end

end Kyronix.Mm
