import Kyronix.Mm.CowInv
import Kyronix.Mm.VmaAtomic

/-! What the loops over pages do to page tables and mappings, whatever becomes of the frames. -/
namespace Kyronix.Mm

open Lib Word Lib.Intervals Function List

variable {n : ℕ} {s s' s'' : Mem n} {p f : ℕ} {va : UInt64}

structure SameMaps (s s' : Mem n) : Prop where
  entry : s'.entry = s.entry
  vmas : s'.vmas = s.vmas
  brk : s'.brk = s.brk
  brkBase : s'.brkBase = s.brkBase

theorem SameMaps.refl (s : Mem n) : SameMaps s s := ⟨rfl, rfl, rfl, rfl⟩

theorem SameMaps.trans (h : SameMaps s s') (h' : SameMaps s' s'') : SameMaps s s'' :=
  ⟨h'.entry.trans h.entry, h'.vmas.trans h.vmas, h'.brk.trans h.brk, h'.brkBase.trans h.brkBase⟩

theorem sameMaps_fill (s : Mem n) (f : ℕ) (data : UInt64 → UInt8) : SameMaps s (s.fill f data) :=
  ⟨rfl, rfl, rfl, rfl⟩

theorem sameMaps_pmmFree (s : Mem n) (f : ℕ) : SameMaps s (pmmFree s f) := by
  unfold pmmFree
  split
  · split
    · exact .refl s
    · exact ⟨rfl, rfl, rfl, rfl⟩
  · exact ⟨rfl, rfl, rfl, rfl⟩

theorem sameMaps_pmmRetain (s : Mem n) (f : ℕ) : SameMaps s (pmmRetain s f).2 := by
  unfold pmmRetain
  split
  · exact .refl s
  split
  · exact .refl s
  · exact ⟨rfl, rfl, rfl, rfl⟩

theorem sameMaps_pmmAlloc (s : Mem n) : SameMaps s (pmmAlloc s).2 := by
  unfold pmmAlloc
  split
  · exact .refl s
  split
  · exact ⟨rfl, rfl, rfl, rfl⟩
  · exact ⟨rfl, rfl, rfl, rfl⟩

theorem sameMaps_pmmAllocZeroed (s : Mem n) : SameMaps s (pmmAllocZeroed s).2 := by
  have h := sameMaps_pmmAlloc s
  unfold pmmAllocZeroed
  rcases hr : pmmAlloc s with ⟨_ | f, s₁⟩ <;> rw [hr] at h
  · exact h
  · exact h.trans (sameMaps_fill ..)

variable {flags : PteFlags}

theorem vmmMap_false (h : vmmMap s p va f flags = (false, s')) :
    ∃ tables, s' = { s with tables := tables } := by
  unfold vmmMap at h
  split at h
  · cases h
    exact ⟨s.tables, rfl⟩
  dsimp only at h
  split at h
  · cases h
    exact ⟨_, rfl⟩
  split at h
  · cases h
    exact ⟨_, rfl⟩
  · cases h

theorem vmmMap_true_iff : vmmMap s p va f flags = (true, s') ↔ ¬ (flags.user ∧ va ≥ userLimit) ∧
      s.entry (p, va) = none ∧ s.tables.headD true = true ∧
      Mem.setPte { s with tables := s.tables.tail } p va ⟨f, flags⟩ = s' := by
  have hentry : s.entry (p, va) = (s.pt p).pte va := rfl
  unfold vmmMap
  rw [hentry]
  split
  · next h => simp [h]
  next h =>
  dsimp only
  split
  · next ht =>
    have ht' : s.tables.headD true = false := by simpa using ht
    simp [ht', -List.headD_eq_head?_getD]
  next ht =>
  split
  · next hp => simp [Option.isSome_iff_ne_none.mp hp]
  · next hp =>
    have ht' : s.tables.headD true = true := by simpa using ht
    rw [and_iff_right h, and_iff_right (Option.not_isSome_iff_eq_none.mp hp), and_iff_right ht',
      Prod.mk.injEq, and_iff_right rfl]

theorem vmmMap_true (h : vmmMap s p va f flags = (true, s')) :
    ∃ tables, s' = Mem.setPte { s with tables := tables } p va ⟨f, flags⟩ :=
  ⟨_, (vmmMap_true_iff.mp h).2.2.2.symm⟩

theorem vmmMap_refused (h : vmmMap s p va f flags = (false, s')) : SameMaps s s' := by
  obtain ⟨tables, rfl⟩ := vmmMap_false h
  exact ⟨rfl, rfl, rfl, rfl⟩

structure MappedPage (s s' : Mem n) (p : ℕ) (va : UInt64) (e : Pte) : Prop where
  absent : s.entry (p, va) = none
  entry : s'.entry = update s.entry (p, va) (some e)
  vmas : s'.vmas = s.vmas
  brk : s'.brk = s.brk
  brkBase : s'.brkBase = s.brkBase

theorem vmmMap_mapped (h : vmmMap s p va f flags = (true, s')) :
    MappedPage s s' p va ⟨f, flags⟩ := by
  have hnone := (vmmMap_true_iff.mp h).2.1
  obtain ⟨tables, rfl⟩ := vmmMap_true h
  exact ⟨hnone, entry_setPte (s := { s with tables := tables }), rfl, rfl, rfl⟩

structure Unmapped (p : ℕ) (l : List UInt64) (gone : UInt64 → Bool) (s s' : Mem n) : Prop where
  entry : ∀ x, s'.entry x = if x.1 = p ∧ x.2 ∈ l ∧ gone x.2 then none else s.entry x
  vmas : s'.vmas = s.vmas
  brk : s'.brk = s.brk
  brkBase : s'.brkBase = s.brkBase

variable {l : List UInt64} {gone : UInt64 → Bool}

theorem Unmapped.entry_some {e : Pte}
    (h : Unmapped p l gone s s') (hx : s'.entry (p, va) = some e) :
    s.entry (p, va) = some e ∧ (va ∈ l → ¬ gone va = true) := by
  rw [h.entry] at hx
  split at hx
  · cases hx
  · next hout => exact ⟨hx, fun hl hg => hout ⟨rfl, hl, hg⟩⟩

theorem Unmapped.nil (gone : UInt64 → Bool) : Unmapped p [] gone s s :=
  ⟨fun x => by simp, rfl, rfl, rfl⟩

theorem Unmapped.cons (h : Unmapped p [va] gone s s') (h' : Unmapped p l gone s' s'') :
    Unmapped p (va :: l) gone s s'' := by
  refine ⟨fun x => ?_, h'.vmas.trans h.vmas, h'.brk.trans h.brk, h'.brkBase.trans h.brkBase⟩
  rw [h'.entry, h.entry]
  by_cases hp : x.1 = p <;> by_cases hl : x.2 ∈ l <;> by_cases hv : x.2 = va <;>
    cases gone x.2 <;> simp [hp, hl, hv]

theorem unmapped_vmmUnmap (hg : gone va = true) : Unmapped p [va] gone s (vmmUnmap s p va) := by
  refine ⟨fun x => ?_, rfl, rfl, rfl⟩
  rw [entry_vmmUnmap, update_apply]
  by_cases hx : x = (p, va)
  · rw [if_pos hx, if_pos (by simp [hx, hg])]
  · rw [if_neg hx, if_neg]
    exact fun h => hx (Prod.ext h.1 (mem_singleton.mp h.2.1))

theorem unmapped_keep (hg : gone va = false) : Unmapped p [va] gone s s := by
  refine ⟨fun x => ?_, rfl, rfl, rfl⟩
  rw [if_neg]
  rintro ⟨-, hv, ht⟩
  rw [mem_singleton.mp hv, hg] at ht
  cases ht

theorem Unmapped.same (h : Unmapped p l gone s s')
    (h' : SameMaps s' s'') : Unmapped p l gone s s'' :=
  ⟨fun x => by rw [h'.entry, h.entry], h'.vmas.trans h.vmas, h'.brk.trans h.brk,
    h'.brkBase.trans h.brkBase⟩

theorem unmapOwnedPage_unmapped (p : ℕ) (s : Mem n) (va : UInt64) :
    Unmapped p [va] (vmaPageMapped (s.vmas p)) s (unmapOwnedPage p s va) := by
  have h : Unmapped p [va] (vmaPageMapped (s.vmas p)) s
      (if vmaPageMapped (s.vmas p) va then vmmUnmap s p va else s) := by
    split
    · next ht => exact unmapped_vmmUnmap ht
    · next ht => exact unmapped_keep (by simpa using ht)
  rw [unmapOwnedPage]
  split
  · split
    · exact h.same (sameMaps_pmmFree ..)
    · exact h
  · exact h

theorem foldl_unmapOwnedPage (p : ℕ) (l : List UInt64) (s : Mem n) :
    Unmapped p l (vmaPageMapped (s.vmas p)) s (l.foldl (unmapOwnedPage p) s) := by
  induction l generalizing s with
  | nil => exact .nil _
  | cons va l ih =>
    have h₁ := unmapOwnedPage_unmapped p s va
    have h₂ := ih (unmapOwnedPage p s va)
    rw [h₁.vmas] at h₂
    exact h₁.cons h₂

theorem unmapOwnedPages_unmapped (s : Mem n) (p : ℕ) (addr len : UInt64) :
    Unmapped p (pageRange addr len) (vmaPageMapped (s.vmas p)) s (unmapOwnedPages s p addr len) :=
  foldl_unmapOwnedPage p _ s

theorem freePage_unmapped (p : ℕ) (s : Mem n) (va : UInt64) :
    Unmapped p [va] (fun _ => true) s (freePage p s va) := by
  rw [freePage]
  split
  · next hnone =>
    refine ⟨fun x => ?_, rfl, rfl, rfl⟩
    split
    · next hx =>
      rw [show x = (p, va) from Prod.ext hx.1 (mem_singleton.mp hx.2.1)]
      exact Option.map_eq_none_iff.mp hnone
    · rfl
  · exact (unmapped_vmmUnmap rfl).same (sameMaps_pmmFree ..)

theorem foldl_freePage (p : ℕ) (l : List UInt64) (s : Mem n) :
    Unmapped p l (fun _ => true) s (l.foldl (freePage p) s) := by
  induction l generalizing s with
  | nil => exact .nil _
  | cons va l ih => exact (freePage_unmapped p s va).cons (ih _)

structure MappedSoFar (s₀ : Mem n) (p : ℕ) (done : List UInt64) (s : Mem n) : Prop where
  absent : ∀ va ∈ done, s₀.entry (p, va) = none
  rest : ∀ x, (x.1 = p → x.2 ∉ done) → s.entry x = s₀.entry x
  vmas : s.vmas = s₀.vmas
  brk : s.brk = s₀.brk
  brkBase : s.brkBase = s₀.brkBase

section

variable {s₀ : Mem n} {done : List UInt64}

theorem MappedSoFar.nil (s : Mem n) : MappedSoFar s p [] s :=
  ⟨fun _ h => absurd h not_mem_nil, fun _ _ => rfl, rfl, rfl, rfl⟩

theorem MappedSoFar.same (h : MappedSoFar s₀ p done s) (hs : SameMaps s s') :
    MappedSoFar s₀ p done s' :=
  ⟨h.absent, fun x hx => by rw [hs.entry, h.rest x hx], hs.vmas.trans h.vmas, hs.brk.trans h.brk,
    hs.brkBase.trans h.brkBase⟩

theorem MappedSoFar.map {e : Pte} (h : MappedSoFar s₀ p done s) (hm : MappedPage s s' p va e) :
    MappedSoFar s₀ p (done ++ [va]) s' := by
  refine ⟨fun vb hvb => ?_, fun x hx => ?_, hm.vmas.trans h.vmas, hm.brk.trans h.brk,
    hm.brkBase.trans h.brkBase⟩
  · by_cases hd : vb ∈ done
    · exact h.absent vb hd
    · have hva : vb = va := by simpa [hd] using hvb
      rw [← h.rest (p, vb) fun _ => hd, hva]
      exact hm.absent
  · have hne : x ≠ (p, va) := by
      rintro rfl
      exact hx rfl (by simp)
    rw [hm.entry, update_of_ne hne]
    exact h.rest x fun hp hd => hx hp (by simp [hd])

theorem MappedSoFar.undo (h : MappedSoFar s₀ p done s)
    (hu : Unmapped p done gone s s') (hg : ∀ va ∈ done, gone va = true) : SameMaps s₀ s' := by
  refine ⟨funext fun x => ?_, hu.vmas.trans h.vmas, hu.brk.trans h.brk, hu.brkBase.trans h.brkBase⟩
  rw [hu.entry]
  by_cases hx : x.1 = p ∧ x.2 ∈ done
  · rw [if_pos ⟨hx.1, hx.2, hg _ hx.2⟩]
    obtain ⟨q, vb⟩ := x
    obtain ⟨rfl, hvb⟩ := hx
    exact (h.absent vb hvb).symm
  · rw [if_neg fun h => hx ⟨h.1, h.2.1⟩]
    exact h.rest x fun hp hd => hx ⟨hp, hd⟩

end

/-- Frames, page tables and empty entries for all of `pages`. -/
structure Supplied (s : Mem n) (p : ℕ) (pages : List UInt64) : Prop where
  nodup : pages.Nodup
  frames : pages.length ≤ s.supply.length
  distinct : (s.supply.take pages.length).Nodup
  unused : ∀ f ∈ s.supply.take pages.length, s.used f = false
  tables : ∀ b ∈ s.tables.take pages.length, b = true
  absent : ∀ va ∈ pages, va < userLimit ∧ s.entry (p, va) = none

theorem Supplied.nil (s : Mem n) (p : ℕ) : Supplied s p [] :=
  ⟨nodup_nil, Nat.zero_le _, nodup_nil, nofun, nofun, nofun⟩

theorem Supplied.congr {pages : List UInt64} (h : Supplied s p pages) (hs : s'.supply = s.supply)
    (hu : s'.used = s.used) (ht : s'.tables = s.tables) (he : s'.entry = s.entry) :
    Supplied s' p pages := by
  obtain ⟨h₁, h₂, h₃, h₄, h₅, h₆⟩ := h
  rw [← hs] at h₂ h₃ h₄
  rw [← hu] at h₄
  rw [← ht] at h₅
  rw [← he] at h₆
  exact ⟨h₁, h₂, h₃, h₄, h₅, h₆⟩

theorem pmmAllocZeroed_some_iff : pmmAllocZeroed s = (some f, s') ↔
    s.used f = false ∧ ∃ rest, s.supply = f :: rest ∧ s' = { s with
      supply := rest
      used := update s.used f true
      refs := if f < pmmRefMaxFrames then update s.refs f 1 else s.refs
      page := update s.page f fun _ => 0 } := by
  rw [pmmAllocZeroed, pmmAlloc]
  cases hs : s.supply with
  | nil => simp
  | cons g rest =>
    dsimp only
    by_cases hg : s.used g = true
    · rw [if_pos hg]
      simp only [Prod.mk.injEq, reduceCtorEq, false_and, false_iff]
      rintro ⟨hf, _, heq, -⟩
      cases heq
      simp [hg] at hf
    · rw [if_neg hg]
      constructor
      · rintro h
        cases h
        exact ⟨by simpa using hg, rest, rfl, rfl⟩
      · rintro ⟨-, _, heq, rfl⟩
        cases heq
        rfl

theorem supplied_cons_iff {rest : List UInt64} (hu : flags.user = true) :
    Supplied s p (va :: rest) ↔ ∃ f s₁ s₂, pmmAllocZeroed s = (some f, s₁) ∧
      vmmMap s₁ p va f flags = (true, s₂) ∧ Supplied s₂ p rest := by
  have htables : (∀ b ∈ s.tables.take (rest.length + 1), b = true) ↔
      s.tables.headD true = true ∧ ∀ b ∈ s.tables.tail.take rest.length, b = true := by
    cases s.tables <;> simp
  constructor
  · rintro ⟨hnd, hlen, hdis, hfree, htab, habs⟩
    rw [length_cons] at hlen hdis hfree htab
    rw [htables] at htab
    cases hs : s.supply with
    | nil =>
      rw [hs] at hlen
      exact absurd hlen (Nat.not_succ_le_zero _)
    | cons f fs =>
      rw [hs, take_succ_cons] at hdis hfree
      rw [hs, length_cons] at hlen
      refine ⟨f, _, _, pmmAllocZeroed_some_iff.mpr ⟨hfree f mem_cons_self, fs, hs, rfl⟩,
        vmmMap_true_iff.mpr ⟨fun hge => hge.2.not_gt (habs va mem_cons_self).1,
          (habs va mem_cons_self).2, htab.1, rfl⟩, (nodup_cons.mp hnd).2,
        Nat.le_of_succ_le_succ hlen, (nodup_cons.mp hdis).2, fun g hg => ?_, htab.2,
        fun vb hvb => ⟨(habs vb (mem_cons_of_mem _ hvb)).1, ?_⟩⟩
      · show update s.used f true g = false
        rw [update_of_ne (ne_of_mem_of_not_mem hg (nodup_cons.mp hdis).1)]
        exact hfree g (mem_cons_of_mem _ hg)
      · rw [entry_setPte, update_of_ne]
        · exact (habs vb (mem_cons_of_mem _ hvb)).2
        · rintro h
          cases h
          exact (nodup_cons.mp hnd).1 hvb
  · rintro ⟨f, s₁, s₂, ha, hm, h⟩
    obtain ⟨hf, fs, hs, rfl⟩ := pmmAllocZeroed_some_iff.mp ha
    obtain ⟨hlim, hva, ht, rfl⟩ := vmmMap_true_iff.mp hm
    obtain ⟨hnd, hlen, hdis, hfree, htab, habs⟩ := h
    have hne : ∀ vb ∈ rest, vb ≠ va := by
      rintro vb hvb rfl
      have := (habs vb hvb).2
      rw [entry_setPte, update_self] at this
      cases this
    have hnef : ∀ g ∈ fs.take rest.length, g ≠ f := by
      rintro g hg rfl
      have : update s.used g true g = false := hfree g hg
      rw [update_self] at this
      cases this
    refine ⟨nodup_cons.mpr ⟨fun h => hne va h rfl, hnd⟩, ?_, ?_, ?_, htables.mpr ⟨ht, htab⟩, ?_⟩
    · rw [hs]
      exact Nat.succ_le_succ hlen
    · rw [hs, length_cons, take_succ_cons]
      exact nodup_cons.mpr ⟨fun h => hnef f h rfl, hdis⟩
    · rw [hs, length_cons, take_succ_cons, forall_mem_cons]
      refine ⟨hf, fun g hg => ?_⟩
      have : update s.used f true g = false := hfree g hg
      rwa [update_of_ne (hnef g hg)] at this
    · rw [forall_mem_cons]
      refine ⟨⟨not_le.mp fun hge => hlim ⟨hu, hge⟩, hva⟩, fun vb hvb => ⟨(habs vb hvb).1, ?_⟩⟩
      have := (habs vb hvb).2
      rwa [entry_setPte, update_of_ne fun h => hne vb hvb (Prod.ext_iff.mp h).2] at this

variable {addr len : UInt64}

theorem pageRange_split {done rest : List UInt64}
    (h : pageRange addr len = done ++ va :: rest) : pageRange addr (va - addr) = done := by
  have hlen : done.length < len.toNat / 4096 := by
    have hc := congrArg List.length h
    simp only [pageRange, length_map, length_range, length_append,
      length_cons] at hc
    omega
  have hva : va = addr + UInt64.ofNat (4096 * done.length) := by
    have hg := congrArg (fun l => l[done.length]?) h
    simpa [pageRange, hlen] using hg.symm
  have hoff : (va - addr).toNat = 4096 * done.length := by
    have hb := len.toNat_lt
    rw [hva, UInt64.add_comm, UInt64.add_sub_cancel, UInt64.toNat_ofNat']
    omega
  have htake := congrArg (List.take done.length) h
  rw [take_left, pageRange, ← map_take, take_range, min_eq_left hlen.le] at htake
  rw [pageRange, hoff, Nat.mul_div_cancel_left _ (by norm_num)]
  exact htake

theorem pagesBetween_eq (lo va : UInt64) (h : lo ≤ va) :
    pagesBetween lo va = pageRange lo (va - lo) := by
  unfold pagesBetween
  split
  · rfl
  · next hlt =>
    have heq : va = lo := UInt64.le_antisymm (UInt64.not_lt.mp hlt) h
    simp [heq, pageRange]

theorem userMapRangeOk_iff : userMapRangeOk addr len = true ↔
    len.toNat ≠ 0 ∧ addr.toNat % 4096 = 0 ∧ addr.toNat + len.toNat ≤ 2 ^ 47 := by
  have hlim : userLimit.toNat = 2 ^ 47 := rfl
  have hbytes : pageBytes.toNat = 4096 := rfl
  have h := len.toNat_lt
  simp only [userMapRangeOk, ge_iff_le, gt_iff_lt, ne_eq, ← UInt64.toNat_inj,
    UInt64.le_iff_toNat_le, UInt64.lt_iff_toNat_lt, UInt64.toNat_mod, UInt64.toNat_sub,
    UInt64.toNat_zero, hlim, hbytes]
  split_ifs <;> simp <;> omega

theorem inRange_of_mem (h : addr.toNat + len.toNat ≤ 2 ^ 64)
    (hva : va ∈ pageRange addr len) : InRange addr len va := by
  obtain ⟨i, hi, rfl⟩ := mem_map.mp hva
  have hi := mem_range.mp hi
  rw [InRange, UInt64.toNat_add, UInt64.toNat_ofNat']
  omega

theorem mem_pageRange_within {addr len end_ : UInt64} (he : rangeEnd addr len = some end_)
    (hva : va ∈ pageRange addr len) : addr ≤ va ∧ va < end_ := by
  obtain ⟨hlt, rfl⟩ := rangeEnd_spec he
  have hend := Word.toNat_add_of_lt hlt
  have hb := (addr + len).toNat_lt
  exact (inRange_iff he).mp (inRange_of_mem (by omega) hva)

structure SameView (s s' : Mem n) : Prop where
  map : ∀ q, lookup (s'.vmas q) = lookup (s.vmas q)
  entry : s'.entry = s.entry

theorem SameMaps.view (h : SameMaps s s') : SameView s s' :=
  ⟨fun _ => by rw [h.vmas], h.entry⟩

theorem SameView.trans (h : SameView s s') (h' : SameView s' s'') : SameView s s'' :=
  ⟨fun q => (h'.map q).trans (h.map q), h'.entry.trans h.entry⟩

theorem setVmas_view {r : ℤ × VmaTable n} (h : lookup r.2 = lookup (s.vmas p)) :
    SameView s (s.setVmas p r).2 := by
  refine ⟨fun q => ?_, rfl⟩
  show lookup (update s.vmas p r.2 q) = _
  by_cases hq : q = p
  · rw [hq, update_self, h]
  · rw [update_of_ne hq]

section

variable {t : VmaTable n} {addr len : UInt64} {prot mapFlags : UInt32} {free : Bool}

theorem setVmas_vmaAdd {rc : ℤ} (hc : Canon (s.vmas p))
    (h : s.setVmas p (vmaAdd (s.vmas p) addr len prot mapFlags free) = (rc, s')) :
    rc < 0 ∧ SameView s s' ∨
      rc = 0 ∧ (vmaAdd (s.vmas p) addr len prot mapFlags free).1 = 0 ∧
        (s.setVmas p (vmaAdd (s.vmas p) addr len prot mapFlags free)).2 = s' := by
  cases h
  rcases vmaAdd_spec hc.separate addr len prot mapFlags free with ⟨hlt, hs⟩ | ⟨hz, -⟩
  · exact Or.inl ⟨hlt, setVmas_view (by rw [hs])⟩
  · exact Or.inr ⟨hz, hz, rfl⟩

theorem tracked_of_vmaAdd (hc : Canon t) (hok : (vmaAdd t addr len prot mapFlags free).1 = 0) :
    ∀ va ∈ pageRange addr len,
      vmaPageMapped (vmaAdd t addr len prot mapFlags free).2 va = true := by
  intro va hva
  have hin := mem_pageRange_within (rangeEnd_of_vmaAdd hc.separate hok) hva
  rw [vmaPageMapped, (lookup_vmaAdd hc hok).2, putMap, if_pos hin]
  rfl

variable (hc : Canon (s.vmas p)) (hok : (vmaAdd (s.vmas p) addr len prot mapFlags free).1 = 0)
include hc hok

theorem undo_vmaAdd
    (hs : SameMaps (s.setVmas p (vmaAdd (s.vmas p) addr len prot mapFlags free)).2 s') :
    SameView s (s'.setVmas p (vmaRemove (s'.vmas p) addr len)).2 := by
  have hmap := (vmaRemove_vmaAdd hc hok).2
  refine ⟨fun q => ?_, hs.entry⟩
  show lookup (update s'.vmas p (vmaRemove (s'.vmas p) addr len).2 q) = _
  rw [hs.vmas]
  by_cases hq : q = p
  · rw [hq, update_self]
    show lookup (vmaRemove (update s.vmas p _ p) addr len).2 = _
    rw [update_self]
    exact hmap
  · rw [update_of_ne hq]
    exact congrArg lookup (update_of_ne hq ..)

theorem rollbackNewMapping_view {done rest : List UInt64}
    (hm : MappedSoFar (s.setVmas p (vmaAdd (s.vmas p) addr len prot mapFlags free)).2 p done s')
    (hd : pageRange addr len = done ++ va :: rest) :
    SameView s (rollbackNewMapping s' p addr (va - addr) len) := by
  have htab : s'.vmas p = (vmaAdd (s.vmas p) addr len prot mapFlags free).2 := by
    rw [hm.vmas]
    exact update_self ..
  have hdone := pageRange_split hd
  have hu : Unmapped p done (vmaPageMapped (s'.vmas p)) s'
      (if va - addr ≠ 0 then unmapOwnedPages s' p addr (va - addr) else s') := by
    split
    · exact hdone ▸ unmapOwnedPages_unmapped s' p addr (va - addr)
    · next hz =>
      rw [not_not.mp hz] at hdone
      rw [← hdone]
      exact .nil _
  have hback := hm.undo hu fun vb hvb => by
    rw [htab]
    exact tracked_of_vmaAdd hc hok vb (by simp [hd, hvb])
  rw [rollbackNewMapping]
  exact undo_vmaAdd hc hok hback

end

end Kyronix.Mm
