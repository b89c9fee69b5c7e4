import Kyronix.Mm.HeapLayout

/-! What each call does to the heap: which blocks are live after it, and that the layout is kept. -/
namespace Kyronix.Mm

open Lib.Links Lib.Tiling Function List

def liveIn (s : Heap) (bs : List ℕ) : Set ℕ := {b | b ∈ bs ∧ s.free b = 0}

section

variable {s s' : Heap} {bs : List ℕ} {fl : ℕ → List ℕ} {cl : Cpu × ℕ → List ℕ} {hand b size : ℕ}

theorem mem_liveIn : b ∈ liveIn s bs ↔ b ∈ bs ∧ s.free b = 0 := Iff.rfl

theorem liveIn_take (hb : b ∈ bs) (hfree : s'.free = update s.free b 0) :
    liveIn s' bs = insert b (liveIn s bs) := by
  ext c
  rw [mem_liveIn, Set.mem_insert_iff, mem_liveIn, hfree]
  by_cases hcb : c = b
  · rw [hcb, update_self]
    exact ⟨fun _ => Or.inl rfl, fun _ => ⟨hb, rfl⟩⟩
  · rw [update_of_ne hcb]
    exact ⟨Or.inr, fun hc => hc.resolve_left hcb⟩

theorem liveIn_drop {y : ℕ} (hy : y ≠ 0) (hfree : s'.free = update s.free b y) :
    liveIn s' bs = liveIn s bs \ {b} := by
  ext c
  rw [mem_liveIn, Set.mem_sdiff, mem_liveIn, hfree, Set.mem_singleton_iff]
  by_cases hcb : c = b
  · rw [hcb, update_self]
    exact ⟨fun hc => absurd hc.2 hy, fun hc => absurd rfl hc.2⟩
  · rw [update_of_ne hcb]
    exact ⟨fun hc => ⟨hc, hcb⟩, And.left⟩

structure SameLive (s : Heap) (bs : List ℕ) (s' : Heap) (bs' : List ℕ) : Prop where
  live : liveIn s' bs' = liveIn s bs
  sizes : ∀ c ∈ liveIn s bs, s'.size c = s.size c

theorem SameLive.refl (s : Heap) (bs : List ℕ) : SameLive s bs s bs := ⟨rfl, fun _ _ => rfl⟩

theorem SameLive.trans {s₁ s₂ s₃ : Heap} {bs₁ bs₂ bs₃ : List ℕ} (h₁ : SameLive s₁ bs₁ s₂ bs₂)
    (h₂ : SameLive s₂ bs₂ s₃ bs₃) : SameLive s₁ bs₁ s₃ bs₃ := by
  refine ⟨h₂.live.trans h₁.live, fun c hc => ?_⟩
  rw [h₂.sizes c (h₁.live ▸ hc), h₁.sizes c hc]

variable {bs₁ bs₂ : List ℕ}

theorem sameLive_absorb {c : ℕ} (hb : s.free b ≠ 0) (hc : s.free c ≠ 0)
    (hfree : s'.free = s.free) (hsize : ∀ d, d ≠ b → s'.size d = s.size d) :
    SameLive s (bs₁ ++ b :: c :: bs₂) s' (bs₁ ++ b :: bs₂) := by
  constructor
  · ext d
    rw [mem_liveIn, mem_liveIn, hfree]
    by_cases hdc : d = c
    · rw [hdc]
      exact ⟨fun hd => absurd hd.2 hc, fun hd => absurd hd.2 hc⟩
    · simp [hdc]
  · intro d hd
    refine hsize d ?_
    rintro rfl
    exact hb hd.2

theorem fitInBin_eq_find {l : List ℕ} (hlinks : Sll 0 s.bins.freeNext l) (hnull : 0 ∉ l)
    {fuel : ℕ} (hfuel : l.length < fuel) :
    fitInBin s size fuel (l.headD 0) = l.find? fun b => size ≤ s.size b := by
  induction l generalizing fuel with
  | nil =>
    obtain ⟨fuel, rfl⟩ := Nat.exists_eq_add_one.mpr (Nat.zero_lt_of_lt hfuel)
    rfl
  | cons b l ih =>
    obtain ⟨fuel, rfl⟩ := Nat.exists_eq_add_one.mpr (Nat.zero_lt_of_lt hfuel)
    obtain ⟨hnext, hl⟩ := sll_cons.mp hlinks
    have hb : b ≠ 0 := fun hb => hnull (hb ▸ mem_cons_self ..)
    have ih' := ih hl (fun h => hnull (mem_cons_of_mem _ h)) (Nat.lt_of_succ_lt_succ hfuel)
    rw [headD_cons, fitInBin, if_neg hb, hnext, ih', List.find?_cons]
    by_cases hfit : size ≤ s.size b
    · rw [if_pos hfit, decide_eq_true hfit]
    · rw [if_neg hfit, decide_eq_false hfit]

theorem Layout.fitInBin_eq (h : Layout s bs fl cl 0) (size i : ℕ) :
    fitInBin s size s.brk (s.bins.heads i) = (fl i).find? fun b => size ≤ s.size b := by
  rw [h.bins.heads i]
  exact fitInBin_eq_find ((h.bins.links i).sll (h.bins.nonnull i)) (h.bins.nonnull i)
    (h.length_lt i)

theorem Layout.findFit_some (h : Layout s bs fl cl 0) (hfit : findFit s size = some b) :
    b ∈ bs ∧ s.free b = 1 ∧ size ≤ s.size b := by
  obtain ⟨i, -, hi⟩ := exists_of_findSome?_eq_some hfit
  rw [h.fitInBin_eq] at hi
  obtain ⟨hb, hb1, -⟩ := (h.binned b i).mp (mem_of_find?_eq_some hi)
  have hsize := List.find?_some hi
  exact ⟨hb, hb1, of_decide_eq_true hsize⟩

def growTail (s : Heap) (need : ℕ) : Heap :=
  freeInsert { s with
    brk := s.brk + need
    bins := s.bins.remove (binForSize (s.size s.list.tail)) s.list.tail
    size := update s.size s.list.tail (s.size s.list.tail + need) } s.list.tail

def growBlock (s : Heap) (need : ℕ) : Heap :=
  freeInsert { s with
    brk := s.brk + need
    size := update s.size s.brk (need - hdrSize)
    free := update s.free s.brk 1
    list := if s.list.head ≠ 0 then s.list.append s.brk else s.list.start s.brk
    bins := { s.bins with freePrev := update s.bins.freePrev s.brk 0
                          freeNext := update s.bins.freeNext s.brk 0 } } s.brk

theorem heapGrow_cases {n : ℕ} {pages : Bool} (hgrow : heapGrow s n pages = some (b, s')) :
    ∃ need, 16 ∣ need ∧ n + hdrSize ≤ need ∧ hdrSize < need ∧ s.brk + need ≤ heapMax ∧
      if s.list.head ≠ 0 ∧ s.free s.list.tail = 1 then b = s.list.tail ∧ s' = growTail s need
      else b = s.brk ∧ s' = growBlock s need := by
  unfold heapGrow at hgrow
  split at hgrow
  · cases hgrow
  · dsimp only at hgrow
    generalize hneed₀ : (if n + hdrSize < growBytes then growBytes else n + hdrSize) = need₀
      at hgrow
    have hlo : n + hdrSize ≤ need₀ ∧ growBytes ≤ need₀ := by
      rw [← hneed₀]
      split <;> omega
    split at hgrow
    · cases hgrow
    · generalize hneed : (need₀ + (pageSize - 1)) / pageSize * pageSize = need at hgrow
      have hup : need₀ ≤ need ∧ 16 ∣ need := by
        rw [show pageSize = 4096 from rfl] at hneed
        omega
      split at hgrow
      · cases hgrow
      · rename_i hroom
        split at hgrow
        · cases hgrow
        · have hgb : growBytes = 65536 := rfl
          have hhdr : hdrSize = 48 := rfl
          refine ⟨need, hup.2, hlo.1.trans hup.1, by omega, by omega, ?_⟩
          split at hgrow
          · rename_i hlast
            rw [if_pos hlast]
            cases hgrow
            exact ⟨rfl, rfl⟩
          · rename_i hlast
            rw [if_neg hlast]
            cases hgrow
            exact ⟨rfl, rfl⟩

theorem Layout.head_ne (h : Layout s bs fl cl hand) : s.list.head ≠ 0 ↔ bs ≠ [] := by
  rw [h.list.head]
  cases bs with
  | nil => exact ⟨fun hne => absurd rfl hne, fun hne => absurd rfl hne⟩
  | cons b bs =>
    exact ⟨fun _ => cons_ne_nil b bs, fun _ => ne_of_mem_of_not_mem (mem_cons_self ..)
      h.nonnull⟩

theorem growTail_layout (h : Layout s (bs ++ [b]) fl cl 0) (hb1 : s.free b = 1) {need : ℕ}
    (h16 : 16 ∣ need) (hmax : s.brk + need ≤ heapMax) :
    ∃ fl', Layout (growTail s need) (bs ++ [b]) fl' cl 0 := by
  have hb : b ∈ bs ++ [b] := by simp
  have htail : s.list.tail = b := by rw [h.list.tail, getLastD_concat]
  have hin := h.mem_bin hb hb1
  have hmem := h.mem_erase hb hb1
  rw [growTail, htail]
  refine ⟨_, h.extend hb1 h16 hmax rfl rfl rfl rfl rfl rfl ((h.bins.remove hin).insert _
    (fun i hi => ((hmem b i).mp hi).2 rfl) (ne_of_mem_of_not_mem hb h.nonnull)) fun d i => ?_⟩
  rw [mem_update_cons, hmem, mem_singleton]
  refine or_congr_right (and_congr_right fun hd => ?_)
  rw [hd]
  exact ⟨fun hi => ⟨hb1, hi.symm⟩, fun hi => hi.2.symm⟩

theorem growBlock_layout (h : Layout s bs fl cl 0)
    (hlast : ¬ (s.list.head ≠ 0 ∧ s.free s.list.tail = 1)) {need : ℕ} (h16 : 16 ∣ need)
    (hpos : hdrSize < need) (hmax : s.brk + need ≤ heapMax) :
    ∃ fl', Layout (growBlock s need) (bs ++ [s.brk]) fl' cl 0 := by
  have hout : s.brk ∉ bs := h.brk_notMem
  have hbrk : s.brk ≠ 0 := by
    have hle := h.tiles.le
    have hstart : 0 < heapStart := by decide
    omega
  have hfl : ∀ i, s.brk ∉ fl i := fun i hi => hout ((h.binned _ i).mp hi).1
  refine ⟨_, h.append ?_ h16 hpos hmax rfl rfl ?_ rfl rfl rfl ((h.bins.clear hfl 0 0).insert _ hfl
    hbrk) fun d i => ?_⟩
  · intro p hp hp1
    obtain ⟨bs₁, rfl⟩ := List.getLast?_eq_some_iff.mp hp
    have htail : s.list.tail = p := by rw [h.list.tail, getLastD_concat]
    exact hlast ⟨h.head_ne.mpr (by simp), htail ▸ hp1⟩
  · rw [growBlock, freeInsert]
    rcases eq_nil_or_concat' bs with rfl | ⟨bs₁, p, rfl⟩
    · rw [if_neg fun hne => h.head_ne.mp hne rfl]
      exact BlockList.Holds.start hbrk
    · rw [if_pos (h.head_ne.mpr (by simp)), append_assoc]
      have hnd := nodup_append.mpr ⟨h.nodup, nodup_singleton s.brk, fun d hd e he =>
        mem_singleton.mp he ▸ ne_of_mem_of_not_mem hd hout⟩
      have hnull : 0 ∉ (bs₁ ++ [p]) ++ [s.brk] := fun h₀ => (mem_append.mp h₀).elim
        h.nonnull fun h₀ => hbrk (mem_singleton.mp h₀).symm
      rw [append_assoc] at hnd hnull
      exact h.list.append hnd hnull
  · rw [mem_update_cons]
    dsimp only
    rw [update_self]

theorem heapGrow_layout (h : Layout s bs fl cl 0) {n : ℕ} {pages : Bool}
    (hgrow : heapGrow s n pages = some (b, s')) :
    ∃ bs' fl', Layout s' bs' fl' cl 0 ∧ b ∈ bs' ∧ s'.free b = 1 ∧ n ≤ s'.size b ∧
      SameLive s bs s' bs' := by
  obtain ⟨need, h16, hn, hpos, hmax, hcase⟩ := heapGrow_cases hgrow
  split at hcase
  · rename_i hlast
    obtain ⟨rfl, rfl⟩ := hcase
    obtain ⟨bs₁, p, rfl⟩ := (eq_nil_or_concat' bs).resolve_left (h.head_ne.mp hlast.1)
    have htail : s.list.tail = p := by rw [h.list.tail, getLastD_concat]
    rw [htail] at hlast ⊢
    obtain ⟨fl', hlay⟩ := growTail_layout h hlast.2 h16 hmax
    refine ⟨_, fl', hlay, by simp, hlast.2, ?_, ⟨rfl, fun c hc => ?_⟩⟩
    · have hsp : (growTail s need).size p = s.size p + need := by
        rw [growTail, htail]
        exact update_self ..
      omega
    · have hcp : c ≠ p := by
        rintro rfl
        exact absurd (hlast.2.symm.trans hc.2) (by decide)
      rw [growTail, htail]
      exact update_of_ne hcp ..
  · rename_i hlast
    obtain ⟨rfl, rfl⟩ := hcase
    obtain ⟨fl', hlay⟩ := growBlock_layout h hlast h16 hpos hmax
    have hfb : (growBlock s need).free s.brk = 1 := update_self ..
    have hfo : ∀ c ∈ bs, (growBlock s need).free c = s.free c := fun c hc =>
      update_of_ne (ne_of_mem_of_not_mem hc h.brk_notMem) ..
    refine ⟨_, fl', hlay, by simp, hfb, ?_, ⟨?_, fun c hc => ?_⟩⟩
    · have hsb : (growBlock s need).size s.brk = need - hdrSize := update_self ..
      omega
    · ext c
      rw [mem_liveIn, mem_liveIn, mem_append, mem_singleton]
      constructor
      · rintro ⟨hc | rfl, hc0⟩
        · exact ⟨hc, (hfo c hc).symm.trans hc0⟩
        · exact absurd (hfb.symm.trans hc0) (by decide)
      · exact fun hc => ⟨Or.inl hc.1, (hfo c hc.1).trans hc.2⟩
    · exact update_of_ne (ne_of_mem_of_not_mem hc.1 h.brk_notMem) ..

theorem takeBlock_whole (hcut : ¬ s.size b ≥ size + minSplit) :
    takeBlock s b size = (b + hdrSize, { s with
      free := update s.free b 0
      bins := { s.bins.remove (binForSize (s.size b)) b with
        freePrev := update (s.bins.remove (binForSize (s.size b)) b).freePrev b 0
        freeNext := update (s.bins.remove (binForSize (s.size b)) b).freeNext b 0 }
      kmallocTotal := s.kmallocTotal + UInt64.ofNat (s.size b) }) := by
  have hif : (if (freeRemove s b).size b ≥ size + minSplit then splitBlock (freeRemove s b) b size
      else freeRemove s b) = freeRemove s b := if_neg hcut
  rw [takeBlock]
  rw [hif]
  rfl

def cutBins (s : Heap) (b size : ℕ) : FreeBins :=
  let f := s.bins.remove (binForSize (s.size b)) b
  let t := b + hdrSize + size
  let f := { f with freePrev := update f.freePrev t 0
                    freeNext := update f.freeNext t 0 }
  let f := f.insert (binForSize (s.size b - size - hdrSize)) t
  { f with freePrev := update f.freePrev b 0, freeNext := update f.freeNext b 0 }

def cutBlock (s : Heap) (b size : ℕ) : Heap :=
  { s with
    size := update (update s.size (b + hdrSize + size)
      (s.size b - size - hdrSize)) b size
    free := update (update s.free (b + hdrSize + size) 1) b 0
    list := s.list.insertAfter b (b + hdrSize + size)
    bins := cutBins s b size
    kmallocTotal := s.kmallocTotal + UInt64.ofNat size }

theorem takeBlock_cut (hcut : s.size b ≥ size + minSplit) :
    takeBlock s b size = (b + hdrSize, cutBlock s b size) := by
  have hif : (if (freeRemove s b).size b ≥ size + minSplit then splitBlock (freeRemove s b) b size
      else freeRemove s b) = splitBlock (freeRemove s b) b size := if_pos hcut
  have htb : b + hdrSize + size ≠ b := by
    have hhdr : hdrSize = 48 := rfl
    omega
  rw [takeBlock]
  rw [hif]
  simp only [splitBlock, freeInsert, freeRemove, cutBlock, cutBins, update_self,
    update_of_ne htb]

theorem takeBlock_layout (h : Layout s bs fl cl 0) (hb : b ∈ bs) (hb1 : s.free b = 1)
    (h16 : 16 ∣ size) (hpos : 0 < size) (hfit : size ≤ s.size b) :
    (takeBlock s b size).1 = b + hdrSize ∧
    ∃ bs' fl', Layout (takeBlock s b size).2 bs' fl' cl 0 ∧
      liveIn (takeBlock s b size).2 bs' = insert b (liveIn s bs) ∧
      size ≤ (takeBlock s b size).2.size b ∧
      ∀ c ∈ liveIn s bs, (takeBlock s b size).2.size c = s.size c := by
  have hin := h.mem_bin hb hb1
  have hrem := h.bins.remove hin
  have hmem := h.mem_erase hb hb1
  by_cases hcut : s.size b ≥ size + minSplit
  · rw [takeBlock_cut hcut]
    have hmin : minSplit = hdrSize + 16 := rfl
    have hhdr : hdrSize = 48 := rfl
    have htout : b + hdrSize + size ∉ bs := h.notMem_inside hb (by omega)
    have htb : b + hdrSize + size ≠ b := by omega
    have htfl : ∀ i, b + hdrSize + size ∉ fl i := fun i hi => htout ((h.binned _ i).mp hi).1
    have hbins : (cutBins s b size).Holds _ :=
      ((hrem.clear (fun i hi => htfl i ((hmem _ i).mp hi).1) 0 0).insert
        (binForSize (s.size b - size - hdrSize)) (fun i hi => htfl i ((hmem _ i).mp hi).1)
        (by omega)).clear (fun i hi => (mem_update_cons.mp hi).elim
          (fun hi => ((hmem b i).mp hi).2 rfl) fun hi => htb hi.1.symm) 0 0
    obtain ⟨bs₁, bs₂, rfl⟩ := append_of_mem hb
    have hlay : Layout (cutBlock s b size) (bs₁ ++ b :: (b + hdrSize + size) :: bs₂) _ cl 0 :=
      h.split hb1 h16 hpos hcut rfl rfl rfl rfl rfl rfl hbins ?_
    · have hsb : (cutBlock s b size).size b = size := update_self ..
      refine ⟨rfl, _, _, hlay, ?_, hsb.ge, fun c hc => ?_⟩
      · rw [liveIn_take (s := { s with free := update s.free (b + hdrSize + size) 1 })
          (by simp) rfl]
        congr 1
        ext c
        rw [mem_liveIn, mem_liveIn]
        by_cases hct : c = b + hdrSize + size
        · rw [hct]
          dsimp only
          rw [update_self]
          exact ⟨fun hc => absurd hc.2 (by decide), fun hc => absurd hc.1 htout⟩
        · simp [hct]
      · have hcb : c ≠ b := by
          rintro rfl
          exact absurd (hb1.symm.trans hc.2) (by decide)
        exact (update_of_ne hcb ..).trans
          (update_of_ne (ne_of_mem_of_not_mem hc.1 htout) ..)
    · intro d i
      rw [mem_update_cons, hmem]
  · rw [takeBlock_whole hcut]
    obtain ⟨fl', hlay⟩ := h.take hb hb1 (hrem.clear (fun i hi => ((hmem b i).mp hi).2 rfl) 0 0)
    exact ⟨rfl, bs, fl', hlay, liveIn_take hb rfl, hfit, fun _ _ => rfl⟩

structure Allocated (s : Heap) (bs : List ℕ) (s' : Heap) (bs' : List ℕ) (p n : ℕ) : Prop where
  live : (p = 0 ∧ liveIn s' bs' = liveIn s bs) ∨
    ∃ b, p = b + hdrSize ∧ b ∉ liveIn s bs ∧ liveIn s' bs' = insert b (liveIn s bs) ∧ n ≤ s'.size b
  sizes : ∀ c ∈ liveIn s bs, s'.size c = s.size c

theorem Allocated.none (s : Heap) (bs : List ℕ) (n : ℕ) : Allocated s bs s bs 0 n :=
  ⟨Or.inl ⟨rfl, rfl⟩, fun _ _ => rfl⟩

theorem roundUp_spec (size : ℕ) : 16 ∣ roundUp size ∧ size ≤ roundUp size := by
  rw [roundUp]
  omega

theorem takeBlock_allocated (h : Layout s bs fl cl 0) (hb : b ∈ bs) (hb1 : s.free b = 1)
    (h16 : 16 ∣ size) (hpos : 0 < size) (hfit : size ≤ s.size b) :
    ∃ bs' fl', Layout (takeBlock s b size).2 bs' fl' cl 0 ∧
      Allocated s bs (takeBlock s b size).2 bs' (takeBlock s b size).1 size := by
  obtain ⟨hp, bs', fl', hlay, hlive, hsize, hsizes⟩ := takeBlock_layout h hb hb1 h16 hpos hfit
  refine ⟨bs', fl', hlay, Or.inr ⟨b, hp, fun hb' => ?_, hlive, hsize⟩, hsizes⟩
  exact absurd (hb1.symm.trans hb'.2) (by decide)

theorem Allocated.mono {bs' : List ℕ} {p n n' : ℕ} (h : Allocated s bs s' bs' p n)
    (hn : n' ≤ n) : Allocated s bs s' bs' p n' := by
  refine ⟨h.live.imp_right ?_, h.sizes⟩
  rintro ⟨b, hp, hb, hlive, hsize⟩
  exact ⟨b, hp, hb, hlive, hn.trans hsize⟩

theorem kmalloc_layout (h : Layout s bs fl cl 0) (cpu : Cpu) (size : ℕ) (pages : Bool) :
    ∃ bs' fl' cl', Layout (kmalloc s cpu size pages).2 bs' fl' cl' 0 ∧
      Allocated s bs (kmalloc s cpu size pages).2 bs' (kmalloc s cpu size pages).1 size := by
  obtain ⟨h16, hle⟩ := roundUp_spec size
  unfold kmalloc
  split
  · exact ⟨bs, fl, cl, h, Allocated.none s bs size⟩
  rename_i hsize
  split
  · exact ⟨bs, fl, cl, h, Allocated.none s bs size⟩
  dsimp only
  have hpos : 0 < roundUp size := by omega
  split
  · rename_i hcache
    obtain ⟨b, hb, hitem, hb3, hsz, cl', hlay⟩ := h.uncache hcache.2
    have hcls : s.size b = roundUp size := by
      rw [hsz, smallClass]
      omega
    rw [hcls] at hlay
    rw [hitem, Nat.add_sub_cancel]
    refine ⟨bs, fl, cl', hlay, Or.inr ⟨b, rfl, fun hb' => ?_, liveIn_take hb rfl, ?_⟩,
      fun _ _ => rfl⟩
    · exact absurd (hb3.symm.trans hb'.2) (by decide)
    · exact hle.trans hcls.ge
  · split
    · rename_i b hfit
      obtain ⟨hb, hb1, hfit⟩ := h.findFit_some hfit
      obtain ⟨bs', fl', hlay, halloc⟩ := takeBlock_allocated h hb hb1 h16 hpos hfit
      exact ⟨bs', fl', cl, hlay, halloc.mono hle⟩
    · split
      · exact ⟨bs, fl, cl, h, Allocated.none s bs size⟩
      · rename_i b s₁ hgrow
        obtain ⟨bs₁, fl₁, hlay₁, hb, hb1, hfit, hsame⟩ := heapGrow_layout h hgrow
        obtain ⟨bs', fl', hlay, halloc⟩ := takeBlock_allocated hlay₁ hb hb1 h16 hpos hfit
        refine ⟨bs', fl', cl, hlay, ?_, fun c hc => ?_⟩
        · rw [← hsame.live]
          exact (halloc.mono hle).live
        · rw [halloc.sizes c (hsame.live ▸ hc), hsame.sizes c hc]

structure Released (s : Heap) (bs : List ℕ) (s' : Heap) (bs' : List ℕ) (b : ℕ) : Prop where
  live : liveIn s' bs' = liveIn s bs \ {b}
  sizes : ∀ c ∈ liveIn s bs, c ≠ b → s'.size c = s.size c

theorem mem_absorb {c d : ℕ} (hnd : (bs₁ ++ b :: c :: bs₂).Nodup) :
    d ∈ bs₁ ++ b :: bs₂ ↔ d ∈ bs₁ ++ b :: c :: bs₂ ∧ d ≠ c := by
  have hperm : (bs₁ ++ b :: c :: bs₂).Perm (c :: (bs₁ ++ b :: bs₂)) := by
    rw [← singleton_append, ← append_assoc]
    exact perm_middle.trans (by simp)
  rw [hperm.nodup_iff, nodup_cons] at hnd
  rw [hperm.mem_iff, mem_cons]
  constructor
  · exact fun hd => ⟨Or.inr hd, ne_of_mem_of_not_mem hd hnd.1⟩
  · exact fun hd => hd.1.resolve_left hd.2

theorem coalesceNext_layout (h : Layout s bs fl cl b) (hb : b ∈ bs) (hb2 : s.free b = 2) :
    ∃ bs₁ bs₂ fl', Layout (coalesceNext s b) (bs₁ ++ b :: bs₂) fl' cl b ∧
      (coalesceNext s b).free b = 2 ∧ (∀ n ∈ bs₂.head?, (coalesceNext s b).free n ≠ 1) ∧
      SameLive s bs (coalesceNext s b) (bs₁ ++ b :: bs₂) := by
  obtain ⟨bs₁, bs₂, rfl⟩ := append_of_mem hb
  have hnext := (h.list.links.split (ne_of_mem_of_not_mem hb h.nonnull)).2.2.2
  rw [coalesceNext]
  cases bs₂ with
  | nil =>
    rw [if_neg fun hc => hc.1 hnext]
    exact ⟨bs₁, [], fl, h, hb2, fun n hn => absurd hn (by simp), SameLive.refl ..⟩
  | cons c bs₂ =>
    rw [headD_cons] at hnext
    have hc : c ∈ bs₁ ++ b :: c :: bs₂ := by simp
    rw [hnext]
    by_cases hc1 : s.free c = 1
    · rw [if_pos ⟨ne_of_mem_of_not_mem hc h.nonnull, hc1⟩]
      have hin := h.mem_bin hc hc1
      obtain ⟨-, hchain, -, -⟩ := apart_around.mp h.apart
      have hafter := (isChain_cons.mp hchain).1
      have hlay : Layout { freeRemove s c with
          size := update s.size b (s.size b + (hdrSize + s.size c))
          list := s.list.absorb b c } (bs₁ ++ b :: bs₂) _ cl b :=
        h.merge rfl rfl rfl rfl rfl rfl (Or.inr hb2) (Or.inl hc1) ?_ (h.bins.remove hin) ?_
          (fun hb1 => absurd (hb2.symm.trans hb1) (by decide))
      · refine ⟨bs₁, bs₂, _, hlay, hb2, fun n hn hn1 => hafter n hn ⟨hc1, hn1⟩, ?_⟩
        exact sameLive_absorb (by omega) (by omega) rfl fun d hd => update_of_ne hd ..
      · intro d hd hd2
        by_contra hdb
        exact h.free_hand ((mem_absorb h.nodup).mp hd).1 hdb hd2
      · intro d i
        rw [h.mem_erase hc hc1, mem_singleton, mem_pair]
        have hdb : d ∈ fl i → d ≠ b := fun hd => ne_of_mem_of_not_mem hd (h.notMem_bin (by omega) i)
        have hd2 : d = b → s.free d ≠ 1 := fun hdb => by rw [hdb, hb2]; decide
        tauto
    · rw [if_neg fun hc => hc1 hc.2]
      refine ⟨bs₁, c :: bs₂, fl, h, hb2, fun n hn => ?_, SameLive.refl ..⟩
      rw [List.head?_cons, Option.mem_some_iff] at hn
      rwa [← hn]

def putBack (r : ℕ × Heap) : Heap :=
  freeInsert { r.2 with free := update r.2.free r.1 1 } r.1

theorem putBack_alone (h : Layout s (bs₁ ++ b :: bs₂) fl cl b)
    (hb2 : s.free b = 2) (hprev : ∀ p ∈ bs₁.getLast?, s.free p ≠ 1)
    (hnext : ∀ n ∈ bs₂.head?, s.free n ≠ 1) :
    ∃ fl', Layout (putBack (b, s)) (bs₁ ++ b :: bs₂) fl' cl 0 ∧
      SameLive s (bs₁ ++ b :: bs₂) (putBack (b, s)) (bs₁ ++ b :: bs₂) := by
  obtain ⟨fl', hlay⟩ := h.release hb2 hprev hnext
  have hnot : b ∉ liveIn s (bs₁ ++ b :: bs₂) := fun hb0 =>
    absurd (hb2.symm.trans hb0.2) (by decide)
  refine ⟨fl', hlay, ?_, fun _ _ => rfl⟩
  rw [liveIn_drop (s := s) (b := b) one_ne_zero rfl, Set.sdiff_singleton_eq_self hnot]

theorem putBack_joined {p : ℕ} (h : Layout s (bs₁ ++ p :: b :: bs₂) fl cl b)
    (hb2 : s.free b = 2) (hp1 : s.free p = 1) (hnext : ∀ n ∈ bs₂.head?, s.free n ≠ 1)
    (hs' : s' = { freeRemove s p with
      size := update s.size p (s.size p + (hdrSize + s.size b))
      list := s.list.absorb p b }) :
    ∃ fl', Layout (putBack (p, s')) (bs₁ ++ p :: bs₂) fl' cl 0 ∧
      SameLive s (bs₁ ++ p :: b :: bs₂) (putBack (p, s')) (bs₁ ++ p :: bs₂) := by
  have hp : p ∈ bs₁ ++ p :: b :: bs₂ := by simp
  have hin := h.mem_bin hp hp1
  have hmem := h.mem_erase hp hp1
  have hfree : (putBack (p, s')).free = s.free := by
    rw [hs']
    exact (congrArg (update s.free p) hp1.symm).trans (update_eq_self p s.free)
  have hsize : (putBack (p, s')).size =
      update s.size p (s.size p + (hdrSize + s.size b)) := by
    rw [hs']
    rfl
  have hbins := (h.bins.remove hin).insert (binForSize (s'.size p))
    (fun i hi => ((hmem p i).mp hi).2 rfl) (ne_of_mem_of_not_mem hp h.nonnull)
  have heq : (putBack (p, s')).bins =
      (s.bins.remove (binForSize (s.size p)) p).insert (binForSize (s'.size p)) p := by
    rw [hs']
    rfl
  rw [← heq] at hbins
  have hlay : Layout (putBack (p, s')) (bs₁ ++ p :: bs₂) _ cl 0 :=
    h.merge hfree hsize (by rw [hs']; rfl) (by rw [hs']; rfl) (by rw [hs']; rfl) (by rw [hs']; rfl)
      (Or.inl hp1) (Or.inr hb2) ?_ hbins ?_ fun _ => hnext
  · exact ⟨_, hlay, sameLive_absorb (by omega) (by omega) hfree fun d hd => by
      rw [hsize, update_of_ne hd]⟩
  · intro d hd hd2
    obtain ⟨hd, hdb⟩ := (mem_absorb h.nodup).mp hd
    exact absurd hd2 (h.free_hand hd hdb)
  · intro d i
    rw [mem_update_cons, hmem, mem_singleton, mem_pair, hfree]
    have hdb : d ∈ fl i → d ≠ b := fun hd => ne_of_mem_of_not_mem hd (h.notMem_bin (by omega) i)
    refine or_congr (by tauto) (and_congr_right fun hd => ?_)
    rw [hd]
    exact ⟨fun hi => ⟨hp1, hi.symm⟩, fun hi => hi.2.symm⟩

theorem putBack_layout (h : Layout s (bs₁ ++ b :: bs₂) fl cl b)
    (hb2 : s.free b = 2) (hnext : ∀ n ∈ bs₂.head?, s.free n ≠ 1) :
    ∃ bs' fl', Layout (putBack (coalescePrev s b)) bs' fl' cl 0 ∧
      SameLive s (bs₁ ++ b :: bs₂) (putBack (coalescePrev s b)) bs' := by
  have hb : b ∈ bs₁ ++ b :: bs₂ := by simp
  have hback := (h.list.links.split (ne_of_mem_of_not_mem hb h.nonnull)).2.2.1
  rw [coalescePrev]
  rcases eq_nil_or_concat' bs₁ with rfl | ⟨bs₀, p, rfl⟩
  · rw [if_neg fun hc => hc.1 hback]
    exact ⟨_, putBack_alone h hb2 (fun p hp => absurd hp (by simp)) hnext⟩
  · rw [getLastD_concat] at hback
    rw [hback]
    by_cases hp1 : s.free p = 1
    · have hp : p ≠ 0 := ne_of_mem_of_not_mem (by simp) h.nonnull
      rw [if_pos ⟨hp, hp1⟩]
      rw [append_assoc] at h ⊢
      exact ⟨_, putBack_joined h hb2 hp1 hnext rfl⟩
    · rw [if_neg fun hc => hp1 hc.2]
      refine ⟨_, putBack_alone h hb2 (fun q hq => ?_) hnext⟩
      rw [List.getLast?_concat, Option.mem_some_iff] at hq
      rwa [← hq]

theorem kfree_layout (h : Layout s bs fl cl 0) (hb : b ∈ bs) (hb0 : s.free b = 0) (cpu : Cpu) :
    ∃ bs' fl' cl', Layout (kfree s cpu (b + hdrSize)) bs' fl' cl' 0 ∧
      Released s bs (kfree s cpu (b + hdrSize)) bs' b := by
  have hp₀ : b + hdrSize ≠ 0 := by simp [hdrSize]
  rw [kfree, if_neg hp₀, Nat.add_sub_cancel, if_neg (not_not.mpr hb0)]
  dsimp only
  split
  · rename_i hcls
    obtain ⟨cl', hlay⟩ := h.cacheBlock hb hb0 (k := (cpu, smallClass (s.size b))) (by
      rw [smallClass]
      omega) hcls.2.2.2
    rw [update_idem]
    exact ⟨bs, fl, cl', hlay, liveIn_drop (by decide) rfl, fun _ _ _ => rfl⟩
  · have hhold := h.hold hb hb0
    have hb2 : update s.free b 2 b = 2 := update_self ..
    obtain ⟨bs₁, bs₂, fl₁, hlay₁, hb2', hnext, hsame₁⟩ := coalesceNext_layout hhold hb hb2
    obtain ⟨bs', fl', hlay, hsame₂⟩ := putBack_layout hlay₁ hb2' hnext
    have hsame := hsame₁.trans hsame₂
    have hdrop : liveIn { s with free := update s.free b 2 } bs = liveIn s bs \ {b} :=
      liveIn_drop two_ne_zero rfl
    refine ⟨bs', fl', cl, hlay, hsame.live.trans hdrop, fun c hc hcb => ?_⟩
    exact hsame.sizes c (hdrop ▸ ⟨hc, hcb⟩)

end

end Kyronix.Mm
