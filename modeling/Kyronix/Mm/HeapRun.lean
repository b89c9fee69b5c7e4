import Kyronix.Lib.Run
import Kyronix.Mm.HeapOps

/-! Runs of the heap: every sequence of calls, on any CPUs, that frees and resizes only what it was
given and has not freed. -/
namespace Kyronix.Mm

open Lib.Links Lib.Tiling Lib.Run List Function

/-- `live` are the pointers that callers hold, `asked` what they asked for there. -/
structure HeapSys where
  heap : Heap
  live : List ℕ
  asked : ℕ → ℕ

open HeapSys

inductive HeapCall where
  | kmalloc (cpu : Cpu) (size : ℕ) (pages : Bool)
  | kfree (cpu : Cpu) (ptr : ℕ)
  | kcalloc (cpu : Cpu) (nmemb size : ℕ) (pages : Bool)
  | krealloc (cpu : Cpu) (ptr newSize : ℕ) (pages : Bool)

def HeapSys.give (σ : HeapSys) (size : ℕ) (r : ℕ × Heap) : HeapSys :=
  if r.1 = 0 then { σ with heap := r.2 } else ⟨r.2, r.1 :: σ.live, update σ.asked r.1 size⟩

-- a caller that gives back or resizes what it does not hold takes no step
def HeapSys.step (σ : HeapSys) : HeapCall → HeapSys
  | .kmalloc cpu size pages => σ.give size (Mm.kmalloc σ.heap cpu size pages)
  | .kcalloc cpu nmemb size pages =>
    σ.give (nmemb * size) (Mm.kcalloc σ.heap cpu nmemb size pages)
  | .kfree cpu ptr =>
    if ptr ∈ σ.live then ⟨Mm.kfree σ.heap cpu ptr, σ.live.erase ptr, σ.asked⟩ else σ
  | .krealloc cpu ptr newSize pages =>
    if ptr = 0 then σ.give newSize (Mm.krealloc σ.heap cpu ptr newSize pages)
    else if ptr ∈ σ.live then
      let r := Mm.krealloc σ.heap cpu ptr newSize pages
      if r.1 = 0 ∧ newSize ≠ 0 then { σ with heap := r.2 }
      else give ⟨σ.heap, σ.live.erase ptr, σ.asked⟩ newSize r
    else σ

def HeapSys.boot (pages : Bool) : HeapSys := ⟨heapInit pages, [], fun _ => 0⟩

structure HeapSys.Inv (σ : HeapSys) (bs : List ℕ) (fl : ℕ → List ℕ) (cl : Cpu × ℕ → List ℕ) :
    Prop where
  layout : Layout σ.heap bs fl cl 0
  nodup : σ.live.Nodup
  held : ∀ p, p ∈ σ.live ↔ ∃ b ∈ liveIn σ.heap bs, p = b + hdrSize
  room : ∀ p ∈ σ.live, σ.asked p ≤ σ.heap.size (p - hdrSize)

def HeapSys.Ok (σ : HeapSys) : Prop := ∃ bs fl cl, σ.Inv bs fl cl

variable {σ : HeapSys}

theorem kmalloc_ok (h : σ.Ok) (cpu : Cpu) (size : ℕ) (pages : Bool) :
    (σ.give size (kmalloc σ.heap cpu size pages)).Ok := by
  obtain ⟨bs, fl, cl, h⟩ := h
  obtain ⟨bs', fl', cl', hlay, halloc⟩ := kmalloc_layout h.layout cpu size pages
  have hkept : ∀ q ∈ σ.live, σ.asked q ≤ (kmalloc σ.heap cpu size pages).2.size (q - hdrSize) := by
    intro q hq
    have hroom := h.room q hq
    obtain ⟨c, hc, rfl⟩ := (h.held q).mp hq
    rwa [Nat.add_sub_cancel, halloc.sizes c hc] at *
  rcases halloc.live with ⟨hp, hlive⟩ | ⟨b, hp, hb, hlive, hsize⟩
  · rw [give, if_pos hp]
    exact ⟨bs', fl', cl', hlay, h.nodup, fun q => by rw [h.held, ← hlive], hkept⟩
  · rw [give, if_neg (by simp [hp, hdrSize])]
    have hnew : b + hdrSize ∉ σ.live := by
      intro hin
      obtain ⟨c, hc, hbc⟩ := (h.held _).mp hin
      rw [Nat.add_right_cancel hbc] at hb
      exact hb hc
    refine ⟨bs', fl', cl', hlay, ?_, fun q => ?_, fun q hq => ?_⟩
    · rw [hp]
      exact nodup_cons.mpr ⟨hnew, h.nodup⟩
    · rw [hlive, mem_cons, h.held, hp]
      simp only [Set.mem_insert_iff, exists_eq_or_imp]
    · rw [hp, mem_cons] at hq
      dsimp only
      rcases hq with rfl | hq
      · rwa [hp, update_self, Nat.add_sub_cancel]
      · rw [hp, update_of_ne (ne_of_mem_of_not_mem hq hnew)]
        exact hkept q hq

theorem kfree_ok (h : σ.Ok) (cpu : Cpu) {ptr : ℕ} (hptr : ptr ∈ σ.live) :
    HeapSys.Ok ⟨kfree σ.heap cpu ptr, σ.live.erase ptr, σ.asked⟩ := by
  obtain ⟨bs, fl, cl, h⟩ := h
  obtain ⟨b, hb, rfl⟩ := (h.held ptr).mp hptr
  obtain ⟨bs', fl', cl', hlay, hrel⟩ := kfree_layout h.layout hb.1 hb.2 cpu
  refine ⟨bs', fl', cl', hlay, h.nodup.erase _, fun q => ?_, fun q hq => ?_⟩
  · rw [h.nodup.mem_erase_iff, h.held, hrel.live]
    constructor
    · rintro ⟨hq, c, hc, rfl⟩
      refine ⟨c, ⟨hc, ?_⟩, rfl⟩
      rintro rfl
      exact hq rfl
    · rintro ⟨c, ⟨hc, hcb⟩, rfl⟩
      exact ⟨fun heq => hcb (Nat.add_right_cancel heq), c, hc, rfl⟩
  · obtain ⟨hne, hq⟩ := h.nodup.mem_erase_iff.mp hq
    have hroom := h.room q hq
    obtain ⟨c, hc, rfl⟩ := (h.held q).mp hq
    rw [Nat.add_sub_cancel] at hroom ⊢
    rwa [hrel.sizes c hc fun hcb => hne (by rw [hcb])]

theorem kcalloc_ok (h : σ.Ok) (cpu : Cpu) (nmemb size : ℕ) (pages : Bool) :
    (σ.give (nmemb * size) (kcalloc σ.heap cpu nmemb size pages)).Ok := by
  rw [kcalloc]
  split
  · exact h
  · exact kmalloc_ok h cpu (nmemb * size) pages

theorem krealloc_ok (h : σ.Ok) (cpu : Cpu) {ptr : ℕ} (newSize : ℕ) (pages : Bool)
    (hptr : ptr ∈ σ.live) : (σ.step (.krealloc cpu ptr newSize pages)).Ok := by
  have hnull : ptr ≠ 0 := by
    obtain ⟨_, _, _, h⟩ := h
    obtain ⟨b, -, rfl⟩ := (h.held ptr).mp hptr
    simp [hdrSize]
  rw [HeapSys.step, if_neg hnull, if_pos hptr, krealloc, if_neg hnull]
  by_cases hzero : newSize = 0
  · simpa only [if_pos hzero, hzero, ne_eq, not_true_eq_false, and_false, if_false, give, if_true]
      using kfree_ok h cpu hptr
  simp only [hzero, if_false, ne_eq, not_false_eq_true, and_true]
  split
  · exact h
  split
  · rename_i hfit
    obtain ⟨bs, fl, cl, h⟩ := h
    have hperm := perm_cons_erase hptr
    rw [give, if_neg hnull]
    refine ⟨bs, fl, cl, h.layout, hperm.nodup_iff.mp h.nodup,
      fun q => hperm.mem_iff.symm.trans (h.held q), fun q hq => ?_⟩
    dsimp only at hq ⊢
    by_cases hqp : q = ptr
    · rw [hqp, update_self]
      exact (roundUp_spec newSize).2.trans hfit
    · rw [update_of_ne hqp]
      exact h.room q (hperm.mem_iff.mpr hq)
  · have hk := kmalloc_ok h cpu newSize pages
    generalize kmalloc σ.heap cpu newSize pages = r at hk ⊢
    obtain ⟨p, s₁⟩ := r
    by_cases hp : p = 0
    · simpa only [give, hp, if_true] using hk
    · simp only [give, hp, if_false] at hk ⊢
      have hne : p ≠ ptr := by
        obtain ⟨_, _, _, hk⟩ := hk
        rintro rfl
        exact (nodup_cons.mp hk.nodup).1 hptr
      have hfree := kfree_ok hk cpu (mem_cons_of_mem p hptr)
      rwa [erase_cons_tail (by simpa using hne)] at hfree

theorem HeapSys.Ok.step (h : σ.Ok) (c : HeapCall) : (σ.step c).Ok := by
  cases c with
  | kmalloc cpu size pages => exact kmalloc_ok h cpu size pages
  | kcalloc cpu nmemb size pages => exact kcalloc_ok h cpu nmemb size pages
  | kfree cpu ptr =>
    rw [HeapSys.step]
    split
    · exact kfree_ok h cpu ‹_›
    · exact h
  | krealloc cpu ptr newSize pages =>
    by_cases hptr : ptr ∈ σ.live
    · exact krealloc_ok h cpu newSize pages hptr
    · rw [HeapSys.step, if_neg hptr]
      split
      · rename_i hnull
        rw [krealloc, if_pos hnull]
        exact kmalloc_ok h cpu newSize pages
      · exact h

theorem empty_layout : Layout Heap.empty [] (fun _ => []) (fun _ => []) 0 where
  list := ⟨dll_nil, rfl, rfl⟩
  bins := ⟨fun _ => dll_nil, fun _ => rfl, fun _ => nodup_nil, fun _ => not_mem_nil,
    fun _ _ _ h => absurd h not_mem_nil⟩
  caches := ⟨fun _ => sll_nil, fun _ => rfl, fun _ => rfl, fun _ => Nat.zero_le _,
    fun _ => nodup_nil, fun _ => not_mem_nil, fun _ _ _ h => absurd h not_mem_nil⟩
  tiles := rfl
  brk_le := by decide
  sizes _ h := absurd h not_mem_nil
  states _ h := absurd h not_mem_nil
  apart := isChain_nil
  binned _ _ := by simp
  cached _ _ h := absurd h not_mem_nil
  inCache _ h := absurd h not_mem_nil
  delta := rfl

theorem HeapSys.boot_ok (pages : Bool) : (boot pages).Ok := by
  have hnone : ∀ s, liveIn s [] = ∅ := fun s => Set.eq_empty_of_forall_notMem fun _ h =>
    not_mem_nil h.1
  rw [boot, heapInit]
  split
  · exact ⟨[], _, _, empty_layout, nodup_nil, by simp [hnone], by simp⟩
  · rename_i hgrow
    obtain ⟨bs, fl, hlay, -, -, -, hsame⟩ := heapGrow_layout empty_layout hgrow
    exact ⟨bs, fl, _, hlay, nodup_nil, by simp [hsame.live, hnone], by simp⟩

theorem heapRun_ok (pages : Bool) (calls : List HeapCall) : (exec step (.boot pages) calls).Ok := by
  induction calls using List.reverseRecOn with
  | nil => exact boot_ok pages
  | append_singleton calls c ih =>
    rw [exec_concat]
    exact ih.step c

/-- The blocks `bs`, the bins `fl` and the caches `cl` read off the lists of a heap, with the
pointers that callers hold: each has the bytes it was asked for to itself. -/
structure WellFormed (s : Heap) (live : List ℕ) (asked : ℕ → ℕ) (bs : List ℕ) (fl : ℕ → List ℕ)
    (cl : Cpu × ℕ → List ℕ) : Prop where
  list : s.list.Holds bs
  tiles : Tiles (blockWidth s) heapStart bs s.brk
  sizes : ∀ b ∈ bs, 0 < s.size b ∧ 16 ∣ s.size b
  bins : s.bins.Holds fl
  binned : ∀ b i, (fl i).count b =
    if b ∈ bs ∧ s.free b = 1 ∧ binForSize (s.size b) = i then 1 else 0
  caches : s.cache.Holds cl
  cached : ∀ b ∈ bs, s.free b = 3 → ∃ cpu, ∀ k, (cl k).count (b + hdrSize) =
    if k = (cpu, s.size b / 16 - 1) then 1 else 0
  uncached : ∀ p k, p ∈ cl k → ∃ b ∈ bs, p = b + hdrSize ∧ s.free b = 3
  apart : bs.IsChain fun a b => ¬ (s.free a = 1 ∧ s.free b = 1)
  delta : heapAllocDelta s = ((bs.filter fun b => s.free b = 0).map s.size).sum
  held : ∀ p, p ∈ live ↔ ∃ b ∈ bs, s.free b = 0 ∧ p = b + hdrSize
  room : ∀ p ∈ live, asked p ≤ s.size (p - hdrSize)
  disjoint : ∀ p ∈ live, ∀ q ∈ live, p ≠ q →
    p + s.size (p - hdrSize) ≤ q ∨ q + s.size (q - hdrSize) ≤ p
  aligned : ∀ p ∈ live, 16 ∣ p

theorem liveBytes_eq_filter (s : Heap) (bs : List ℕ) :
    liveBytes s bs = ((bs.filter fun b => s.free b = 0).map s.size).sum := by
  induction bs with
  | nil => rfl
  | cons b bs ih =>
    rw [liveBytes_cons, ih, filter_cons]
    by_cases hb : s.free b = 0
    · rw [if_pos hb, if_pos (decide_eq_true hb), map_cons, sum_cons]
    · rw [if_neg hb, if_neg (by simpa using hb), Nat.zero_add]

section

variable {s : Heap} {bs : List ℕ} {fl : ℕ → List ℕ} {cl : Cpu × ℕ → List ℕ}

section

variable (h : Layout s bs fl cl 0)
include h

theorem Layout.liveBytes_le : liveBytes s bs ≤ heapCapacity := by
  have hsum := h.tiles.sum_eq
  have hle : liveBytes s bs ≤ (bs.map (blockWidth s)).sum := by
    refine sum_le_sum fun b _ => ?_
    rw [blockWidth]
    split <;> omega
  have hbrk := h.brk_le
  rw [heapCapacity]
  omega

theorem Layout.heapAllocDelta_eq : heapAllocDelta s = liveBytes s bs := by
  have hle := h.liveBytes_le
  have hcap : heapCapacity < 2 ^ 63 := by decide
  rw [heapAllocDelta, h.delta, UInt64.toBitVec_ofNat', BitVec.toInt_ofNat']
  exact Int.bmod_eq_of_le (by omega) (by omega)

theorem Layout.dvd_block {b : ℕ} (hb : b ∈ bs) : 16 ∣ b :=
  h.tiles.dvd (by decide) (fun c hc => dvd_add (by decide) (h.sizes c hc).2) hb

theorem Layout.count_bin (b i : ℕ) : (fl i).count b =
    if b ∈ bs ∧ s.free b = 1 ∧ binForSize (s.size b) = i then 1 else 0 := by
  rw [(h.bins.nodup i).count]
  simp only [h.binned]

theorem Layout.count_cache {b : ℕ} (hb : b ∈ bs) (hb3 : s.free b = 3) :
    ∃ cpu, ∀ k, (cl k).count (b + hdrSize) = if k = (cpu, s.size b / 16 - 1) then 1 else 0 := by
  obtain ⟨⟨cpu, cls⟩, hk⟩ := h.inCache b hb hb3
  obtain ⟨c, -, hbc, -, hsz⟩ := h.cached _ _ hk
  rw [← Nat.add_right_cancel hbc] at hsz
  have hcls : s.size b / 16 - 1 = cls := by omega
  refine ⟨cpu, fun k => ?_⟩
  rw [(h.caches.nodup k).count, hcls]
  refine if_congr ⟨fun hin => h.caches.apart hin hk, ?_⟩ rfl rfl
  rintro rfl
  exact hk

end

end

theorem HeapSys.Inv.disjoint {bs : List ℕ} {fl : ℕ → List ℕ}
    {cl : Cpu × ℕ → List ℕ} (h : σ.Inv bs fl cl) {p q : ℕ} (hp : p ∈ σ.live) (hq : q ∈ σ.live)
    (hne : p ≠ q) : p + σ.heap.size (p - hdrSize) ≤ q ∨ q + σ.heap.size (q - hdrSize) ≤ p := by
  obtain ⟨b, hb, rfl⟩ := (h.held p).mp hp
  obtain ⟨c, hc, rfl⟩ := (h.held q).mp hq
  have hdisj := h.layout.tiles.disjoint hb.1 hc.1 fun hbc => hne (by rw [hbc])
  simp only [blockWidth] at hdisj
  rw [Nat.add_sub_cancel, Nat.add_sub_cancel]
  omega

theorem heap_well_formed (pages : Bool) (calls : List HeapCall) :
    ∃ bs fl cl, WellFormed (exec step (.boot pages) calls).heap
      (exec step (.boot pages) calls).live (exec step (.boot pages) calls).asked bs fl cl := by
  obtain ⟨bs, fl, cl, h⟩ := heapRun_ok pages calls
  refine ⟨bs, fl, cl, ?_⟩
  exact {
    list := h.layout.list
    tiles := h.layout.tiles
    sizes := h.layout.sizes
    bins := h.layout.bins
    binned := h.layout.count_bin
    caches := h.layout.caches
    cached := fun b hb hb3 => h.layout.count_cache hb hb3
    uncached := fun p k hp => by
      obtain ⟨b, hb, hpb, hb3, -⟩ := h.layout.cached p k hp
      exact ⟨b, hb, hpb, hb3⟩
    apart := h.layout.apart
    delta := by rw [h.layout.heapAllocDelta_eq, liveBytes_eq_filter]
    held := fun p => (h.held p).trans ⟨fun ⟨b, hb, hpb⟩ => ⟨b, hb.1, hb.2, hpb⟩,
      fun ⟨b, hb, hb0, hpb⟩ => ⟨b, ⟨hb, hb0⟩, hpb⟩⟩
    room := h.room
    disjoint := fun p hp q hq hne => h.disjoint hp hq hne
    aligned := fun p hp => by
      obtain ⟨b, hb, rfl⟩ := (h.held p).mp hp
      exact dvd_add (h.layout.dvd_block hb.1) (by decide) }

end Kyronix.Mm
