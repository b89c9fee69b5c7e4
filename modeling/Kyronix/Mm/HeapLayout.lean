import Kyronix.Lib.Tiling
import Kyronix.Mm.HeapLists

/-! The invariant of the heap, and that each change a call makes to the blocks keeps it. A block in
state 2 is in the hand of the `kfree` that is returning it. -/
namespace Kyronix.Mm

open Lib.Links Lib.Tiling Function List

def blockWidth (s : Heap) (b : ℕ) : ℕ := hdrSize + s.size b

def liveBytes (s : Heap) (bs : List ℕ) : ℕ :=
  (bs.map fun b => if s.free b = 0 then s.size b else 0).sum

def NotBothFree (s : Heap) (a b : ℕ) : Prop := ¬ (s.free a = 1 ∧ s.free b = 1)

/-- The blocks `bs`, the bins `fl` and the caches `cl` of a heap, with at most the block `hand` (or
0 for none) being returned. -/
structure Layout (s : Heap) (bs : List ℕ) (fl : ℕ → List ℕ) (cl : Cpu × ℕ → List ℕ)
    (hand : ℕ) : Prop where
  list : s.list.Holds bs
  bins : s.bins.Holds fl
  caches : s.cache.Holds cl
  tiles : Tiles (blockWidth s) heapStart bs s.brk
  brk_le : s.brk ≤ heapMax
  sizes : ∀ b ∈ bs, 0 < s.size b ∧ 16 ∣ s.size b
  states : ∀ b ∈ bs, s.free b = 0 ∨ s.free b = 1 ∨ s.free b = 3 ∨ (s.free b = 2 ∧ b = hand)
  apart : bs.IsChain (NotBothFree s)
  binned : ∀ b i, b ∈ fl i ↔ b ∈ bs ∧ s.free b = 1 ∧ binForSize (s.size b) = i
  cached : ∀ p k, p ∈ cl k → ∃ b ∈ bs, p = b + hdrSize ∧ s.free b = 3 ∧ s.size b = 16 * (k.2 + 1)
  inCache : ∀ b ∈ bs, s.free b = 3 → ∃ k, b + hdrSize ∈ cl k
  delta : s.kmallocTotal - s.kfreeTotal = UInt64.ofNat (liveBytes s bs)

section

variable {s s' : Heap} {bs bs₁ bs₂ : List ℕ} {fl fl' : ℕ → List ℕ} {cl cl' : Cpu × ℕ → List ℕ}
  {hand hand' b c : ℕ}

section

variable (h : Layout s bs fl cl hand)
include h

theorem Layout.nodup : bs.Nodup :=
  h.tiles.nodup fun b _ => Nat.add_pos_left (by decide) (s.size b)

theorem Layout.start_le (hb : b ∈ bs) : heapStart ≤ b :=
  (h.tiles.bounds hb).1

theorem Layout.nonnull : 0 ∉ bs := by
  intro h₀
  exact absurd (h.start_le h₀) (by decide)

theorem Layout.notMem_inside (hb : b ∈ bs) {x : ℕ} (hx : x < s.size b) : b + hdrSize + x ∉ bs := by
  intro hin
  have hhdr : hdrSize = 48 := rfl
  have hdisj := h.tiles.disjoint hb hin (by omega)
  simp only [blockWidth] at hdisj
  omega

theorem Layout.brk_notMem : s.brk ∉ bs := by
  intro hin
  have hle := (h.tiles.bounds hin).2
  have hw : 0 < blockWidth s s.brk := Nat.add_pos_left (by decide) _
  omega

theorem Layout.length_lt (i : ℕ) : (fl i).length < s.brk := by
  have hsub : fl i ⊆ bs := fun b hb => ((h.binned b i).mp hb).1
  have hlen := ((h.bins.nodup i).subperm hsub).length_le
  have hall := h.tiles.length_le fun b _ => Nat.add_pos_left (by decide) (s.size b)
  have hstart : 0 < heapStart := by decide
  omega

end

theorem liveBytes_append (s : Heap) (bs₁ bs₂ : List ℕ) :
    liveBytes s (bs₁ ++ bs₂) = liveBytes s bs₁ + liveBytes s bs₂ := by
  rw [liveBytes, map_append, sum_append]
  rfl

theorem liveBytes_cons (s : Heap) (b : ℕ) (bs : List ℕ) :
    liveBytes s (b :: bs) = (if s.free b = 0 then s.size b else 0) + liveBytes s bs := by
  rw [liveBytes, map_cons, sum_cons]
  rfl

theorem liveBytes_congr (h : ∀ b ∈ bs, s'.free b = s.free b ∧ s'.size b = s.size b) :
    liveBytes s' bs = liveBytes s bs := by
  refine congrArg List.sum (map_congr_left fun b hb => ?_)
  rw [(h b hb).1, (h b hb).2]

theorem liveBytes_setFree (hnd : bs.Nodup) (hb : b ∈ bs) (y : ℕ) :
    liveBytes { s with free := update s.free b y } bs +
        (if s.free b = 0 then s.size b else 0) =
      liveBytes s bs + if y = 0 then s.size b else 0 := by
  obtain ⟨l₁, l₂, rfl⟩ := append_of_mem hb
  have hb₁ : b ∉ l₁ := fun h => (nodup_append.mp hnd).2.2 b h b (by simp) rfl
  have hb₂ : b ∉ l₂ := (nodup_cons.mp (nodup_append.mp hnd).2.1).1
  have hother : ∀ l : List ℕ, b ∉ l →
      liveBytes { s with free := update s.free b y } l = liveBytes s l := by
    intro l hbl
    refine liveBytes_congr fun c hc => ⟨?_, rfl⟩
    exact update_of_ne (ne_of_mem_of_not_mem hc hbl) ..
  rw [liveBytes_append, liveBytes_cons, liveBytes_append, liveBytes_cons, hother l₁ hb₁,
    hother l₂ hb₂]
  simp only [update_self]
  omega

theorem delta_alloc {m f : UInt64} {n x n' : ℕ} (h : m - f = UInt64.ofNat n) (hn : n' = n + x) :
    m + UInt64.ofNat x - f = UInt64.ofNat n' := by
  rw [hn, UInt64.ofNat_add, ← h]
  grind

theorem delta_free {m f : UInt64} {n x n' : ℕ} (h : m - f = UInt64.ofNat n) (hn : n' + x = n) :
    m - (f + UInt64.ofNat x) = UInt64.ofNat n' := by
  rw [← hn, UInt64.ofNat_add] at h
  grind

theorem Layout.setFree (h : Layout s bs fl cl hand) (hb : b ∈ bs) (y : ℕ)
    (hsize : s'.size = s.size) (hfree : s'.free = update s.free b y)
    (hlist : s'.list = s.list) (hbrk : s'.brk = s.brk) (hbins : s'.bins.Holds fl')
    (hcaches : s'.cache.Holds cl') (hy : y = 0 ∨ y = 1 ∨ y = 3 ∨ (y = 2 ∧ b = hand'))
    (hhand : ∀ c ∈ bs, c ≠ b → s.free c ≠ 2) (hapart : bs.IsChain (NotBothFree s'))
    (hflb : ∀ i, b ∈ fl' i ↔ y = 1 ∧ binForSize (s.size b) = i)
    (hfl : ∀ c i, c ≠ b → (c ∈ fl' i ↔ c ∈ fl i))
    (hclb : ∀ k, b + hdrSize ∈ cl' k → y = 3 ∧ s.size b = 16 * (k.2 + 1))
    (hclb' : y = 3 → ∃ k, b + hdrSize ∈ cl' k)
    (hcl : ∀ p k, p ≠ b + hdrSize → (p ∈ cl' k ↔ p ∈ cl k))
    (hdelta : s'.kmallocTotal - s'.kfreeTotal = UInt64.ofNat (liveBytes s' bs)) :
    Layout s' bs fl' cl' hand' := by
  have hfb : s'.free b = y := by rw [hfree, update_self]
  have hfc : ∀ c, c ≠ b → s'.free c = s.free c := by
    intro c hc
    rw [hfree, update_of_ne hc]
  refine ⟨?_, hbins, hcaches, ?_, ?_, ?_, ?_, hapart, ?_, ?_, ?_, hdelta⟩
  · rw [hlist]
    exact h.list
  · rw [hbrk]
    exact h.tiles.congr fun c _ => by rw [blockWidth, blockWidth, hsize]
  · rw [hbrk]
    exact h.brk_le
  · rw [hsize]
    exact h.sizes
  · intro c hc
    by_cases hcb : c = b
    · rw [hcb, hfb]
      exact hy
    · rw [hfc c hcb]
      rcases h.states c hc with hs | hs | hs | hs
      · exact Or.inl hs
      · exact Or.inr (Or.inl hs)
      · exact Or.inr (Or.inr (Or.inl hs))
      · exact absurd hs.1 (hhand c hc hcb)
  · intro c i
    rw [hsize]
    by_cases hcb : c = b
    · rw [hcb, hflb, hfb]
      exact ⟨fun hc => ⟨hb, hc⟩, fun hc => hc.2⟩
    · rw [hfl c i hcb, h.binned, hfc c hcb]
  · intro p k hp
    rw [hsize]
    by_cases hpb : p = b + hdrSize
    · obtain ⟨hy3, hsz⟩ := hclb k (hpb ▸ hp)
      exact ⟨b, hb, hpb, hfb.trans hy3, hsz⟩
    · obtain ⟨c, hc, hpc, hf3, hsz⟩ := h.cached p k ((hcl p k hpb).mp hp)
      refine ⟨c, hc, hpc, ?_, hsz⟩
      rw [hfc c (fun hcb => hpb (hcb ▸ hpc)), hf3]
  · intro c hc hf3
    by_cases hcb : c = b
    · rw [hcb] at hf3 ⊢
      exact hclb' (hfb.symm.trans hf3)
    · rw [hfc c hcb] at hf3
      obtain ⟨k, hk⟩ := h.inCache c hc hf3
      refine ⟨k, (hcl _ k ?_).mpr hk⟩
      exact fun heq => hcb (Nat.add_right_cancel heq)

theorem apart_setFree (h : bs.IsChain (NotBothFree s)) {y : ℕ} (hy : y ≠ 1)
    (hfree : s'.free = update s.free b y) : bs.IsChain (NotBothFree s') := by
  have hone : ∀ c, s'.free c = 1 → s.free c = 1 := by
    intro c hc
    rw [hfree] at hc
    by_cases hcb : c = b
    · rw [hcb, update_self] at hc
      exact absurd hc hy
    · rwa [update_of_ne hcb] at hc
  exact h.imp fun a c hac hboth => hac ⟨hone a hboth.1, hone c hboth.2⟩

theorem apart_around : (bs₁ ++ b :: bs₂).IsChain (NotBothFree s) ↔
    bs₁.IsChain (NotBothFree s) ∧ bs₂.IsChain (NotBothFree s) ∧
      (∀ p ∈ bs₁.getLast?, NotBothFree s p b) ∧ ∀ n ∈ bs₂.head?, NotBothFree s b n := by
  rw [isChain_append, isChain_cons]
  simp only [List.head?_cons, Option.mem_def, Option.some.injEq, forall_eq']
  tauto

theorem apart_congr (h : bs.IsChain (NotBothFree s)) (hfree : ∀ c ∈ bs, s'.free c = s.free c) :
    bs.IsChain (NotBothFree s') := by
  refine h.imp_of_mem_imp fun a c ha hc hac => ?_
  rwa [NotBothFree, hfree a ha, hfree c hc]

theorem Layout.not_two (h : Layout s bs fl cl 0) (hb : b ∈ bs) : s.free b ≠ 2 := by
  intro h2
  rcases h.states b hb with hs | hs | hs | ⟨-, hs⟩
  · omega
  · omega
  · omega
  · exact h.nonnull (hs ▸ hb)

variable {k : Cpu × ℕ}

theorem Layout.free_of_cached (h : Layout s bs fl cl hand)
    (hk : b + hdrSize ∈ cl k) : s.free b = 3 := by
  obtain ⟨c, -, hbc, hc3, -⟩ := h.cached _ k hk
  rwa [← Nat.add_right_cancel hbc] at hc3

theorem Layout.notMem_bin (h : Layout s bs fl cl hand) (hb : s.free b ≠ 1) (i : ℕ) : b ∉ fl i :=
  fun hi => hb ((h.binned b i).mp hi).2.1

theorem Layout.mem_bin (h : Layout s bs fl cl hand) (hb : b ∈ bs) (hb1 : s.free b = 1) :
    b ∈ fl (binForSize (s.size b)) :=
  (h.binned b _).mpr ⟨hb, hb1, rfl⟩

theorem Layout.mem_erase (h : Layout s bs fl cl hand) (hb : b ∈ bs) (hb1 : s.free b = 1)
    (c i : ℕ) : c ∈ update fl (binForSize (s.size b)) ((fl (binForSize (s.size b))).erase b) i ↔
      c ∈ fl i ∧ c ≠ b :=
  h.bins.apart.mem_erase (h.bins.nodup _) (h.mem_bin hb hb1)

section

variable (h : Layout s bs fl cl 0)
include h

theorem Layout.uncache (hk : s.cache.head k ≠ 0) :
    ∃ b ∈ bs, s.cache.head k = b + hdrSize ∧ s.free b = 3 ∧ s.size b = 16 * (k.2 + 1) ∧
      ∃ cl', Layout { s with
        cache := s.cache.pop k
        free := update s.free b 0
        kmallocTotal := s.kmallocTotal + UInt64.ofNat (s.size b) } bs fl cl' 0 := by
  obtain ⟨rest, hrest⟩ := h.caches.head_eq hk
  have hmem : s.cache.head k ∈ cl k := by
    rw [hrest]
    exact mem_cons_self ..
  obtain ⟨b, hb, hbk, hb3, hsz⟩ := h.cached _ k hmem
  have hb1 : s.free b ≠ 1 := by omega
  have hnotin : s.cache.head k ∉ rest := by
    have hnd := h.caches.nodup k
    rw [hrest] at hnd
    exact (nodup_cons.mp hnd).1
  have hout : ∀ k', b + hdrSize ∉ update cl k rest k' := by
    intro k' hin
    by_cases hkk : k' = k
    · rw [hkk, update_self, ← hbk] at hin
      exact hnotin hin
    · rw [update_of_ne hkk, ← hbk] at hin
      exact hkk (h.caches.apart hin hmem)
  refine ⟨b, hb, hbk, hb3, hsz, update cl k rest, ?_⟩
  refine h.setFree hb 0 rfl rfl rfl rfl h.bins (h.caches.pop hrest) (Or.inl rfl)
    (fun c hc _ => h.not_two hc) (apart_setFree h.apart (by decide) rfl) ?_ (fun _ _ _ => Iff.rfl)
    (fun k' hin => absurd hin (hout k')) (fun h₃ => absurd h₃ (by decide)) ?_ ?_
  · exact fun i => iff_of_false (h.notMem_bin hb1 i) fun hi => absurd hi.1 (by decide)
  · intro p k' hp
    by_cases hkk : k' = k
    · rw [hkk, update_self, hrest, mem_cons, hbk]
      exact ⟨Or.inr, fun hin => hin.resolve_left hp⟩
    · rw [update_of_ne hkk]
  · have hsum := liveBytes_setFree (s := s) h.nodup hb 0
    rw [if_neg (by omega), if_pos rfl, Nat.add_zero] at hsum
    exact delta_alloc h.delta hsum

theorem Layout.take (hb : b ∈ bs) (hb1 : s.free b = 1) {f : FreeBins}
    (hf : f.Holds (update fl (binForSize (s.size b))
      ((fl (binForSize (s.size b))).erase b))) :
    ∃ fl', Layout { s with
      bins := f
      free := update s.free b 0
      kmallocTotal := s.kmallocTotal + UInt64.ofNat (s.size b) } bs fl' cl 0 := by
  have hmem := h.mem_erase hb hb1
  refine ⟨_, h.setFree hb 0 rfl rfl rfl rfl hf h.caches (Or.inl rfl) (fun c hc _ => h.not_two hc)
    (apart_setFree h.apart (by decide) rfl) (fun i => ?_) (fun c i hc => ?_) (fun k hk => ?_)
    (fun h₃ => absurd h₃ (by decide)) (fun _ _ _ => Iff.rfl) ?_⟩
  · rw [hmem]
    exact ⟨fun hi => absurd rfl hi.2, fun hi => absurd hi.1 (by decide)⟩
  · rw [hmem]
    exact and_iff_left hc
  · have hb3 := h.free_of_cached hk
    omega
  · have hsum := liveBytes_setFree (s := s) h.nodup hb 0
    rw [if_neg (by omega), if_pos rfl, Nat.add_zero] at hsum
    exact delta_alloc h.delta hsum

theorem Layout.cacheBlock (hb : b ∈ bs) (hb0 : s.free b = 0)
    (hk : s.size b = 16 * (k.2 + 1)) (hlim : s.cache.count k < smallCacheLimit) :
    ∃ cl', Layout { s with
      cache := s.cache.push k (b + hdrSize)
      free := update s.free b 3
      kfreeTotal := s.kfreeTotal + UInt64.ofNat (s.size b) } bs fl cl' 0 := by
  have hout : ∀ k', b + hdrSize ∉ cl k' := by
    intro k' hin
    have hb3 := h.free_of_cached hin
    omega
  have hp₀ : b + hdrSize ≠ 0 := by simp [hdrSize]
  refine ⟨_, h.setFree hb 3 rfl rfl rfl rfl h.bins (h.caches.push k hout hp₀ hlim)
    (Or.inr (Or.inr (Or.inl rfl))) (fun c hc _ => h.not_two hc)
    (apart_setFree h.apart (by decide) rfl) ?_ (fun _ _ _ => Iff.rfl) ?_ ?_ ?_ ?_⟩
  · exact fun i => iff_of_false (h.notMem_bin (by omega) i) fun hi => absurd hi.1 (by decide)
  · intro k' hin
    rcases mem_update_cons.mp hin with hin | ⟨-, rfl⟩
    · exact absurd hin (hout k')
    · exact ⟨rfl, hk⟩
  · exact fun _ => ⟨k, mem_update_cons.mpr (Or.inr ⟨rfl, rfl⟩)⟩
  · intro p k' hp
    rw [mem_update_cons]
    exact ⟨fun hin => hin.resolve_right fun hin => hp hin.1, Or.inl⟩
  · have hsum := liveBytes_setFree (s := s) h.nodup hb 3
    rw [if_pos hb0, if_neg (by decide), Nat.add_zero] at hsum
    exact delta_free h.delta hsum

theorem Layout.hold (hb : b ∈ bs) (hb0 : s.free b = 0) :
    Layout { s with
      free := update s.free b 2
      kfreeTotal := s.kfreeTotal + UInt64.ofNat (s.size b) } bs fl cl b := by
  refine h.setFree hb 2 rfl rfl rfl rfl h.bins h.caches (Or.inr (Or.inr (Or.inr ⟨rfl, rfl⟩)))
    (fun c hc _ => h.not_two hc) (apart_setFree h.apart (by decide) rfl) ?_
    (fun _ _ _ => Iff.rfl) ?_ (fun h₃ => absurd h₃ (by decide)) (fun _ _ _ => Iff.rfl) ?_
  · exact fun i => iff_of_false (h.notMem_bin (by omega) i) fun hi => absurd hi.1 (by decide)
  · intro k hk
    have hb3 := h.free_of_cached hk
    omega
  · have hsum := liveBytes_setFree (s := s) h.nodup hb 2
    rw [if_pos hb0, if_neg (by decide), Nat.add_zero] at hsum
    exact delta_free h.delta hsum

end

theorem Layout.free_hand (h : Layout s bs fl cl hand) (hc : c ∈ bs) (hne : c ≠ hand) :
    s.free c ≠ 2 := by
  intro h2
  rcases h.states c hc with hs | hs | hs | ⟨-, hs⟩
  · omega
  · omega
  · omega
  · exact hne hs

theorem Layout.release (h : Layout s (bs₁ ++ b :: bs₂) fl cl b) (hb2 : s.free b = 2)
    (hprev : ∀ p ∈ bs₁.getLast?, s.free p ≠ 1) (hnext : ∀ n ∈ bs₂.head?, s.free n ≠ 1) :
    ∃ fl', Layout (freeInsert { s with free := update s.free b 1 } b)
      (bs₁ ++ b :: bs₂) fl' cl 0 := by
  have hb : b ∈ bs₁ ++ b :: bs₂ := by simp
  have hb₀ : b ≠ 0 := ne_of_mem_of_not_mem hb h.nonnull
  have hout : ∀ i, b ∉ fl i := h.notMem_bin (by omega)
  refine ⟨_, h.setFree hb 1 rfl rfl rfl rfl
    (h.bins.insert (binForSize (s.size b)) hout hb₀) h.caches (Or.inr (Or.inl rfl))
    (fun c hc hcb => h.free_hand hc hcb) ?_ ?_ ?_ ?_ (fun h₃ => absurd h₃ (by decide))
    (fun _ _ _ => Iff.rfl) ?_⟩
  · obtain ⟨h₁, h₂, -, -⟩ := apart_around.mp h.apart
    obtain ⟨-, hnd₂, hdisj⟩ := nodup_append.mp h.nodup
    have hne₁ : ∀ c ∈ bs₁, c ≠ b := fun c hc => hdisj c hc b (mem_cons_self ..)
    have hne₂ : ∀ c ∈ bs₂, c ≠ b := fun c hc => ne_of_mem_of_not_mem hc (nodup_cons.mp hnd₂).1
    refine apart_around.mpr ⟨apart_congr h₁ fun c hc => update_of_ne (hne₁ c hc) ..,
      apart_congr h₂ fun c hc => update_of_ne (hne₂ c hc) .., fun p hp hboth => ?_,
      fun n hn hboth => ?_⟩
    · exact hprev p hp ((update_of_ne (hne₁ p (mem_of_getLast? hp)) ..).symm.trans
        hboth.1)
    · exact hnext n hn ((update_of_ne (hne₂ n (mem_of_head? hn)) ..).symm.trans
        hboth.2)
  · intro i
    rw [mem_update_cons]
    constructor
    · rintro (hin | ⟨-, rfl⟩)
      · exact absurd hin (hout i)
      · exact ⟨rfl, rfl⟩
    · rintro ⟨-, rfl⟩
      exact Or.inr ⟨rfl, rfl⟩
  · intro c i hc
    rw [mem_update_cons]
    exact ⟨fun hin => hin.resolve_right fun hin => hc hin.1, Or.inl⟩
  · intro k hk
    have hb3 := h.free_of_cached hk
    omega
  · have hsum := liveBytes_setFree (s := s) h.nodup hb 1
    rw [if_neg (by omega), if_neg (by decide), Nat.add_zero, Nat.add_zero] at hsum
    exact h.delta.trans (congrArg UInt64.ofNat hsum.symm)

theorem Layout.notMem_old (old : List ℕ) (h : Layout s (bs₁ ++ (old ++ bs₂)) fl cl hand)
    (hc : c ∈ bs₁ ++ bs₂) : c ∉ old := by
  have hnd := (perm_append_comm_assoc bs₁ old bs₂).nodup_iff.mp h.nodup
  exact fun hold => (nodup_append.mp hnd).2.2 c hold c hc rfl

theorem Layout.replace (old new : List ℕ) (x : ℕ) (h : Layout s (bs₁ ++ (old ++ bs₂)) fl cl hand)
    (hlist : s'.list.Holds (bs₁ ++ (new ++ bs₂))) (hbins : s'.bins.Holds fl')
    (hcache : s'.cache = s.cache)
    (htiles : Tiles (blockWidth s') heapStart (bs₁ ++ (new ++ bs₂)) s'.brk)
    (hmax : s'.brk ≤ heapMax) (hsize : ∀ d ∈ bs₁ ++ bs₂, s'.size d = s.size d)
    (hfree : ∀ d ∈ bs₁ ++ bs₂, s'.free d = s.free d)
    (hhand : ∀ d ∈ bs₁ ++ bs₂, s.free d = 2 → d = hand') (hold : ∀ d ∈ old, s.free d ≠ 3)
    (hnew : ∀ d ∈ new, (0 < s'.size d ∧ 16 ∣ s'.size d) ∧
      (s'.free d = 0 ∨ s'.free d = 1 ∨ (s'.free d = 2 ∧ d = hand')))
    (hapart : (bs₁ ++ (new ++ bs₂)).IsChain (NotBothFree s'))
    (hfl : ∀ d i, d ∈ fl' i ↔ (d ∈ fl i ∧ d ∉ old) ∨
      (d ∈ new ∧ s'.free d = 1 ∧ binForSize (s'.size d) = i))
    (hlive : liveBytes s' new = liveBytes s old + x)
    (hdelta : s'.kmallocTotal - s'.kfreeTotal =
      s.kmallocTotal + UInt64.ofNat x - s.kfreeTotal) :
    Layout s' (bs₁ ++ (new ++ bs₂)) fl' cl hand' := by
  have hmem : ∀ l d, d ∈ bs₁ ++ (l ++ bs₂) ↔ d ∈ l ∨ d ∈ bs₁ ++ bs₂ := fun l d =>
    (perm_append_comm_assoc bs₁ l bs₂).mem_iff.trans mem_append
  have hin : ∀ d ∈ bs₁ ++ bs₂, d ∈ bs₁ ++ (old ++ bs₂) := fun d hd => (hmem old d).mpr (.inr hd)
  refine ⟨hlist, hbins, hcache ▸ h.caches, htiles, hmax, fun d hd => ?_, fun d hd => ?_, hapart,
    fun d i => ?_, fun p k hp => ?_, fun d hd hd3 => ?_, ?_⟩
  · rcases (hmem new d).mp hd with hd | hd
    · exact (hnew d hd).1
    · rw [hsize d hd]
      exact h.sizes d (hin d hd)
  · rcases (hmem new d).mp hd with hd | hd
    · have hs := (hnew d hd).2
      tauto
    · have hs := h.states d (hin d hd)
      have hh := hhand d hd
      rw [hfree d hd]
      tauto
  · rw [hfl, hmem]
    constructor
    · rintro (⟨hd, hout⟩ | ⟨hd, hd1⟩)
      · obtain ⟨hd, hd1, hi⟩ := (h.binned d i).mp hd
        have hd := ((hmem old d).mp hd).resolve_left hout
        exact ⟨.inr hd, (hfree d hd).trans hd1, by rw [hsize d hd, hi]⟩
      · exact ⟨.inl hd, hd1⟩
    · rintro ⟨hd | hd, hd1⟩
      · exact .inr ⟨hd, hd1⟩
      · rw [hfree d hd, hsize d hd] at hd1
        exact .inl ⟨(h.binned d i).mpr ⟨hin d hd, hd1⟩, h.notMem_old old hd⟩
  · obtain ⟨d, hd, hpd, hd3, hsz⟩ := h.cached p k hp
    have hd := ((hmem old d).mp hd).resolve_left fun ho => hold d ho hd3
    exact ⟨d, (hmem new d).mpr (.inr hd), hpd, (hfree d hd).trans hd3, (hsize d hd).trans hsz⟩
  · rcases (hmem new d).mp hd with hd | hd
    · have hs := (hnew d hd).2
      omega
    · exact h.inCache d (hin d hd) ((hfree d hd).symm.trans hd3)
  · rw [hdelta]
    refine delta_alloc h.delta ?_
    have hsame : ∀ l ⊆ bs₁ ++ bs₂, liveBytes s' l = liveBytes s l := fun l hl =>
      liveBytes_congr fun d hd => ⟨hfree d (hl hd), hsize d (hl hd)⟩
    rw [liveBytes_append, liveBytes_append, liveBytes_append, liveBytes_append, hlive,
      hsame bs₁ (subset_append_left ..), hsame bs₂ (subset_append_right ..)]
    omega

theorem Layout.merge (h : Layout s (bs₁ ++ b :: c :: bs₂) fl cl hand) (hfree : s'.free = s.free)
    (hsize : s'.size = update s.size b (s.size b + (hdrSize + s.size c)))
    (hlist : s'.list = s.list.absorb b c) (hbrk : s'.brk = s.brk) (hcache : s'.cache = s.cache)
    (hdelta : s'.kmallocTotal - s'.kfreeTotal = s.kmallocTotal - s.kfreeTotal)
    (hb : s.free b = 1 ∨ s.free b = 2) (hc : s.free c = 1 ∨ s.free c = 2)
    (hhand : ∀ d ∈ bs₁ ++ b :: bs₂, s.free d = 2 → d = hand') (hbins : s'.bins.Holds fl')
    (hfl : ∀ d i, d ∈ fl' i ↔ (d ∈ fl i ∧ d ∉ [b, c]) ∨
      (d ∈ [b] ∧ s'.free d = 1 ∧ binForSize (s'.size d) = i))
    (hnext : s.free b = 1 → ∀ n ∈ bs₂.head?, s.free n ≠ 1) :
    Layout s' (bs₁ ++ b :: bs₂) fl' cl hand' := by
  have hsb : s'.size b = s.size b + (hdrSize + s.size c) := by rw [hsize, update_self]
  have hso : ∀ d ∈ bs₁ ++ bs₂, s'.size d = s.size d := fun d hd => by
    rw [hsize, update_of_ne (ne_of_not_mem_cons (h.notMem_old [b, c] hd))]
  have hsub : bs₁ ++ bs₂ ⊆ bs₁ ++ b :: bs₂ := by simp
  have hwb := h.sizes b (by simp)
  have hwc := h.sizes c (by simp)
  refine h.replace [b, c] [b] 0 (hlist ▸ h.list.absorb h.nodup h.nonnull) hbins hcache ?_
    (hbrk ▸ h.brk_le) hso (fun d _ => by rw [hfree]) (fun d hd => hhand d (hsub hd)) ?_ ?_ ?_ hfl ?_
    (by simpa using hdelta)
  · rw [hbrk]
    refine h.tiles.join ?_ fun d hd => by rw [blockWidth, blockWidth, hso d hd]
    rw [blockWidth, blockWidth, blockWidth, hsb]
    omega
  · simp only [mem_cons, not_mem_nil, or_false, forall_eq_or_imp, forall_eq]
    omega
  · refine forall_mem_singleton.mpr ⟨?_, ?_⟩
    · rw [hsb]
      exact ⟨by omega, dvd_add hwb.2 (dvd_add (by decide) hwc.2)⟩
    · rw [hfree]
      exact hb.elim (fun hb => .inr (.inl hb)) fun hb => .inr (.inr ⟨hb, hhand b (by simp) hb⟩)
  · obtain ⟨h₁, h₂, hprev, -⟩ := apart_around.mp h.apart
    refine apart_congr (apart_around.mpr ⟨h₁, h₂.tail, hprev, fun n hn hboth => ?_⟩) fun d _ => by
      rw [hfree]
    exact hnext hboth.1 n hn hboth.2
  · simp only [liveBytes_cons, hfree]
    rw [if_neg (by omega), if_neg (by omega), if_neg (by omega)]
    rfl

theorem Layout.extend (h : Layout s (bs₁ ++ [b]) fl cl 0) {need : ℕ} (hb : s.free b = 1)
    (h16 : 16 ∣ need) (hmax : s.brk + need ≤ heapMax) (hfree : s'.free = s.free)
    (hsize : s'.size = update s.size b (s.size b + need)) (hlist : s'.list = s.list)
    (hbrk : s'.brk = s.brk + need) (hcache : s'.cache = s.cache)
    (hdelta : s'.kmallocTotal - s'.kfreeTotal = s.kmallocTotal - s.kfreeTotal)
    (hbins : s'.bins.Holds fl')
    (hfl : ∀ d i, d ∈ fl' i ↔ (d ∈ fl i ∧ d ∉ [b]) ∨
      (d ∈ [b] ∧ s'.free d = 1 ∧ binForSize (s'.size d) = i)) :
    Layout s' (bs₁ ++ [b]) fl' cl 0 := by
  have hsb : s'.size b = s.size b + need := by rw [hsize, update_self]
  have hso : ∀ d ∈ bs₁ ++ [], s'.size d = s.size d := fun d hd => by
    rw [hsize, update_of_ne (ne_of_not_mem_cons (h.notMem_old [b] hd))]
  have hwb := h.sizes b (by simp)
  refine h.replace [b] [b] 0 (hlist ▸ h.list) hbins hcache ?_ (hbrk ▸ hmax) hso
    (fun d _ => by rw [hfree]) (fun d hd hd2 => absurd hd2 (h.not_two (mem_append_left _ ?_))) ?_ ?_
    (apart_congr h.apart fun d _ => by rw [hfree]) hfl ?_ (by simpa using hdelta)
  · rw [hbrk]
    obtain ⟨m, h₁, rfl, h₂⟩ := tiles_append.mp h.tiles
    refine tiles_append.mpr ⟨b, h₁.congr fun d hd => ?_, rfl, ?_⟩
    · rw [blockWidth, blockWidth, hso d (mem_append_left _ hd)]
    · rw [← h₂]
      show b + blockWidth s' b = b + blockWidth s b + need
      rw [blockWidth, blockWidth, hsb]
      omega
  · simpa using hd
  · exact forall_mem_singleton.mpr (by omega)
  · refine forall_mem_singleton.mpr ⟨?_, .inr (.inl (by rw [hfree, hb]))⟩
    rw [hsb]
    exact ⟨by omega, dvd_add hwb.2 h16⟩
  · simp only [liveBytes_cons, hfree]
    rw [if_neg (by omega), if_neg (by omega)]
    rfl

theorem Layout.append (h : Layout s bs fl cl 0) {need : ℕ} (hlast : ∀ p ∈ bs.getLast?, s.free p ≠ 1)
    (h16 : 16 ∣ need) (hneed : hdrSize < need) (hmax : s.brk + need ≤ heapMax)
    (hsize : s'.size = update s.size s.brk (need - hdrSize))
    (hfree : s'.free = update s.free s.brk 1) (hlist : s'.list.Holds (bs ++ [s.brk]))
    (hbrk : s'.brk = s.brk + need) (hcache : s'.cache = s.cache)
    (hdelta : s'.kmallocTotal - s'.kfreeTotal = s.kmallocTotal - s.kfreeTotal)
    (hbins : s'.bins.Holds fl')
    (hfl : ∀ d i, d ∈ fl' i ↔
      d ∈ fl i ∨ (d = s.brk ∧ i = binForSize (need - hdrSize))) :
    Layout s' (bs ++ [s.brk]) fl' cl 0 := by
  have hne : ∀ d ∈ bs, d ≠ s.brk := fun d hd => ne_of_mem_of_not_mem hd h.brk_notMem
  have hsb : s'.size s.brk = need - hdrSize := by rw [hsize, update_self]
  have hso : ∀ d ∈ bs, s'.size d = s.size d := fun d hd => by
    rw [hsize, update_of_ne (hne d hd)]
  have hfb : s'.free s.brk = 1 := by rw [hfree, update_self]
  have hfo : ∀ d ∈ bs, s'.free d = s.free d := fun d hd => by
    rw [hfree, update_of_ne (hne d hd)]
  have h' : Layout s (bs ++ ([] ++ [])) fl cl 0 := by rwa [append_nil, append_nil]
  have hnil : ∀ d ∈ bs ++ [], d ∈ bs := fun d hd => by simpa using hd
  refine h'.replace [] [s.brk] 0 hlist hbins hcache ?_ (hbrk ▸ hmax) (fun d hd => hso d (hnil d hd))
    (fun d hd => hfo d (hnil d hd)) (fun d hd hd2 => absurd hd2 (h.not_two (hnil d hd)))
    (by simp) ?_ ?_ (fun d i => ?_) ?_ (by simpa using hdelta)
  · rw [hbrk]
    refine tiles_append.mpr ⟨s.brk, h.tiles.congr fun d hd => ?_, rfl, ?_⟩
    · rw [blockWidth, blockWidth, hso d hd]
    · show s.brk + blockWidth s' s.brk = _
      rw [blockWidth, hsb]
      omega
  · refine forall_mem_singleton.mpr ⟨?_, .inr (.inl hfb)⟩
    rw [hsb]
    exact ⟨by omega, Nat.dvd_sub h16 (by decide)⟩
  · refine isChain_append.mpr ⟨apart_congr h.apart hfo, isChain_singleton _, ?_⟩
    intro p hp n _ hboth
    rw [hfo p (mem_of_getLast? hp)] at hboth
    exact hlast p hp hboth.1
  · rw [hfl, mem_singleton, and_iff_left (not_mem_nil)]
    refine or_congr_right (and_congr_right fun hd => ?_)
    rw [hd, hfb, hsb, eq_comm, eq_self, true_and]
  · rw [liveBytes_cons, if_neg (by omega)]
    rfl

theorem Layout.split (h : Layout s (bs₁ ++ b :: bs₂) fl cl 0) {size : ℕ} (hb : s.free b = 1)
    (h16 : 16 ∣ size) (hpos : 0 < size) (hfit : s.size b ≥ size + minSplit)
    (hsize : s'.size = update (update s.size (b + hdrSize + size)
      (s.size b - size - hdrSize)) b size)
    (hfree : s'.free = update (update s.free (b + hdrSize + size) 1) b 0)
    (hlist : s'.list = s.list.insertAfter b (b + hdrSize + size)) (hbrk : s'.brk = s.brk)
    (hcache : s'.cache = s.cache)
    (hdelta : s'.kmallocTotal - s'.kfreeTotal =
      s.kmallocTotal + UInt64.ofNat size - s.kfreeTotal)
    (hbins : s'.bins.Holds fl')
    (hfl : ∀ d i, d ∈ fl' i ↔ (d ∈ fl i ∧ d ≠ b) ∨
      (d = b + hdrSize + size ∧ i = binForSize (s.size b - size - hdrSize))) :
    Layout s' (bs₁ ++ b :: (b + hdrSize + size) :: bs₂) fl' cl 0 := by
  have hmin : minSplit = hdrSize + 16 := rfl
  have hhdr : hdrSize = 48 := rfl
  have hbin : b ∈ bs₁ ++ b :: bs₂ := by simp
  have hwb := h.sizes b hbin
  have htb : b + hdrSize + size ≠ b := by omega
  have htout : b + hdrSize + size ∉ bs₁ ++ b :: bs₂ := h.notMem_inside hbin (by omega)
  generalize htdef : b + hdrSize + size = t at *
  have hsub : bs₁ ++ bs₂ ⊆ bs₁ ++ b :: bs₂ := by simp
  have hne : ∀ d ∈ bs₁ ++ bs₂, d ≠ b ∧ d ≠ t := fun d hd =>
    ⟨ne_of_not_mem_cons (h.notMem_old [b] hd), ne_of_mem_of_not_mem (hsub hd) htout⟩
  have hsb : s'.size b = size := by rw [hsize, update_self]
  have hst : s'.size t = s.size b - size - hdrSize := by
    rw [hsize, update_of_ne htb, update_self]
  have hso : ∀ d ∈ bs₁ ++ bs₂, s'.size d = s.size d := fun d hd => by
    rw [hsize, update_of_ne (hne d hd).1, update_of_ne (hne d hd).2]
  have hfb : s'.free b = 0 := by rw [hfree, update_self]
  have hft : s'.free t = 1 := by rw [hfree, update_of_ne htb, update_self]
  have hfo : ∀ d ∈ bs₁ ++ bs₂, s'.free d = s.free d := fun d hd => by
    rw [hfree, update_of_ne (hne d hd).1, update_of_ne (hne d hd).2]
  have htiles : Tiles (blockWidth s') heapStart (bs₁ ++ b :: t :: bs₂) s.brk := by
    have ht : t = b + blockWidth s' b := by
      rw [blockWidth, hsb]
      omega
    have hw : blockWidth s b = blockWidth s' b + blockWidth s' t := by
      rw [blockWidth, blockWidth, blockWidth, hsb, hst]
      omega
    rw [ht] at hw ⊢
    exact h.tiles.split hw rfl rfl fun d hd => by rw [blockWidth, blockWidth, hso d hd]
  have hnd : (bs₁ ++ b :: t :: bs₂).Nodup :=
    htiles.nodup fun d _ => Nat.add_pos_left (by decide) _
  have hnull : 0 ∉ bs₁ ++ b :: t :: bs₂ := by
    intro h₀
    exact absurd (htiles.bounds h₀).1 (by decide)
  refine h.replace [b] [b, t] size (hlist ▸ h.list.insertAfter hnd hnull) hbins hcache
    (hbrk ▸ htiles) (hbrk ▸ h.brk_le) hso hfo (fun d hd hd2 => absurd hd2 (h.not_two (hsub hd)))
    (forall_mem_singleton.mpr (by omega)) ?_ ?_ (fun d i => ?_) ?_ hdelta
  · refine forall_mem_cons.mpr ⟨⟨?_, .inl hfb⟩, forall_mem_singleton.mpr ⟨?_, .inr (.inl hft)⟩⟩
    · exact hsb ▸ ⟨hpos, h16⟩
    · rw [hst]
      exact ⟨by omega, Nat.dvd_sub (Nat.dvd_sub hwb.2 h16) (by decide)⟩
  · obtain ⟨h₁, h₂, -, hn⟩ := apart_around.mp h.apart
    have h₁' := apart_congr h₁ fun d hd => hfo d (mem_append_left _ hd)
    have h₂' := apart_congr h₂ fun d hd => hfo d (mem_append_right _ hd)
    refine apart_around.mpr ⟨h₁', isChain_cons.mpr ⟨fun n hn' hboth => ?_, h₂'⟩,
      fun p _ hboth => ?_, fun n _ hboth => ?_⟩
    · rw [hfo n (mem_append_right _ (mem_of_head? hn'))] at hboth
      exact hn n hn' ⟨hb, hboth.2⟩
    · exact absurd (hfb.symm.trans hboth.2) (by decide)
    · exact absurd (hfb.symm.trans hboth.1) (by decide)
  · rw [hfl, mem_singleton, mem_cons, mem_singleton]
    refine or_congr_right ⟨?_, ?_⟩
    · rintro ⟨rfl, rfl⟩
      exact ⟨.inr rfl, hft, by rw [hst]⟩
    · rintro ⟨rfl | rfl, hd1, hi⟩
      · exact absurd (hfb.symm.trans hd1) (by decide)
      · exact ⟨rfl, by rw [← hi, hst]⟩
  · simp only [liveBytes_cons, hfb, hft, hsb, hb]
    simp [liveBytes]

end

end Kyronix.Mm
