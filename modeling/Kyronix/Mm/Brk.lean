import Kyronix.Mm.Munmap

/-! The break of the heap. `brk` maps pages first, then replaces the mapping of the heap, and looks
at neither result. -/
namespace Kyronix.Mm

open Lib Word Lib.Run Lib.Intervals Function List

variable {n : ℕ}

section

variable {lo hi va x : UInt64}

theorem pageUp_mono {y : UInt64} (h : x ≤ y) (hy : y ≤ userLimit) : pageUp x ≤ pageUp y := by
  have hxy := UInt64.le_iff_toNat_le.mp h
  rw [UInt64.le_iff_toNat_le, toNat_pageUp (h.trans hy), toNat_pageUp hy]
  omega

theorem mem_pagesBetween_iff (hlo : lo.toNat % 4096 = 0) (hhi : hi.toNat % 4096 = 0) :
    va ∈ pagesBetween lo hi ↔ va.toNat % 4096 = 0 ∧ lo ≤ va ∧ va < hi := by
  constructor
  · intro h
    refine ⟨pagesBetween_aligned hlo va h, ?_⟩
    unfold pagesBetween at h
    split at h
    · next hlt =>
      obtain ⟨i, hi', rfl⟩ := mem_map.mp h
      have hi' := mem_range.mp hi'
      have hlt' := UInt64.lt_iff_toNat_lt.mp hlt
      have hb := hi.toNat_lt
      rw [UInt64.toNat_sub_of_le _ _ hlt.le] at hi'
      rw [UInt64.le_iff_toNat_le, UInt64.lt_iff_toNat_lt, UInt64.toNat_add, UInt64.toNat_ofNat']
      omega
    · exact absurd h not_mem_nil
  · rintro ⟨hal, h₁, h₂⟩
    exact mem_pagesBetween hlo hhi hal h₁ h₂

end

section

variable {s s₀ : Mem n} {p : ℕ} {old new : UInt64} {done rest : List UInt64}

theorem brkPages_cases (hold : old.toNat % 4096 = 0) (hnew : new.toNat % 4096 = 0)
    (hl : pagesBetween old new = done ++ rest) (hm : MappedSoFar s₀ p done s)
    (hthere : ∀ va ∈ done, ∃ f, s.entry (p, va) = some ⟨f, vmmUdata⟩) :
    (brkPages p old rest s).1 = false ∧ SameMaps s₀ (brkPages p old rest s).2 ∨
      (brkPages p old rest s).1 = true ∧
        MappedSoFar s₀ p (done ++ rest) (brkPages p old rest s).2 ∧
        ∀ va ∈ done ++ rest, ∃ f, (brkPages p old rest s).2.entry (p, va) = some ⟨f, vmmUdata⟩ := by
  induction rest generalizing done s with
  | nil =>
    refine .inr ⟨rfl, ?_, ?_⟩
    · rwa [append_nil]
    · rwa [append_nil]
  | cons va rest ih =>
    have hva : old ≤ va ∧ va < new :=
      ((mem_pagesBetween_iff hold hnew).mp (by rw [hl]; simp)).2
    -- the pages before this one are those to be taken back
    have hback : pagesBetween old va = done := by
      rw [pagesBetween, if_pos (hva.1.trans_lt hva.2)] at hl
      rw [pagesBetween_eq old va hva.1]
      exact pageRange_split hl
    have hundo : ∀ s₁ : Mem n, MappedSoFar s₀ p done s₁ →
        SameMaps s₀ ((pagesBetween old va).foldl (freePage p) s₁) := by
      intro s₁ h₁
      rw [hback]
      exact h₁.undo (foldl_freePage p done s₁) fun _ _ => rfl
    rw [brkPages]
    have hal := sameMaps_pmmAllocZeroed s
    rcases ha : pmmAllocZeroed s with ⟨_ | f, s₁⟩ <;> rw [ha] at hal
    · exact .inl ⟨rfl, hundo _ (hm.same hal)⟩
    dsimp only
    rcases hv : vmmMap s₁ p va f vmmUdata with ⟨_ | _, s₂⟩
    · have hsame := (vmmMap_refused hv).trans (sameMaps_pmmFree s₂ f)
      exact .inl ⟨rfl, hundo _ ((hm.same hal).same hsame)⟩
    · have hmap := vmmMap_mapped hv
      have hl' : pagesBetween old new = (done ++ [va]) ++ rest := by simpa using hl
      have hnext := ih (s := s₂) hl' ((hm.same hal).map hmap) (fun vb hvb => by
          rw [hmap.entry, update_apply]
          split
          · exact ⟨f, rfl⟩
          · next hne =>
            rcases mem_append.mp hvb with hvb | hvb
            · rw [hal.entry]
              exact hthere vb hvb
            · exact absurd (by rw [mem_singleton.mp hvb]) hne)
      simpa using hnext

end

theorem brkPages_true_iff {s : Mem n} {p : ℕ} (old : UInt64) (pages : List UInt64) :
    (brkPages p old pages s).1 = true ↔ Supplied s p pages := by
  induction pages generalizing s with
  | nil => exact iff_of_true rfl (.nil s p)
  | cons va rest ih =>
    rw [brkPages, supplied_cons_iff (rfl : vmmUdata.user = true)]
    rcases pmmAllocZeroed s with ⟨_ | f, s₁⟩
    · simp
    dsimp only
    rcases hv : vmmMap s₁ p va f vmmUdata with ⟨_ | _, s₂⟩
    · simp [hv]
    · simp [hv, ih]

def heapAttrs : VmaAttrs := ⟨3, 0, true⟩

def VmaAttrs.ownedRw (k : VmaAttrs) : Bool := k.freeOnUnmap && hasProt k 1 && hasProt k protWrite

def RwOn (m : VmaMap) (lo hi : UInt64) : Prop :=
  ∀ a, lo ≤ a → a < hi → ∃ k, m a = some k ∧ k.ownedRw = true

-- what `brk` makes of the table
def brkTable (t : VmaTable n) (base old new : UInt64) : VmaTable n :=
  let t := if old > base then (vmaRemoveOverlaps t base (old - base)).2 else t
  if new > base then (vmaAdd t base (new - base) 3 0 true).2 else t

structure HeapFits (t : VmaTable n) (base old new : UInt64) : Prop where
  cut : base < old → ¬ Stuck t base old
  free : ∀ a, old ≤ a → a < new → lookup t a = none
  room : runs (putMap (cutMap (lookup t) base old) base new heapAttrs) ≤ n

section

variable {t : VmaTable n} {base old new start len end_ : UInt64}

theorem vmaAdd_zero_iff (hc : Canon t) (he : rangeEnd start len = some end_)
    (prot mapFlags : UInt32) (free : Bool) :
    (vmaAdd t start len prot mapFlags free).1 = 0 ↔
      (∀ a, start ≤ a → a < end_ → lookup t a = none) ∧
        runs (putMap (lookup t) start end_ ⟨prot, mapFlags, free⟩) ≤ n := by
  obtain ⟨hlt, hend⟩ := rangeEnd_spec he
  constructor
  · intro hok
    have hfree := (lookup_vmaAdd hc hok).1
    rw [← hend] at hfree
    refine ⟨fun a h₁ h₂ => ?_, (vmaAdd_fits hc he hfree prot mapFlags free).mp hok⟩
    rw [lookup_eq_none hc.separate]
    exact fun k => hfree.not_at ⟨h₁, h₂⟩
  · rintro ⟨hnone, hroom⟩
    have hfree : Free (segs t) start end_ := by
      refine free_of_not_at hc.separate hlt fun a h₁ h₂ k => ?_
      exact (lookup_eq_none hc.separate).mp (hnone a h₁ h₂) k
    exact (vmaAdd_fits hc he hfree prot mapFlags free).mpr hroom

theorem vmaAdd_kept (hc : Canon t) {prot mapFlags : UInt32} {free : Bool}
    (h : (vmaAdd t start len prot mapFlags free).1 ≠ 0) :
    (vmaAdd t start len prot mapFlags free).2 = t := by
  rcases vmaAdd_spec hc.separate start len prot mapFlags free with ⟨-, hs⟩ | ⟨hz, -⟩
  · exact hs
  · exact absurd hz h

theorem cutMap_self (m : VmaMap) : cutMap m base base = m := by
  funext a
  rw [cutMap, if_neg]
  rintro ⟨h₁, h₂⟩
  exact absurd (h₁.trans_lt h₂) (lt_irrefl base)

theorem brkCut (hc : Canon t) (hle : base ≤ old) (hcut : base < old → ¬ Stuck t base old) :
    Canon (if old > base then (vmaRemoveOverlaps t base (old - base)).2 else t) ∧
      lookup (if old > base then (vmaRemoveOverlaps t base (old - base)).2 else t) =
        cutMap (lookup t) base old := by
  split
  · next hlt =>
    have he := rangeEnd_piece hlt
    refine ⟨call_canon hc (.removeOverlaps base (old - base)), ?_⟩
    rcases vmaRemoveOverlaps_cases hc.separate he with ⟨-, -, hs⟩ | ⟨hz, -⟩
    · exact absurd hs (hcut hlt)
    · rw [((removeOverlaps_refines hc.separate base (old - base)).effect hz).2]
      funext a
      simp only [VmaOp.apply, cutMap, inRange_iff he]
  · next hlt =>
    have heq : old = base := le_antisymm (not_lt.mp hlt) hle
    rw [heq, cutMap_self]
    exact ⟨hc, rfl⟩

theorem brkStuck (hc : Canon t) (hs : Stuck t base old) :
    (if old > base then (vmaRemoveOverlaps t base (old - base)).2 else t) = t := by
  split
  · next hlt =>
    rcases vmaRemoveOverlaps_cases hc.separate (rangeEnd_piece hlt) with ⟨-, h, -⟩ | ⟨-, h⟩
    · exact h
    · exact absurd hs h
  · rfl

theorem cutMap_none_iff {m : VmaMap} (hle : base ≤ old) :
    (∀ a, base ≤ a → a < new → cutMap m base old a = none) ↔
      ∀ a, old ≤ a → a < new → m a = none := by
  constructor
  · intro h a h₁ h₂
    have := h a (hle.trans h₁) h₂
    rwa [cutMap, if_neg fun hx => absurd h₁ (not_le.mpr hx.2)] at this
  · intro h a h₁ h₂
    rw [cutMap]
    split
    · rfl
    · next hx => exact h a (not_lt.mp fun hlt => hx ⟨h₁, hlt⟩) h₂

theorem brkTable_fits (hc : Canon t) (hle : base ≤ old) (hlt : base < new)
    (h : HeapFits t base old new) : lookup (brkTable t base old new) =
      putMap (cutMap (lookup t) base old) base new heapAttrs := by
  obtain ⟨hc₁, hcut⟩ := brkCut hc hle h.cut
  have he := rangeEnd_piece hlt
  rw [brkTable, if_pos hlt]
  have hok := (vmaAdd_zero_iff hc₁ he 3 0 true).mpr (by
    rw [hcut, cutMap_none_iff hle]
    exact ⟨h.free, h.room⟩)
  have hmap := (lookup_vmaAdd hc₁ hok).2
  rw [hcut, ← (rangeEnd_spec he).2] at hmap
  exact hmap

theorem brkTable_cut (hc : Canon t) (hle : base ≤ old) (hlt : base < new)
    (hcut : base < old → ¬ Stuck t base old) (h : ¬ HeapFits t base old new) :
    lookup (brkTable t base old new) = cutMap (lookup t) base old := by
  obtain ⟨hc₁, hmap⟩ := brkCut hc hle hcut
  rw [brkTable, if_pos hlt]
  rw [vmaAdd_kept hc₁, hmap]
  intro hok
  rw [vmaAdd_zero_iff hc₁ (rangeEnd_piece hlt), hmap, cutMap_none_iff hle] at hok
  exact h ⟨hcut, hok.1, hok.2⟩

theorem brkTable_stuck (hc : Canon t) (hold : base < old) (hlt : base < new)
    (hs : Stuck t base old) : brkTable t base old new = t := by
  rw [brkTable, if_pos hlt]
  rw [brkStuck hc hs]
  refine vmaAdd_kept hc fun hok => ?_
  rw [vmaAdd_zero_iff hc (rangeEnd_piece hlt)] at hok
  exact hs.lookup hc hold (hok.1 base le_rfl hlt)

theorem brkTable_iff (hc : Canon t) (hle : base ≤ old) (hle' : base ≤ new) (same : Prop)
    (hsame : same → new = old) :
    RwOn (lookup (brkTable t base old new)) base new ∧
        (same → lookup (brkTable t base old new) = lookup t) ↔
      new = base ∨
        (HeapFits t base old new ∧
          (same → ∀ a, base ≤ a → a < old → lookup t a = some heapAttrs)) ∨
        ((old = base ∨ Stuck t base old) ∧ RwOn (lookup t) base new) := by
  rcases hle'.eq_or_lt with heq | hlt
  · subst heq
    refine iff_of_true ⟨fun a h₁ h₂ => absurd (h₁.trans_lt h₂) (lt_irrefl _), fun hs => ?_⟩
      (.inl rfl)
    rw [brkTable, if_neg (lt_irrefl _), ← hsame hs]
    exact congrArg lookup (if_neg (lt_irrefl _))
  rw [or_iff_right hlt.ne']
  by_cases hfit : HeapFits t base old new
  · -- the new mapping stands
    rw [brkTable_fits hc hle hlt hfit]
    have hrw : RwOn (putMap (cutMap (lookup t) base old) base new heapAttrs) base new := by
      intro a h₁ h₂
      exact ⟨heapAttrs, if_pos ⟨h₁, h₂⟩, rfl⟩
    have hno : ¬ ((old = base ∨ Stuck t base old) ∧ RwOn (lookup t) base new) := by
      rintro ⟨hkept, hrw⟩
      rcases hle.eq_or_lt with heq | hold
      · obtain ⟨k, hk, -⟩ := hrw base le_rfl hlt
        rw [hfit.free base heq.ge hlt] at hk
        cases hk
      · exact hfit.cut hold (hkept.resolve_left hold.ne')
    rw [or_iff_left hno, and_iff_right hrw, and_iff_right hfit]
    refine forall_congr' fun hs => ?_
    rw [hsame hs]
    constructor
    · intro hm a h₁ h₂
      rw [← hm, putMap, if_pos ⟨h₁, h₂⟩]
    · intro hm
      funext a
      rw [putMap]
      split
      · next ha => exact (hm a ha.1 ha.2).symm
      · next ha => exact if_neg ha
  · rw [or_iff_right fun h => hfit h.1]
    by_cases hstuck : base < old ∧ Stuck t base old
    · -- the old mapping stands
      rw [brkTable_stuck hc hstuck.1 hlt hstuck.2]
      exact ⟨fun h => ⟨.inr hstuck.2, h.1⟩, fun h => ⟨h.2, fun _ => rfl⟩⟩
    · have hcut : base < old → ¬ Stuck t base old := fun h₁ h₂ => hstuck ⟨h₁, h₂⟩
      rw [brkTable_cut hc hle hlt hcut hfit]
      rcases hle.eq_or_lt with heq | hold
      · rw [← heq, cutMap_self]
        exact ⟨fun h => ⟨.inl rfl, h.1⟩, fun h => ⟨h.2, fun _ => rfl⟩⟩
      · refine iff_of_false ?_ ?_
        · rintro ⟨hrw, -⟩
          obtain ⟨k, hk, -⟩ := hrw base le_rfl hlt
          rw [cutMap, if_pos ⟨le_rfl, hold⟩] at hk
          cases hk
        · rintro ⟨h, -⟩
          exact hcut hold (h.resolve_left hold.ne')

end

def WritableOn (s : Mem n) (p : ℕ) (lo hi : UInt64) : Prop :=
  ∀ page ∈ pagesBetween lo hi, ∃ e, s.entry (p, page) = some e ∧ e.flags.write = true

structure BrkSound (s : Mem n) (p : ℕ) (r : ℤ × Mem n) : Prop where
  result : r.1 = ((r.2.brk p).toNat : ℤ)
  pages : WritableOn r.2 p (r.2.brkBase p) (pageUp (r.2.brk p))
  covered : RwOn (lookup (r.2.vmas p)) (r.2.brkBase p) (pageUp (r.2.brk p))
  unmoved : r.2.brk p = s.brk p → SameView s r.2

structure HeapBounds (s : Mem n) (p : ℕ) : Prop where
  aligned : (s.brkBase p).toNat % 4096 = 0
  le : s.brkBase p ≤ s.brk p
  bound : s.brk p ≤ userLimit

def BrkRefused (s : Mem n) (p : ℕ) (addr : UInt64) : Prop :=
  addr = 0 ∨ addr < s.brkBase p ∨ (addr ≥ userLimit ∨ addr > userLimit - (pageBytes - 1)) ∨
    s.brk p < addr ∧ ¬ Supplied s p (pagesBetween (pageUp (s.brk p)) (pageUp addr))

structure OnlyTable (p : ℕ) (t : VmaTable n) (s s' : Mem n) : Prop where
  vmas : s'.vmas = update s.vmas p t
  entry : s'.entry = s.entry
  brk : s'.brk = s.brk
  brkBase : s'.brkBase = s.brkBase

section

variable {s s' : Mem n} {p : ℕ} {addr old new : UInt64}

theorem brkDrop_only (s : Mem n) (p : ℕ) (old : UInt64) :
    OnlyTable p (if old > s.brkBase p then
        (vmaRemoveOverlaps (s.vmas p) (s.brkBase p) (old - s.brkBase p)).2 else s.vmas p)
      s (brkDrop s p old) := by
  rw [brkDrop]
  split
  · exact ⟨rfl, rfl, rfl, rfl⟩
  · exact ⟨(update_eq_self ..).symm, rfl, rfl, rfl⟩

theorem brkSet_only (s : Mem n) (p : ℕ) (old new : UInt64) :
    OnlyTable p (brkTable (s.vmas p) (s.brkBase p) old new) s
      (if new > (brkDrop s p old).brkBase p then brkAdd (brkDrop s p old) p new
        else brkDrop s p old) := by
  have hd := brkDrop_only s p old
  rw [brkTable, hd.brkBase]
  split
  · refine ⟨?_, hd.entry, hd.brk, hd.brkBase⟩
    show update (brkDrop s p old).vmas p (vmaAdd ((brkDrop s p old).vmas p)
      ((brkDrop s p old).brkBase p) (new - (brkDrop s p old).brkBase p) 3 0 true).2 = _
    rw [hd.vmas, hd.brkBase, update_self, update_idem]
  · exact hd

structure BrkMoved (s : Mem n) (p : ℕ) (addr : UInt64) (r : ℤ × Mem n) : Prop where
  result : r.1 = (addr.toNat : ℤ)
  breaks : r.2.brk = update s.brk p addr
  brkBase : r.2.brkBase = s.brkBase
  table : r.2.vmas = update s.vmas p
    (brkTable (s.vmas p) (s.brkBase p) (pageUp (s.brk p)) (pageUp addr))
  pages : WritableOn r.2 p (s.brkBase p) (pageUp addr) ↔
    WritableOn s p (s.brkBase p) (pageUp (min addr (s.brk p)))
  entry : addr = s.brk p → r.2.entry = s.entry

theorem BrkMoved.brk {r : ℤ × Mem n} (h : BrkMoved s p addr r) : r.2.brk p = addr := by
  rw [h.breaks, update_self]

theorem sysBrk_refused (h : BrkRefused s p addr) :
    (sysBrk s p addr).1 = ((s.brk p).toNat : ℤ) ∧ SameMaps s (sysBrk s p addr).2 := by
  have hrefl := SameMaps.refl s
  unfold sysBrk
  split
  · exact ⟨rfl, hrefl⟩
  next h₁ =>
  split
  · exact ⟨rfl, hrefl⟩
  next h₂ =>
  split
  · exact ⟨rfl, hrefl⟩
  next h₃ =>
  obtain ⟨hgt, hfail⟩ := (((h.resolve_left h₁).resolve_left h₂).resolve_left h₃)
  rw [← brkPages_true_iff (pageUp (s.brk p)), Bool.not_eq_true] at hfail
  rw [if_neg (not_le.mpr hgt)]
  have hcases := brkPages_cases (pageUp_aligned (s.brk p)) (pageUp_aligned addr)
    (nil_append _).symm (MappedSoFar.nil (p := p) s) (fun _ hva => absurd hva not_mem_nil)
  rcases hcases with ⟨-, hsame⟩ | ⟨htrue, -⟩
  · dsimp only
    rcases hr : brkPages p (pageUp (s.brk p)) (pagesBetween (pageUp (s.brk p)) (pageUp addr)) s
      with ⟨ok, s₁⟩
    rw [hr] at hfail hsame
    cases hfail
    have hbrk : s₁.brk = s.brk := hsame.brk
    refine ⟨?_, hsame⟩
    show ((s₁.brk p).toNat : ℤ) = _
    rw [hbrk]
  · rw [hfail] at htrue
    cases htrue

section

variable (hb : HeapBounds s p) (h₁ : addr ≠ 0) (h₂ : ¬ addr < s.brkBase p)
  (h₃ : ¬ (addr ≥ userLimit ∨ addr > userLimit - (pageBytes - 1)))
include hb h₁ h₂ h₃

theorem sysBrk_shrink (hle : addr ≤ s.brk p) : BrkMoved s p addr (sysBrk s p addr) := by
  have hu := foldl_freePage p (pagesBetween (pageUp addr) (pageUp (s.brk p))) s
  unfold sysBrk
  rw [if_neg h₁, if_neg h₂, if_neg h₃, if_pos hle]
  dsimp only
  generalize (pagesBetween (pageUp addr) (pageUp (s.brk p))).foldl (freePage p) s = s₁ at hu
  have hset := brkSet_only s₁ p (pageUp (s.brk p)) (pageUp addr)
  generalize (if pageUp addr > (brkDrop s₁ p (pageUp (s.brk p))).brkBase p then
    brkAdd (brkDrop s₁ p (pageUp (s.brk p))) p (pageUp addr)
    else brkDrop s₁ p (pageUp (s.brk p))) = s₂ at hset
  have hentry : ∀ x, s₂.entry x = if x.1 = p ∧
      x.2 ∈ pagesBetween (pageUp addr) (pageUp (s.brk p)) ∧ true then none else s.entry x := by
    intro x
    rw [hset.entry, hu.entry]
  refine ⟨rfl, ?_, hset.brkBase.trans hu.brkBase, ?_, ?_, ?_⟩
  · show update s₂.brk p addr = _
    rw [hset.brk, hu.brk]
  · show s₂.vmas = _
    rw [hset.vmas, hu.vmas, hu.brkBase]
  · rw [min_eq_left hle]
    refine forall₂_congr fun page hpage => ?_
    show (∃ e, s₂.entry (p, page) = some e ∧ _) ↔ _
    rw [hentry, if_neg]
    rintro ⟨-, hmem, -⟩
    exact absurd ((mem_pagesBetween_iff (pageUp_aligned _) (pageUp_aligned _)).mp hmem).2.1
      (not_le.mpr ((mem_pagesBetween_iff hb.aligned (pageUp_aligned _)).mp hpage).2.2)
  · intro heq
    funext x
    show s₂.entry x = _
    rw [hentry, heq, pagesBetween, if_neg (lt_irrefl _)]
    simp

theorem sysBrk_grow (hgt : s.brk p < addr)
    (hok : (brkPages p (pageUp (s.brk p)) (pagesBetween (pageUp (s.brk p)) (pageUp addr)) s).1 =
      true) : BrkMoved s p addr (sysBrk s p addr) := by
  have hlim : addr ≤ userLimit := le_of_not_ge fun h => h₃ (.inl h)
  have hcases := brkPages_cases (pageUp_aligned (s.brk p)) (pageUp_aligned addr)
    (nil_append _).symm (MappedSoFar.nil (p := p) s) (fun _ hva => absurd hva not_mem_nil)
  rcases hcases with ⟨hfalse, -⟩ | ⟨-, hm, hthere⟩
  · rw [hok] at hfalse
    cases hfalse
  unfold sysBrk
  rw [if_neg h₁, if_neg h₂, if_neg h₃, if_neg (not_le.mpr hgt)]
  dsimp only
  rcases hr : brkPages p (pageUp (s.brk p)) (pagesBetween (pageUp (s.brk p)) (pageUp addr)) s
    with ⟨ok, s₁⟩
  rw [hr] at hok hm hthere
  cases hok
  rw [nil_append] at hm hthere
  have hset := brkSet_only s₁ p (pageUp (s.brk p)) (pageUp addr)
  have hbase : pageUp addr > (brkDrop s₁ p (pageUp (s.brk p))).brkBase p := by
    rw [(brkDrop_only s₁ p _).brkBase, hm.brkBase]
    exact (hb.le.trans_lt hgt).trans_le (self_le_pageUp hlim)
  rw [if_pos hbase] at hset
  dsimp only
  generalize brkAdd (brkDrop s₁ p (pageUp (s.brk p))) p (pageUp addr) = s₂ at hset
  refine ⟨rfl, ?_, hset.brkBase.trans hm.brkBase, ?_, ?_, ?_⟩
  · show update s₂.brk p addr = _
    rw [hset.brk, hm.brk]
  · show s₂.vmas = _
    rw [hset.vmas, hm.vmas, hm.brkBase]
  · rw [min_eq_right hgt.le]
    have hmem : ∀ hi page, page ∈ pagesBetween (s.brkBase p) (pageUp hi) ↔
        page.toNat % 4096 = 0 ∧ s.brkBase p ≤ page ∧ page < pageUp hi :=
      fun hi _ => mem_pagesBetween_iff hb.aligned (pageUp_aligned hi)
    constructor
    · intro hw page hpage
      obtain ⟨hal, hlo, hhi⟩ := (hmem _ page).mp hpage
      obtain ⟨e, he, hwr⟩ := hw page
        ((hmem _ page).mpr ⟨hal, hlo, hhi.trans_le (pageUp_mono hgt.le hlim)⟩)
      refine ⟨e, ?_, hwr⟩
      rw [← hm.rest (p, page), ← hset.entry]
      · exact he
      · intro _ hnew
        exact absurd ((mem_pagesBetween_iff (pageUp_aligned _) (pageUp_aligned _)).mp hnew).2.1
          (not_le.mpr hhi)
    · intro hw page hpage
      obtain ⟨hal, hlo, hhi⟩ := (hmem _ page).mp hpage
      show ∃ e, s₂.entry (p, page) = some e ∧ _
      rw [hset.entry]
      rcases lt_or_ge page (pageUp (s.brk p)) with hlt | hge
      · obtain ⟨e, he, hwr⟩ := hw page ((hmem _ page).mpr ⟨hal, hlo, hlt⟩)
        refine ⟨e, ?_, hwr⟩
        rw [hm.rest (p, page)]
        · exact he
        · intro _ hnew
          exact absurd ((mem_pagesBetween_iff (pageUp_aligned _) (pageUp_aligned _)).mp hnew).2.1
            (not_le.mpr hlt)
      · obtain ⟨f, hf⟩ := hthere page
          ((mem_pagesBetween_iff (pageUp_aligned _) (pageUp_aligned _)).mpr ⟨hal, hge, hhi⟩)
        exact ⟨⟨f, vmmUdata⟩, hf, rfl⟩
  · intro heq
    exact absurd heq hgt.ne'

end

theorem sysBrk_moved (hb : HeapBounds s p) (h : ¬ BrkRefused s p addr) :
    BrkMoved s p addr (sysBrk s p addr) ∧ s.brkBase p ≤ addr ∧ addr ≤ userLimit := by
  simp only [BrkRefused, not_or] at h
  obtain ⟨h₁, h₂, h₃, h₄⟩ := h
  have h₃' : ¬ (addr ≥ userLimit ∨ addr > userLimit - (pageBytes - 1)) := not_or.mpr h₃
  refine ⟨?_, not_lt.mp h₂, le_of_not_ge h₃.1⟩
  rcases le_or_gt addr (s.brk p) with hle | hgt
  · exact sysBrk_shrink hb h₁ h₂ h₃' hle
  · refine sysBrk_grow hb h₁ h₂ h₃' hgt ((brkPages_true_iff _ _).mpr ?_)
    by_contra hno
    exact h₄ ⟨hgt, hno⟩

/-- A break that stays needs a sound heap; for one that moves, the pages that are kept must be
writable, and the table must take the new mapping or keep one that will do. -/
theorem brk_sound_iff (ops : List VmaOp) (ht : s.vmas p = vmaExec ops vmaReset)
    (hb : HeapBounds s p) (addr : UInt64) :
    BrkSound s p (sysBrk s p addr) ↔
      (BrkRefused s p addr → WritableOn s p (s.brkBase p) (pageUp (s.brk p)) ∧
        RwOn (lookup (s.vmas p)) (s.brkBase p) (pageUp (s.brk p))) ∧
      (¬ BrkRefused s p addr →
        WritableOn s p (s.brkBase p) (pageUp (min addr (s.brk p))) ∧
        (pageUp addr = s.brkBase p ∨
          (HeapFits (s.vmas p) (s.brkBase p) (pageUp (s.brk p)) (pageUp addr) ∧
            (addr = s.brk p → ∀ a, s.brkBase p ≤ a → a < pageUp (s.brk p) →
              lookup (s.vmas p) a = some heapAttrs)) ∨
          ((pageUp (s.brk p) = s.brkBase p ∨ Stuck (s.vmas p) (s.brkBase p) (pageUp (s.brk p))) ∧
            RwOn (lookup (s.vmas p)) (s.brkBase p) (pageUp addr)))) := by
  have hc : Canon (s.vmas p) := ht ▸ canon_vmaExec ops canon_vmaReset
  by_cases href : BrkRefused s p addr
  · obtain ⟨hres, hsame⟩ := sysBrk_refused href
    rw [and_iff_left fun h => absurd href h, forall_prop_of_true href]
    generalize sysBrk s p addr = r at hres hsame
    constructor
    · intro h
      have hp := h.pages
      have hcov := h.covered
      rw [hsame.brk, hsame.brkBase] at hp hcov
      rw [hsame.vmas] at hcov
      refine ⟨?_, hcov⟩
      unfold WritableOn at hp ⊢
      rwa [hsame.entry] at hp
    · rintro ⟨hp, hcov⟩
      refine ⟨by rw [hsame.brk, hres], ?_, ?_, fun _ => hsame.view⟩
      · rw [hsame.brk, hsame.brkBase]
        unfold WritableOn at hp ⊢
        rwa [hsame.entry]
      · rw [hsame.brk, hsame.brkBase, hsame.vmas]
        exact hcov
  · obtain ⟨hm, hlo, hhi⟩ := sysBrk_moved hb href
    have hle : s.brkBase p ≤ pageUp (s.brk p) := hb.le.trans (self_le_pageUp hb.bound)
    have hle' : s.brkBase p ≤ pageUp addr := hlo.trans (self_le_pageUp hhi)
    have htab := brkTable_iff hc hle hle' (addr = s.brk p) fun h => congrArg pageUp h
    rw [and_iff_right fun h => absurd h href, forall_prop_of_true href, ← htab, ← hm.pages]
    generalize sysBrk s p addr = r at hm
    have hvmas : r.2.vmas p =
        brkTable (s.vmas p) (s.brkBase p) (pageUp (s.brk p)) (pageUp addr) := by
      rw [hm.table, update_self]
    constructor
    · intro h
      have hp := h.pages
      have hcov := h.covered
      rw [hm.brk, hm.brkBase] at hp hcov
      rw [hvmas] at hcov
      refine ⟨hp, hcov, fun heq => ?_⟩
      rw [← hvmas]
      exact (h.unmoved (hm.brk.trans heq)).map p
    · rintro ⟨hp, hcov, hsame⟩
      refine ⟨by rw [hm.brk, hm.result], ?_, ?_, fun heq => ⟨fun q => ?_, ?_⟩⟩
      · rw [hm.brk, hm.brkBase]
        exact hp
      · rw [hm.brk, hm.brkBase, hvmas]
        exact hcov
      · by_cases hq : q = p
        · rw [hq, hvmas]
          exact hsame (hm.brk.symm.trans heq)
        · rw [hm.table, update_of_ne hq]
      · exact hm.entry (hm.brk.symm.trans heq)

end

def noHeap : Mem 4 :=
  (exec memStep (Mem.boot : Mem 4) [⟨1, .spawn 0x10000000 0x40000000, [], []⟩]).load
    ⟨1, .brk 0x10001000, [7], []⟩

theorem brk_sound_fresh : BrkSound noHeap 1 (sysBrk noHeap 1 0x10001000) := by
  have hb : HeapBounds noHeap 1 := ⟨by decide, by decide, by decide⟩
  have href : ¬ BrkRefused noHeap 1 0x10001000 := by
    rw [BrkRefused, ← brkPages_true_iff (pageUp (noHeap.brk 1))]
    decide +kernel
  have hadd : (vmaAdd (vmaReset : VmaTable 4) 0x10000000 0x1000 3 0 true).1 = 0 := by decide +kernel
  have hend : rangeEnd 0x10000000 0x1000 = some 0x10001000 := by decide
  rw [vmaAdd_zero_iff canon_vmaReset hend] at hadd
  refine (brk_sound_iff [] rfl hb 0x10001000).mpr ⟨fun h => absurd h href, fun _ => ⟨?_, ?_⟩⟩
  · intro page hpage
    exact absurd hpage not_mem_nil
  · refine .inr (.inl ⟨⟨fun h => absurd h (lt_irrefl _), fun a _ _ => ?_, ?_⟩, ?_⟩)
    · rfl
    · exact (congrArg (fun m => runs (putMap m _ _ heapAttrs)) (cutMap_self _)).trans_le hadd.2
    · intro heq
      exact absurd heq (by decide)

def reservedAbove : List MemCall :=
  [⟨1, .spawn 0x10000000 0x40000000, [], []⟩, ⟨1, .brk 0x10001000, [7], []⟩,
    ⟨1, .mmap 0x10001000 0x1000 0 0x32 (fun _ => 0), [], []⟩]

theorem brk_loses_heap :
    let call : MemCall := ⟨1, .brk 0x10002000, [8], []⟩
    let s := (exec memStep (Mem.boot : Mem vmmVmaMax) reservedAbove).load call
    let r := sysBrk s 1 0x10002000
    lookup (s.vmas 1) 0x10000000 = some heapAttrs ∧ r.1 = 0x10002000 ∧
      r.2.brk 1 = 0x10002000 ∧ lookup (r.2.vmas 1) 0x10000000 = none := by
  decide +kernel

end Kyronix.Mm
