import Kyronix.Mm.VmaRuns

/-! Failing calls on the table of mappings. Removing a range fails before it changes anything;
`vma_protect` takes a piece out before it knows that there is a slot for what it puts back. -/
namespace Kyronix.Mm

open Lib Word Lib.Intervals Function Vma Option

variable {n : ℕ} {t t' : VmaTable n} {v : Fin n} {start end_ len cur : UInt64}

def Covered (t : VmaTable n) (start end_ : UInt64) : Prop :=
  ∀ a, start ≤ a → a < end_ → (lookup t a).isSome

theorem containing_of_isSome {a : UInt64} (h : (lookup t a).isSome) :
    ∃ v, containing t a = some v := by
  rw [lookup, isSome_map] at h
  exact isSome_iff_exists.mp h

theorem vmaRangeOkFrom_of_covered (h : Covered t cur end_) : vmaRangeOkFrom t end_ cur = true := by
  fun_induction vmaRangeOkFrom t end_ cur with
  | case1 cur hlt hv =>
    obtain ⟨v, hv'⟩ := containing_of_isSome (h cur le_rfl hlt)
    rw [hv] at hv'
    cases hv'
  | case2 cur hlt v hv ih =>
    have hle := (lt_cutEnd (containing_spec hv).2.2 hlt).le
    exact ih fun a hlo hhi => h a (hle.trans hlo) hhi
  | case3 => rfl

theorem vmaRangeOk_iff (hw : Separate (segs t)) (he : rangeEnd start len = some end_) :
    vmaRangeOk t start len = true ↔ Covered t start end_ := by
  simp only [vmaRangeOk, he]
  constructor
  · intro h a hlo hhi
    exact (lookup_isSome hw).mpr (vmaRangeOkFrom_spec h hlo hhi)
  · exact vmaRangeOkFrom_of_covered

def NoneAcross (t : VmaTable n) (cur : UInt64) : Prop :=
  ∀ i s, segs t i = some s → s.lo < cur → s.hi ≤ cur

theorem Cut.noneAcross {lo hi : UInt64} (h : Cut (segs t) (segs t') lo hi) (hlt : lo < hi) :
    NoneAcross t' hi := by
  intro i s hs hlo
  refine not_lt.mp fun hhi => ?_
  -- a slot across the end of the cut would still cover the last part of it
  have hmem : s.Mem (max s.lo lo) := ⟨le_max_left .., (max_lt hlo hlt).trans hhi⟩
  have hat : At (segs t') (max s.lo lo) s.attr := ⟨i, s, trivial, hs, hmem, rfl⟩
  exact ((h.at_iff _ _).mp hat).2 ⟨le_max_right .., max_lt hlo hlt⟩

theorem Covered.after_cut {mid : UInt64} (hw : Separate (segs t)) (h : Covered t cur end_)
    (hcut : Cut (segs t) (segs t') cur mid) (hle : cur ≤ mid) : Covered t' mid end_ := by
  intro a hlo hhi
  obtain ⟨k, hk⟩ := (lookup_isSome hw).mp (h a (hle.trans hlo) hhi)
  refine (lookup_isSome hcut.separate).mpr ⟨k, (hcut.at_iff a k).mpr ⟨hk, ?_⟩⟩
  exact fun hr => absurd hr.2 (not_lt.mpr hlo)

theorem vmaRemoveFrom_aligned (hw : Separate (segs t)) (hcur : NoneAcross t cur)
    (hcov : Covered t cur end_) : (vmaRemoveFrom t end_ cur).1 = 0 := by
  fun_induction vmaRemoveFrom t end_ cur with
  | case1 t cur hlt hv =>
    obtain ⟨v, hv'⟩ := containing_of_isSome (hcov cur le_rfl hlt)
    rw [hv] at hv'
    cases hv'
  | case2 t cur hlt v hv rc t' hs hneg =>
    have hsplit : (splitForHole t v cur (cutEnd (t v) end_)).1 < 0 := by rwa [hs]
    obtain ⟨hlo, -⟩ := splitForHole_neg hsplit
    exact absurd (containing_spec hv).2.2 (not_lt.mpr (hcur v _ (containing_some hv) hlo))
  | case3 t cur hlt v hv rc t' hs hneg ih =>
    have hcut := (split_containing_spec hw hlt hv).done hs hneg
    have hlt' := lt_cutEnd (containing_spec hv).2.2 hlt
    exact ih hcut.separate (Cut.noneAcross hcut hlt') (hcov.after_cut hw hcut hlt'.le)
  | case4 => rfl

theorem cutEnd_eq_of_lt {w : Vma} (h : cutEnd w end_ < w.end_) : cutEnd w end_ = end_ := by
  unfold cutEnd at h ⊢
  split
  · next hlt => rw [if_pos hlt] at h; exact absurd h (lt_irrefl _)
  · rfl

theorem vmaRemove_cases (hw : Separate (segs t)) (he : rangeEnd start len = some end_) :
    ¬ Covered t start end_ ∧ vmaRemove t start len = (-einval, t) ∨
    Covered t start end_ ∧ (vmaRemove t start len).1 < 0 ∧ (vmaRemove t start len).2 = t ∧
      (∃ v, containing t start = some v ∧ (t v).start < start ∧ end_ < (t v).end_) ∧
        emptySlot t = none ∨
    Covered t start end_ ∧ (vmaRemove t start len).1 = 0 := by
  have hlt := (rangeEnd_spec he).1
  by_cases hcov : Covered t start end_
  · have hok := (vmaRangeOk_iff hw he).mpr hcov
    have hcall : vmaRemove t start len = vmaRemoveFrom t end_ start := by
      simp [vmaRemove, he, hok]
    obtain ⟨v, hv⟩ := containing_of_isSome (hcov start le_rfl hlt)
    have hlt' := lt_cutEnd (containing_spec hv).2.2 hlt
    refine .inr ?_
    rw [hcall]
    have hstep : vmaRemoveFrom t end_ start =
        if (splitForHole t v start (cutEnd (t v) end_)).1 < 0 then
          splitForHole t v start (cutEnd (t v) end_)
        else vmaRemoveFrom (splitForHole t v start (cutEnd (t v) end_)).2 end_
          (cutEnd (t v) end_) := by
      rw [vmaRemoveFrom, dif_pos hlt]
      split
      · next hnone => rw [hv] at hnone; cases hnone
      · next w hw' =>
        rw [hv] at hw'
        cases hw'
        rfl
    rw [hstep]
    split
    · next hneg =>
      obtain ⟨hlo, hhi, hfull, heq⟩ := splitForHole_neg hneg
      have hend := cutEnd_eq_of_lt hhi
      exact .inl ⟨hcov, hneg, heq, ⟨v, hv, hlo, hend ▸ hhi⟩, hfull⟩
    · next hneg =>
      have hcut := (split_containing_spec hw hlt hv).done rfl hneg
      exact .inr ⟨hcov, vmaRemoveFrom_aligned hcut.separate (Cut.noneAcross hcut hlt')
        (hcov.after_cut hw hcut hlt'.le)⟩
  · refine .inl ⟨hcov, ?_⟩
    have hno : ¬ vmaRangeOk t start len = true := fun h => hcov ((vmaRangeOk_iff hw he).mp h)
    simp [vmaRemove, he, hno]

theorem vmaRemove_neg (hw : Separate (segs t)) (h : (vmaRemove t start len).1 < 0) :
    (vmaRemove t start len).2 = t := by
  cases he : rangeEnd start len with
  | none => simp [vmaRemove, he]
  | some end_ =>
    rcases vmaRemove_cases hw he with ⟨-, heq⟩ | ⟨-, -, heq, -⟩ | ⟨-, h0⟩
    · rw [heq]
    · exact heq
    · exact absurd h0 h.ne

theorem vmaRemove_of_runs (h : Canon t) (he : rangeEnd start len = some end_)
    (hcov : Covered t start end_) (hruns : runs (cutMap (lookup t) start end_) ≤ n) :
    (vmaRemove t start len).1 = 0 := by
  have hlt := (rangeEnd_spec he).1
  rcases vmaRemove_cases h.separate he with ⟨hno, -⟩ | ⟨-, -, -, ⟨v, hv, hlo, hhi⟩, hfull⟩ | ⟨-, h0⟩
  · exact absurd hcov hno
  · -- a hole that fits can be cut, and a full table cuts none
    obtain ⟨hu, -⟩ := containing_spec hv
    have hok := (splitForHole_fits h hu hlo.le hlt hhi.le).mpr hruns
    unfold splitForHole at hok
    simp only [decide_eq_true hlo, decide_eq_true hhi, gt_iff_lt, hfull] at hok
    exact absurd hok ((neg_errno_lt).ne)
  · exact h0

def Stuck (t : VmaTable n) (start end_ : UInt64) : Prop :=
  ∃ v, (t v).used = true ∧ (t v).start < start ∧ end_ < (t v).end_ ∧ emptySlot t = none

theorem splitForHole_stuck (hlo : (t v).start < start) (hhi : end_ < (t v).end_)
    (hfull : emptySlot t = none) : splitForHole t v start end_ = (-enomem, t) := by
  unfold splitForHole
  simp only [gt_iff_lt, decide_eq_true hlo, decide_eq_true hhi, hfull]

theorem vmaRemoveOverlapsFrom_cases (hlt : start < end_) (rest : List (Fin n))
    (hw : Separate (segs t)) (ho : OnlyIn rest t start end_) :
    (vmaRemoveOverlapsFrom start end_ rest t).1 < 0 ∧
      (vmaRemoveOverlapsFrom start end_ rest t).2 = t ∧ Stuck t start end_ ∨
    (vmaRemoveOverlapsFrom start end_ rest t).1 = 0 ∧ ¬ Stuck t start end_ := by
  fun_induction vmaRemoveOverlapsFrom start end_ rest t with
  | case1 t =>
    refine .inr ⟨rfl, ?_⟩
    rintro ⟨v, hu, hlo, hhi, -⟩
    obtain ⟨i, -, hi, -⟩ := ho start _ le_rfl hlt
      ⟨v, _, trivial, seg?_of_used hu, ⟨hlo.le, hlt.trans hhi⟩, rfl⟩
    cases hi
  | case2 v rest t hu ih =>
    refine ih hw (ho.skip fun s hs => ?_)
    rw [segs_eq_none.mpr (by simpa using hu)] at hs
    cases hs
  | case3 v rest t hu hap ih =>
    refine ih hw (ho.skip fun s hs => ?_)
    obtain rfl := (seg?_eq_some.mp hs).2
    exact hap
  | case4 v rest t hu hap rc t' hs hneg =>
    have hsplit : (splitForHole t v (overlapStart (t v) start) (overlapEnd (t v) end_)).1 < 0 := by
      rwa [hs]
    obtain ⟨hlo, hhi, hfull, heq⟩ := splitForHole_neg hsplit
    rw [hs] at heq
    rw [overlapStart_eq] at hlo
    rw [overlapEnd_eq] at hhi
    refine .inl ⟨hneg, heq, v, by simpa using hu, ?_, ?_, hfull⟩
    · exact (lt_max_iff.mp hlo).resolve_right (lt_irrefl _)
    · exact (min_lt_iff.mp hhi).resolve_right (lt_irrefl _)
  | case5 v rest t hu hap rc t' hs hneg ih =>
    have hused : (t v).used = true := by simpa using hu
    obtain ⟨hcut, hkeep⟩ := (split_overlap_spec hw hlt hused hap).done hs hneg
    obtain ⟨hap₁, hap₂⟩ := not_or.mp hap
    have hbot := overlap_lt hw hlt hused hap
    -- no slot covers the whole range any more, and none but `v` did
    have hgone : ¬ Stuck t' start end_ := by
      rintro ⟨w, huw, hlo, hhi, -⟩
      have hmem : (⟨(t' w).start, (t' w).end_, (t' w).attrs⟩ : Seg UInt64 VmaAttrs).Mem
          (max start (t v).start) :=
        ⟨hlo.le.trans (le_max_left ..), (hbot.trans_le (min_le_left ..)).trans hhi⟩
      exact ((hcut.at_iff _ _).mp ⟨w, _, trivial, seg?_of_used huw, hmem, rfl⟩).2
        ⟨le_rfl, hbot⟩
    have hnot : ¬ Stuck t start end_ := by
      rintro ⟨w, huw, hlo, hhi, hfull⟩
      have hwv : w = v := by
        by_contra hne
        rcases hw.apart hne (seg?_of_used huw) (seg?_of_used hused) with hle | hle
        · exact hap₂ (hhi.le.trans hle)
        · exact hap₁ (hle.trans hlo.le)
      subst hwv
      rw [overlapStart_eq, overlapEnd_eq, max_eq_left hlo.le, min_eq_left hhi.le,
        splitForHole_stuck hlo hhi hfull] at hs
      exact hneg ((Prod.mk.inj hs).1 ▸ neg_errno_lt)
    rcases ih hcut.separate (ho.cut hcut hkeep) with ⟨-, -, hstuck⟩ | ⟨h0, -⟩
    · exact absurd hstuck hgone
    · exact .inr ⟨h0, hnot⟩

theorem vmaRemoveOverlaps_cases (hw : Separate (segs t)) (he : rangeEnd start len = some end_) :
    (vmaRemoveOverlaps t start len).1 < 0 ∧ (vmaRemoveOverlaps t start len).2 = t ∧
      Stuck t start end_ ∨
    (vmaRemoveOverlaps t start len).1 = 0 ∧ ¬ Stuck t start end_ := by
  simp only [vmaRemoveOverlaps, he]
  refine vmaRemoveOverlapsFrom_cases (rangeEnd_spec he).1 _ hw ?_
  rintro a k - - ⟨i, s, -, hs, hm⟩
  exact ⟨i, s, List.mem_finRange i, hs, hm⟩

theorem vmaRemoveOverlaps_neg (hw : Separate (segs t)) (h : (vmaRemoveOverlaps t start len).1 < 0) :
    (vmaRemoveOverlaps t start len).2 = t := by
  cases he : rangeEnd start len with
  | none => simp [vmaRemoveOverlaps, he]
  | some end_ =>
    rcases vmaRemoveOverlaps_cases hw he with ⟨-, heq, -⟩ | ⟨h0, -⟩
    · exact heq
    · exact absurd h0 h.ne

theorem rangeEnd_of_vmaAdd {prot mapFlags : UInt32} {free : Bool} (hw : Separate (segs t))
    (hok : (vmaAdd t start len prot mapFlags free).1 = 0) :
    rangeEnd start len = some (start + len) := by
  rcases vmaAdd_spec hw start len prot mapFlags free with ⟨hneg, -⟩ | ⟨-, hlt, -⟩
  · exact absurd hok hneg.ne
  · exact rangeEnd_of_lt hlt

theorem cutMap_putMap {m : VmaMap} {k : VmaAttrs} (h : ∀ a, start ≤ a ∧ a < end_ → m a = none) :
    cutMap (putMap m start end_ k) start end_ = m := by
  funext a
  unfold cutMap putMap
  split
  · next ha => exact (h a ha).symm
  · rfl

theorem vmaRemove_vmaAdd (h : Canon t) {prot mapFlags : UInt32} {free : Bool}
    (hok : (vmaAdd t start len prot mapFlags free).1 = 0) :
    (vmaRemove (vmaAdd t start len prot mapFlags free).2 start len).1 = 0 ∧
      lookup (vmaRemove (vmaAdd t start len prot mapFlags free).2 start len).2 = lookup t := by
  have he := rangeEnd_of_vmaAdd h.separate hok
  obtain ⟨hfree, hmap⟩ := lookup_vmaAdd h hok
  have hcanon := vmaAdd_canon h start len prot mapFlags free
  have hnone : ∀ a, start ≤ a ∧ a < start + len → lookup t a = none := by
    intro a ha
    rw [lookup_eq_none h.separate]
    exact fun k => hfree.not_at ha
  have hback := cutMap_putMap (k := ⟨prot, mapFlags, free⟩) hnone
  have hcov : Covered (vmaAdd t start len prot mapFlags free).2 start (start + len) := by
    intro a hlo hhi
    rw [hmap, putMap, if_pos ⟨hlo, hhi⟩]
    rfl
  have hruns : runs (cutMap (lookup (vmaAdd t start len prot mapFlags free).2) start
      (start + len)) ≤ n := by
    rw [hmap, hback]
    exact h.runs_le
  have hzero := vmaRemove_of_runs hcanon he hcov hruns
  refine ⟨hzero, ?_⟩
  obtain ⟨-, hcut⟩ := (vmaRemove_spec hcanon.separate he).2 hzero
  rw [lookup_of_maps hcut.separate (hcut.maps hcanon.maps), hmap, hback]

def protMap (m : VmaMap) (prot : UInt32) (start c : UInt64) : VmaMap :=
  remapMap m start c fun k => { k with prot := prot }

def PieceAt (t : VmaTable n) (start c : UInt64) : Prop :=
  c = start ∨ start < c ∧ ∃ i, (t i).used = true ∧ (t i).end_ = c

/-- There are slots for the map without the piece from `c` to `c'`, and for that with the new
protection up to `c'`. -/
def Passes (n : ℕ) (m : VmaMap) (prot : UInt32) (start c c' : UInt64) : Prop :=
  runs (cutMap (protMap m prot start c) c c') ≤ n ∧ runs (protMap m prot start c') ≤ n

def AllPass (t : VmaTable n) (prot : UInt32) (start end_ cur : UInt64) : Prop :=
  ∀ c v, PieceAt t cur c → c < end_ → containing t c = some v →
    Passes n (lookup t) prot start c (cutEnd (t v) end_)

variable {prot : UInt32}

theorem protMap_of_le {m : VmaMap} {c a : UInt64} (h : c ≤ a) : protMap m prot start c a = m a :=
  if_neg fun hr => absurd hr.2 (not_lt.mpr h)

theorem cutEnd_eq_end {w : Vma} (h : cutEnd w end_ < end_) : cutEnd w end_ = w.end_ := by
  unfold cutEnd at h ⊢
  split
  · rfl
  · next hge => rw [if_neg hge] at h; exact absurd h (lt_irrefl _)

theorem allPass_step (h : Canon t) (hlt : cur < end_) (hv : containing t cur = some v) :
    AllPass t prot start end_ cur ↔ Passes n (lookup t) prot start cur (cutEnd (t v) end_) ∧
      AllPass t prot start end_ (cutEnd (t v) end_) := by
  obtain ⟨hu, hlo, hhi⟩ := containing_spec hv
  have hnext := lt_cutEnd hhi hlt
  constructor
  · intro hall
    refine ⟨hall cur v (.inl rfl) hlt hv, fun c w hc hce hw => hall c w ?_ hce hw⟩
    rcases hc with rfl | ⟨hlt', hend⟩
    · exact .inr ⟨hnext, v, hu, (cutEnd_eq_end hce).symm⟩
    · exact .inr ⟨hnext.trans hlt', hend⟩
  · rintro ⟨hcur, hall⟩ c w hc hce hw
    rcases hc with rfl | ⟨hlt', i, hui, hi⟩
    · rw [hv] at hw
      cases hw
      exact hcur
    · refine hall c w ?_ hce hw
      rcases lt_trichotomy c (cutEnd (t v) end_) with hbelow | heq | habove
      · -- no slot ends inside the piece
        have hcv : c < (t v).end_ := hbelow.trans_le (cutEnd_le (t v) end_).2
        have hiv : i ≠ v := fun hiv => absurd (hiv ▸ hi) hcv.ne'
        have hp : (t i).start < (t i).end_ := h.separate.proper (seg?_of_used hui)
        rcases h.separate.apart hiv (seg?_of_used hui) (seg?_of_used hu) with hle | hle
        · exact absurd (hlo.trans_lt hlt') (not_lt.mpr (hi ▸ hle))
        · exact absurd (hcv.trans_le (hle.trans hp.le)) (hi ▸ lt_irrefl _)
      · exact .inl heq
      · exact .inr ⟨habove, i, hui, hi⟩

theorem hole_at_border {w : Fin n} {c : UInt64} (h : Canon t) (hu : (t v).used = true)
    (hend : (t v).end_ = c) (hw : containing t c = some w) (hlt : c < end_) :
    runs (cutMap (lookup t) c (cutEnd (t w) end_)) ≤ n := by
  obtain ⟨huw, hlo, hhi⟩ := containing_spec hw
  have hpv : (t v).start < (t v).end_ := h.separate.proper (seg?_of_used hu)
  have hvw : v ≠ w := fun hvw => absurd hhi (hvw ▸ hend ▸ lt_irrefl _)
  refine (splitForHole_fits h huw hlo (lt_cutEnd hhi hlt) (cutEnd_le (t w) end_).2).mp ?_
  refine splitForHole_nonneg fun hneg => ?_
  obtain ⟨hinside, -⟩ := splitForHole_neg hneg
  rcases h.separate.apart hvw (seg?_of_used hu) (seg?_of_used huw) with hle | hle
  · exact absurd hinside (not_lt.mpr (hend ▸ hle))
  · exact absurd (hhi.trans_le (hle.trans hpv.le)) (not_lt.mpr hend.le)

theorem cutEnd_walk {t₀ : VmaTable n} {v₀ : Fin n} (h₀ : Canon t₀) (h : Canon t)
    (hm : lookup t = protMap (lookup t₀) prot start cur) (hv₀ : containing t₀ cur = some v₀)
    (hv : containing t cur = some v) : cutEnd (t v) end_ = cutEnd (t₀ v₀) end_ := by
  obtain ⟨-, hlo, hhi⟩ := containing_spec hv
  obtain ⟨-, hlo₀, hhi₀⟩ := containing_spec hv₀
  have hsame : ∀ b, cur ≤ b → lookup t b = lookup t₀ b := fun b hb => by rw [hm, protMap_of_le hb]
  have heq : (t v).end_ = (t₀ v₀).end_ := by
    refine le_antisymm ?_ ?_
    · exact h₀.end_le h (containing_some hv₀) (containing_some hv) ⟨hlo₀, hhi₀⟩ ⟨hlo, hhi⟩ hsame
    · exact h.end_le h₀ (containing_some hv) (containing_some hv₀) ⟨hlo, hhi⟩ ⟨hlo₀, hhi₀⟩
        fun b hb => (hsame b hb).symm
  rw [cutEnd, cutEnd, heq]

inductive WalkEnds (t₀ t : VmaTable n) (prot : UInt32) (start end_ cur : UInt64)
    (r : ℤ × VmaTable n) : Prop
  | stuck (v : Fin n) (hlt : cur < end_) (hv : containing t₀ cur = some v)
    (hruns : n < runs (cutMap (lookup t) cur (cutEnd (t₀ v) end_))) (hneg : r.1 < 0) (h : r.2 = t)
  | done (h : r.1 = 0) (hall : AllPass t₀ prot start end_ cur)
  | torn (v : Fin n) (hv : containing t₀ cur = some v)
    (hruns : runs (cutMap (lookup t) cur (cutEnd (t₀ v) end_)) ≤ n) (h : r.1 < 0)
    (hall : ¬ AllPass t₀ prot start end_ cur) (hne : lookup r.2 ≠ lookup t₀)

structure Walking (t₀ t : VmaTable n) (prot : UInt32) (start cur : UInt64) : Prop where
  origin : Canon t₀
  canon : Canon t
  map : lookup t = protMap (lookup t₀) prot start cur
  le : start ≤ cur

namespace Walking

variable {t₀ : VmaTable n} {prot : UInt32}

theorem lookup_eq (h : Walking t₀ t prot start cur) {a : UInt64} (ha : cur ≤ a) :
    lookup t a = lookup t₀ a := by
  rw [h.map, protMap_of_le ha]

theorem containing_start (h : Walking t₀ t prot start cur) (hv : containing t cur = some v)
    (end_ : UInt64) : ∃ v₀, containing t₀ cur = some v₀ ∧
      cutEnd (t v) end_ = cutEnd (t₀ v₀) end_ := by
  have hsome : (lookup t₀ cur).isSome := by
    rw [← h.lookup_eq le_rfl, lookup, hv]
    rfl
  obtain ⟨v₀, hv₀⟩ := containing_of_isSome hsome
  exact ⟨v₀, hv₀, cutEnd_walk h.origin h.canon h.map hv₀ hv⟩

theorem split {rc : ℤ} (h : Walking t₀ t prot start cur) (hlt : cur < end_)
    (hv : containing t cur = some v)
    (hs : splitForHole t v cur (cutEnd (t v) end_) = (rc, t')) (hneg : ¬ rc < 0) :
    Canon t' ∧ Free (segs t') cur (cutEnd (t v) end_) ∧
      runs (cutMap (protMap (lookup t₀) prot start cur) cur (cutEnd (t v) end_)) ≤ n ∧
      putMap (lookup t') cur (cutEnd (t v) end_) ⟨prot, (t v).mapFlags, (t v).freeOnUnmap⟩ =
        protMap (lookup t₀) prot start (cutEnd (t v) end_) := by
  have h0 : (splitForHole t v cur (cutEnd (t v) end_)).1 = 0 := splitForHole_nonneg (by rwa [hs])
  have hnext := lt_cutEnd (containing_spec hv).2.2 hlt
  have hc := split_containing_canon h.canon hlt hv
  have hcut := (split_containing_spec h.canon.separate hlt hv).done hs hneg
  have hfits := (split_containing_fits h.canon hlt hv).mp h0
  rw [hs] at hc
  refine ⟨hc, hcut.free hnext, h.map ▸ hfits, ?_⟩
  have hmap := lookup_of_maps hcut.separate (hcut.maps h.canon.maps)
  rw [hmap, h.map]
  refine putMap_cutMap_remapMap (k := (t v).attrs) h.le hnext.le fun a hlo hhi => ?_
  rw [← h.lookup_eq hlo]
  exact (lookup_eq_some h.canon.separate).mpr (containing_at hv hlo hhi)

end Walking

theorem rangeEnd_piece (h : cur < end_) : rangeEnd cur (end_ - cur) = some end_ := by
  have hend : cur + (end_ - cur) = end_ := add_sub_cancel ..
  have hlt : cur < cur + (end_ - cur) := by rwa [hend]
  rw [rangeEnd_of_lt hlt, hend]

theorem vmaProtectFrom_ends {t₀ : VmaTable n} (h : Walking t₀ t prot start cur)
    (hcov : Covered t₀ cur end_) :
    WalkEnds t₀ t prot start end_ cur (vmaProtectFrom prot t end_ cur) := by
  fun_induction vmaProtectFrom prot t end_ cur with
  | case1 t cur hlt hv =>
    have hsome := hcov cur le_rfl hlt
    rw [← h.lookup_eq le_rfl] at hsome
    obtain ⟨v, hv'⟩ := containing_of_isSome hsome
    rw [hv] at hv'
    cases hv'
  | case2 t cur hlt v hv rc t' hs hneg =>
    obtain ⟨v₀, hv₀, hcut⟩ := h.containing_start hv end_
    have hfits := (split_containing_fits h.canon hlt hv).not.mp (by rw [hs]; exact hneg.ne)
    have heq := (split_containing_spec h.canon.separate hlt hv).failed hs hneg
    exact .stuck v₀ hlt hv₀ (hcut ▸ not_le.mp hfits) hneg heq
  | case3 t cur hlt v hv rc t' hs hneg rc' t'' ha hneg' =>
    obtain ⟨v₀, hv₀, hcut⟩ := h.containing_start hv end_
    obtain ⟨hc, hfree, hhole, hput⟩ := h.split hlt hv hs hneg
    have hnext := lt_cutEnd (containing_spec hv).2.2 hlt
    have he := rangeEnd_piece hnext
    have hfits := (vmaAdd_fits hc he hfree prot (t v).mapFlags (t v).freeOnUnmap).not.mp
      (by rw [ha]; exact hneg'.ne)
    rw [hput, hcut] at hfits
    rw [hcut, ← h.map] at hhole
    refine .torn v₀ hv₀ hhole hneg'
      (fun hall => hfits ((allPass_step h.origin hlt hv₀).mp hall).1.2) ?_
    -- the piece is out of the table
    obtain rfl := (vmaAdd_spec hc.separate ..).failed ha hneg'
    intro heq
    have hsome := hcov cur le_rfl hlt
    rw [← heq, (lookup_eq_none hc.separate).mpr fun k => hfree.not_at ⟨le_rfl, hnext⟩] at hsome
    cases hsome
  | case4 t cur hlt v hv rc t' hs hneg rc' t'' ha hneg' ih =>
    obtain ⟨v₀, hv₀, hcut⟩ := h.containing_start hv end_
    obtain ⟨hc, hfree, hhole, hput⟩ := h.split hlt hv hs hneg
    have hnext := lt_cutEnd (containing_spec hv).2.2 hlt
    have he := rangeEnd_piece hnext
    have hok := ((vmaAdd_spec hc.separate cur (cutEnd (t v) end_ - cur) prot (t v).mapFlags
      (t v).freeOnUnmap).resolve_left fun h => hneg' (by rw [ha] at h; exact h.1)).1
    have hfits := (vmaAdd_fits hc he hfree prot (t v).mapFlags (t v).freeOnUnmap).mp hok
    have hmap := (lookup_vmaAdd hc hok).2
    have hcanon := vmaAdd_canon hc cur (cutEnd (t v) end_ - cur) prot (t v).mapFlags
      (t v).freeOnUnmap
    rw [ha, add_sub_cancel, hput] at hmap
    rw [ha] at hcanon
    rw [hput] at hfits
    have hwalk : Walking t₀ t'' prot start (cutEnd (t v) end_) :=
      ⟨h.origin, hcanon, hmap, h.le.trans hnext.le⟩
    have hstep : AllPass t₀ prot start end_ cur ↔ _ := allPass_step h.origin hlt hv₀
    have hrest := ih hwalk fun a hlo hhi => hcov a (hnext.le.trans hlo) hhi
    rw [hcut] at hrest hhole hfits hmap ⊢
    cases hrest with
    | done h0 hall => exact .done h0 (hstep.mpr ⟨⟨hhole, hfits⟩, hall⟩)
    | torn _ _ _ hneg hall hne =>
      exact .torn v₀ hv₀ (h.map ▸ hhole) hneg (fun h => hall (hstep.mp h).2) hne
    | stuck w hlt' hw hruns hneg heq =>
      refine .torn v₀ hv₀ (h.map ▸ hhole) hneg (fun hall => ?_) fun hsame => ?_
      · have hpass := (hstep.mp hall).2 _ w (.inl rfl) hlt' hw
        rw [hmap] at hruns
        exact absurd hpass.1 (not_le.mpr hruns)
      · -- an unchanged map has a slot that begins at this piece
        rw [heq] at hsame
        rw [hsame] at hruns
        exact absurd (hole_at_border h.origin (containing_spec hv₀).1 (cutEnd_eq_end hlt').symm hw
          hlt') (not_le.mpr hruns)
  | case5 t cur hge =>
    refine .done rfl fun c w hc hce _ => absurd hce (not_lt.mpr ?_)
    rcases hc with rfl | ⟨hlt, -⟩
    · exact not_lt.mp hge
    · exact (not_lt.mp hge).trans hlt.le

/-- The call fails without a change or does not fail: for `vma_protect` the first piece cannot be
taken out, or every piece passes. -/
def VmaOp.Clean (t : VmaTable n) : VmaOp → Prop
  | .protect start len prot => ∀ end_ v, rangeEnd start len = some end_ → Covered t start end_ →
      containing t start = some v →
        n < runs (cutMap (lookup t) start (cutEnd (t v) end_)) ∨ AllPass t prot start end_ start
  | _ => True

theorem vmaProtect_clean_iff (h : Canon t) (start len : UInt64) (prot : UInt32) :
    ((vmaProtect t start len prot).1 < 0 → lookup (vmaProtect t start len prot).2 = lookup t) ↔
      (VmaOp.protect start len prot).Clean t := by
  cases he : rangeEnd start len with
  | none =>
    refine iff_of_true (fun _ => ?_) fun end_ v he' => ?_
    · simp [vmaProtect, he]
    · rw [he] at he'
      cases he'
  | some end_ =>
    have hlt := (rangeEnd_spec he).1
    by_cases hcov : Covered t start end_
    · have hok := (vmaRangeOk_iff h.separate he).mpr hcov
      have hcall : vmaProtect t start len prot = vmaProtectFrom prot t end_ start := by
        simp [vmaProtect, he, hok]
      obtain ⟨v, hv⟩ := containing_of_isSome (hcov start le_rfl hlt)
      have hwalk : Walking t t prot start start :=
        ⟨h, h, (remapMap_self _).symm, le_rfl⟩
      have hends := vmaProtectFrom_ends hwalk hcov
      have hclean : (VmaOp.protect start len prot).Clean t ↔
          n < runs (cutMap (lookup t) start (cutEnd (t v) end_)) ∨
            AllPass t prot start end_ start := by
        constructor
        · intro hc
          exact hc end_ v he hcov hv
        · intro hc e w he' _ hw
          rw [he] at he'
          rw [hv] at hw
          cases he'
          cases hw
          exact hc
      rw [hcall, hclean]
      cases hends with
      | done h0 hall => exact iff_of_true (fun hneg => absurd h0 hneg.ne) (.inr hall)
      | stuck w _ hw hruns hneg heq =>
        rw [hv] at hw
        cases hw
        exact iff_of_true (fun _ => by rw [heq]) (.inl hruns)
      | torn w hw hruns hneg hall hne =>
        rw [hv] at hw
        cases hw
        refine iff_of_false (fun himp => hne (himp hneg)) ?_
        rintro (hstuck | hall')
        · exact absurd hruns (not_le.mpr hstuck)
        · exact hall hall'
    · have hno : ¬ vmaRangeOk t start len = true := fun h' =>
        hcov ((vmaRangeOk_iff h.separate he).mp h')
      refine iff_of_true (fun _ => ?_) fun e w he' hcov' => ?_
      · simp [vmaProtect, he, hno]
      · rw [he] at he'
        cases he'
        exact absurd hcov' hcov

/-- A call either succeeds or leaves the map as it was, just if it is `Clean`; only `vma_protect`
can be anything else. -/
theorem vma_calls_all_or_nothing_iff (ops : List VmaOp) (op : VmaOp) :
    let t : VmaTable vmmVmaMax := vmaExec ops vmaReset
    ((op.call t).1 < 0 → lookup (op.call t).2 = lookup t) ↔ op.Clean t := by
  intro t
  have h : Canon t := canon_vmaExec ops canon_vmaReset
  cases op with
  | add start len prot mapFlags free =>
    refine iff_of_true (fun hneg => ?_) trivial
    rcases vmaAdd_spec h.separate start len prot mapFlags free with ⟨-, heq⟩ | ⟨h0, -⟩
    · exact congrArg lookup heq
    · exact absurd h0 hneg.ne
  | remove start len =>
    exact iff_of_true (fun hneg => congrArg lookup (vmaRemove_neg h.separate hneg)) trivial
  | removeOverlaps start len =>
    exact iff_of_true (fun hneg => congrArg lookup (vmaRemoveOverlaps_neg h.separate hneg)) trivial
  | protect start len prot => exact vmaProtect_clean_iff h start len prot

def crowdStart (i : ℕ) : UInt64 := 0x40000000 + UInt64.ofNat (0x3000 * i)

-- two kinds in turn, so that no two of the mappings are joined
def crowdFlags (i : ℕ) : UInt32 := if i % 2 = 0 then 0x22 else 0x21

def crowd (k : ℕ) : List VmaOp :=
  (List.range k).map fun i => .add (crowdStart i) 0x3000 0 (crowdFlags i) true

def crowded (k : ℕ) : VmaTable n := fun j =>
  if j.val < k then ⟨crowdStart j, crowdStart (j + 1), 0, crowdFlags j, true, true⟩ else zero

theorem toNat_crowdStart {i : ℕ} (h : i ≤ 4096) :
    (crowdStart i).toNat = 0x40000000 + 0x3000 * i := by
  have hsmall : (UInt64.ofNat (0x3000 * i)).toNat = 0x3000 * i := by
    rw [UInt64.toNat_ofNat']
    exact Nat.mod_eq_of_lt (by omega)
  have hbase : (0x40000000 : UInt64).toNat = 0x40000000 := rfl
  rw [crowdStart, UInt64.toNat_add, hsmall, hbase]
  exact Nat.mod_eq_of_lt (by omega)

theorem crowdStart_lt {i j : ℕ} (hj : j ≤ 4096) (h : i < j) : crowdStart i < crowdStart j := by
  rw [UInt64.lt_iff_toNat_lt, toNat_crowdStart hj, toNat_crowdStart (h.le.trans hj)]
  omega

theorem crowdStart_le {i j : ℕ} (hj : j ≤ 4096) (h : i ≤ j) : crowdStart i ≤ crowdStart j :=
  h.lt_or_eq.elim (fun hlt => (crowdStart_lt hj hlt).le) fun heq => (congrArg crowdStart heq).le

theorem crowdStart_succ {i : ℕ} (hi : i < 4096) : crowdStart i + 0x3000 = crowdStart (i + 1) := by
  have hlen : (0x3000 : UInt64).toNat = 0x3000 := rfl
  apply UInt64.toNat_inj.mp
  rw [UInt64.toNat_add, toNat_crowdStart hi.le, toNat_crowdStart hi, hlen]
  omega

theorem segs_crowded {k : ℕ} {i : Fin n} {s : Seg UInt64 VmaAttrs}
    (h : segs (crowded k) i = some s) :
    i.val < k ∧ s = ⟨crowdStart i, crowdStart (i + 1), ⟨0, crowdFlags i, true⟩⟩ := by
  by_cases hi : i.val < k
  · refine ⟨hi, ?_⟩
    rw [segs, crowded, if_pos hi] at h
    exact (Option.some.inj h).symm
  · rw [segs, crowded, if_neg hi] at h
    cases h

theorem find_finRange {p : Fin n → Bool} (hv : p v = true) (hmin : ∀ j < v, p j = false) :
    (List.finRange n).find? p = some v :=
  Fin.find?_eq_find?_finRange.symm.trans (Fin.find?_eq_some_iff.mpr ⟨hv, hmin⟩)

theorem emptySlot_crowded {k : ℕ} (hk : k < n) :
    emptySlot (crowded k : VmaTable n) = some ⟨k, hk⟩ := by
  refine find_finRange ?_ fun j hj => ?_
  · simp [crowded, zero]
  · have hjk : j.val < k := hj
    simp [crowded, hjk]

theorem rangeEnd_crowdStart {k : ℕ} (hk : k < 4096) :
    rangeEnd (crowdStart k) 0x3000 = some (crowdStart (k + 1)) := by
  have hlt := crowdStart_lt (i := k) (j := k + 1) hk k.lt_succ_self
  rw [← crowdStart_succ hk] at hlt ⊢
  exact rangeEnd_of_lt hlt

theorem vmaConflicts_crowded {k : ℕ} (hk : k < 4096) :
    vmaConflicts (crowded k : VmaTable n) (crowdStart k) 0x3000 = false := by
  refine vmaConflicts_eq_false (rangeEnd_crowdStart hk) fun i s hs => ?_
  obtain ⟨hi, rfl⟩ := segs_crowded hs
  exact .inl (crowdStart_le hk.le hi)

theorem vmaAdd_crowded {k : ℕ} (hk : k < n) (hn : n ≤ 2048) :
    vmaAdd (crowded k : VmaTable n) (crowdStart k) 0x3000 0 (crowdFlags k) true =
      (0, crowded (k + 1)) := by
  have hk' : k < 4096 := by omega
  have hadj := vmaNeighbours_spec (crowded k : VmaTable n) (crowdStart k) (crowdStart (k + 1)) 0
    (crowdFlags k) true
  rcases hn' : vmaNeighbours (crowded k : VmaTable n) (crowdStart k) (crowdStart (k + 1)) 0
    (crowdFlags k) true with ⟨b, a⟩
  rw [hn'] at hadj
  -- the mapping before this one is of the other kind
  have hb : b = none := by
    refine eq_none_iff_forall_ne_some.mpr fun i hi => ?_
    obtain ⟨hik, heq⟩ := segs_crowded (hadj.before i hi)
    obtain ⟨-, hend, hflags⟩ := Seg.mk.inj heq
    have hlast : i.val + 1 = k := by
      by_contra hne
      exact absurd hend (crowdStart_lt hk'.le (by omega)).ne'
    have hkind := (VmaAttrs.mk.inj hflags).2.1
    rw [crowdFlags, crowdFlags] at hkind
    split_ifs at hkind with h₁ h₂ h₂
    all_goals first | omega | exact absurd hkind (by decide)
  have ha : a = none := by
    refine eq_none_iff_forall_ne_some.mpr fun i hi => ?_
    obtain ⟨hik, heq⟩ := segs_crowded (hadj.after i hi)
    obtain ⟨hstart, -⟩ := Seg.mk.inj heq
    exact absurd hstart (crowdStart_lt hk' (by omega)).ne'
  subst ha hb
  simp only [vmaAdd, rangeEnd_crowdStart hk', vmaConflicts_crowded hk', Bool.false_eq_true,
    if_false, hn', emptySlot_crowded hk]
  refine congrArg (Prod.mk 0) (funext fun j => ?_)
  by_cases hj : j = ⟨k, hk⟩
  · rw [hj, update_self]
    simp [crowded]
  · have hne : j.val ≠ k := fun h => hj (Fin.ext h)
    rw [update_of_ne hj]
    have hiff : j.val < k + 1 ↔ j.val < k := by omega
    simp only [crowded, hiff]

theorem exec_crowd {k : ℕ} (hk : k ≤ n) (hn : n ≤ 2048) :
    vmaExec (crowd k) (vmaReset : VmaTable n) = crowded k := by
  induction k with
  | zero => rfl
  | succ k ih =>
    have hsplit : crowd (k + 1) = crowd k ++
        [.add (crowdStart k) 0x3000 0 (crowdFlags k) true] := by
      rw [crowd, List.range_succ, List.map_append]
      rfl
    have hrest := ih (Nat.le_of_succ_le hk)
    unfold vmaExec at hrest ⊢
    rw [hsplit, List.foldl_append, hrest, List.foldl_cons, List.foldl_nil]
    exact congrArg Prod.snd (vmaAdd_crowded hk hn)

theorem used_crowded (i : Fin n) : (crowded n i).used = true := by
  rw [crowded, if_pos i.isLt]

theorem emptySlot_of_used (h : ∀ i, (t i).used = true) : emptySlot t = none :=
  List.find?_eq_none.mpr fun i _ => by simp [h i]

theorem exec_full : vmaExec (crowd vmmVmaMax) (vmaReset : VmaTable vmmVmaMax) = crowded vmmVmaMax :=
  exec_crowd (n := vmmVmaMax) le_rfl le_rfl

theorem canon_full : Canon (crowded vmmVmaMax : VmaTable vmmVmaMax) :=
  exec_full ▸ canon_vmaExec (crowd vmmVmaMax) canon_vmaReset

theorem containing_full (i : Fin vmmVmaMax) {a : UInt64} (hlo : crowdStart i ≤ a)
    (hhi : a < crowdStart (i + 1)) :
    containing (crowded vmmVmaMax : VmaTable vmmVmaMax) a = some i := by
  have hi : i.val ≤ 4096 := i.isLt.le.trans (by decide)
  refine find_finRange ?_ fun j hj => ?_
  · rw [crowded, if_pos i.isLt]
    simp [hlo, hhi]
  · rw [crowded, if_pos j.isLt]
    have hle : crowdStart (j + 1) ≤ a := (crowdStart_le hi hj).trans hlo
    simp [hle]

def firstSlot : Fin vmmVmaMax := ⟨0, by decide⟩

theorem crowded_firstSlot : crowded vmmVmaMax firstSlot =
    ⟨0x40000000, 0x40003000, 0, 0x22, true, true⟩ := by
  rw [crowded, if_pos (by decide)]
  rfl

/-- With all slots in use, giving the first page of a mapping another protection unmaps it. -/
theorem protect_unmaps_page :
    let t : VmaTable vmmVmaMax := vmaExec (crowd vmmVmaMax) vmaReset
    let r := (VmaOp.protect 0x40000000 0x1000 1).call t
    r.1 < 0 ∧ lookup t 0x40000000 = some ⟨0, 0x22, true⟩ ∧ lookup r.2 0x40000000 = none := by
  rw [exec_full]
  intro t
  have hslot : t firstSlot = ⟨0x40000000, 0x40003000, 0, 0x22, true, true⟩ := crowded_firstSlot
  have hcanon : Canon t := canon_full
  have hlt : (0x40000000 : UInt64) < 0x40001000 := by decide
  have he : rangeEnd 0x40000000 0x1000 = some 0x40001000 := by decide
  have hv : ∀ a : UInt64, 0x40000000 ≤ a → a < 0x40003000 → containing t a = some firstSlot :=
    fun a hlo hhi => containing_full firstSlot hlo hhi
  have hcov : Covered t 0x40000000 0x40001000 := by
    intro a hlo hhi
    rw [lookup, hv a hlo (hhi.trans (by decide))]
    rfl
  have hcut : cutEnd (t firstSlot) 0x40001000 = 0x40001000 := by
    rw [hslot]
    rfl
  have hsplit : splitForHole t firstSlot 0x40000000 0x40001000 =
      (0, update t firstSlot { t firstSlot with start := 0x40001000 }) := by
    rw [hslot]
    rfl
  have hcanon' := splitForHole_canon (t := t) (v := firstSlot) hcanon (by rw [hslot])
    (by rw [hslot]) hlt (by rw [hslot]; decide)
  rw [hsplit] at hcanon'
  generalize ht' : update t firstSlot { t firstSlot with start := 0x40001000 } = t'
    at hsplit hcanon'
  -- every slot of the cut table is in use, lies above the page and has the old protection
  have hslots : ∀ i, ∃ s, segs t' i = some s ∧ 0x40001000 ≤ s.lo ∧ s.attr.prot = 0 := by
    intro i
    by_cases hi : i = firstSlot
    · refine ⟨⟨0x40001000, 0x40003000, ⟨0, 0x22, true⟩⟩, ?_, le_rfl, rfl⟩
      rw [← ht', segs, hi, update_self, hslot]
      rfl
    · refine ⟨⟨crowdStart i, crowdStart (i + 1), ⟨0, crowdFlags i, true⟩⟩, ?_, ?_, rfl⟩
      · rw [← ht', segs, update_of_ne hi]
        show (crowded vmmVmaMax i).seg? = _
        rw [crowded, if_pos i.isLt]
        rfl
      · have hpos : 1 ≤ i.val := Nat.one_le_iff_ne_zero.mpr fun h => hi (Fin.ext h)
        have hle : crowdStart 1 ≤ crowdStart i :=
          crowdStart_le (i.isLt.le.trans (by decide)) hpos
        exact (by decide : (0x40001000 : UInt64) ≤ crowdStart 1).trans hle
  have hfree : Free (segs t') 0x40000000 0x40001000 := by
    intro i s hs
    obtain ⟨s', hs', hlo, -⟩ := hslots i
    rw [hs] at hs'
    cases hs'
    exact .inr hlo
  have hfull : emptySlot t' = none := emptySlot_of_used fun i => by
    obtain ⟨s, hs, -⟩ := hslots i
    exact (seg?_eq_some.mp hs).1
  have hn : vmaNeighbours t' 0x40000000 0x40001000 1 0x22 true = (none, none) := by
    have hadj := vmaNeighbours_spec t' 0x40000000 0x40001000 1 0x22 true
    have hkind : ∀ i lo hi, segs t' i ≠ some ⟨lo, hi, ⟨1, 0x22, true⟩⟩ := by
      intro i lo hi heq
      obtain ⟨s, hs, -, hprot⟩ := hslots i
      rw [heq] at hs
      cases hs
      exact absurd hprot (show (1 : UInt32) ≠ 0 by decide)
    refine Prod.ext ?_ ?_
    · exact eq_none_iff_forall_ne_some.mpr fun b hb => hkind b _ _ (hadj.before b hb)
    · exact eq_none_iff_forall_ne_some.mpr fun a ha => hkind a _ _ (hadj.after a ha)
  have hadd : vmaAdd t' 0x40000000 (0x40001000 - 0x40000000) 1 (t firstSlot).mapFlags
      (t firstSlot).freeOnUnmap = (-enomem, t') := by
    have hlen : (0x40001000 : UInt64) - 0x40000000 = 0x1000 := by decide
    rw [hslot, hlen]
    simp only [vmaAdd, he, vmaConflicts_eq_false he hfree, Bool.false_eq_true, if_false, hn, hfull]
  have hcall : (VmaOp.protect 0x40000000 0x1000 1).call t = (-enomem, t') := by
    have hok := (vmaRangeOk_iff hcanon.separate he).mpr hcov
    show vmaProtect t 0x40000000 0x1000 1 = _
    simp only [vmaProtect, he, hok, Bool.not_true, Bool.false_eq_true, if_false]
    rw [vmaProtectFrom, dif_pos hlt]
    split
    · next hnone => rw [hv _ le_rfl (by decide)] at hnone; cases hnone
    · next w hw =>
      rw [hv _ le_rfl (by decide)] at hw
      cases hw
      rw [hcut, hsplit]
      simp only [lt_irrefl, if_false, hadd, neg_errno_lt (e := enomem), if_true]
  intro r
  rw [show r = (-enomem, t') from hcall]
  refine ⟨neg_errno_lt, ?_, ?_⟩
  · rw [lookup, hv _ le_rfl (by decide), map_some, hslot]
    rfl
  · exact (lookup_eq_none hcanon'.separate).mpr fun k => hfree.not_at ⟨le_rfl, hlt⟩

end Kyronix.Mm
