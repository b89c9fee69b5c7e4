import Kyronix.Lib.Intervals

/-! How many slots a map needs: a table that keeps no two touching slots of one attribute has a slot
for each maximal run of the map. -/
namespace Kyronix.Lib.Intervals

open Function

variable {ι α κ : Type*} [LinearOrder α]

def Merged (t : ι → Option (Seg α κ)) : Prop :=
  ∀ ⦃i j s r⦄, t i = some s → t j = some r → s.hi = r.lo → s.attr ≠ r.attr

def Maps (t : ι → Option (Seg α κ)) (m : α → Option κ) : Prop := ∀ a k, m a = some k ↔ At t a k

def Starts (m : α → Option κ) : Set α :=
  {a | ∃ k, m a = some k ∧ ∀ b < a, ∃ c, b ≤ c ∧ c < a ∧ m c ≠ some k}

structure Tight (t : ι → Option (Seg α κ)) (m : α → Option κ) : Prop where
  separate : Separate t
  merged : Merged t
  maps : Maps t m

variable {t t' : ι → Option (Seg α κ)} {m m' : α → Option κ} {i j : ι} {s r : Seg α κ}
  {lo hi a c : α} {k : κ}

namespace Tight

variable (h : Tight t m)
include h

theorem get (hs : t i = some s) (ha : s.Mem a) : m a = some s.attr :=
  (h.maps a s.attr).mpr ⟨i, s, trivial, hs, ha, rfl⟩

theorem slot (ha : m a = some k) : ∃ i s, t i = some s ∧ s.Mem a ∧ s.attr = k := by
  obtain ⟨i, s, -, hs, hm, hk⟩ := (h.maps a k).mp ha
  exact ⟨i, s, hs, hm, hk⟩

theorem past_end (hs : t i = some s) : m s.hi ≠ some s.attr := by
  intro hm
  obtain ⟨j, r, hr, hmem, hk⟩ := h.slot hm
  have hij : i ≠ j := by
    rintro rfl
    rw [hs] at hr
    cases hr
    exact lt_irrefl _ hmem.2
  rcases h.separate.apart hij hs hr with hle | hle
  · exact h.merged hs hr (le_antisymm hle hmem.1) hk.symm
  · exact absurd (hmem.2.trans_le hle) (not_lt.mpr (h.separate.proper hs).le)

theorem end_le {i' : ι} {s' : Seg α κ} (h' : Tight t' m') (hs : t i = some s)
    (hs' : t' i' = some s') (ha : s.Mem a) (ha' : s'.Mem a) (hm : ∀ b, a ≤ b → m' b = m b) :
    s'.hi ≤ s.hi := by
  refine not_lt.mp fun hlt => h.past_end hs ?_
  have hk : s'.attr = s.attr := by
    have heq := hm a le_rfl
    rw [h.get hs ha, h'.get hs' ha'] at heq
    exact Option.some.inj heq
  rw [← hm _ ha.2.le, h'.get hs' ⟨ha'.1.trans ha.2.le, hlt⟩, hk]

theorem lo_mem_starts (hs : t i = some s) : s.lo ∈ Starts m := by
  have hp := h.separate.proper hs
  refine ⟨s.attr, h.get hs ⟨le_rfl, hp⟩, fun b hb => ?_⟩
  by_contra hall
  push Not at hall
  obtain ⟨j, r, hr, hmem, hk⟩ := h.slot (hall b le_rfl hb)
  -- the slot at `b` ends before this one begins, and its end has another attribute
  have hij : j ≠ i := by
    rintro rfl
    rw [hs] at hr
    cases hr
    exact absurd hmem.1 (not_le.mpr hb)
  have hle : r.hi ≤ s.lo := by
    rcases h.separate.apart hij hr hs with hle | hle
    · exact hle
    · exact absurd (hp.trans_le (hle.trans hmem.1)) (not_lt.mpr hb.le)
  rcases hle.lt_or_eq with hlt | heq
  · exact h.past_end hr (hk ▸ hall r.hi hmem.2.le hlt)
  · exact h.merged hr hs heq hk

theorem starts_eq : Starts m = {a | ∃ i s, t i = some s ∧ s.lo = a} := by
  ext a
  constructor
  · rintro ⟨k, hk, hbefore⟩
    obtain ⟨i, s, hs, hmem, hattr⟩ := h.slot hk
    refine ⟨i, s, hs, le_antisymm hmem.1 (not_lt.mp fun hlt => ?_)⟩
    obtain ⟨c, hle, hc, hne⟩ := hbefore s.lo hlt
    exact hne (hattr ▸ h.get hs ⟨hle, hc.trans hmem.2⟩)
  · rintro ⟨i, s, hs, rfl⟩
    exact h.lo_mem_starts hs

theorem ncard_starts [Fintype ι] : (Starts m).ncard = Nat.card {i // (t i).isSome} := by
  rw [h.starts_eq, ← Nat.card_coe_set_eq]
  refine (Nat.card_congr (Equiv.ofBijective
    (fun i : {i // (t i).isSome} => ⟨((t i).get i.2).lo, i, (t i).get i.2, by simp, rfl⟩)
    ⟨?_, ?_⟩)).symm
  · intro ⟨i, hi⟩ ⟨j, hj⟩ heq
    obtain ⟨s, hs⟩ := Option.isSome_iff_exists.mp hi
    obtain ⟨r, hr⟩ := Option.isSome_iff_exists.mp hj
    have hlo : s.lo = r.lo := by simpa [hs, hr] using heq
    by_contra hne
    have hij : i ≠ j := fun hij => hne (Subtype.ext hij)
    have hmem : s.Mem s.lo := ⟨le_rfl, h.separate.proper hs⟩
    exact (h.separate.apart hij hs hr).not_mem hmem ⟨hlo.ge, hlo ▸ h.separate.proper hr⟩
  · rintro ⟨a, i, s, hs, rfl⟩
    exact ⟨⟨i, by rw [hs]; rfl⟩, by simp [hs]⟩

theorem ncard_le [Fintype ι] : (Starts m).ncard ≤ Fintype.card ι := by
  rw [h.ncard_starts, ← Nat.card_eq_fintype_card]
  exact Nat.card_le_card_of_injective _ Subtype.val_injective

theorem ncard_of_full [Fintype ι] (hfull : ∀ i, (t i).isSome) :
    (Starts m).ncard = Fintype.card ι := by
  rw [h.ncard_starts, ← Nat.card_eq_fintype_card]
  exact Nat.card_congr (Equiv.subtypeUnivEquiv hfull)

end Tight

section Update

theorem Merged.touch_part (h : Merged t) (hw : Separate t) (hs : t i = some s) (hr : r.lo < r.hi)
    (hlo : s.lo ≤ r.lo) (hhi : r.hi ≤ s.hi) (hk : r.attr = s.attr) (hne : j ≠ i) {q : Seg α κ}
    (hq : t j = some q) : (r.hi = q.lo → r.attr ≠ q.attr) ∧ (q.hi = r.lo → q.attr ≠ r.attr) := by
  have hqp := hw.proper hq
  rcases hw.apart hne hq hs with hap | hap
  · refine ⟨fun heq => ?_, fun heq => ?_⟩
    · exact absurd (hr.trans_le (heq.le.trans (hqp.le.trans (hap.trans hlo)))) (lt_irrefl _)
    · rw [hk]
      exact h hq hs (le_antisymm hap (hlo.trans heq.ge))
  · refine ⟨fun heq => ?_, fun heq => ?_⟩
    · rw [hk]
      exact h hs hq (le_antisymm hap (heq.ge.trans hhi))
    · exact absurd (hr.trans_le (hhi.trans (hap.trans (hqp.le.trans heq.le)))) (lt_irrefl _)

variable [DecidableEq ι]

omit [LinearOrder α] in
theorem Merged.update_none (h : Merged t) : Merged (update t i none) := by
  intro j l s r hs hr
  exact h (of_update_none hs).2 (of_update_none hr).2

theorem Merged.update_some (h : Merged t) (hs : s.lo < s.hi)
    (htouch : ∀ j r, j ≠ i → t j = some r →
      (s.hi = r.lo → s.attr ≠ r.attr) ∧ (r.hi = s.lo → r.attr ≠ s.attr)) :
    Merged (update t i (some s)) := by
  intro j l q r hq hr heq
  rcases of_update hq with ⟨-, ⟨⟩⟩ | ⟨hj, hq'⟩ <;> rcases of_update hr with ⟨-, ⟨⟩⟩ | ⟨hl, hr'⟩
  · exact absurd heq hs.ne'
  · exact (htouch l r hl hr').1 heq
  · exact (htouch j q hj hq').2 heq
  · exact h hq' hr' heq

theorem Merged.shrink (h : Merged t) (hw : Separate t) (hs : t i = some s) (hr : r.lo < r.hi)
    (hlo : s.lo ≤ r.lo) (hhi : r.hi ≤ s.hi) (hk : r.attr = s.attr) :
    Merged (update t i (some r)) :=
  h.update_some hr fun _ _ hne hq => h.touch_part hw hs hr hlo hhi hk hne hq

theorem Merged.middle (h : Merged t) (hw : Separate t) (hs : t i = some s) (hj : t j = none)
    (hlo : s.lo < lo) (hlt : lo < hi) (hhi : hi < s.hi) :
    Merged (update (update t j (some { s with lo := hi })) i
      (some { s with hi := lo })) := by
  have hij : i ≠ j := by
    rintro rfl
    rw [hs] at hj
    cases hj
  rw [update_comm hij.symm]
  have hshrink : Merged (update t i (some { s with hi := lo })) :=
    h.shrink (r := { s with hi := lo }) hw hs hlo le_rfl (hlt.trans hhi).le rfl
  refine hshrink.update_some (s := { s with lo := hi }) hhi fun l q hne hq => ?_
  rcases of_update hq with ⟨-, ⟨⟩⟩ | ⟨hli, hq⟩
  · exact ⟨fun heq => absurd heq (hlo.trans (hlt.trans hhi)).ne', fun heq => absurd heq hlt.ne⟩
  · exact h.touch_part (r := { s with lo := hi }) hw hs hhi (hlo.trans hlt).le le_rfl rfl hli hq

end Update

def cutMap (m : α → Option κ) (lo hi : α) : α → Option κ :=
  fun a => if lo ≤ a ∧ a < hi then none else m a

def putMap (m : α → Option κ) (lo hi : α) (k : κ) : α → Option κ :=
  fun a => if lo ≤ a ∧ a < hi then some k else m a

def remapMap (m : α → Option κ) (lo hi : α) (f : κ → κ) : α → Option κ :=
  fun a => if lo ≤ a ∧ a < hi then (m a).map f else m a

theorem Cut.maps (h : Cut t t' lo hi) (hm : Maps t m) : Maps t' (cutMap m lo hi) := by
  intro a k
  rw [h.at_iff, ← hm a k, cutMap]
  split
  · next hr => simp [hr]
  · next hr => simp [hr]

theorem Cut.free (h : Cut t t' lo hi) (hlt : lo < hi) : Free t' lo hi := by
  intro i s hs
  by_contra hne
  obtain ⟨hlo, hhi⟩ := not_or.mp hne
  have hbelow : max s.lo lo < hi := max_lt (not_le.mp hhi) hlt
  have hmem : s.Mem (max s.lo lo) :=
    ⟨le_max_left .., max_lt (h.separate.proper hs) (not_le.mp hlo)⟩
  exact ((h.at_iff _ _).mp ⟨i, s, trivial, hs, hmem, rfl⟩).2 ⟨le_max_right .., hbelow⟩

theorem Put.maps (h : Put t t' lo hi k) (hfree : Free t lo hi) (hm : Maps t m) :
    Maps t' (putMap m lo hi k) := by
  intro a k'
  rw [h.at_iff, ← hm a k', putMap]
  split
  · next hr =>
    have hnone : m a ≠ some k' := fun ha => hfree.not_at hr ((hm a k').mp ha)
    simp [hr, hnone]
  · next hr => simp [hr]

theorem remapMap_self (f : κ → κ) : remapMap m lo lo f = m := by
  funext a
  exact if_neg fun h => absurd h.2 (not_lt.mpr h.1)

theorem putMap_cutMap_remapMap {f : κ → κ} (hlo : lo ≤ c) (hhi : c ≤ hi)
    (hm : ∀ a, c ≤ a → a < hi → m a = some k) :
    putMap (cutMap (remapMap m lo c f) c hi) c hi (f k) = remapMap m lo hi f := by
  funext a
  unfold putMap cutMap remapMap
  by_cases hr : c ≤ a ∧ a < hi
  · rw [if_pos hr, if_pos ⟨hlo.trans hr.1, hr.2⟩, hm a hr.1 hr.2]
    rfl
  · rw [if_neg hr, if_neg hr]
    congr 1
    refine propext (and_congr_right fun _ => ⟨fun h => h.trans_le hhi, fun h => ?_⟩)
    exact not_le.mp fun hle => hr ⟨hle, h⟩

def spare (t : ι → Option (Seg α κ)) : Option ι → Option (Seg α κ) := fun o => o.bind t

theorem at_spare : At (spare t) a k ↔ At t a k := by
  constructor
  · rintro ⟨_ | i, s, -, hs, hm⟩
    · cases hs
    · exact ⟨i, s, trivial, hs, hm⟩
  · rintro ⟨i, s, -, hs, hm⟩
    exact ⟨some i, s, trivial, hs, hm⟩

theorem Tight.spare (h : Tight t m) : Tight (spare t) m := by
  have hget : ∀ {o s}, Intervals.spare t o = some s → ∃ i, o = some i ∧ t i = some s := by
    intro o s hs
    exact Option.bind_eq_some_iff.mp hs
  refine ⟨⟨fun hs => ?_, fun hne hs hr => ?_⟩, fun _ _ _ _ hs hr => ?_, fun a k => ?_⟩
  · obtain ⟨i, -, hs⟩ := hget hs
    exact h.separate.proper hs
  · obtain ⟨i, rfl, hs⟩ := hget hs
    obtain ⟨j, rfl, hr⟩ := hget hr
    exact h.separate.apart (fun hij => hne (congrArg some hij)) hs hr
  · obtain ⟨i, -, hs⟩ := hget hs
    obtain ⟨j, -, hr⟩ := hget hr
    exact h.merged hs hr
  · rw [at_spare]
    exact h.maps a k

end Kyronix.Lib.Intervals
