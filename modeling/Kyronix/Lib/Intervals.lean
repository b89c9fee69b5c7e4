import Kyronix.Lib.Table

/-! Tables of half-open intervals with attributes, read as a partial map from points to attributes:
the map of a table from which a range was cut, or to which one was added. -/
namespace Kyronix.Lib.Intervals

open Function

structure Seg (α κ : Type*) where
  lo : α
  hi : α
  attr : κ

variable {ι α κ : Type*} [LinearOrder α]

def Seg.Mem (s : Seg α κ) (a : α) : Prop := s.lo ≤ a ∧ a < s.hi

def Seg.Apart (s r : Seg α κ) : Prop := s.hi ≤ r.lo ∨ r.hi ≤ s.lo

structure Separate (t : ι → Option (Seg α κ)) : Prop where
  proper : ∀ {i s}, t i = some s → s.lo < s.hi
  apart : ∀ {i j s r}, i ≠ j → t i = some s → t j = some r → s.Apart r

def AtIn (P : ι → Prop) (t : ι → Option (Seg α κ)) (a : α) (k : κ) : Prop :=
  ∃ i s, P i ∧ t i = some s ∧ s.Mem a ∧ s.attr = k

abbrev At (t : ι → Option (Seg α κ)) (a : α) (k : κ) : Prop := AtIn (fun _ => True) t a k

variable {t t' t'' : ι → Option (Seg α κ)} {i j : ι} {s r : Seg α κ} {lo mid hi a : α} {k k' : κ}

theorem Seg.Apart.symm (h : s.Apart r) : r.Apart s := Or.symm h

theorem Seg.Apart.not_mem (h : s.Apart r) (ha : s.Mem a) : ¬ r.Mem a := by
  intro hr
  rcases h with h | h
  · exact absurd (ha.2.trans_le (h.trans hr.1)) (lt_irrefl a)
  · exact absurd (hr.2.trans_le (h.trans ha.1)) (lt_irrefl a)

theorem Separate.at_unique (hw : Separate t) (h : At t a k) (h' : At t a k') : k = k' := by
  obtain ⟨i, s, -, hi, hm, rfl⟩ := h
  obtain ⟨j, r, -, hj, hm', rfl⟩ := h'
  by_cases hij : i = j
  · rw [← hij, hi] at hj
    rw [Option.some.inj hj]
  · exact absurd hm' ((hw.apart hij hi hj).not_mem hm)

theorem Separate.not_atIn (hw : Separate t) (hi : t i = some s) (ha : s.Mem a) :
    ¬ AtIn (· ≠ i) t a k := by
  rintro ⟨j, r, hne, hj, hm, -⟩
  exact (hw.apart hne hj hi).not_mem hm ha

theorem at_iff_of_slot (hi : t i = some s) :
    At t a k ↔ (s.Mem a ∧ s.attr = k) ∨ AtIn (· ≠ i) t a k := by
  constructor
  · rintro ⟨j, r, -, hj, hm⟩
    by_cases hij : j = i
    · rw [hij, hi] at hj
      rw [Option.some.inj hj]
      exact Or.inl hm
    · exact Or.inr ⟨j, r, hij, hj, hm⟩
  · rintro (hm | ⟨j, r, -, hj, hm⟩)
    · exact ⟨i, s, trivial, hi, hm⟩
    · exact ⟨j, r, trivial, hj, hm⟩

theorem at_iff_of_empty (hi : t i = none) : At t a k ↔ AtIn (· ≠ i) t a k := by
  constructor
  · rintro ⟨j, r, -, hj, hm⟩
    refine ⟨j, r, ?_, hj, hm⟩
    rintro rfl
    rw [hi] at hj
    cases hj
  · rintro ⟨j, r, -, hj, hm⟩
    exact ⟨j, r, trivial, hj, hm⟩

section Update

variable [DecidableEq ι]

theorem atIn_update (o : Option (Seg α κ)) :
    AtIn (· ≠ i) (update t i o) a k ↔ AtIn (· ≠ i) t a k := by
  constructor
  · rintro ⟨j, r, hne, hj, hm⟩
    exact ⟨j, r, hne, by rwa [update_of_ne hne] at hj, hm⟩
  · rintro ⟨j, r, hne, hj, hm⟩
    exact ⟨j, r, hne, by rwa [update_of_ne hne], hm⟩

theorem at_update_some : At (update t i (some s)) a k ↔
    (s.Mem a ∧ s.attr = k) ∨ AtIn (· ≠ i) t a k := by
  rw [at_iff_of_slot (update_self i (some s) t), atIn_update]

theorem at_update_none : At (update t i none) a k ↔ AtIn (· ≠ i) t a k := by
  rw [at_iff_of_empty (update_self i none t), atIn_update]

theorem Separate.update_none (hw : Separate t) : Separate (update t i none) :=
  ⟨fun h => hw.proper (of_update_none h).2,
    fun hne h h' => hw.apart hne (of_update_none h).2 (of_update_none h').2⟩

theorem Separate.update_some (hw : Separate t) (hs : s.lo < s.hi)
    (hap : ∀ j r, j ≠ i → t j = some r → s.Apart r) :
    Separate (update t i (some s)) := by
  refine ⟨fun h => ?_, fun hne h h' => ?_⟩
  · rcases of_update h with ⟨-, ⟨⟩⟩ | ⟨-, h⟩
    · exact hs
    · exact hw.proper h
  · rcases of_update h with ⟨rfl, ⟨⟩⟩ | ⟨hj, e⟩ <;>
      rcases of_update h' with ⟨rfl, ⟨⟩⟩ | ⟨hj', e'⟩
    · exact absurd rfl hne
    · exact hap _ _ hj' e'
    · exact (hap _ _ hj e).symm
    · exact hw.apart hne e e'

end Update

structure Cut (t t' : ι → Option (Seg α κ)) (lo hi : α) : Prop where
  separate : Separate t'
  at_iff : ∀ a k, At t' a k ↔ At t a k ∧ ¬ (lo ≤ a ∧ a < hi)

theorem Cut.refl (hw : Separate t) : Cut t t lo lo :=
  ⟨hw, fun _ _ => ⟨fun h => ⟨h, fun hr => absurd hr.2 (not_lt.mpr hr.1)⟩, And.left⟩⟩

theorem Cut.trans (h : Cut t t' lo mid) (h' : Cut t' t'' mid hi) (hle : lo ≤ mid)
    (hle' : mid ≤ hi) : Cut t t'' lo hi := by
  refine ⟨h'.separate, fun a k => ?_⟩
  rw [h'.at_iff, h.at_iff, and_assoc]
  refine and_congr_right fun _ => ⟨fun ⟨h₁, h₂⟩ hr => ?_, fun hn => ⟨?_, ?_⟩⟩
  · exact (lt_or_ge a mid).elim (fun hm => h₁ ⟨hr.1, hm⟩) (fun hm => h₂ ⟨hm, hr.2⟩)
  · exact fun hr => hn ⟨hr.1, hr.2.trans_le hle'⟩
  · exact fun hr => hn ⟨hle.trans hr.1, hr.2⟩

structure Within (t t' : ι → Option (Seg α κ)) (lo hi : α) : Prop where
  separate : Separate t'
  at_iff : ∀ a k, ¬ (lo ≤ a ∧ a < hi) → (At t' a k ↔ At t a k)

theorem Within.refl (hw : Separate t) : Within t t lo hi := ⟨hw, fun _ _ _ => Iff.rfl⟩

theorem Within.trans (h : Within t t' lo hi) (h' : Within t' t'' lo hi) : Within t t'' lo hi :=
  ⟨h'.separate, fun a k ha => (h'.at_iff a k ha).trans (h.at_iff a k ha)⟩

theorem Within.mono {lo' hi' : α} (h : Within t t' lo hi) (hlo : lo' ≤ lo) (hhi : hi ≤ hi') :
    Within t t' lo' hi' :=
  ⟨h.separate, fun a k ha => h.at_iff a k fun hr => ha ⟨hlo.trans hr.1, hr.2.trans_le hhi⟩⟩

theorem Cut.within (h : Cut t t' lo hi) : Within t t' lo hi :=
  ⟨h.separate, fun a k ha => (h.at_iff a k).trans ⟨And.left, fun h => ⟨h, ha⟩⟩⟩

theorem Cut.of_within (h : Within t t' lo hi) (hn : ∀ a k, lo ≤ a → a < hi → ¬ At t' a k) :
    Cut t t' lo hi := by
  refine ⟨h.separate, fun a k => ⟨fun ha => ?_, fun ⟨ha, hr⟩ => (h.at_iff a k hr).mpr ha⟩⟩
  have hr : ¬ (lo ≤ a ∧ a < hi) := fun hr => hn a k hr.1 hr.2 ha
  exact ⟨(h.at_iff a k hr).mp ha, hr⟩

section CutSlot

variable [DecidableEq ι]

variable (hw : Separate t)
include hw

theorem Separate.shrink (hi : t i = some s) (hr : r.lo < r.hi)
    (hlo : s.lo ≤ r.lo) (hhi : r.hi ≤ s.hi) : Separate (update t i (some r)) :=
  hw.update_some hr fun _ _ hne hj =>
    (hw.apart hne.symm hi hj).imp (fun h => hhi.trans h) (fun h => h.trans hlo)

theorem cut_all (hi : t i = some s) : Cut t (update t i none) s.lo s.hi := by
  refine ⟨hw.update_none, fun a k => ?_⟩
  rw [at_update_none, at_iff_of_slot hi]
  constructor
  · intro h
    exact ⟨Or.inr h, fun hm => hw.not_atIn hi hm h⟩
  · rintro ⟨⟨hm, -⟩ | h, hn⟩
    · exact absurd hm hn
    · exact h

theorem cut_right_end (hs : t i = some s) (h : s.lo < lo) (h' : lo < s.hi) :
    Cut t (update t i (some { s with hi := lo })) lo s.hi := by
  refine ⟨hw.shrink hs h le_rfl h'.le, fun a k => ?_⟩
  rw [at_update_some, at_iff_of_slot hs]
  constructor
  · rintro (⟨hm, hk⟩ | ho)
    · exact ⟨Or.inl ⟨⟨hm.1, hm.2.trans h'⟩, hk⟩, fun hr => absurd hm.2 (not_lt.mpr hr.1)⟩
    · exact ⟨Or.inr ho, fun hr => hw.not_atIn hs ⟨h.le.trans hr.1, hr.2⟩ ho⟩
  · rintro ⟨⟨hm, hk⟩ | ho, hn⟩
    · exact Or.inl ⟨⟨hm.1, not_le.mp fun hle => hn ⟨hle, hm.2⟩⟩, hk⟩
    · exact Or.inr ho

theorem cut_left_end (hs : t i = some s) (h : s.lo < hi) (h' : hi < s.hi) :
    Cut t (update t i (some { s with lo := hi })) s.lo hi := by
  refine ⟨hw.shrink hs h' h.le le_rfl, fun a k => ?_⟩
  rw [at_update_some, at_iff_of_slot hs]
  constructor
  · rintro (⟨hm, hk⟩ | ho)
    · exact ⟨Or.inl ⟨⟨h.le.trans hm.1, hm.2⟩, hk⟩, fun hr => absurd hr.2 (not_lt.mpr hm.1)⟩
    · exact ⟨Or.inr ho, fun hr => hw.not_atIn hs ⟨hr.1, hr.2.trans h'⟩ ho⟩
  · rintro ⟨⟨hm, hk⟩ | ho, hn⟩
    · exact Or.inl ⟨⟨not_lt.mp fun hlt => hn ⟨hm.1, hlt⟩, hm.2⟩, hk⟩
    · exact Or.inr ho

theorem cut_middle (hs : t i = some s) (hj : t j = none) (h : s.lo < lo)
    (hlt : lo < hi) (h' : hi < s.hi) :
    Cut t (update (update t j (some { s with lo := hi })) i
      (some { s with hi := lo })) lo hi := by
  have hij : i ≠ j := by
    rintro rfl
    rw [hs] at hj
    cases hj
  have hcut := cut_right_end hw hs h (hlt.trans h')
  rw [update_comm hij.symm]
  have hempty : update t i (some { s with hi := lo }) j = none := by
    rw [update_of_ne hij.symm, hj]
  refine ⟨hcut.separate.update_some h' fun l r hne hl => ?_, fun a k => ?_⟩
  · rcases of_update hl with ⟨-, ⟨⟩⟩ | ⟨hli, hl⟩
    · exact Or.inr hlt.le
    · exact (hw.apart (Ne.symm hli) hs hl).imp id fun hle => hle.trans (h.trans hlt).le
  · rw [at_update_some, ← at_iff_of_empty hempty, hcut.at_iff, at_iff_of_slot hs]
    constructor
    · rintro (⟨hm, hk⟩ | ⟨ha, hn⟩)
      · exact ⟨Or.inl ⟨⟨(h.trans hlt).le.trans hm.1, hm.2⟩, hk⟩,
          fun hr => absurd hr.2 (not_lt.mpr hm.1)⟩
      · exact ⟨ha, fun hr => hn ⟨hr.1, hr.2.trans h'⟩⟩
    · rintro ⟨⟨hm, hk⟩ | ho, hn⟩
      · rcases lt_or_ge a hi with ha | ha
        · exact Or.inr ⟨Or.inl ⟨hm, hk⟩, fun hr => hn ⟨hr.1, ha⟩⟩
        · exact Or.inl ⟨⟨ha, hm.2⟩, hk⟩
      · exact Or.inr ⟨Or.inr ho,
          fun hr => hw.not_atIn hs ⟨h.le.trans hr.1, hr.2⟩ ho⟩

end CutSlot

def Free (t : ι → Option (Seg α κ)) (lo hi : α) : Prop :=
  ∀ i s, t i = some s → s.hi ≤ lo ∨ hi ≤ s.lo

theorem Free.not_at (hf : Free t lo hi) (ha : lo ≤ a ∧ a < hi) : ¬ At t a k := by
  rintro ⟨i, s, -, hi, hm, -⟩
  rcases hf i s hi with h | h
  · exact absurd (hm.2.trans_le h) (not_lt.mpr ha.1)
  · exact absurd (ha.2.trans_le h) (not_lt.mpr hm.1)

theorem free_of_not_at (hw : Separate t) (hlt : lo < hi)
    (h : ∀ a, lo ≤ a → a < hi → ∀ k, ¬ At t a k) : Free t lo hi := by
  intro i s hs
  by_contra hno
  rw [not_or, not_le, not_le] at hno
  -- the larger of the two lower ends lies in both
  refine h (max lo s.lo) (le_max_left ..) (max_lt hlt hno.2) s.attr ⟨i, s, trivial, hs, ?_, rfl⟩
  exact ⟨le_max_right .., max_lt hno.1 (hw.proper hs)⟩

structure Put (t t' : ι → Option (Seg α κ)) (lo hi : α) (k₀ : κ) : Prop where
  separate : Separate t'
  at_iff : ∀ a k, At t' a k ↔ ((lo ≤ a ∧ a < hi) ∧ k₀ = k) ∨ At t a k

section PutSlot

variable [DecidableEq ι]

theorem put_new (hw : Separate t) (hf : Free t lo hi) (hlt : lo < hi) (hj : t j = none) :
    Put t (update t j (some ⟨lo, hi, k⟩)) lo hi k := by
  refine ⟨hw.update_some hlt fun l r _ hl => (hf l r hl).symm, fun a k' => ?_⟩
  rw [at_update_some, ← at_iff_of_empty hj]
  rfl

theorem put_above (hw : Separate t) (hf : Free t s.hi hi) (hlt : s.hi < hi) (hs : t i = some s) :
    Put t (update t i (some { s with hi := hi })) s.hi hi s.attr := by
  have hp := hw.proper hs
  refine ⟨hw.update_some (hp.trans hlt) fun l r hne hl => ?_, fun a k => ?_⟩
  · rcases hw.apart (Ne.symm hne) hs hl with h | h
    · exact (hf l r hl).elim
        (fun h' => absurd (hw.proper hl) (not_lt.mpr (h'.trans h))) Or.inl
    · exact Or.inr h
  · rw [at_update_some, at_iff_of_slot hs, ← or_assoc]
    refine or_congr_left ⟨fun ⟨hm, hk⟩ => ?_, ?_⟩
    · exact (lt_or_ge a s.hi).elim (fun h => Or.inr ⟨⟨hm.1, h⟩, hk⟩)
        (fun h => Or.inl ⟨⟨h, hm.2⟩, hk⟩)
    · rintro (⟨hr, hk⟩ | ⟨hm, hk⟩)
      · exact ⟨⟨hp.le.trans hr.1, hr.2⟩, hk⟩
      · exact ⟨⟨hm.1, hm.2.trans hlt⟩, hk⟩

theorem put_below (hw : Separate t) (hf : Free t lo s.lo) (hlt : lo < s.lo) (hs : t i = some s) :
    Put t (update t i (some { s with lo := lo })) lo s.lo s.attr := by
  have hp := hw.proper hs
  refine ⟨hw.update_some (hlt.trans hp) fun l r hne hl => ?_, fun a k => ?_⟩
  · rcases hw.apart (Ne.symm hne) hs hl with h | h
    · exact Or.inl h
    · exact (hf l r hl).elim Or.inr
        (fun h' => absurd (hw.proper hl) (not_lt.mpr (h.trans h')))
  · rw [at_update_some, at_iff_of_slot hs, ← or_assoc]
    refine or_congr_left ⟨fun ⟨hm, hk⟩ => ?_, ?_⟩
    · exact (lt_or_ge a s.lo).elim (fun h => Or.inl ⟨⟨hm.1, h⟩, hk⟩)
        (fun h => Or.inr ⟨⟨h, hm.2⟩, hk⟩)
    · rintro (⟨hr, hk⟩ | ⟨hm, hk⟩)
      · exact ⟨⟨hr.1, hr.2.trans hp⟩, hk⟩
      · exact ⟨⟨hlt.le.trans hm.1, hm.2⟩, hk⟩

theorem put_between (hw : Separate t) (hf : Free t s.hi r.lo) (hlt : s.hi < r.lo)
    (hs : t i = some s) (hr : t j = some r) (hk : r.attr = s.attr) :
    Put t (update (update t i (some { s with hi := r.hi })) j none)
      s.hi r.lo s.attr := by
  have hij : i ≠ j := by
    rintro rfl
    rw [hs] at hr
    cases hr
    exact absurd (hw.proper hs) (not_lt.mpr hlt.le)
  have hcut := cut_all hw hr
  have hs' : update t j none i = some s := by rw [update_of_ne hij, hs]
  have hf' : Free (update t j none) s.hi r.hi := by
    intro l q hl
    obtain ⟨hlj, hl⟩ := of_update_none hl
    rcases hf l q hl with h | h
    · exact Or.inl h
    · refine Or.inr ((hw.apart hlj.symm hr hl).resolve_right fun h' => ?_)
      exact absurd (hw.proper hl) (not_lt.mpr (h'.trans h))
  have hput := put_above hcut.separate hf' (hlt.trans (hw.proper hr)) hs'
  rw [update_comm hij]
  refine ⟨hput.separate, fun a k => ?_⟩
  rw [hput.at_iff, hcut.at_iff, at_iff_of_slot hr]
  constructor
  · rintro (⟨hm, he⟩ | ⟨ha, -⟩)
    · exact (lt_or_ge a r.lo).elim (fun h => Or.inl ⟨⟨hm.1, h⟩, he⟩)
        (fun h => Or.inr (Or.inl ⟨⟨h, hm.2⟩, hk.trans he⟩))
    · exact Or.inr ha
  · rintro (⟨hm, he⟩ | ⟨hm, he⟩ | ho)
    · exact Or.inl ⟨⟨hm.1, hm.2.trans (hw.proper hr)⟩, he⟩
    · exact Or.inl ⟨⟨hlt.le.trans hm.1, hm.2⟩, hk.symm.trans he⟩
    · exact Or.inr ⟨Or.inr ho, fun hm => hw.not_atIn hr hm ho⟩

end PutSlot

theorem Put.within (h : Put t t' lo hi k) : Within t t' lo hi :=
  ⟨h.separate, fun a k' ha => (h.at_iff a k').trans
    ⟨fun h => h.resolve_left fun hr => ha hr.1, Or.inr⟩⟩

structure Remap (t t' : ι → Option (Seg α κ)) (lo hi : α) (f : κ → κ) : Prop where
  within : Within t t' lo hi
  at_iff : ∀ a k', lo ≤ a → a < hi → (At t' a k' ↔ ∃ k, At t a k ∧ f k = k')

theorem Remap.refl {f : κ → κ} (hw : Separate t) : Remap t t lo lo f :=
  ⟨Within.refl hw, fun _ _ h h' => absurd h' (not_lt.mpr h)⟩

theorem Remap.trans {f : κ → κ} (h : Remap t t' lo mid f) (h' : Remap t' t'' mid hi f)
    (hle : lo ≤ mid) (hle' : mid ≤ hi) : Remap t t'' lo hi f := by
  refine ⟨(h.within.mono le_rfl hle').trans (h'.within.mono hle le_rfl), fun a k' hlo hhi => ?_⟩
  rcases lt_or_ge a mid with ha | ha
  · rw [h'.within.at_iff a k' fun hr => absurd ha (not_lt.mpr hr.1), h.at_iff a k' hlo ha]
  · rw [h'.at_iff a k' ha hhi]
    simp only [h.within.at_iff a _ fun hr => absurd hr.2 (not_lt.mpr ha)]

theorem Cut.remap {f : κ → κ} (hw : Separate t) (hc : Cut t t' lo hi) (hp : Put t' t'' lo hi (f k))
    (hat : ∀ a, lo ≤ a → a < hi → At t a k) : Remap t t'' lo hi f := by
  refine ⟨hc.within.trans hp.within, fun a k' hlo hhi => ?_⟩
  rw [hp.at_iff, hc.at_iff]
  constructor
  · rintro (⟨-, hk⟩ | ⟨-, hn⟩)
    · exact ⟨k, hat a hlo hhi, hk⟩
    · exact absurd ⟨hlo, hhi⟩ hn
  · rintro ⟨k₁, hk₁, rfl⟩
    rw [hw.at_unique hk₁ (hat a hlo hhi)]
    exact Or.inl ⟨⟨hlo, hhi⟩, rfl⟩

def Below (R : κ → κ → Prop) (t t' : ι → Option (Seg α κ)) : Prop :=
  ∀ a k', At t' a k' → ∃ k, At t a k ∧ R k k'

section Below

variable {R : κ → κ → Prop}

theorem Below.refl [Std.Refl R] : Below R t t := fun _ k h => ⟨k, h, Std.Refl.refl k⟩

theorem Below.trans [IsTrans κ R] (h : Below R t t') (h' : Below R t' t'') : Below R t t'' := by
  intro a k'' ha
  obtain ⟨k', ha', hk'⟩ := h' a k'' ha
  obtain ⟨k, ha, hk⟩ := h a k' ha'
  exact ⟨k, ha, IsTrans.trans _ _ _ hk hk'⟩

theorem Cut.below [Std.Refl R] (h : Cut t t' lo hi) : Below R t t' :=
  fun a k ha => ⟨k, ((h.at_iff a k).mp ha).1, Std.Refl.refl k⟩

theorem Put.below (h : Put t' t'' lo hi k') (hb : Below R t t')
    (hat : ∀ a, lo ≤ a → a < hi → At t a k) (hk : R k k') : Below R t t'' := by
  intro a k'' ha
  rcases (h.at_iff a k'').mp ha with ⟨hr, rfl⟩ | ha
  · exact ⟨k, hat a hr.1 hr.2, hk⟩
  · exact hb a k'' ha

end Below

end Kyronix.Lib.Intervals
