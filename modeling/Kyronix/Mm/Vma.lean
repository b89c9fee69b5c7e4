import Kyronix.Errno
import Kyronix.Lib.Word
import Kyronix.Lib.Intervals

/-! The table of user mappings of an address space (`vma.c`): a fixed array of slots, scanned in
index order and rewritten in place. -/
namespace Kyronix.Mm

open Lib Word Lib.Intervals Function

-- VMM_VMA_MAX; the operations are stated for a table of any size
def vmmVmaMax : ℕ := 2048

structure Vma where
  start : UInt64
  end_ : UInt64
  prot : UInt32
  mapFlags : UInt32
  used : Bool
  freeOnUnmap : Bool
deriving DecidableEq, Repr

open Vma

def Vma.zero : Vma := ⟨0, 0, 0, 0, false, false⟩

abbrev VmaTable (n : ℕ) := Fin n → Vma

variable {n : ℕ}

def rangeEnd (start len : UInt64) : Option UInt64 :=
  if len = 0 then none
  else if start + len > start then some (start + len) else none

variable (v : Vma) (t : VmaTable n)

def emptySlot : Option (Fin n) :=
  (List.finRange n).find? fun i => !(t i).used

def containing (addr : UInt64) : Option (Fin n) :=
  (List.finRange n).find? fun i =>
    (t i).used && decide (addr ≥ (t i).start) && decide (addr < (t i).end_)

def vmaReset : VmaTable n := fun _ => zero

def vmaConflicts (start len : UInt64) : Bool :=
  match rangeEnd start len with
  | none => true
  | some end_ => (List.finRange n).any fun i =>
      (t i).used && decide (start < (t i).end_) && decide (end_ > (t i).start)

def vmaSameKind (prot mapFlags : UInt32) (freeOnUnmap : Bool) : Bool :=
  v.prot == prot && v.mapFlags == mapFlags && v.freeOnUnmap == freeOnUnmap

-- the scan of `vma_add` for the two neighbours; the last match of each kind is kept
def vmaNeighbour (start end_ : UInt64) (prot mapFlags : UInt32) (freeOnUnmap : Bool)
    (r : Option (Fin n) × Option (Fin n)) (i : Fin n) : Option (Fin n) × Option (Fin n) :=
  if !(t i).used || !vmaSameKind (t i) prot mapFlags freeOnUnmap then r
  else if (t i).end_ = start then (some i, r.2)
  else if (t i).start = end_ then (r.1, some i)
  else r

def vmaNeighbours (start end_ : UInt64) (prot mapFlags : UInt32)
    (freeOnUnmap : Bool) : Option (Fin n) × Option (Fin n) :=
  (List.finRange n).foldl (vmaNeighbour t start end_ prot mapFlags freeOnUnmap) (none, none)

def vmaAdd (start len : UInt64) (prot mapFlags : UInt32) (freeOnUnmap : Bool) : ℤ × VmaTable n :=
  match rangeEnd start len with
  | none => (-einval, t)
  | some end_ =>
    if vmaConflicts t start len then (-einval, t)
    else match vmaNeighbours t start end_ prot mapFlags freeOnUnmap with
      | (some b, some a) =>
        (0, update (update t b { t b with end_ := (t a).end_ }) a zero)
      | (some b, none) => (0, update t b { t b with end_ := end_ })
      | (none, some a) => (0, update t a { t a with start := start })
      | (none, none) =>
        match emptySlot t with
        | none => (-enomem, t)
        | some v => (0, update t v ⟨start, end_, prot, mapFlags, true, freeOnUnmap⟩)

def splitForHole (v : Fin n) (start end_ : UInt64) : ℤ × VmaTable n :=
  let left := decide (start > (t v).start)
  let right := decide (end_ < (t v).end_)
  match left, right, emptySlot t with
  | true, true, none => (-enomem, t)
  | false, false, _ => (0, update t v zero)
  | true, false, _ => (0, update t v { t v with end_ := start })
  | false, true, _ => (0, update t v { t v with start := end_ })
  | true, true, some r =>
    (0, update (update t r { t v with start := end_ }) v
      { t v with end_ := start })

theorem containing_spec {t : VmaTable n} {addr : UInt64} {v : Fin n}
    (h : containing t addr = some v) :
    (t v).used = true ∧ (t v).start ≤ addr ∧ addr < (t v).end_ := by
  have hp := List.find?_some h
  simp only [Bool.and_eq_true, decide_eq_true_eq] at hp
  exact ⟨hp.1.1, hp.1.2, hp.2⟩

def cutEnd (end_ : UInt64) : UInt64 := if v.end_ < end_ then v.end_ else end_

theorem lt_cutEnd {v : Vma} {cur end_ : UInt64} (h : cur < v.end_) (h' : cur < end_) :
    cur < cutEnd v end_ := by
  unfold cutEnd
  split
  · exact h
  · exact h'

theorem cutEnd_le (end_ : UInt64) : cutEnd v end_ ≤ end_ ∧ cutEnd v end_ ≤ v.end_ := by
  unfold cutEnd
  split
  next h => exact ⟨h.le, le_rfl⟩
  next h => exact ⟨le_rfl, not_lt.mp h⟩

theorem walk_decreases {t : VmaTable n} {cur end_ : UInt64} {v : Fin n} (h : cur < end_)
    (hv : containing t cur = some v) :
    end_.toNat - (cutEnd (t v) end_).toNat < end_.toNat - cur.toNat := by
  have hlt := UInt64.lt_iff_toNat_lt.mp (lt_cutEnd (containing_spec hv).2.2 h)
  have hle := UInt64.le_iff_toNat_le.mp (cutEnd_le (t v) end_).1
  omega

def vmaRangeOkFrom (t : VmaTable n) (end_ cur : UInt64) : Bool :=
  if _h : cur < end_ then
    match _hv : containing t cur with
    | none => false
    | some v => vmaRangeOkFrom t end_ (cutEnd (t v) end_)
  else true
termination_by end_.toNat - cur.toNat
decreasing_by exact walk_decreases _h _hv

def vmaRangeOk (start len : UInt64) : Bool :=
  match rangeEnd start len with
  | none => false
  | some end_ => vmaRangeOkFrom t end_ start

def vmaRemoveFrom (t : VmaTable n) (end_ cur : UInt64) : ℤ × VmaTable n :=
  if _h : cur < end_ then
    match _hv : containing t cur with
    | none => (-einval, t)
    | some v =>
      match splitForHole t v cur (cutEnd (t v) end_) with
      | (rc, t') => if rc < 0 then (rc, t') else vmaRemoveFrom t' end_ (cutEnd (t v) end_)
  else (0, t)
termination_by end_.toNat - cur.toNat
decreasing_by exact walk_decreases _h _hv

def vmaRemove (start len : UInt64) : ℤ × VmaTable n :=
  match rangeEnd start len with
  | none => (-einval, t)
  | some end_ => if !vmaRangeOk t start len then (-einval, t) else vmaRemoveFrom t end_ start

def overlapStart (start : UInt64) : UInt64 :=
  if start > v.start then start else v.start

def overlapEnd (end_ : UInt64) : UInt64 := if end_ < v.end_ then end_ else v.end_

-- the rest of the scan of `vma_remove_overlaps`, over the slots still to be visited
def vmaRemoveOverlapsFrom (start end_ : UInt64) : List (Fin n) → VmaTable n → ℤ × VmaTable n
  | [], t => (0, t)
  | v :: rest, t =>
    if !(t v).used then vmaRemoveOverlapsFrom start end_ rest t
    else if start ≥ (t v).end_ ∨ end_ ≤ (t v).start then vmaRemoveOverlapsFrom start end_ rest t
    else
      match splitForHole t v (overlapStart (t v) start) (overlapEnd (t v) end_) with
      | (rc, t') => if rc < 0 then (rc, t') else vmaRemoveOverlapsFrom start end_ rest t'

def vmaRemoveOverlaps (start len : UInt64) : ℤ × VmaTable n :=
  match rangeEnd start len with
  | none => (-einval, t)
  | some end_ => vmaRemoveOverlapsFrom start end_ (List.finRange n) t

def vmaProtectFrom (prot : UInt32) (t : VmaTable n) (end_ cur : UInt64) : ℤ × VmaTable n :=
  if _h : cur < end_ then
    match _hv : containing t cur with
    | none => (-einval, t)
    | some v =>
      match splitForHole t v cur (cutEnd (t v) end_) with
      | (rc, t') =>
        if rc < 0 then (rc, t')
        else match vmaAdd t' cur (cutEnd (t v) end_ - cur) prot (t v).mapFlags
            (t v).freeOnUnmap with
          | (rc, t'') =>
            if rc < 0 then (rc, t'') else vmaProtectFrom prot t'' end_ (cutEnd (t v) end_)
  else (0, t)
termination_by end_.toNat - cur.toNat
decreasing_by exact walk_decreases _h _hv

def vmaProtect (start len : UInt64) (prot : UInt32) : ℤ × VmaTable n :=
  match rangeEnd start len with
  | none => (-einval, t)
  | some end_ => if !vmaRangeOk t start len then (-einval, t) else vmaProtectFrom prot t end_ start

structure VmaAttrs where
  prot : UInt32
  mapFlags : UInt32
  freeOnUnmap : Bool
deriving DecidableEq, Repr

def Vma.attrs : VmaAttrs := ⟨v.prot, v.mapFlags, v.freeOnUnmap⟩

def Vma.seg? : Option (Seg UInt64 VmaAttrs) :=
  if v.used then some ⟨v.start, v.end_, v.attrs⟩ else none

def segs : Fin n → Option (Seg UInt64 VmaAttrs) := fun i => (t i).seg?

variable {t t' : VmaTable n} {v i : Fin n} {start end_ len : UInt64}

variable {w : Vma}

theorem Vma.seg?_of_used (h : w.used = true) : w.seg? = some ⟨w.start, w.end_, w.attrs⟩ := if_pos h

variable {s : Seg UInt64 VmaAttrs}

theorem Vma.seg?_eq_some : w.seg? = some s ↔ w.used = true ∧ s = ⟨w.start, w.end_, w.attrs⟩ := by
  unfold seg?
  split
  next h => simp only [h, true_and, Option.some.injEq, eq_comm]
  next h => simp only [h, false_and, reduceCtorEq]

theorem Vma.seg?_setStart (h : w.seg? = some s)
    (x : UInt64) : { w with start := x }.seg? = some { s with lo := x } := by
  obtain ⟨hu, rfl⟩ := seg?_eq_some.mp h
  exact seg?_of_used hu

theorem Vma.seg?_setEnd (h : w.seg? = some s)
    (x : UInt64) : { w with end_ := x }.seg? = some { s with hi := x } := by
  obtain ⟨hu, rfl⟩ := seg?_eq_some.mp h
  exact seg?_of_used hu

theorem segs_update (w : Vma) : segs (update t i w) = update (segs t) i w.seg? := by
  funext j
  by_cases h : j = i
  · rw [h, segs, update_self, update_self]
  · rw [segs, update_of_ne h, update_of_ne h, segs]

theorem segs_eq_none : segs t i = none ↔ (t i).used = false := by
  simp only [segs, seg?, ite_eq_right_iff, reduceCtorEq, imp_false, Bool.not_eq_true]

theorem emptySlot_spec (h : emptySlot t = some v) : segs t v = none := by
  have hp := List.find?_some h
  exact segs_eq_none.mpr (by simpa using hp)

theorem rangeEnd_spec (h : rangeEnd start len = some end_) : start < end_ ∧ end_ = start + len := by
  unfold rangeEnd at h
  split_ifs at h with h₀ h₁
  cases h
  exact ⟨h₁, rfl⟩

theorem rangeEnd_of_lt (h : start < start + len) : rangeEnd start len = some (start + len) := by
  have h₀ : len ≠ 0 := by
    rintro rfl
    exact absurd h (by rw [UInt64.add_zero]; exact lt_irrefl _)
  rw [rangeEnd, if_neg h₀, if_pos h]

theorem vmaConflicts_spec (h : rangeEnd start len = some end_)
    (hc : vmaConflicts t start len = false) : Free (segs t) start end_ := by
  intro i s hs
  obtain ⟨hu, rfl⟩ := seg?_eq_some.mp hs
  simp only [vmaConflicts, h, List.any_eq_false, List.mem_finRange, forall_const,
    Bool.and_eq_true, decide_eq_true_eq] at hc
  by_contra hne
  obtain ⟨h₁, h₂⟩ := not_or.mp hne
  exact hc i ⟨⟨hu, not_le.mp h₁⟩, not_le.mp h₂⟩

theorem vmaSameKind_spec {prot mapFlags : UInt32} {free : Bool}
    (h : vmaSameKind w prot mapFlags free = true) : w.attrs = ⟨prot, mapFlags, free⟩ := by
  simp only [vmaSameKind, Bool.and_eq_true, beq_iff_eq] at h
  rw [attrs, h.1.1, h.1.2, h.2]

structure Adjoining (t : VmaTable n) (start end_ : UInt64) (k : VmaAttrs)
    (r : Option (Fin n) × Option (Fin n)) : Prop where
  before : ∀ b, r.1 = some b → segs t b = some ⟨(t b).start, start, k⟩
  after : ∀ a, r.2 = some a → segs t a = some ⟨end_, (t a).end_, k⟩

theorem vmaNeighbours_spec (t : VmaTable n) (start end_ : UInt64) (prot mapFlags : UInt32)
    (free : Bool) : Adjoining t start end_ ⟨prot, mapFlags, free⟩
      (vmaNeighbours t start end_ prot mapFlags free) := by
  refine List.foldlRecOn (motive := Adjoining t start end_ ⟨prot, mapFlags, free⟩)
    (List.finRange n) _ ⟨nofun, nofun⟩ ?_
  rintro r ⟨hb, ha⟩ i -
  unfold vmaNeighbour
  split_ifs with hk he hs
  · exact ⟨hb, ha⟩
  all_goals simp only [Bool.or_eq_true, Bool.not_eq_true', not_or, Bool.not_eq_false] at hk
  · refine ⟨fun b h => ?_, ha⟩
    cases h
    rw [segs, seg?_of_used hk.1, he, vmaSameKind_spec hk.2]
  · refine ⟨hb, fun a h => ?_⟩
    cases h
    rw [segs, seg?_of_used hk.1, hs, vmaSameKind_spec hk.2]
  · exact ⟨hb, ha⟩

def Atomic (t : VmaTable n) (Q : VmaTable n → Prop) (r : ℤ × VmaTable n) : Prop :=
  r.1 < 0 ∧ r.2 = t ∨ r.1 = 0 ∧ Q r.2

theorem Atomic.failed {Q : VmaTable n → Prop} {r : ℤ × VmaTable n} {rc : ℤ} (h : Atomic t Q r)
    (hr : r = (rc, t')) (hneg : rc < 0) : t' = t := by
  subst hr
  exact (h.resolve_right fun h => hneg.ne h.1).2

theorem Atomic.done {Q : VmaTable n → Prop} {r : ℤ × VmaTable n} {rc : ℤ} (h : Atomic t Q r)
    (hr : r = (rc, t')) (hneg : ¬ rc < 0) : Q t' := by
  subst hr
  exact (h.resolve_left fun h => hneg h.1).2

theorem vmaAdd_spec (hw : Separate (segs t)) (start len : UInt64) (prot mapFlags : UInt32)
    (free : Bool) :
    Atomic t (fun t' => start < start + len ∧ Free (segs t) start (start + len) ∧
        Put (segs t) (segs t') start (start + len) ⟨prot, mapFlags, free⟩)
      (vmaAdd t start len prot mapFlags free) := by
  unfold vmaAdd
  split
  next => exact Or.inl ⟨neg_errno_lt, rfl⟩
  next end_ he =>
    obtain ⟨hlt, rfl⟩ := rangeEnd_spec he
    split
    next => exact Or.inl ⟨neg_errno_lt, rfl⟩
    next hc =>
      have hf := vmaConflicts_spec he (Bool.not_eq_true _ ▸ hc)
      obtain ⟨hb, ha⟩ := vmaNeighbours_spec t start (start + len) prot mapFlags free
      rcases hn : vmaNeighbours t start (start + len) prot mapFlags free with ⟨_ | b, _ | a⟩ <;>
        rw [hn] at hb ha <;> dsimp only
      · split
        next => exact Or.inl ⟨neg_errno_lt, rfl⟩
        next v hv =>
          refine Or.inr ⟨rfl, hlt, hf, ?_⟩
          rw [segs_update]
          exact put_new hw hf hlt (emptySlot_spec hv)
      · refine Or.inr ⟨rfl, hlt, hf, ?_⟩
        rw [segs_update, seg?_setStart (ha a rfl)]
        exact put_below hw hf hlt (ha a rfl)
      · refine Or.inr ⟨rfl, hlt, hf, ?_⟩
        rw [segs_update, seg?_setEnd (hb b rfl)]
        exact put_above hw hf hlt (hb b rfl)
      · refine Or.inr ⟨rfl, hlt, hf, ?_⟩
        rw [segs_update, segs_update, seg?_setEnd (hb b rfl)]
        exact put_between hw hf hlt (hb b rfl) (ha a rfl) rfl

def KeepsOthers (t t' : VmaTable n) (v : Fin n) : Prop :=
  ∀ i s, i ≠ v → segs t i = some s → segs t' i = some s

theorem keepsOthers_update (w : Vma) : KeepsOthers t (update t v w) v := by
  intro i s hne hs
  rw [segs_update, update_of_ne hne, hs]

theorem splitForHole_spec (hw : Separate (segs t)) (hu : (t v).used = true)
    (hlo : (t v).start ≤ start) (hlt : start < end_) (hhi : end_ ≤ (t v).end_) :
    Atomic t (fun t' => Cut (segs t) (segs t') start end_ ∧ KeepsOthers t t' v)
      (splitForHole t v start end_) := by
  have hs : segs t v = some ⟨(t v).start, (t v).end_, (t v).attrs⟩ := seg?_of_used hu
  unfold splitForHole
  dsimp only
  split
  next => exact Or.inl ⟨neg_errno_lt, rfl⟩
  next _ hl hr =>
    obtain rfl := le_antisymm (not_lt.mp (of_decide_eq_false hl)) hlo
    obtain rfl := le_antisymm hhi (not_lt.mp (of_decide_eq_false hr))
    refine Or.inr ⟨rfl, ?_, keepsOthers_update _⟩
    rw [segs_update]
    exact cut_all hw hs
  next _ hl hr =>
    obtain rfl := le_antisymm hhi (not_lt.mp (of_decide_eq_false hr))
    refine Or.inr ⟨rfl, ?_, keepsOthers_update _⟩
    rw [segs_update, seg?_setEnd hs]
    exact cut_right_end hw hs (of_decide_eq_true hl) hlt
  next _ hl hr =>
    obtain rfl := le_antisymm (not_lt.mp (of_decide_eq_false hl)) hlo
    refine Or.inr ⟨rfl, ?_, keepsOthers_update _⟩
    rw [segs_update, seg?_setStart hs]
    exact cut_left_end hw hs hlt (of_decide_eq_true hr)
  next r hl hr he =>
    have hr₀ := emptySlot_spec he
    refine Or.inr ⟨rfl, ?_, ?_⟩
    · rw [segs_update, segs_update, seg?_setEnd hs, seg?_setStart hs]
      exact cut_middle hw hs hr₀ (of_decide_eq_true hl) hlt (of_decide_eq_true hr)
    · intro i s hne hi
      refine keepsOthers_update _ i s hne (keepsOthers_update _ i s ?_ hi)
      rintro rfl
      rw [hr₀] at hi
      cases hi

def SameKind (k k' : VmaAttrs) : Prop := k'.mapFlags = k.mapFlags ∧ k'.freeOnUnmap = k.freeOnUnmap

instance : Std.Refl SameKind := ⟨fun _ => ⟨rfl, rfl⟩⟩

instance : IsTrans VmaAttrs SameKind :=
  ⟨fun _ _ _ h h' => ⟨h'.1.trans h.1, h'.2.trans h.2⟩⟩

def Trimmed (t t' : VmaTable n) (lo hi : UInt64) : Prop :=
  Within (segs t) (segs t') lo hi ∧ Below SameKind (segs t) (segs t')

theorem Trimmed.refl (hw : Separate (segs t)) : Trimmed t t start end_ :=
  ⟨Within.refl hw, Below.refl⟩

theorem Trimmed.step {t'' : VmaTable n} {lo hi mid : UInt64} (h : Trimmed t t' lo hi)
    (h' : Trimmed t' t'' mid end_) (hlo : start ≤ lo) (hhi : hi ≤ end_) (hmid : start ≤ mid) :
    Trimmed t t'' start end_ :=
  ⟨(h.1.mono hlo hhi).trans (h'.1.mono hmid le_rfl), h.2.trans h'.2⟩

theorem trimmed_of_cut {lo hi : UInt64} (h : Cut (segs t) (segs t') lo hi) : Trimmed t t' lo hi :=
  ⟨h.within, h.below⟩

theorem containing_some (h : containing t start = some v) :
    segs t v = some ⟨(t v).start, (t v).end_, (t v).attrs⟩ :=
  seg?_of_used (containing_spec h).1

theorem containing_at (h : containing t start = some v) {a : UInt64} (hlo : start ≤ a)
    (hhi : a < cutEnd (t v) end_) : At (segs t) a (t v).attrs := by
  obtain ⟨-, h₁, -⟩ := containing_spec h
  exact ⟨v, _, trivial, containing_some h,
    ⟨h₁.trans hlo, hhi.trans_le (cutEnd_le (t v) end_).2⟩, rfl⟩

theorem split_containing_spec (hw : Separate (segs t)) (hlt : start < end_)
    (hv : containing t start = some v) :
    Atomic t (fun t' => Cut (segs t) (segs t') start (cutEnd (t v) end_))
      (splitForHole t v start (cutEnd (t v) end_)) := by
  obtain ⟨hu, h₁, h₂⟩ := containing_spec hv
  have h := splitForHole_spec hw hu h₁ (lt_cutEnd h₂ hlt) (cutEnd_le (t v) end_).2
  exact h.imp_right fun h => ⟨h.1, h.2.1⟩

theorem vmaRangeOkFrom_spec (h : vmaRangeOkFrom t end_ start = true) {a : UInt64}
    (hlo : start ≤ a) (hhi : a < end_) : ∃ k, At (segs t) a k := by
  fun_induction vmaRangeOkFrom t end_ start with
  | case1 => cases h
  | case2 cur hlt v hv ih =>
    rcases lt_or_ge a (cutEnd (t v) end_) with hc | hc
    · exact ⟨_, containing_at hv hlo hc⟩
    · exact ih h hc
  | case3 cur hge => exact absurd (hlo.trans_lt hhi) hge

theorem vmaRemoveFrom_spec (hw : Separate (segs t)) (hle : start ≤ end_) :
    Trimmed t (vmaRemoveFrom t end_ start).2 start end_ ∧
      ((vmaRemoveFrom t end_ start).1 = 0 →
        Cut (segs t) (segs (vmaRemoveFrom t end_ start).2) start end_) := by
  fun_induction vmaRemoveFrom t end_ start with
  | case1 t cur hlt hv => exact ⟨Trimmed.refl hw, fun h => absurd h (neg_errno_lt).ne⟩
  | case2 t cur hlt v hv rc t' hs hneg =>
    obtain rfl := (split_containing_spec hw hlt hv).failed hs hneg
    exact ⟨Trimmed.refl hw, fun h => absurd h hneg.ne⟩
  | case3 t cur hlt v hv rc t' hs hneg ih =>
    have hcut := (split_containing_spec hw hlt hv).done hs hneg
    have hle' := (cutEnd_le (t v) end_).1
    have hlt' := lt_cutEnd (containing_spec hv).2.2 hlt
    obtain ⟨ihw, ihc⟩ := ih hcut.separate hle'
    refine ⟨(trimmed_of_cut hcut).step ihw le_rfl hle' hlt'.le, fun h => ?_⟩
    exact hcut.trans (ihc h) hlt'.le hle'
  | case4 t cur hge =>
    obtain rfl := le_antisymm hle (not_lt.mp hge)
    exact ⟨Trimmed.refl hw, fun _ => Cut.refl hw⟩

theorem vmaRemove_spec (hw : Separate (segs t)) (h : rangeEnd start len = some end_) :
    Within (segs t) (segs (vmaRemove t start len).2) start end_ ∧
      ((vmaRemove t start len).1 = 0 →
        (∀ a, start ≤ a → a < end_ → ∃ k, At (segs t) a k) ∧
        Cut (segs t) (segs (vmaRemove t start len).2) start end_) := by
  obtain ⟨hlt, -⟩ := rangeEnd_spec h
  simp only [vmaRemove, vmaRangeOk, h]
  split
  next => exact ⟨Within.refl hw, fun h => absurd h (neg_errno_lt).ne⟩
  next hok =>
    have hspec := vmaRemoveFrom_spec hw hlt.le
    refine ⟨hspec.1.1, fun h0 => ⟨fun a hlo hhi => ?_, hspec.2 h0⟩⟩
    exact vmaRangeOkFrom_spec (by simpa using hok) hlo hhi

theorem vmaProtectFrom_spec (prot : UInt32) (hw : Separate (segs t)) (hle : start ≤ end_) :
    Trimmed t (vmaProtectFrom prot t end_ start).2 start end_ ∧
      ((vmaProtectFrom prot t end_ start).1 = 0 →
        Remap (segs t) (segs (vmaProtectFrom prot t end_ start).2) start end_
          fun k => { k with prot := prot }) := by
  fun_induction vmaProtectFrom prot t end_ start with
  | case1 t cur hlt hv => exact ⟨Trimmed.refl hw, fun h => absurd h (neg_errno_lt).ne⟩
  | case2 t cur hlt v hv rc t' hs hneg =>
    obtain rfl := (split_containing_spec hw hlt hv).failed hs hneg
    exact ⟨Trimmed.refl hw, fun h => absurd h hneg.ne⟩
  | case3 t cur hlt v hv rc t' hs hneg rc' t'' ha hneg' =>
    have hcut := (split_containing_spec hw hlt hv).done hs hneg
    obtain rfl := (vmaAdd_spec hcut.separate ..).failed ha hneg'
    have hle' := (cutEnd_le (t v) end_).1
    exact ⟨⟨hcut.within.mono le_rfl hle', hcut.below⟩, fun h => absurd h hneg'.ne⟩
  | case4 t cur hlt v hv rc t' hs hneg rc' t'' ha hneg' ih =>
    have hcut := (split_containing_spec hw hlt hv).done hs hneg
    obtain ⟨-, -, hput⟩ := (vmaAdd_spec hcut.separate ..).done ha hneg'
    rw [add_sub_cancel] at hput
    have hle' := (cutEnd_le (t v) end_).1
    have hlt' := lt_cutEnd (containing_spec hv).2.2 hlt
    have hat : ∀ a, cur ≤ a → a < cutEnd (t v) end_ → At (segs t) a (t v).attrs :=
      fun a hlo hhi => containing_at hv hlo hhi
    have hmap := hcut.remap (k := (t v).attrs) (f := fun k => { k with prot := prot }) hw hput hat
    have hstep : Trimmed t t'' cur (cutEnd (t v) end_) :=
      ⟨hmap.within, hput.below hcut.below hat ⟨rfl, rfl⟩⟩
    obtain ⟨ihw, ihm⟩ := ih hput.separate hle'
    refine ⟨hstep.step ihw le_rfl hle' hlt'.le, fun h => ?_⟩
    exact hmap.trans (ihm h) hlt'.le hle'
  | case5 t cur hge =>
    obtain rfl := le_antisymm hle (not_lt.mp hge)
    exact ⟨Trimmed.refl hw, fun _ => Remap.refl hw⟩

theorem vmaProtect_spec {prot : UInt32} (hw : Separate (segs t))
    (h : rangeEnd start len = some end_) :
    Within (segs t) (segs (vmaProtect t start len prot).2) start end_ ∧
      ((vmaProtect t start len prot).1 = 0 →
        (∀ a, start ≤ a → a < end_ → ∃ k, At (segs t) a k) ∧
        Remap (segs t) (segs (vmaProtect t start len prot).2) start end_
          fun k => { k with prot := prot }) := by
  obtain ⟨hlt, -⟩ := rangeEnd_spec h
  simp only [vmaProtect, vmaRangeOk, h]
  split
  next => exact ⟨Within.refl hw, fun h => absurd h (neg_errno_lt).ne⟩
  next hok =>
    have hspec := vmaProtectFrom_spec prot hw hlt.le
    refine ⟨hspec.1.1, fun h0 => ⟨fun a hlo hhi => ?_, hspec.2 h0⟩⟩
    exact vmaRangeOkFrom_spec (by simpa using hok) hlo hhi

theorem overlapStart_eq (w : Vma) : overlapStart w start = max start w.start := by
  unfold overlapStart
  split
  next h => exact (max_eq_left h.le).symm
  next h => exact (max_eq_right (not_lt.mp h)).symm

theorem overlapEnd_eq (w : Vma) : overlapEnd w end_ = min end_ w.end_ := by
  unfold overlapEnd
  split
  next h => exact (min_eq_left h.le).symm
  next h => exact (min_eq_right (not_lt.mp h)).symm

def OnlyIn (rest : List (Fin n)) (t : VmaTable n) (start end_ : UInt64) : Prop :=
  ∀ a k, start ≤ a → a < end_ → At (segs t) a k → AtIn (· ∈ rest) (segs t) a k

theorem OnlyIn.skip {rest : List (Fin n)} (h : OnlyIn (v :: rest) t start end_)
    (hv : ∀ s, segs t v = some s → s.hi ≤ start ∨ end_ ≤ s.lo) : OnlyIn rest t start end_ := by
  intro a k hlo hhi hat
  obtain ⟨i, s, hi, hs, hm, hk⟩ := h a k hlo hhi hat
  rcases List.mem_cons.mp hi with rfl | hi
  · rcases hv s hs with hle | hle
    · exact absurd (hm.2.trans_le hle) (not_lt.mpr hlo)
    · exact absurd (hhi.trans_le hle) (not_lt.mpr hm.1)
  · exact ⟨i, s, hi, hs, hm, hk⟩

theorem OnlyIn.cut {rest : List (Fin n)} (h : OnlyIn (v :: rest) t start end_)
    (hc : Cut (segs t) (segs t') (max start (t v).start) (min end_ (t v).end_))
    (hk : KeepsOthers t t' v) : OnlyIn rest t' start end_ := by
  intro a k hlo hhi hat
  obtain ⟨hat, hn⟩ := (hc.at_iff a k).mp hat
  obtain ⟨i, s, hi, hs, hm, rfl⟩ := h a k hlo hhi hat
  have hiv : i ≠ v := by
    rintro rfl
    obtain rfl := (seg?_eq_some.mp hs).2
    exact hn ⟨max_le hlo hm.1, lt_min hhi hm.2⟩
  exact ⟨i, s, (List.mem_cons.mp hi).resolve_left hiv, hk i s hiv hs, hm, rfl⟩

theorem overlap_lt (hw : Separate (segs t)) (hlt : start < end_) (hu : (t v).used = true)
    (hap : ¬ (start ≥ (t v).end_ ∨ end_ ≤ (t v).start)) :
    max start (t v).start < min end_ (t v).end_ := by
  obtain ⟨h₁, h₂⟩ := not_or.mp hap
  exact max_lt (lt_min hlt (not_le.mp h₁)) (lt_min (not_le.mp h₂) (hw.proper (seg?_of_used hu)))

theorem split_overlap_spec (hw : Separate (segs t)) (hlt : start < end_)
    (hu : (t v).used = true) (hap : ¬ (start ≥ (t v).end_ ∨ end_ ≤ (t v).start)) :
    Atomic t (fun t' => Cut (segs t) (segs t') (max start (t v).start) (min end_ (t v).end_) ∧
        KeepsOthers t t' v)
      (splitForHole t v (overlapStart (t v) start) (overlapEnd (t v) end_)) := by
  rw [overlapStart_eq, overlapEnd_eq]
  exact splitForHole_spec hw hu (le_max_right ..) (overlap_lt hw hlt hu hap) (min_le_right ..)

theorem vmaRemoveOverlapsFrom_spec (hlt : start < end_) (rest : List (Fin n))
    (hw : Separate (segs t)) :
    Trimmed t (vmaRemoveOverlapsFrom start end_ rest t).2 start end_ ∧
      (OnlyIn rest t start end_ → (vmaRemoveOverlapsFrom start end_ rest t).1 = 0 →
        Cut (segs t) (segs (vmaRemoveOverlapsFrom start end_ rest t).2) start end_) := by
  fun_induction vmaRemoveOverlapsFrom start end_ rest t with
  | case1 t =>
    refine ⟨Trimmed.refl hw, fun ho _ => Cut.of_within (Within.refl hw) fun a k hlo hhi hat => ?_⟩
    obtain ⟨i, s, hi, -⟩ := ho a k hlo hhi hat
    cases hi
  | case2 v rest t hu ih =>
    refine ⟨(ih hw).1, fun ho => (ih hw).2 (ho.skip fun s hs => ?_)⟩
    rw [segs_eq_none.mpr (by simpa using hu)] at hs
    cases hs
  | case3 v rest t hu hap ih =>
    refine ⟨(ih hw).1, fun ho => (ih hw).2 (ho.skip fun s hs => ?_)⟩
    obtain rfl := (seg?_eq_some.mp hs).2
    exact hap
  | case4 v rest t hu hap rc t' hs hneg =>
    obtain rfl := (split_overlap_spec hw hlt (by simpa using hu) hap).failed hs hneg
    exact ⟨Trimmed.refl hw, fun _ h => absurd h hneg.ne⟩
  | case5 v rest t hu hap rc t' hs hneg ih =>
    obtain ⟨hcut, hk⟩ := (split_overlap_spec hw hlt (by simpa using hu) hap).done hs hneg
    obtain ⟨ihw, ihc⟩ := ih hcut.separate
    have hall := (trimmed_of_cut hcut).step ihw (le_max_left ..) (min_le_left ..) le_rfl
    refine ⟨hall, fun ho h => Cut.of_within hall.1 fun a k hlo hhi hat => ?_⟩
    exact (((ihc (ho.cut hcut hk) h).at_iff a k).mp hat).2 ⟨hlo, hhi⟩

variable (hw : Separate (segs t))
include hw

theorem vmaRemoveOverlaps_spec (h : rangeEnd start len = some end_) :
    Within (segs t) (segs (vmaRemoveOverlaps t start len).2) start end_ ∧
      ((vmaRemoveOverlaps t start len).1 = 0 →
        Cut (segs t) (segs (vmaRemoveOverlaps t start len).2) start end_) := by
  simp only [vmaRemoveOverlaps, h]
  obtain ⟨htrim, hcut⟩ := vmaRemoveOverlapsFrom_spec (rangeEnd_spec h).1 (List.finRange n) hw
  refine ⟨htrim.1, hcut ?_⟩
  rintro a k - - ⟨i, s, -, hs, hm⟩
  exact ⟨i, s, List.mem_finRange i, hs, hm⟩

theorem vmaRemove_below (start len : UInt64) :
    Below SameKind (segs t) (segs (vmaRemove t start len).2) := by
  unfold vmaRemove
  split
  · exact Below.refl
  next he =>
    split
    · exact Below.refl
    · exact (vmaRemoveFrom_spec hw (rangeEnd_spec he).1.le).1.2

theorem vmaRemoveOverlaps_below (start len : UInt64) :
    Below SameKind (segs t) (segs (vmaRemoveOverlaps t start len).2) := by
  unfold vmaRemoveOverlaps
  split
  · exact Below.refl
  next he => exact (vmaRemoveOverlapsFrom_spec (rangeEnd_spec he).1 _ hw).1.2

theorem vmaProtect_below (start len : UInt64) (prot : UInt32) :
    Below SameKind (segs t) (segs (vmaProtect t start len prot).2) := by
  unfold vmaProtect
  split
  · exact Below.refl
  next he =>
    split
    · exact Below.refl
    · exact (vmaProtectFrom_spec prot hw (rangeEnd_spec he).1.le).1.2

end Kyronix.Mm
