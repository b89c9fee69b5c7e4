import Kyronix.Mm.Vma

/-! What the table of mappings is for: a partial map from addresses to attributes, which every call,
failed ones included, changes on its range only. -/
namespace Kyronix.Mm

open Lib Word Lib.Intervals

variable {n : ℕ}

abbrev VmaMap := UInt64 → Option VmaAttrs

def lookup (t : VmaTable n) : VmaMap := fun a => (containing t a).map fun v => (t v).attrs

-- `[start, start + len)` without wrapping
def InRange (start len a : UInt64) : Prop :=
  start.toNat ≤ a.toNat ∧ a.toNat < start.toNat + len.toNat

instance (start len a : UInt64) : Decidable (InRange start len a) :=
  inferInstanceAs (Decidable (_ ∧ _))

inductive VmaOp
  | add (start len : UInt64) (prot mapFlags : UInt32) (freeOnUnmap : Bool)
  | remove (start len : UInt64)
  | removeOverlaps (start len : UInt64)
  | protect (start len : UInt64) (prot : UInt32)

namespace VmaOp

def Touches : VmaOp → UInt64 → Prop
  | add start len _ _ _, a => InRange start len a
  | remove start len, a => InRange start len a
  | removeOverlaps start len, a => InRange start len a
  | protect start len _, a => InRange start len a

def call (t : VmaTable n) : VmaOp → ℤ × VmaTable n
  | add start len prot mapFlags freeOnUnmap => vmaAdd t start len prot mapFlags freeOnUnmap
  | remove start len => vmaRemove t start len
  | removeOverlaps start len => vmaRemoveOverlaps t start len
  | protect start len prot => vmaProtect t start len prot

def Pre (m : VmaMap) : VmaOp → Prop
  | add start len _ _ _ => ∀ a, InRange start len a → m a = none
  | remove start len => ∀ a, InRange start len a → (m a).isSome
  | removeOverlaps _ _ => True
  | protect start len _ => ∀ a, InRange start len a → (m a).isSome

def apply (m : VmaMap) : VmaOp → VmaMap
  | add start len prot mapFlags freeOnUnmap => fun a =>
    if InRange start len a then some ⟨prot, mapFlags, freeOnUnmap⟩ else m a
  | remove start len => fun a => if InRange start len a then none else m a
  | removeOverlaps start len => fun a => if InRange start len a then none else m a
  | protect start len prot => fun a =>
    if InRange start len a then (m a).map fun k => { k with prot := prot } else m a

end VmaOp

def vmaExec (ops : List VmaOp) (t : VmaTable n) : VmaTable n :=
  ops.foldl (fun t op => (op.call t).2) t

section

variable {t t' : VmaTable n} {start len end_ a : UInt64} {k : VmaAttrs}

theorem containing_isSome (h : At (segs t) a k) : (containing t a).isSome := by
  obtain ⟨i, s, -, hs, hm, -⟩ := h
  obtain ⟨hu, rfl⟩ := Vma.seg?_eq_some.mp hs
  simp only [containing, List.find?_isSome, List.mem_finRange, true_and, Bool.and_eq_true,
    decide_eq_true_eq]
  exact ⟨i, ⟨hu, hm.1⟩, hm.2⟩

section

variable (hw : Separate (segs t))
include hw

theorem lookup_eq_some : lookup t a = some k ↔ At (segs t) a k := by
  have hat : ∀ v, containing t a = some v → At (segs t) a (t v).attrs := by
    intro v hv
    obtain ⟨-, hlo, hhi⟩ := containing_spec hv
    exact ⟨v, _, trivial, containing_some hv, ⟨hlo, hhi⟩, rfl⟩
  constructor
  · intro h
    obtain ⟨v, hv, rfl⟩ := Option.map_eq_some_iff.mp h
    exact hat v hv
  · intro h
    obtain ⟨v, hv⟩ := Option.isSome_iff_exists.mp (containing_isSome h)
    rw [lookup, hv, Option.map_some, hw.at_unique (hat v hv) h]

theorem lookup_eq_none : lookup t a = none ↔ ∀ k, ¬ At (segs t) a k := by
  simp only [Option.eq_none_iff_forall_ne_some, ne_eq, lookup_eq_some hw]

theorem lookup_isSome : (lookup t a).isSome ↔ ∃ k, At (segs t) a k := by
  simp only [Option.isSome_iff_exists, lookup_eq_some hw]

theorem lookup_congr (hw' : Separate (segs t'))
    (h : ∀ k, At (segs t') a k ↔ At (segs t) a k) : lookup t' a = lookup t a := by
  refine Option.ext fun k => ?_
  rw [lookup_eq_some hw, lookup_eq_some hw', h]

end

theorem inRange_iff (h : rangeEnd start len = some end_) :
    InRange start len a ↔ start ≤ a ∧ a < end_ := by
  obtain ⟨hlt, rfl⟩ := rangeEnd_spec h
  rw [UInt64.le_iff_toNat_le, UInt64.lt_iff_toNat_lt, Word.toNat_add_of_lt hlt, InRange]

variable (hw : Separate (segs t)) (h : rangeEnd start len = some end_)
include hw h

theorem lookup_within (hin : Within (segs t) (segs t') start end_) (ha : ¬ InRange start len a) :
    lookup t' a = lookup t a :=
  lookup_congr hw hin.separate fun k => hin.at_iff a k fun hr => ha ((inRange_iff h).mpr hr)

theorem lookup_cut (hcut : Cut (segs t) (segs t') start end_) :
    lookup t' = fun a => if InRange start len a then none else lookup t a := by
  funext a
  split
  next ha =>
    rw [lookup_eq_none hcut.separate]
    intro k hk
    exact ((hcut.at_iff a k).mp hk).2 ((inRange_iff h).mp ha)
  next ha => exact lookup_within hw h hcut.within ha

theorem lookup_put (hput : Put (segs t) (segs t') start end_ k) :
    lookup t' = fun a => if InRange start len a then some k else lookup t a := by
  funext a
  split
  next ha =>
    rw [lookup_eq_some hput.separate, hput.at_iff]
    exact Or.inl ⟨(inRange_iff h).mp ha, rfl⟩
  next ha => exact lookup_within hw h hput.within ha

theorem lookup_remap {f : VmaAttrs → VmaAttrs} (hmap : Remap (segs t) (segs t') start end_ f) :
    lookup t' = fun a => if InRange start len a then (lookup t a).map f else lookup t a := by
  funext a
  split
  next ha =>
    have hr := (inRange_iff h).mp ha
    refine Option.ext fun k => ?_
    rw [lookup_eq_some hmap.within.separate, hmap.at_iff a k hr.1 hr.2, Option.map_eq_some_iff]
    simp only [lookup_eq_some hw]
  next ha => exact lookup_within hw h hmap.within ha

end

structure Refines (t : VmaTable n) (op : VmaOp) (r : ℤ × VmaTable n) : Prop where
  separate : Separate (segs r.2)
  frame : ∀ a, ¬ op.Touches a → lookup r.2 a = lookup t a
  effect : r.1 = 0 → op.Pre (lookup t) ∧ lookup r.2 = op.apply (lookup t)

variable {t : VmaTable n}

section

variable (hw : Separate (segs t))
include hw

theorem refines_failed (op : VmaOp)
    {r : ℤ × VmaTable n} (hneg : r.1 < 0) (h : r.2 = t) : Refines t op r := by
  refine ⟨?_, ?_, fun h0 => absurd h0 hneg.ne⟩
  · rwa [h]
  · intro a _
    rw [h]

theorem add_refines (start len : UInt64) (prot mapFlags : UInt32) (free : Bool) :
    Refines t (.add start len prot mapFlags free) (vmaAdd t start len prot mapFlags free) := by
  rcases vmaAdd_spec hw start len prot mapFlags free with ⟨hneg, h⟩ | ⟨-, hlt, hfree, hput⟩
  · exact refines_failed hw _ hneg h
  · have he : rangeEnd start len = some (start + len) := rangeEnd_of_lt hlt
    refine ⟨hput.separate, fun a ha => lookup_within hw he hput.within ha, fun _ => ⟨?_, ?_⟩⟩
    · intro a ha
      rw [lookup_eq_none hw]
      exact fun k => hfree.not_at ((inRange_iff he).mp ha)
    · exact lookup_put hw he hput

theorem remove_refines (start len : UInt64) :
    Refines t (.remove start len) (vmaRemove t start len) := by
  cases he : rangeEnd start len with
  | none =>
    simp only [vmaRemove, he]
    exact refines_failed hw _ neg_errno_lt rfl
  | some end_ =>
    obtain ⟨hin, hcut⟩ := vmaRemove_spec hw he
    refine ⟨hin.separate, fun a ha => lookup_within hw he hin ha, fun h => ⟨?_, ?_⟩⟩
    · intro a ha
      have hr := (inRange_iff he).mp ha
      exact (lookup_isSome hw).mpr ((hcut h).1 a hr.1 hr.2)
    · exact lookup_cut hw he (hcut h).2

theorem removeOverlaps_refines (start len : UInt64) :
    Refines t (.removeOverlaps start len) (vmaRemoveOverlaps t start len) := by
  cases he : rangeEnd start len with
  | none =>
    simp only [vmaRemoveOverlaps, he]
    exact refines_failed hw _ neg_errno_lt rfl
  | some end_ =>
    obtain ⟨hin, hcut⟩ := vmaRemoveOverlaps_spec hw he
    exact ⟨hin.separate, fun a ha => lookup_within hw he hin ha,
      fun h => ⟨trivial, lookup_cut hw he (hcut h)⟩⟩

theorem protect_refines (start len : UInt64)
    (prot : UInt32) : Refines t (.protect start len prot) (vmaProtect t start len prot) := by
  cases he : rangeEnd start len with
  | none =>
    simp only [vmaProtect, he]
    exact refines_failed hw _ neg_errno_lt rfl
  | some end_ =>
    obtain ⟨hin, hmap⟩ := vmaProtect_spec hw he
    refine ⟨hin.separate, fun a ha => lookup_within hw he hin ha, fun h => ⟨?_, ?_⟩⟩
    · intro a ha
      have hr := (inRange_iff he).mp ha
      exact (lookup_isSome hw).mpr ((hmap h).1 a hr.1 hr.2)
    · exact lookup_remap hw he (hmap h).2

theorem call_refines (op : VmaOp) : Refines t op (op.call t) := by
  cases op with
  | add start len prot mapFlags free => exact add_refines hw start len prot mapFlags free
  | remove start len => exact remove_refines hw start len
  | removeOverlaps start len => exact removeOverlaps_refines hw start len
  | protect start len prot => exact protect_refines hw start len prot

end

theorem separate_vmaReset : Separate (segs (vmaReset : VmaTable n)) :=
  ⟨fun h => (nomatch h), fun _ h => (nomatch h)⟩

theorem separate_vmaExec (ops : List VmaOp) (hw : Separate (segs t)) :
    Separate (segs (vmaExec ops t)) := by
  induction ops generalizing t with
  | nil => exact hw
  | cons op ops ih => exact ih (call_refines hw op).separate

/-- After any calls the slots are disjoint, and a further call refines the operation on the map:
exact on success, and off its range the map never changes. -/
theorem vma_table_refines_map (ops : List VmaOp) :
    let t : VmaTable vmmVmaMax := vmaExec ops vmaReset
    (∀ i, (t i).used = true → (t i).start < (t i).end_) ∧
    (∀ i j, i ≠ j → (t i).used = true → (t j).used = true →
      (t i).end_ ≤ (t j).start ∨ (t j).end_ ≤ (t i).start) ∧
    ∀ op : VmaOp,
      ((op.call t).1 = 0 →
        op.Pre (lookup t) ∧ lookup (op.call t).2 = op.apply (lookup t)) ∧
      ∀ a, ¬ op.Touches a → lookup (op.call t).2 a = lookup t a := by
  intro t
  have hw : Separate (segs t) := separate_vmaExec ops separate_vmaReset
  refine ⟨fun i hi => ?_, fun i j hij hi hj => ?_, fun op => ?_⟩
  · exact hw.proper (Vma.seg?_of_used hi)
  · exact hw.apart hij (Vma.seg?_of_used hi) (Vma.seg?_of_used hj)
  · exact ⟨(call_refines hw op).effect, (call_refines hw op).frame⟩

end Kyronix.Mm
