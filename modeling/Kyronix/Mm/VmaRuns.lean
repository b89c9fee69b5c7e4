import Kyronix.Lib.Runs
import Kyronix.Mm.VmaMap

/-! When the calls on the table of mappings run out of slots. No call leaves two touching slots of
one kind, so the slots in use are the runs of the map. -/
namespace Kyronix.Mm

open Lib Word Lib.Intervals Function Vma List

variable {n : ℕ} {t t' : VmaTable n} {v : Fin n} {start end_ len cur : UInt64} {k : VmaAttrs}

def Canon (t : VmaTable n) : Prop := Tight (segs t) (lookup t)

noncomputable def runs (m : VmaMap) : ℕ := (Starts m).ncard

theorem canon_of (hw : Separate (segs t)) (hm : Merged (segs t)) : Canon t :=
  ⟨hw, hm, fun _ _ => lookup_eq_some hw⟩

theorem lookup_of_maps {m : VmaMap} (hw : Separate (segs t)) (h : Maps (segs t) m) :
    lookup t = m := by
  funext a
  refine Option.ext fun k => ?_
  rw [lookup_eq_some hw, h a k]

theorem Canon.runs_le (h : Canon t) : runs (lookup t) ≤ n := by
  have hle := h.ncard_le
  rwa [Fintype.card_fin] at hle

theorem isSome_spare (h : emptySlot t = none) (s : Seg UInt64 VmaAttrs) (o : Option (Fin n)) :
    (update (spare (segs t)) none (some s) o).isSome := by
  cases o with
  | none => rw [update_self]; rfl
  | some i =>
    have hused := List.find?_eq_none.mp h i (mem_finRange i)
    rw [update_of_ne (Option.some_ne_none i), spare, Option.bind_some, segs,
      seg?_of_used (by simpa using hused)]
    rfl

theorem not_runs_le {m : UInt64 → Option VmaAttrs}
    {u : Option (Fin n) → Option (Seg UInt64 VmaAttrs)}
    (h : Tight u m) (hfull : ∀ o, (u o).isSome) : ¬ runs m ≤ n := by
  have hn : Fintype.card (Option (Fin n)) = n + 1 := by simp
  rw [runs, h.ncard_of_full hfull, hn]
  exact Nat.not_succ_le_self n

section

variable (h : Canon t) (hu : (t v).used = true) (hlo : (t v).start ≤ start) (hlt : start < end_)
  (hhi : end_ ≤ (t v).end_)
include h hu hlo hlt hhi

theorem splitForHole_merged : Merged (segs (splitForHole t v start end_).2) := by
  have hs : segs t v = some ⟨(t v).start, (t v).end_, (t v).attrs⟩ := seg?_of_used hu
  unfold splitForHole
  dsimp only
  split
  next => exact h.merged
  next =>
    rw [segs_update]
    exact h.merged.update_none
  next hl _ =>
    rw [segs_update, seg?_setEnd hs]
    exact h.merged.shrink h.separate hs (of_decide_eq_true hl) le_rfl (hlt.le.trans hhi) rfl
  next _ hr =>
    rw [segs_update, seg?_setStart hs]
    exact h.merged.shrink h.separate hs (of_decide_eq_true hr) (hlo.trans hlt.le) le_rfl rfl
  next hl hr he =>
    rw [segs_update, segs_update, seg?_setEnd hs, seg?_setStart hs]
    exact h.merged.middle h.separate hs (emptySlot_spec he) (of_decide_eq_true hl) hlt
      (of_decide_eq_true hr)

theorem splitForHole_canon : Canon (splitForHole t v start end_).2 := by
  refine canon_of ?_ (splitForHole_merged h hu hlo hlt hhi)
  rcases splitForHole_spec h.separate hu hlo hlt hhi with ⟨-, heq⟩ | ⟨-, hcut, -⟩
  · rw [heq]
    exact h.separate
  · exact hcut.separate

theorem lookup_splitForHole (hok : (splitForHole t v start end_).1 = 0) :
    lookup (splitForHole t v start end_).2 = cutMap (lookup t) start end_ := by
  rcases splitForHole_spec h.separate hu hlo hlt hhi with ⟨hneg, -⟩ | ⟨-, hcut, -⟩
  · exact absurd hok hneg.ne
  · exact lookup_of_maps hcut.separate (hcut.maps h.maps)

end

theorem splitForHole_neg (h : (splitForHole t v start end_).1 < 0) :
    (t v).start < start ∧ end_ < (t v).end_ ∧ emptySlot t = none ∧
      (splitForHole t v start end_).2 = t := by
  revert h
  unfold splitForHole
  dsimp only
  split
  next hl hr he => exact fun _ => ⟨of_decide_eq_true hl, of_decide_eq_true hr, he, rfl⟩
  all_goals exact fun h => absurd h (lt_irrefl 0)

theorem splitForHole_nonneg (h : ¬ (splitForHole t v start end_).1 < 0) :
    (splitForHole t v start end_).1 = 0 := by
  revert h
  unfold splitForHole
  dsimp only
  split
  · exact fun h => absurd neg_errno_lt h
  all_goals exact fun _ => rfl

theorem splitForHole_fits (h : Canon t) (hu : (t v).used = true) (hlo : (t v).start ≤ start)
    (hlt : start < end_) (hhi : end_ ≤ (t v).end_) :
    (splitForHole t v start end_).1 = 0 ↔ runs (cutMap (lookup t) start end_) ≤ n := by
  constructor
  · intro hok
    rw [← lookup_splitForHole h hu hlo hlt hhi hok]
    exact (splitForHole_canon h hu hlo hlt hhi).runs_le
  · intro hfits
    refine splitForHole_nonneg fun hneg => ?_
    obtain ⟨hl, hr, hfull, -⟩ := splitForHole_neg hneg
    -- with one slot more the hole could be cut, and every slot would be in use
    have hs : spare (segs t) (some v) = some ⟨(t v).start, (t v).end_, (t v).attrs⟩ :=
      seg?_of_used hu
    have hspare := Tight.spare h
    have hcut := cut_middle hspare.separate hs (j := none) rfl hl hlt hr
    have htight : Tight _ (cutMap (lookup t) start end_) := ⟨hcut.separate,
      hspare.merged.middle hspare.separate hs (j := none) rfl hl hlt hr, hcut.maps hspare.maps⟩
    refine not_runs_le htight (fun o => ?_) hfits
    by_cases hov : o = some v
    · rw [hov, update_self]
      rfl
    · rw [update_of_ne hov]
      exact isSome_spare hfull _ o

theorem vmaNeighbours_complete (t : VmaTable n) (start end_ : UInt64) (l : List (Fin n))
    (prot mapFlags : UInt32) (free : Bool) (r : Option (Fin n) × Option (Fin n)) :
    let res := l.foldl (vmaNeighbour t start end_ prot mapFlags free) r
    (res.1 = none → r.1 = none ∧ ∀ i ∈ l, (t i).used = true →
      vmaSameKind (t i) prot mapFlags free = true → (t i).end_ ≠ start) ∧
    (res.2 = none → r.2 = none ∧ ∀ i ∈ l, (t i).used = true →
      vmaSameKind (t i) prot mapFlags free = true → (t i).end_ ≠ start → (t i).start ≠ end_) := by
  induction l generalizing r with
  | nil => exact ⟨fun h => ⟨h, fun _ hi => nomatch hi⟩, fun h => ⟨h, fun _ hi => nomatch hi⟩⟩
  | cons j l ih =>
    obtain ⟨ih₁, ih₂⟩ := ih (vmaNeighbour t start end_ prot mapFlags free r j)
    refine ⟨fun h => ?_, fun h => ?_⟩
    · obtain ⟨hr, hrest⟩ := ih₁ h
      unfold vmaNeighbour at hr
      split_ifs at hr with hk he hs
      · refine ⟨hr, forall_mem_cons.mpr ⟨fun hu hsame => ?_, hrest⟩⟩
        simp [hu, hsame] at hk
      · exact ⟨hr, forall_mem_cons.mpr ⟨fun _ _ => he, hrest⟩⟩
      · exact ⟨hr, forall_mem_cons.mpr ⟨fun _ _ => he, hrest⟩⟩
    · obtain ⟨hr, hrest⟩ := ih₂ h
      unfold vmaNeighbour at hr
      split_ifs at hr with hk he hs
      · refine ⟨hr, forall_mem_cons.mpr ⟨fun hu hsame => ?_, hrest⟩⟩
        simp [hu, hsame] at hk
      · exact ⟨hr, forall_mem_cons.mpr ⟨fun _ _ hne => absurd he hne, hrest⟩⟩
      · exact ⟨hr, forall_mem_cons.mpr ⟨fun _ _ _ => hs, hrest⟩⟩

variable {prot mapFlags : UInt32} {free : Bool}

theorem vmaSameKind_of_attrs {w : Vma}
    (h : w.attrs = ⟨prot, mapFlags, free⟩) : vmaSameKind w prot mapFlags free = true := by
  simp only [attrs, VmaAttrs.mk.injEq] at h
  simp [vmaSameKind, h]

structure Lonely (t : VmaTable n) (start end_ : UInt64) (k : VmaAttrs)
    (r : Option (Fin n) × Option (Fin n)) : Prop where
  below : r.1 = none → ∀ i s, segs t i = some s → s.hi = start → s.attr ≠ k
  above : r.2 = none → ∀ i s, segs t i = some s → end_ = s.lo → k ≠ s.attr

theorem vmaNeighbours_lonely (hw : Separate (segs t)) (hlt : start < end_) (prot mapFlags : UInt32)
    (free : Bool) : Lonely t start end_ ⟨prot, mapFlags, free⟩
      (vmaNeighbours t start end_ prot mapFlags free) := by
  obtain ⟨h₁, h₂⟩ := vmaNeighbours_complete t start end_
    (List.finRange n) prot mapFlags free (none, none)
  refine ⟨fun hnone i s hs hhi hk => ?_, fun hnone i s hs hlo hk => ?_⟩
  · obtain ⟨hu, rfl⟩ := seg?_eq_some.mp hs
    exact (h₁ hnone).2 i (mem_finRange i) hu (vmaSameKind_of_attrs hk) hhi
  · have hp := hw.proper hs
    obtain ⟨hu, rfl⟩ := seg?_eq_some.mp hs
    refine (h₂ hnone).2 i (mem_finRange i) hu (vmaSameKind_of_attrs hk.symm) ?_ hlo.symm
    intro heq
    exact absurd (hp.trans_eq heq) (not_lt.mpr (hlt.le.trans hlo.le))

theorem vmaAdd_merged (h : Canon t) (start len : UInt64) (prot mapFlags : UInt32) (free : Bool) :
    Merged (segs (vmaAdd t start len prot mapFlags free).2) := by
  unfold vmaAdd
  split
  next => exact h.merged
  next end_ he =>
    obtain ⟨hlt, rfl⟩ := rangeEnd_spec he
    split
    next => exact h.merged
    next hc =>
      have hf := vmaConflicts_spec he (Bool.not_eq_true _ ▸ hc)
      obtain ⟨hb, ha⟩ := vmaNeighbours_spec t start (start + len) prot mapFlags free
      obtain ⟨hbelow, habove⟩ := vmaNeighbours_lonely h.separate hlt prot mapFlags free
      rcases hn : vmaNeighbours t start (start + len) prot mapFlags free with ⟨_ | b, _ | a⟩ <;>
        rw [hn] at hb ha hbelow habove <;> dsimp only
      · split
        next => exact h.merged
        next v hv =>
          rw [segs_update]
          refine h.merged.update_some (s := ⟨start, start + len, _⟩) hlt fun j r _ hr => ?_
          exact ⟨habove rfl j r hr, hbelow rfl j r hr⟩
      · have hsa := ha a rfl
        rw [segs_update, seg?_setStart hsa]
        refine h.merged.update_some (hlt.trans (h.separate.proper hsa)) fun j r hne hr => ?_
        have hnext := h.merged hsa hr
        exact ⟨hnext, hbelow rfl j r hr⟩
      · have hsb := hb b rfl
        rw [segs_update, seg?_setEnd hsb]
        refine h.merged.update_some ((h.separate.proper hsb).trans hlt) fun j r hne hr => ?_
        have hprev := h.merged hr hsb
        exact ⟨habove rfl j r hr, hprev⟩
      · have hsb := hb b rfl
        have hsa := ha a rfl
        have hba : b ≠ a := by
          rintro rfl
          rw [hsb] at hsa
          have hlo := (Seg.mk.inj (Option.some.inj hsa)).1
          exact absurd (h.separate.proper hsb) (not_lt.mpr (hlo ▸ hlt.le))
        rw [segs_update, segs_update, seg?_setEnd hsb, update_comm hba]
        refine (Merged.update_none h.merged).update_some
          ((h.separate.proper hsb).trans (hlt.trans (h.separate.proper hsa))) fun j r hne hr => ?_
        replace hr := (of_update_none hr).2
        have hnext := h.merged hsa hr
        have hprev := h.merged hr hsb
        exact ⟨hnext, hprev⟩

theorem vmaAdd_canon (h : Canon t) (start len : UInt64) (prot mapFlags : UInt32) (free : Bool) :
    Canon (vmaAdd t start len prot mapFlags free).2 :=
  canon_of (add_refines h.separate start len prot mapFlags free).separate
    (vmaAdd_merged h start len prot mapFlags free)

theorem lookup_vmaAdd (h : Canon t) (hok : (vmaAdd t start len prot mapFlags free).1 = 0) :
    Free (segs t) start (start + len) ∧ lookup (vmaAdd t start len prot mapFlags free).2 =
      putMap (lookup t) start (start + len) ⟨prot, mapFlags, free⟩ := by
  rcases vmaAdd_spec h.separate start len prot mapFlags free with ⟨hneg, -⟩ | ⟨-, -, hfree, hput⟩
  · exact absurd hok hneg.ne
  · exact ⟨hfree, lookup_of_maps hput.separate (hput.maps hfree h.maps)⟩

theorem vmaConflicts_eq_false (he : rangeEnd start len = some end_)
    (hf : Free (segs t) start end_) : vmaConflicts t start len = false := by
  simp only [vmaConflicts, he, any_eq_false, Bool.and_eq_true, decide_eq_true_eq]
  rintro i - ⟨⟨hu, hlo⟩, hhi⟩
  rcases hf i _ (seg?_of_used hu) with hle | hle
  · exact absurd hlo (not_lt.mpr hle)
  · exact absurd hhi (not_lt.mpr hle)

theorem vmaAdd_full (he : rangeEnd start len = some end_) (hf : Free (segs t) start end_)
    (hneg : (vmaAdd t start len prot mapFlags free).1 ≠ 0) :
    vmaNeighbours t start end_ prot mapFlags free = (none, none) ∧ emptySlot t = none := by
  revert hneg
  simp only [vmaAdd, he, vmaConflicts_eq_false he hf, Bool.false_eq_true, if_false]
  split
  · exact fun h => absurd rfl h
  · exact fun h => absurd rfl h
  · exact fun h => absurd rfl h
  · next hn =>
    split
    · next hfull => exact fun _ => ⟨hn, hfull⟩
    · exact fun h => absurd rfl h

theorem vmaAdd_fits (h : Canon t) (he : rangeEnd start len = some end_)
    (hf : Free (segs t) start end_) (prot mapFlags : UInt32) (free : Bool) :
    (vmaAdd t start len prot mapFlags free).1 = 0 ↔
      runs (putMap (lookup t) start end_ ⟨prot, mapFlags, free⟩) ≤ n := by
  obtain ⟨hlt, hend⟩ := rangeEnd_spec he
  constructor
  · intro hok
    rw [hend, ← (lookup_vmaAdd h hok).2]
    exact (vmaAdd_canon h start len prot mapFlags free).runs_le
  · intro hfits
    by_contra hneg
    obtain ⟨hn, hfull⟩ := vmaAdd_full he hf hneg
    obtain ⟨hbelow, habove⟩ := vmaNeighbours_lonely h.separate hlt prot mapFlags free
    rw [hn] at hbelow habove
    -- with one slot more the range could be added, and every slot would be in use
    have hspare := Tight.spare h
    have hget : ∀ {o s}, spare (segs t) o = some s → ∃ i, segs t i = some s := by
      intro o s hs
      obtain ⟨i, -, hi⟩ := Option.bind_eq_some_iff.mp hs
      exact ⟨i, hi⟩
    have hf' : Free (spare (segs t)) start end_ := by
      intro o s hs
      obtain ⟨i, hi⟩ := hget hs
      exact hf i s hi
    have hput := put_new (k := ⟨prot, mapFlags, free⟩) hspare.separate hf' hlt (j := none) rfl
    have hmerged : Merged (update (spare (segs t)) none
        (some ⟨start, end_, ⟨prot, mapFlags, free⟩⟩)) := by
      refine hspare.merged.update_some hlt fun o r _ hr => ?_
      obtain ⟨i, hi⟩ := hget hr
      exact ⟨habove rfl i r hi, hbelow rfl i r hi⟩
    have htight : Tight _ (putMap (lookup t) start end_ ⟨prot, mapFlags, free⟩) :=
      ⟨hput.separate, hmerged, hput.maps hf' hspare.maps⟩
    exact not_runs_le htight (isSome_spare hfull _) hfits

theorem split_containing_canon (h : Canon t) (hlt : cur < end_) (hv : containing t cur = some v) :
    Canon (splitForHole t v cur (cutEnd (t v) end_)).2 := by
  obtain ⟨hu, hlo, hhi⟩ := containing_spec hv
  exact splitForHole_canon h hu hlo (lt_cutEnd hhi hlt) (cutEnd_le (t v) end_).2

theorem split_containing_fits (h : Canon t) (hlt : cur < end_)
    (hv : containing t cur = some v) :
    (splitForHole t v cur (cutEnd (t v) end_)).1 = 0 ↔
      runs (cutMap (lookup t) cur (cutEnd (t v) end_)) ≤ n := by
  obtain ⟨hu, hlo, hhi⟩ := containing_spec hv
  exact splitForHole_fits h hu hlo (lt_cutEnd hhi hlt) (cutEnd_le (t v) end_).2

theorem vmaRemoveFrom_canon (h : Canon t) : Canon (vmaRemoveFrom t end_ cur).2 := by
  fun_induction vmaRemoveFrom t end_ cur with
  | case1 => exact h
  | case2 t cur hlt v hv rc t' hs hneg =>
    have hc := split_containing_canon h hlt hv
    rwa [hs] at hc
  | case3 t cur hlt v hv rc t' hs hneg ih =>
    have hc := split_containing_canon h hlt hv
    rw [hs] at hc
    exact ih hc
  | case4 => exact h

theorem split_overlap_canon (h : Canon t) (hlt : start < end_) (hu : (t v).used = true)
    (hap : ¬ (start ≥ (t v).end_ ∨ end_ ≤ (t v).start)) :
    Canon (splitForHole t v (overlapStart (t v) start) (overlapEnd (t v) end_)).2 := by
  rw [overlapStart_eq, overlapEnd_eq]
  exact splitForHole_canon h hu (le_max_right ..) (overlap_lt h.separate hlt hu hap)
    (min_le_right ..)

theorem vmaRemoveOverlapsFrom_canon (hlt : start < end_) (rest : List (Fin n)) (h : Canon t) :
    Canon (vmaRemoveOverlapsFrom start end_ rest t).2 := by
  fun_induction vmaRemoveOverlapsFrom start end_ rest t with
  | case1 => exact h
  | case2 v rest t hu ih => exact ih h
  | case3 v rest t hu hap ih => exact ih h
  | case4 v rest t hu hap rc t' hs hneg =>
    have hc := split_overlap_canon h hlt (by simpa using hu) hap
    rwa [hs] at hc
  | case5 v rest t hu hap rc t' hs hneg ih =>
    have hc := split_overlap_canon h hlt (by simpa using hu) hap
    rw [hs] at hc
    exact ih hc

theorem vmaProtectFrom_canon (prot : UInt32) (h : Canon t) :
    Canon (vmaProtectFrom prot t end_ cur).2 := by
  fun_induction vmaProtectFrom prot t end_ cur with
  | case1 => exact h
  | case2 t cur hlt v hv rc t' hs hneg =>
    have hc := split_containing_canon h hlt hv
    rwa [hs] at hc
  | case3 t cur hlt v hv rc t' hs hneg rc' t'' ha hneg' =>
    have hc := split_containing_canon h hlt hv
    rw [hs] at hc
    have hadd := vmaAdd_canon hc cur (cutEnd (t v) end_ - cur) prot (t v).mapFlags
      (t v).freeOnUnmap
    rwa [ha] at hadd
  | case4 t cur hlt v hv rc t' hs hneg rc' t'' ha hneg' ih =>
    have hc := split_containing_canon h hlt hv
    rw [hs] at hc
    have hadd := vmaAdd_canon hc cur (cutEnd (t v) end_ - cur) prot (t v).mapFlags
      (t v).freeOnUnmap
    rw [ha] at hadd
    exact ih hadd
  | case5 => exact h

theorem call_canon (h : Canon t) (op : VmaOp) : Canon (op.call t).2 := by
  cases op with
  | add start len prot mapFlags free => exact vmaAdd_canon h start len prot mapFlags free
  | remove start len =>
    show Canon (vmaRemove t start len).2
    unfold vmaRemove
    split
    · exact h
    · split
      · exact h
      · exact vmaRemoveFrom_canon h
  | removeOverlaps start len =>
    show Canon (vmaRemoveOverlaps t start len).2
    unfold vmaRemoveOverlaps
    split
    · exact h
    · next he => exact vmaRemoveOverlapsFrom_canon (rangeEnd_spec he).1 _ h
  | protect start len prot =>
    show Canon (vmaProtect t start len prot).2
    unfold vmaProtect
    split
    · exact h
    · split
      · exact h
      · exact vmaProtectFrom_canon prot h

theorem canon_vmaReset : Canon (vmaReset : VmaTable n) :=
  canon_of separate_vmaReset fun _ _ _ _ h => nomatch h

theorem canon_vmaExec (ops : List VmaOp) (h : Canon t) : Canon (vmaExec ops t) := by
  induction ops generalizing t with
  | nil => exact h
  | cons op ops ih => exact ih (call_canon h op)

end Kyronix.Mm
