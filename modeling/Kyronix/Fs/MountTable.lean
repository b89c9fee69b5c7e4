import Kyronix.Lib.Prefix
import Kyronix.Fs.CanonPath

/-! Mount tables as maps from canonical paths to roots and flags: `ns_mnt_resolve` is the longest
match, and the changes of a table are changes of the map. -/
namespace Kyronix.Fs

open Lib.Prefix List Option MntSys

variable {x y : Text} {xs ys zs : List Text}

structure Resolved where
  node : ℕ
  suffix : Text
  flags : UInt32

namespace MntTable

def resolveStep (path : Text) (best : ℕ × Resolved) (m : Mount) : ℕ × Resolved :=
  if m.target.length < best.1 ∨ pathUnder path m.target = false then best
  else (m.target.length, ⟨m.root, path.drop m.target.length, m.flags⟩)

def resolve (tb : MntTable) (path : Text) : Resolved :=
  (tb.view.mounts.foldl (resolveStep path) (1, ⟨tb.root, path, tb.rootFlags⟩)).2

variable {tb tb' : MntTable} {i j : Fin nsMntMax} {m m' : Mount} {path target : Text}

theorem mem_mounts : m ∈ tb.view.mounts ↔ ∃ i, tb.slot i = some m := by
  show m ∈ (List.finRange nsMntMax).filterMap tb.slot ↔ _
  simp only [mem_filterMap, mem_finRange, true_and]

theorem find_some (h : tb.find target = some (i, m)) : tb.slot i = some m ∧ m.target = target := by
  obtain ⟨j, -, hj⟩ := exists_of_findSome?_eq_some h
  obtain ⟨m', hm', heq⟩ := bind_eq_some_iff.mp hj
  obtain ⟨htarget, heq⟩ := ite_none_right_eq_some.mp heq
  cases heq
  exact ⟨hm', htarget⟩

theorem find_none (h : tb.find target = none) (hm : tb.slot i = some m) : m.target ≠ target := by
  intro htarget
  have hi := List.findSome?_eq_none_iff.mp h i (by simp)
  rw [hm] at hi
  simp [htarget] at hi

theorem foldl_resolveStep (path : Text) (l : List Mount) (best : ℕ × Resolved) :
    let r := l.foldl (resolveStep path) best
    (r = best ∧ ∀ m ∈ l, pathUnder path m.target = true → m.target.length < best.1) ∨
      ∃ m ∈ l, pathUnder path m.target = true ∧ best.1 ≤ m.target.length ∧
        r = (m.target.length, ⟨m.root, path.drop m.target.length, m.flags⟩) ∧
        ∀ m' ∈ l, pathUnder path m'.target = true → m'.target.length ≤ m.target.length := by
  induction l generalizing best with
  | nil => exact .inl ⟨rfl, forall_mem_nil _⟩
  | cons m l ih =>
    rw [foldl_cons]
    by_cases hskip : m.target.length < best.1 ∨ pathUnder path m.target = false
    · have hstep : resolveStep path best m = best := if_pos hskip
      rw [hstep]
      have hm : pathUnder path m.target = true → m.target.length < best.1 := by
        intro hunder
        rcases hskip with hskip | hskip
        · exact hskip
        · rw [hunder] at hskip
          cases hskip
      rcases ih best with ⟨hr, hall⟩ | ⟨m', hm', hunder, hle, hr, hmax⟩
      · exact .inl ⟨hr, forall_mem_cons.mpr ⟨hm, hall⟩⟩
      · refine .inr ⟨m', mem_cons_of_mem _ hm', hunder, hle, hr, ?_⟩
        exact forall_mem_cons.mpr ⟨fun hu => (hm hu).le.trans hle, hmax⟩
    · have hstep : resolveStep path best m =
          (m.target.length, ⟨m.root, path.drop m.target.length, m.flags⟩) := if_neg hskip
      rw [hstep]
      obtain ⟨hle, hunder⟩ := not_or.mp hskip
      rw [not_lt] at hle
      rw [Bool.not_eq_false] at hunder
      right
      rcases ih (m.target.length, ⟨m.root, path.drop m.target.length, m.flags⟩) with
        ⟨hr, hall⟩ | ⟨m', hm', hunder', hle', hr, hmax⟩
      · refine ⟨m, mem_cons_self, hunder, hle, hr, ?_⟩
        exact forall_mem_cons.mpr ⟨fun _ => le_rfl, fun m' hm' hu => (hall m' hm' hu).le⟩
      · refine ⟨m', mem_cons_of_mem _ hm', hunder', hle.trans hle', hr, ?_⟩
        exact forall_mem_cons.mpr ⟨fun _ => hle', hmax⟩

theorem foldl_resolveStep_filter (path : Text) (l : List Mount) (best : ℕ × Resolved) :
    l.foldl (resolveStep path) best =
      (l.filter fun m => pathUnder path m.target).foldl (resolveStep path) best := by
  induction l generalizing best with
  | nil => rfl
  | cons m l ih =>
    rw [filter_cons]
    split
    · rw [foldl_cons, foldl_cons, ih]
    · next hunder =>
      have hstep : resolveStep path best m = best :=
        if_pos (.inr (Bool.not_eq_true _ ▸ hunder))
      rw [foldl_cons, hstep, ih]

variable {o : Option Mount}

theorem filter_under (h : ∀ m, o = some m → pathUnder path m.target = false) :
    o.filter (fun m => pathUnder path m.target) = none := by
  rw [filter_eq_none_iff]
  intro m hm
  rw [h m hm]
  exact Bool.false_ne_true

theorem resolve_congr (hroot : tb'.root = tb.root) (hflags : tb'.rootFlags = tb.rootFlags)
    (hslot : ∀ i, (tb'.slot i).filter (fun m => pathUnder path m.target) =
      (tb.slot i).filter fun m => pathUnder path m.target) :
    tb'.resolve path = tb.resolve path := by
  have hmounts : tb'.view.mounts.filter (fun m => pathUnder path m.target) =
      tb.view.mounts.filter fun m => pathUnder path m.target := by
    show ((List.finRange nsMntMax).filterMap tb'.slot).filter _ =
      ((List.finRange nsMntMax).filterMap tb.slot).filter _
    rw [filter_filterMap, filter_filterMap]
    exact filterMap_congr fun i _ => hslot i
  unfold resolve
  rw [foldl_resolveStep_filter, hmounts, ← foldl_resolveStep_filter, hroot, hflags]

structure Wf (tb : MntTable) : Prop where
  target : ∀ {i m}, tb.slot i = some m → ∃ xs, xs ≠ [] ∧ Canon xs ∧ m.target = pathOf xs
  short : ∀ {i m}, tb.slot i = some m → m.target.length < 256
  once : ∀ {i j m m'}, tb.slot i = some m → tb.slot j = some m' → m.target = m'.target → i = j

theorem Wf.find_iff (h : tb.Wf) :
    tb.find target = some (i, m) ↔ tb.slot i = some m ∧ m.target = target := by
  refine ⟨find_some, ?_⟩
  rintro ⟨hm, htarget⟩
  cases hfind : tb.find target with
  | none => exact absurd htarget (find_none hfind hm)
  | some b =>
    obtain ⟨hb, hbt⟩ := find_some (i := b.1) (m := b.2) hfind
    obtain rfl := h.once hb hm (hbt.trans htarget.symm)
    rw [hm] at hb
    rw [Option.some.inj hb]

def entry (tb : MntTable) (xs : List Text) : Option (ℕ × UInt32) :=
  if xs = [] then some (tb.root, tb.rootFlags)
  else (tb.find (pathOf xs)).map fun b => (b.2.root, b.2.flags)

theorem entry_of_ne_nil (tb : MntTable) (h : xs ≠ []) :
    tb.entry xs = (tb.find (pathOf xs)).map fun b => (b.2.root, b.2.flags) := if_neg h

def resolved (tb : MntTable) (ys : List Text) : List Text × (ℕ × UInt32) :=
  let r := tb.resolve (pathOf ys)
  (components r.suffix, (r.node, r.flags))

theorem Wf.resolved_eq (h : tb.Wf) (hys : Canon ys) :
    longest tb.entry ys = some (tb.resolved ys) := by
  have hlen : ∀ {xs zs : List Text}, xs ≠ [] → zs ≠ [] → Canon zs →
      (pathOf xs).length < (pathOf (xs ++ zs)).length := by
    intro xs zs hxs hzs hz
    rw [pathOf_of_ne_nil hxs, pathOf_of_ne_nil (by simp [hxs]), tailOf_append, length_append]
    obtain ⟨z, zs, rfl⟩ := exists_cons_of_ne_nil hzs
    exact Nat.lt_add_of_pos_right (Nat.succ_pos _)
  unfold resolved resolve
  rcases foldl_resolveStep (pathOf ys) tb.view.mounts (1, ⟨tb.root, pathOf ys, tb.rootFlags⟩) with
    ⟨hr, hall⟩ | ⟨m, hm, hunder, -, hr, hmax⟩
  · rw [hr]
    dsimp only
    rw [components_pathOf hys, longest_eq_some]
    refine ⟨[], rfl, rfl, fun q hq hpre => ?_⟩
    have hqc : Canon q := by
      obtain ⟨z, rfl⟩ := hpre
      exact hys.left
    rw [nil_append, entry_of_ne_nil tb hq, map_eq_none_iff]
    cases hfind : tb.find (pathOf q) with
    | none => rfl
    | some b =>
      obtain ⟨hb, hbt⟩ := find_some (i := b.1) (m := b.2) hfind
      have hlt := hall b.2 (mem_mounts.mpr ⟨b.1, hb⟩)
        (by rw [hbt]; exact (pathUnder_pathOf hqc hys hq).mpr hpre)
      rw [hbt] at hlt
      exact absurd (length_pathOf_pos q) (Nat.not_lt.mpr (Nat.lt_one_iff.mp hlt).le)
  · obtain ⟨i, hi⟩ := mem_mounts.mp hm
    obtain ⟨xs, hxs, hxc, hmt⟩ := h.target hi
    rw [hmt] at hunder hr hmax
    obtain ⟨zs, rfl⟩ := (pathUnder_pathOf hxc hys hxs).mp hunder
    have hsuffix : (pathOf (xs ++ zs)).drop (pathOf xs).length = tailOf zs := by
      rw [pathOf_of_ne_nil hxs, pathOf_of_ne_nil (by simp [hxs]), tailOf_append, drop_left]
    rw [hr]
    dsimp only
    rw [hsuffix, components_tailOf hys.right, longest_eq_some]
    refine ⟨xs, rfl, ?_, fun q hq hpre => ?_⟩
    · rw [entry_of_ne_nil tb hxs, h.find_iff.mpr ⟨hi, hmt⟩]
      rfl
    · have hqc : Canon q := by
        obtain ⟨z, rfl⟩ := hpre
        exact hys.right.left
      have hne : xs ++ q ≠ [] := by simp [hxs]
      rw [entry_of_ne_nil tb hne, map_eq_none_iff]
      cases hfind : tb.find (pathOf (xs ++ q)) with
      | none => rfl
      | some b =>
        obtain ⟨hb, hbt⟩ := find_some (i := b.1) (m := b.2) hfind
        have hle := hmax b.2 (mem_mounts.mpr ⟨b.1, hb⟩) (by
          rw [hbt]
          apply (pathUnder_pathOf (hxc.append hqc) hys hne).mpr
          exact (prefix_append_right_inj xs).mpr hpre)
        rw [hbt] at hle
        exact absurd (hlen hxs hq hqc) (Nat.not_lt.mpr hle)

theorem Wf.entry_eq_some (h : tb.Wf) (hne : xs ≠ []) {v : ℕ × UInt32} :
    tb.entry xs = some v ↔
      ∃ i m, tb.slot i = some m ∧ m.target = pathOf xs ∧ v = (m.root, m.flags) := by
  rw [entry_of_ne_nil tb hne, map_eq_some_iff]
  constructor
  · rintro ⟨⟨i, m⟩, hfind, rfl⟩
    obtain ⟨hm, ht⟩ := find_some hfind
    exact ⟨i, m, hm, ht, rfl⟩
  · rintro ⟨i, m, hm, ht, rfl⟩
    exact ⟨(i, m), h.find_iff.mpr ⟨hm, ht⟩, rfl⟩

theorem setSlot_self (tb : MntTable) (i : Fin nsMntMax) (o : Option Mount) :
    (tb.setSlot i o).slot i = o := Function.update_self ..

theorem setSlot_ne (tb : MntTable) (o : Option Mount) (h : j ≠ i) :
    (tb.setSlot i o).slot j = tb.slot j := Function.update_of_ne h ..

theorem setSlot_some (h : (tb.setSlot i o).slot j = some m) :
    (j = i ∧ o = some m) ∨ (j ≠ i ∧ tb.slot j = some m) := by
  by_cases hj : j = i
  · subst hj
    exact .inl ⟨rfl, (setSlot_self tb j o).symm.trans h⟩
  · exact .inr ⟨hj, (setSlot_ne tb o hj).symm.trans h⟩

section

variable (h : tb.Wf)
include h

theorem Wf.setSlot (ho : ∀ m, o = some m → (∃ xs, xs ≠ [] ∧ Canon xs ∧ m.target = pathOf xs) ∧
      m.target.length < 256 ∧ ∀ j m', j ≠ i → tb.slot j = some m' → m'.target ≠ m.target) :
    (tb.setSlot i o).Wf where
  target := by
    intro j m hm
    rcases setSlot_some hm with ⟨-, hm⟩ | ⟨-, hm⟩
    · exact (ho m hm).1
    · exact h.target hm
  short := by
    intro j m hm
    rcases setSlot_some hm with ⟨-, hm⟩ | ⟨-, hm⟩
    · exact (ho m hm).2.1
    · exact h.short hm
  once := by
    intro j k m m' hm hm' heq
    rcases setSlot_some hm with ⟨hj, hm⟩ | ⟨hj, hm⟩ <;>
      rcases setSlot_some hm' with ⟨hk, hm'⟩ | ⟨hk, hm'⟩
    · exact hj.trans hk.symm
    · exact absurd heq.symm ((ho m hm).2.2 k m' hk hm')
    · exact absurd heq ((ho m' hm').2.2 j m hj hm)
    · exact h.once hm hm' heq

theorem Wf.clear (i : Fin nsMntMax) : (tb.setSlot i none).Wf := h.setSlot nofun

theorem Wf.put (hxs : xs ≠ []) (hc : Canon xs) (hm : m.target = pathOf xs)
    (hlen : m.target.length < 256) (hfree : ∀ j m', j ≠ i → tb.slot j = some m' →
      m'.target ≠ m.target) : (tb.setSlot i (some m)).Wf := by
  apply h.setSlot
  rintro m ⟨⟩
  exact ⟨⟨xs, hxs, hc, hm⟩, hlen, hfree⟩

theorem Wf.entry_setSlot (h' : (tb.setSlot i o).Wf) (hxs : xs ≠ [])
    (hc : Canon xs) (hnew : ∀ m, o = some m → m.target = pathOf xs)
    (hold : ∀ m, tb.slot i = some m → m.target = pathOf xs)
    (hfree : ∀ j m, j ≠ i → tb.slot j = some m → m.target ≠ pathOf xs) (hys : Canon ys) :
    (tb.setSlot i o).entry ys =
      if ys = xs then o.map fun m => (m.root, m.flags) else tb.entry ys := by
  by_cases hyn : ys = []
  · subst hyn
    rw [if_neg hxs.symm]
    rfl
  apply Option.ext
  intro v
  rw [h'.entry_eq_some hyn]
  split
  · next heq =>
    subst heq
    rw [map_eq_some_iff]
    constructor
    · rintro ⟨j, m, hm, ht, rfl⟩
      rcases setSlot_some hm with ⟨-, hm⟩ | ⟨hj, hm⟩
      · exact ⟨m, hm, rfl⟩
      · exact absurd ht (hfree j m hj hm)
    · rintro ⟨m, hm, rfl⟩
      exact ⟨i, m, (setSlot_self ..).trans hm, hnew m hm, rfl⟩
  · next hne =>
    rw [h.entry_eq_some hyn]
    constructor
    · rintro ⟨j, m, hm, ht, hv⟩
      rcases setSlot_some hm with ⟨-, hm⟩ | ⟨-, hm⟩
      · exact absurd (pathOf_inj hys hc (ht.symm.trans (hnew m hm))) hne
      · exact ⟨j, m, hm, ht, hv⟩
    · rintro ⟨j, m, hm, ht, hv⟩
      have hj : j ≠ i := by
        rintro rfl
        exact hne (pathOf_inj hys hc (ht.symm.trans (hold m hm)))
      exact ⟨j, m, (setSlot_ne tb _ hj).trans hm, ht, hv⟩

theorem Wf.entry_clear (hm : tb.slot i = some m) (ht : m.target = pathOf xs)
    (hxs : xs ≠ []) (hc : Canon xs) (hys : Canon ys) :
    (tb.setSlot i none).entry ys = if ys = xs then none else tb.entry ys := by
  refine h.entry_setSlot (h.clear i) hxs hc nofun (fun m' hm' => ?_) (fun j m' hj hm' ht' => ?_) hys
  · cases hm.symm.trans hm'
    exact ht
  · exact hj (h.once hm' hm (ht'.trans ht.symm))

theorem slotFor_spec (hslot : tb.slotFor target = some i) :
    (∀ m', tb.slot i = some m' → m'.target = target) ∧
      ∀ j m', j ≠ i → tb.slot j = some m' → m'.target ≠ target := by
  unfold slotFor at hslot
  split at hslot
  · next k m hfind =>
    cases hslot
    obtain ⟨hm, ht⟩ := find_some hfind
    refine ⟨fun m' hm' => ?_, fun j m' hj hm' ht' => ?_⟩
    · rw [hm] at hm'
      exact Option.some.inj hm' ▸ ht
    · exact hj (h.once hm' hm (ht'.trans ht.symm))
  · next hfind =>
    have hfree := List.find?_some hslot
    refine ⟨fun m' hm' => ?_, fun j m' _ hm' => find_none hfind hm'⟩
    rw [hm'] at hfree
    cases hfree

theorem Wf.putFor (hxs : xs ≠ []) (hc : Canon xs) (hlen : (pathOf xs).length < 256)
    (hslot : tb.slotFor (pathOf xs) = some i) (root : ℕ) (flags : UInt32) :
    (tb.setSlot i (some ⟨cut 256 (pathOf xs), root, flags⟩)).Wf := by
  have hcut : cut 256 (pathOf xs) = pathOf xs := take_of_length_le (Nat.le_pred_of_lt hlen)
  rw [hcut]
  exact h.put hxs hc rfl hlen (slotFor_spec h hslot).2

end

def Follows (tb tb' : MntTable) (src dst : List Text) : Prop :=
  ∀ q, Canon q → tb'.resolved (dst ++ q) = tb.resolved (src ++ q)

def Frame (tb tb' : MntTable) (changed : List (List Text)) : Prop :=
  ∀ p, Canon p → (∀ t ∈ changed, ¬ t <+: p) → tb'.resolved p = tb.resolved p

def moved (f : List Text → Option (ℕ × UInt32)) (src dst p : List Text) : Option (ℕ × UInt32) :=
  if p = src then none else if p = dst ∧ dst ≠ [] then f src else f p

/-- The target is another path that fits its buffer, and the mounts below it are those below the
source. -/
def MoveOk (tb : MntTable) (src dst : List Text) : Prop :=
  src ≠ dst ∧ (pathOf dst).length < 256 ∧
    ∀ z, Canon z → moved tb.entry src dst (dst ++ z) = tb.entry (src ++ z)

theorem getLast?_tailOf (hne : ys ≠ []) (hys : Canon ys) : (tailOf ys).getLast? ≠ some '/' := by
  obtain ⟨zs, y, rfl⟩ := eq_nil_or_concat' ys |>.resolve_left hne
  have hy := hys y (by simp)
  rw [tailOf_append]
  show (tailOf zs ++ ('/' :: (y ++ []))).getLast? ≠ some '/'
  rw [append_nil, List.getLast?_append_of_ne_nil _ (cons_ne_nil _ _)]
  intro hlast
  obtain ⟨ch, t, rfl⟩ := exists_cons_of_ne_nil hy.1
  rw [List.getLast?_cons_cons] at hlast
  exact hy.2.1 (mem_of_getLast? hlast)

theorem components_eq_nil {r : Text} (h : components r = []) : ∀ ch ∈ r, ch = '/' := by
  have hskip : skipSlashes r = [] := by
    unfold components at h
    cases hr : skipSlashes r with
    | nil => rfl
    | cons ch t =>
      rw [hr, pathTokens] at h
      cases h
  intro ch hch
  have hall := dropWhile_eq_nil_iff.mp hskip ch hch
  simpa using hall

theorem resolved_full (hys : Canon ys) (hne : ys ≠ []) (h : (tb.resolved ys).1 = []) :
    ∃ i m, tb.slot i = some m ∧ m.target = pathOf ys := by
  unfold resolved resolve at h
  rcases foldl_resolveStep (pathOf ys) tb.view.mounts (1, ⟨tb.root, pathOf ys, tb.rootFlags⟩) with
    ⟨hr, -⟩ | ⟨m, hm, hunder, -, hr, -⟩
  · rw [hr] at h
    dsimp only at h
    rw [components_pathOf hys] at h
    exact absurd h hne
  · rw [hr] at h
    obtain ⟨r, hpath, -⟩ := pathUnder_iff.mp hunder
    rw [hpath, drop_left] at h
    obtain ⟨i, hi⟩ := mem_mounts.mp hm
    refine ⟨i, m, hi, ?_⟩
    cases r using List.reverseRecOn with
    | nil => rw [hpath, append_nil]
    | append_singleton r ch =>
      have hch := components_eq_nil h ch (by simp)
      have hlast := getLast?_tailOf hne hys
      rw [← pathOf_of_ne_nil hne, hpath, ← append_assoc, List.getLast?_concat, hch] at hlast
      exact absurd rfl hlast

theorem exists_fresh : ∃ w, CompOk w ∧ 256 ≤ w.length := by
  refine ⟨List.replicate 256 'a', ⟨by decide, ?_, by decide, by decide⟩, length_replicate.ge⟩
  intro h
  exact absurd (eq_of_mem_replicate h) (by decide)

theorem Wf.entry_long (h : tb.Wf) (hlen : 256 ≤ (pathOf xs).length) (hne : xs ≠ []) :
    tb.entry xs = none := by
  rw [← not_isSome_iff_eq_none, isSome_iff_exists]
  rintro ⟨v, hv⟩
  obtain ⟨i, m, hm, ht, -⟩ := (h.entry_eq_some hne).mp hv
  have hshort := h.short hm
  rw [ht] at hshort
  exact absurd hlen (Nat.not_le.mpr hshort)

structure Moves (tb : MntTable) (i j : Fin nsMntMax) (m : Mount) (src dst : List Text) : Prop where
  wf : tb.Wf
  canonSrc : Canon src
  canonDst : Canon dst
  find : tb.find (pathOf src) = some (i, m)
  slot : tb.slotFor (pathOf dst) = some j

variable {src dst : List Text}

namespace Moves

section

variable (h : tb.Moves i j m src dst)
include h

theorem ne_nil : src ≠ [] := by
  rintro rfl
  obtain ⟨hm, ht⟩ := find_some h.find
  obtain ⟨xs, hxs, hxc, hmt⟩ := h.wf.target hm
  exact hxs (pathOf_inj hxc h.canonSrc (hmt.symm.trans ht))

theorem entry_src : tb.entry src = some (m.root, m.flags) := by
  obtain ⟨hm, ht⟩ := find_some h.find
  exact (h.wf.entry_eq_some h.ne_nil).mpr ⟨i, m, hm, ht, rfl⟩

theorem resolved_src : tb.resolved src = ([], (m.root, m.flags)) := by
  have heq := h.wf.resolved_eq h.canonSrc
  rw [longest_self.mpr h.entry_src] at heq
  exact (Option.some.inj heq).symm

theorem slot_ne (hne : src ≠ dst) : i ≠ j := by
  rintro rfl
  obtain ⟨hm, ht⟩ := find_some h.find
  have hdst := (slotFor_spec h.wf h.slot).1 m hm
  exact hne (pathOf_inj h.canonSrc h.canonDst (ht.symm.trans hdst))

theorem moveSlot_eq (hne : src ≠ dst) :
    moveSlot tb i j m (pathOf dst) =
      (tb.setSlot i none).setSlot j (some { m with target := cut 256 (pathOf dst) }) := by
  unfold moveSlot setSlot
  rw [Function.update_comm (h.slot_ne hne)]

theorem not_follows_long (hlen : 256 ≤ (pathOf dst).length) :
    ¬ tb.Follows (moveSlot tb i j m (pathOf dst)) src dst := by
  intro hf
  have hdst : dst ≠ [] := by
    rintro rfl
    exact absurd hlen (by decide)
  have hfull := hf [] (forall_mem_nil _)
  rw [append_nil, append_nil, h.resolved_src] at hfull
  obtain ⟨k, m', hk, ht⟩ := resolved_full h.canonDst hdst (congrArg Prod.fst hfull)
  have hshort : m'.target.length < 256 := by
    rcases setSlot_some hk with ⟨-, ho⟩ | ⟨-, hk⟩
    · cases ho
    rcases setSlot_some hk with ⟨-, ho⟩ | ⟨-, hk⟩
    · cases ho
      exact (length_take_le _ _).trans_lt (by decide)
    · exact h.wf.short hk
  rw [ht] at hshort
  exact absurd hlen (Nat.not_le.mpr hshort)

end

theorem not_follows_self (h : tb.Moves i j m src src) :
    ¬ tb.Follows (moveSlot tb i j m (pathOf src)) src src := by
  intro hf
  have hij : j = i := by
    have hslot := h.slot
    unfold slotFor at hslot
    rw [h.find] at hslot
    exact (Option.some.inj hslot).symm
  have htb : moveSlot tb i j m (pathOf src) = tb.setSlot i none := by
    unfold moveSlot setSlot
    rw [hij]
    rw [Function.update_idem]
  have hfull := hf [] (forall_mem_nil _)
  rw [append_nil, h.resolved_src, htb] at hfull
  obtain ⟨k, m', hk, ht⟩ := resolved_full h.canonSrc h.ne_nil (congrArg Prod.fst hfull)
  obtain ⟨hm, hmt⟩ := find_some h.find
  rcases setSlot_some hk with ⟨-, ho⟩ | ⟨hki, hk⟩
  · cases ho
  · exact hki (h.wf.once hk hm (ht.trans hmt.symm))

theorem frame (h : tb.Moves i j m src dst) (hne : src ≠ dst)
    (hlen : (pathOf dst).length < 256) :
    tb.Frame (moveSlot tb i j m (pathOf dst)) [src, dst] := by
  intro p hp hout
  have hsrc : ¬ src <+: p := hout src (by simp)
  have hdst : ¬ dst <+: p := hout dst (by simp)
  obtain ⟨hm, hmt⟩ := find_some h.find
  have hdn : dst ≠ [] := by
    rintro rfl
    exact hdst nil_prefix
  have hnsrc : pathUnder (pathOf p) (pathOf src) = false := by
    rw [← Bool.not_eq_true, pathUnder_pathOf h.canonSrc hp h.ne_nil]
    exact hsrc
  have hndst : pathUnder (pathOf p) (pathOf dst) = false := by
    rw [← Bool.not_eq_true, pathUnder_pathOf h.canonDst hp hdn]
    exact hdst
  have hcut : cut 256 (pathOf dst) = pathOf dst := take_of_length_le (Nat.le_pred_of_lt hlen)
  have hres : (moveSlot tb i j m (pathOf dst)).resolve (pathOf p) =
      tb.resolve (pathOf p) := by
    refine resolve_congr rfl rfl fun k => ?_
    rw [h.moveSlot_eq hne]
    by_cases hkj : k = j
    · subst hkj
      rw [setSlot_self, hcut, filter_under fun m' hm' => ?_, filter_under fun m' hm' => ?_]
      · rw [(slotFor_spec h.wf h.slot).1 m' hm']
        exact hndst
      · cases hm'
        exact hndst
    · rw [setSlot_ne _ _ hkj]
      by_cases hki : k = i
      · subst hki
        rw [setSlot_self, filter_under (o := tb.slot k) fun m' hm' => ?_]
        · rfl
        · cases hm.symm.trans hm'
          rw [hmt]
          exact hnsrc
      · rw [setSlot_ne _ _ hki]
  unfold resolved
  rw [hres]

theorem follows_iff (h : tb.Moves i j m src dst) (hne : src ≠ dst) (hdn : dst ≠ [])
    (hlen : (pathOf dst).length < 256) :
    tb.Follows (moveSlot tb i j m (pathOf dst)) src dst ↔
      ∀ z, Canon z → moved tb.entry src dst (dst ++ z) = tb.entry (src ++ z) := by
  obtain ⟨hm, hmt⟩ := find_some h.find
  obtain ⟨hslot, hfree⟩ := slotFor_spec h.wf h.slot
  have hij := h.slot_ne hne
  have hcut : cut 256 (pathOf dst) = pathOf dst := take_of_length_le (Nat.le_pred_of_lt hlen)
  rw [h.moveSlot_eq hne, hcut]
  set m' : Mount := { m with target := pathOf dst } with hm'
  have hclear := h.wf.clear i
  have hfree' : ∀ k n, k ≠ j → (tb.setSlot i none).slot k = some n → n.target ≠ pathOf dst := by
    intro k n hk hn
    rcases setSlot_some hn with ⟨-, ho⟩ | ⟨-, hn⟩
    · cases ho
    · exact hfree k n hk hn
  have hput : ((tb.setSlot i none).setSlot j (some m')).Wf :=
    hclear.put hdn h.canonDst rfl hlen hfree'
  have hentry : ∀ ys, Canon ys →
      ((tb.setSlot i none).setSlot j (some m')).entry ys = moved tb.entry src dst ys := by
    intro ys hys
    have hold : ∀ n, (tb.setSlot i none).slot j = some n → n.target = pathOf dst := by
      intro n hn
      rw [setSlot_ne _ _ hij.symm] at hn
      exact hslot n hn
    rw [hclear.entry_setSlot hput hdn h.canonDst (by rintro n ⟨⟩; rfl) hold hfree' hys,
      h.wf.entry_clear hm hmt h.ne_nil h.canonSrc hys]
    unfold moved
    by_cases hys' : ys = dst
    · subst hys'
      rw [if_pos rfl, if_neg hne.symm, if_pos ⟨rfl, hdn⟩, h.entry_src]
      rfl
    · rw [if_neg hys', if_neg (c := ys = dst ∧ dst ≠ []) fun hc => hys' hc.1]
  have hat : moved tb.entry src dst dst = some (m.root, m.flags) := by
    unfold moved
    rw [if_neg hne.symm, if_pos ⟨rfl, hdn⟩, h.entry_src]
  have hlaw : ∀ q, Canon q →
      (((tb.setSlot i none).setSlot j (some m')).resolved (dst ++ q) = tb.resolved (src ++ q) ↔
        longest (fun z => moved tb.entry src dst (dst ++ z)) q =
          longest (fun z => tb.entry (src ++ z)) q) := by
    intro q hq
    rw [← longest_shift hat, ← longest_shift h.entry_src, h.wf.resolved_eq (h.canonSrc.append hq)]
    have hnew := hput.resolved_eq (h.canonDst.append hq)
    rw [longest_congr (g := moved tb.entry src dst)] at hnew
    · rw [hnew, some_inj]
    · rintro r ⟨z, hz⟩
      exact hentry r (hz ▸ h.canonDst.append hq : Canon (r ++ z)).left
  rw [← longest_inj (C := Canon) fun hc => hc.left]
  exact forall₂_congr hlaw

theorem follows_root_iff (h : tb.Moves i j m src []) :
    tb.Follows (moveSlot tb i j m (pathOf [])) src [] ↔
      ∀ z, Canon z → moved tb.entry src [] z = tb.entry (src ++ z) := by
  obtain ⟨hm, hmt⟩ := find_some h.find
  have hclear := h.wf.clear i
  have hij := h.slot_ne h.ne_nil
  rw [h.moveSlot_eq h.ne_nil]
  set tb' := (tb.setSlot i none).setSlot j (some { m with target := cut 256 (pathOf []) })
  have hfree : ∀ m', (tb.setSlot i none).slot j = some m' → False := by
    intro m' hm'
    obtain ⟨xs, hxs, hxc, ht⟩ := hclear.target hm'
    rw [setSlot_ne _ _ hij.symm] at hm'
    exact hxs (pathOf_inj hxc h.canonDst (ht.symm.trans ((slotFor_spec h.wf h.slot).1 m' hm')))
  have hbelow : ∀ q, Canon q → q ≠ [] →
      longest (moved tb.entry src []) q = some (tb'.resolved q) := by
    intro q hq hqn
    have hres : tb'.resolve (pathOf q) = (tb.setSlot i none).resolve (pathOf q) := by
      refine resolve_congr rfl rfl fun k => ?_
      by_cases hkj : k = j
      · subst hkj
        rw [setSlot_self, filter_under fun m' hm' => ?_, filter_under fun m' hm' => ?_]
        · exact (hfree m' hm').elim
        · cases hm'
          exact pathUnder_root hq hqn
      · rw [setSlot_ne _ _ hkj]
    have hold : tb'.resolved q = (tb.setSlot i none).resolved q := by
      unfold resolved
      rw [hres]
    rw [hold, ← hclear.resolved_eq hq]
    refine longest_congr fun r hr => ?_
    obtain ⟨z, rfl⟩ := hr
    rw [h.wf.entry_clear hm hmt h.ne_nil h.canonSrc hq.left]
    unfold moved
    rw [if_neg (c := r = [] ∧ ([] : List Text) ≠ []) fun hc => hc.2 rfl]
  have hroot : tb'.resolved [] = tb.resolved src := by
    have hslot : tb'.slot j = some { m with target := ['/'] } := setSlot_self ..
    rw [h.resolved_src]
    unfold resolved resolve
    rcases foldl_resolveStep (pathOf []) tb'.view.mounts (1, ⟨tb'.root, pathOf [], tb'.rootFlags⟩)
      with ⟨-, hall⟩ | ⟨m', hm', hunder, -, hr, -⟩
    · exact absurd (hall _ (mem_mounts.mpr ⟨j, hslot⟩) rfl) (lt_irrefl 1)
    · rw [hr]
      obtain ⟨k, hk⟩ := mem_mounts.mp hm'
      rcases setSlot_some hk with ⟨-, ho⟩ | ⟨-, hk⟩
      · cases ho
        exact Prod.ext (components_pathOf h.canonDst) rfl
      · obtain ⟨xs, hxs, hxc, ht⟩ := hclear.target hk
        rw [ht, pathUnder_pathOf hxc h.canonDst hxs] at hunder
        exact absurd (prefix_nil.mp hunder) hxs
  have hlaw : ∀ q, Canon q → q ≠ [] → (tb'.resolved q = tb.resolved (src ++ q) ↔
      longest (moved tb.entry src []) q = longest (fun z => tb.entry (src ++ z)) q) := by
    intro q hq hqn
    rw [hbelow q hq hqn, ← longest_shift h.entry_src, h.wf.resolved_eq (h.canonSrc.append hq),
      some_inj]
  rw [← longest_inj (C := Canon) fun hc => hc.left]
  constructor
  · intro hf q hq
    by_cases hqn : q = []
    · -- a component that nothing is mounted on shows what the root is
      subst hqn
      obtain ⟨w, hw, hlen⟩ := exists_fresh
      have hwc : Canon [w] := fun x hx => mem_singleton.mp hx ▸ hw
      have hlong : ∀ xs, tb.entry (xs ++ [w]) = none := by
        intro xs
        refine h.wf.entry_long (hlen.trans ?_) (by simp)
        rw [pathOf_of_ne_nil (by simp), tailOf_append]
        have hlast : (tailOf [w]).length = w.length + 1 := by simp [tailOf]
        rw [length_append, hlast]
        omega
      have hmoved : moved tb.entry src [] ([] ++ [w]) = none := by
        unfold moved
        rw [hlong, if_neg (c := _ ∧ ([] : List Text) ≠ []) fun hc => hc.2 rfl, ite_self]
      have hfresh := (hlaw [w] hwc (cons_ne_nil _ _)).mp (hf [w] hwc)
      have hleft := longest_concat hmoved
      have hright := longest_concat (f := fun z => tb.entry (src ++ z)) (l := []) (x := w)
        (by rw [← append_assoc]; exact hlong _)
      rw [nil_append] at hleft hright
      rw [hleft, hright] at hfresh
      refine map_injective ?_ hfresh
      intro b b' hb
      obtain ⟨hfst, hsnd⟩ := Prod.mk.inj hb
      exact Prod.ext (append_cancel_right hfst) hsnd
    · exact (hlaw q hq hqn).mp (hf q hq)
  · intro hall q hq
    by_cases hqn : q = []
    · subst hqn
      show tb'.resolved [] = _
      rw [append_nil]
      exact hroot
    · exact (hlaw q hq hqn).mpr (hall q hq)

theorem law (h : tb.Moves i j m src dst) :
    tb.Follows (moveSlot tb i j m (pathOf dst)) src dst ∧
        tb.Frame (moveSlot tb i j m (pathOf dst)) [src, dst] ↔
      MoveOk tb src dst := by
  unfold MoveOk
  rcases Nat.lt_or_ge (pathOf dst).length 256 with hlen | hlen
  · by_cases hne : src = dst
    · subst hne
      exact ⟨fun hf => absurd hf.1 h.not_follows_self, fun hok => absurd rfl hok.1⟩
    · rw [and_iff_left (h.frame hne hlen), and_iff_right hne, and_iff_right hlen]
      by_cases hdn : dst = []
      · subst hdn
        exact h.follows_root_iff
      · exact h.follows_iff hne hdn hlen
  · exact ⟨fun hf => absurd hf.1 (h.not_follows_long hlen),
      fun hok => absurd hlen (Nat.not_le.mpr hok.2.1)⟩

end Moves

variable {r q : List Text} {n : ℕ} {t : Tree} {c : Caller}

theorem pathOf_append (r : List Text) (hzs : zs ≠ []) :
    pathOf (r ++ zs) = tailOf r ++ pathOf zs := by
  rw [pathOf_of_ne_nil (by simp [hzs]), pathOf_of_ne_nil hzs, tailOf_append]

theorem rebaseMount_eq_some (hr : Canon r) (hxs : xs ≠ []) (hx : Canon xs)
    (hm : m.target = pathOf xs) :
    rebaseMount (pathOf r) m = some m' ↔
      ∃ zs, xs = r ++ zs ∧ zs ≠ [] ∧ m' = { m with target := pathOf zs } := by
  unfold rebaseMount
  by_cases hrn : r = []
  · subst hrn
    rw [if_pos pathOf_nil, some_inj]
    constructor
    · rintro rfl
      exact ⟨xs, rfl, hxs, by rw [← hm]⟩
    · rintro ⟨zs, rfl, -, rfl⟩
      rw [← hm]
  · have hroot : pathOf r ≠ ['/'] := fun heq => hrn (pathOf_inj hr (forall_mem_nil _) heq)
    rw [if_neg hroot, hm]
    by_cases hpre : r <+: xs
    · obtain ⟨zs, rfl⟩ := hpre
      have hdrop : (pathOf (r ++ zs)).drop (pathOf r).length = tailOf zs := by
        rw [pathOf_of_ne_nil hrn, pathOf_of_ne_nil hxs, tailOf_append, drop_left]
      rw [(pathUnder_pathOf hr hx hrn).mpr (prefix_append r zs), if_neg Bool.noConfusion,
        hdrop]
      by_cases hzs : zs = []
      · subst hzs
        rw [if_pos tailOf_nil]
        constructor
        · intro h
          cases h
        · rintro ⟨zs, heq, hzs, -⟩
          exact absurd (append_cancel_left heq).symm hzs
      · have htail : tailOf zs ≠ [] := by
          obtain ⟨z, zs, rfl⟩ := exists_cons_of_ne_nil hzs
          exact cons_ne_nil _ _
        rw [if_neg htail, some_inj, ← pathOf_of_ne_nil hzs]
        constructor
        · rintro rfl
          exact ⟨zs, rfl, hzs, rfl⟩
        · rintro ⟨ws, heq, -, rfl⟩
          rw [append_cancel_left heq]
    · have hunder := hpre
      rw [← pathUnder_pathOf hr hx hrn, Bool.not_eq_true] at hunder
      rw [if_pos hunder]
      constructor
      · intro h
        cases h
      · rintro ⟨zs, rfl, -, -⟩
        exact absurd (prefix_append r zs) hpre

variable (h : tb.Wf) (hr : Canon r)
include h hr

theorem Wf.rebase_slot : (tb.rebase (pathOf r) n).slot i = some m' ↔
      ∃ m zs, tb.slot i = some m ∧ m.target = pathOf (r ++ zs) ∧ zs ≠ [] ∧ Canon zs ∧
        m' = { m with target := pathOf zs } := by
  show (if (tb.find (pathOf r)).map Prod.fst = some i then none
    else (tb.slot i).bind (rebaseMount (pathOf r))) = some m' ↔ _
  rw [ite_none_left_eq_some, bind_eq_some_iff]
  constructor
  · rintro ⟨-, m, hm, hreb⟩
    obtain ⟨xs, hxs, hx, ht⟩ := h.target hm
    obtain ⟨zs, rfl, hzs, rfl⟩ := (rebaseMount_eq_some hr hxs hx ht).mp hreb
    exact ⟨m, zs, hm, ht, hzs, hx.right, rfl⟩
  · rintro ⟨m, zs, hm, ht, hzs, hz, rfl⟩
    refine ⟨?_, m, hm, ?_⟩
    · -- a mount on the new root itself has nothing left of its target
      intro hfirst
      obtain ⟨⟨j, m₀⟩, hfind, rfl⟩ := map_eq_some_iff.mp hfirst
      obtain ⟨hm₀, ht₀⟩ := find_some hfind
      rw [hm] at hm₀
      cases hm₀
      have heq := pathOf_inj hr (hr.append hz) (ht₀.symm.trans ht)
      exact hzs (self_eq_append_right.mp heq)
    · exact (rebaseMount_eq_some hr (by simp [hzs]) (hr.append hz) ht).mpr ⟨zs, rfl, hzs, rfl⟩

theorem Wf.rebase (n : ℕ) : (tb.rebase (pathOf r) n).Wf where
  target := by
    intro i m' hm'
    obtain ⟨m, zs, -, -, hzs, hz, rfl⟩ := (h.rebase_slot hr).mp hm'
    exact ⟨zs, hzs, hz, rfl⟩
  short := by
    intro i m' hm'
    obtain ⟨m, zs, hm, ht, hzs, -, rfl⟩ := (h.rebase_slot hr).mp hm'
    have hshort := h.short hm
    rw [ht, pathOf_append r hzs, length_append] at hshort
    exact (Nat.le_add_left _ _).trans_lt hshort
  once := by
    intro i j m₁ m₂ h₁ h₂ heq
    obtain ⟨m, zs, hm, ht, hzs, -, rfl⟩ := (h.rebase_slot hr).mp h₁
    obtain ⟨m', ws, hm', ht', hws, -, rfl⟩ := (h.rebase_slot hr).mp h₂
    apply h.once hm hm'
    rw [ht, ht', pathOf_append r hzs, pathOf_append r hws]
    exact congrArg (tailOf r ++ ·) heq

theorem Wf.entry_rebase (hzs : zs ≠ []) (hz : Canon zs) :
    (tb.rebase (pathOf r) n).entry zs = tb.entry (r ++ zs) := by
  apply Option.ext
  intro v
  rw [(h.rebase hr n).entry_eq_some hzs, h.entry_eq_some (by simp [hzs])]
  constructor
  · rintro ⟨i, m', hm', ht', rfl⟩
    obtain ⟨m, ws, hm, ht, -, hw, rfl⟩ := (h.rebase_slot hr).mp hm'
    obtain rfl := pathOf_inj hw hz ht'
    exact ⟨i, m, hm, ht, rfl⟩
  · rintro ⟨i, m, hm, ht, rfl⟩
    exact ⟨i, _, (h.rebase_slot hr).mpr ⟨m, zs, hm, ht, hzs, hz, rfl⟩, rfl, rfl⟩

theorem Wf.resolved_rebase (hq : Canon q) (n : ℕ) :
    let below := longest (fun z => if z = [] then none else tb.entry (r ++ z)) q
    let tb' := tb.rebase (pathOf r) n
    tb.resolved (r ++ q) = below.getD ((tb.resolved r).1 ++ q, (tb.resolved r).2) ∧
      tb'.resolved q = below.getD (q, (n, tb'.rootFlags)) := by
  intro below tb'
  have hgetD : ∀ {o : Option (List Text × (ℕ × UInt32))} {a b}, o.or (some a) = some b →
      b = o.getD a := by
    intro o a b hob
    cases o with
    | none => exact (Option.some.inj hob).symm
    | some v => exact (Option.some.inj hob).symm
  constructor
  · apply hgetD
    rw [← h.resolved_eq (hr.append hq), longest_append, longest_root (fun z => tb.entry (r ++ z)),
      Option.or_assoc, h.resolved_eq hr, append_nil]
    congr 1
    cases hentry : tb.entry r with
    | none => rfl
    | some v =>
      have hself := h.resolved_eq hr
      rw [longest_self.mpr hentry] at hself
      rw [← Option.some.inj hself]
      rfl
  · apply hgetD
    rw [← (h.rebase hr n).resolved_eq hq, longest_root]
    congr 1
    refine longest_congr fun z hz => ?_
    obtain ⟨ws, rfl⟩ := hz
    split
    · rfl
    · next hne => exact (h.entry_rebase hr hne hq.left).symm

end MntTable

end Kyronix.Fs
