import Kyronix.Fs.CanonPath

/-! `path_canon` and `jail_canon_clamp` against lexical normalisation without limits. The scan stops
at the first component without room; what is left out has to cancel for the result to be right. -/
namespace Kyronix.Fs

open List

def normComps : List Text → List Text → List Text
  | [], kept => kept
  | x :: xs, kept =>
    if x = ['.'] then normComps xs kept
    else if x = ['.', '.'] then normComps xs kept.tail
    else normComps xs (x :: kept)

def normal (p : Text) : List Text := (normComps (components p) []).reverse

def belowRoot (path root : Text) : Text :=
  if pathUnder path root then path.drop root.length else path

def endAt (kept : List Text) (x : Text) : ℕ := (kept.map fun k => k.length + 1).sum + 1 + x.length

/-- Every component that is kept has room, or the rest from the first one without room on comes to
nothing. -/
def RoomFor (sz : ℕ) : List Text → List Text → Prop
  | [], _ => True
  | x :: xs, kept =>
    if x = ['.'] then RoomFor sz xs kept
    else if x = ['.', '.'] then RoomFor sz xs kept.tail
    else if 128 ≤ kept.length ∨ endAt kept x ≥ sz then normComps (x :: xs) kept = kept
    else RoomFor sz xs (x :: kept)

variable {x : Text} {xs kept : List Text} {sz : ℕ} {path root : Text}

theorem canonComps_eq_norm (sz : ℕ) (xs kept : List Text) :
    canonComps sz xs kept = normComps xs kept ↔ RoomFor sz xs kept := by
  induction xs generalizing kept with
  | nil => exact iff_of_true rfl trivial
  | cons x xs ih =>
    unfold canonComps RoomFor endAt
    split
    · next hx =>
      rw [normComps, if_pos hx]
      exact ih kept
    next hdot =>
      split
      · next hx =>
        rw [normComps, if_neg hdot, if_pos hx]
        exact ih kept.tail
      next hdots =>
        have hnorm : normComps (x :: xs) kept = normComps xs (x :: kept) := by
          rw [normComps, if_neg hdot, if_neg hdots]
        split
        · exact eq_comm
        · rw [hnorm]
          exact ih (x :: kept)

structure Small (sz : ℕ) (kept : List Text) : Prop where
  few : kept.length ≤ 128
  short : (kept.map fun k => k.length + 1).sum < sz

theorem Small.tail (h : Small sz kept) : Small sz kept.tail := by
  cases kept with
  | nil => exact h
  | cons x kept =>
    have hshort := h.short
    rw [map_cons, sum_cons] at hshort
    refine ⟨Nat.le_of_succ_le h.few, ?_⟩
    show (kept.map fun k => k.length + 1).sum < sz
    omega

theorem canonComps_small (sz : ℕ) (xs kept : List Text) (h : Small sz kept) :
    Small sz (canonComps sz xs kept) := by
  induction xs generalizing kept with
  | nil => exact h
  | cons x xs ih =>
    unfold canonComps
    split
    · exact ih kept h
    split
    · exact ih kept.tail h.tail
    split
    · exact h
    next hroom =>
      rw [not_or, not_le, not_le] at hroom
      apply ih (x :: kept)
      refine ⟨hroom.1, ?_⟩
      rw [map_cons, sum_cons]
      omega

theorem canonComps_canon (hx : Canon xs) (h : Small sz (xs.reverse ++ kept)) :
    canonComps sz xs kept = xs.reverse ++ kept := by
  induction xs generalizing kept with
  | nil => rfl
  | cons x xs ih =>
    have hxok := hx x mem_cons_self
    rw [reverse_cons, append_assoc] at h ⊢
    have hroom : ¬ (128 ≤ kept.length ∨
        (kept.map fun k => k.length + 1).sum + 1 + x.length ≥ sz) := by
      have hfew := h.few
      have hshort := h.short
      simp only [length_append, length_reverse, length_cons, length_nil,
        map_append, sum_append, map_cons, map_nil, sum_cons,
        sum_nil] at hfew hshort
      omega
    rw [canonComps, if_neg hxok.2.2.1, if_neg hxok.2.2.2, if_neg hroom]
    exact ih (fun z hz => hx z (mem_cons_of_mem _ hz)) h

theorem canonComps_again (hsz : 0 < sz) (p : Text) {q : Text}
    (hq : components q = (canonComps sz (components p) []).reverse) :
    canonComps sz (components q) [] = canonComps sz (components p) [] := by
  have hsmall := canonComps_small sz (components p) [] ⟨Nat.zero_le _, hsz⟩
  rw [hq, canonComps_canon (canon_canonComps sz p) (by simpa using hsmall)]
  simp

theorem pathCanon_idem (hsz : 0 < sz) (p : Text) :
    pathCanon sz (pathCanon sz p) = pathCanon sz p := by
  have hq := components_pathOf (canon_canonComps sz p)
  rw [← pathCanon_eq_pathOf] at hq
  rw [pathCanon_eq_pathOf sz (pathCanon sz p), canonComps_again hsz p hq, ← pathCanon_eq_pathOf]

theorem tailOf_inj (hx : Canon xs) {ys : List Text} (hy : Canon ys) (h : tailOf xs = tailOf ys) :
    xs = ys := by
  rw [← components_tailOf hx, h, components_tailOf hy]

theorem jailCanonClamp_eq (hroot : root ≠ []) (path : Text) :
    jailCanonClamp path root =
      (root ++ tailOf (canonComps 512 (components (belowRoot path root)) []).reverse).take 511 := by
  unfold jailCanonClamp
  rw [if_neg hroot]
  change cut 512 (cut 768 (if pathCanon 512 (belowRoot path root) = ['/'] then root
    else root ++ pathCanon 512 (belowRoot path root))) = _
  rw [pathCanon_eq_pathOf]
  have hc := canon_canonComps 512 (belowRoot path root)
  generalize hks : (canonComps 512 (components (belowRoot path root)) []).reverse = ks at hc
  have hif : (if pathOf ks = ['/'] then root else root ++ pathOf ks) = root ++ tailOf ks := by
    by_cases hnil : ks = []
    · subst hnil
      rw [if_pos pathOf_nil, tailOf_nil, append_nil]
    · have hne : pathOf ks ≠ ['/'] := fun heq =>
        hnil (pathOf_inj hc (forall_mem_nil _) (heq.trans pathOf_nil.symm))
      rw [if_neg hne, pathOf_of_ne_nil hnil]
  rw [hif]
  unfold cut
  rw [take_take]
  rfl

theorem belowRoot_append (root : Text) (ks : List Text) :
    belowRoot (root ++ tailOf ks) root = tailOf ks := by
  have hunder : pathUnder (root ++ tailOf ks) root = true :=
    pathUnder_iff.mpr ⟨tailOf ks, rfl, slashy_tailOf ks⟩
  rw [belowRoot, if_pos hunder, drop_left]

structure ClampExact (path root : Text) : Prop where
  full : jailCanonClamp path root = root ++ tailOf (normal (belowRoot path root))
  whole : ∀ rest, root ++ tailOf (normal (belowRoot path root)) = jailCanonClamp path root ++ rest →
    rest = []
  again : jailCanonClamp (jailCanonClamp path root) root = jailCanonClamp path root
  canon : pathCanon 512 path = pathOf (normal path)
  canonAgain : pathCanon 512 (pathCanon 512 path) = pathCanon 512 path

theorem canon_normal (p : Text) : Canon (normal p) := by
  have hnorm : ∀ xs kept : List Text, (∀ x ∈ xs, x ≠ [] ∧ '/' ∉ x) → Canon kept →
      Canon (normComps xs kept) := by
    intro xs
    induction xs with
    | nil => exact fun kept _ hk => hk
    | cons x xs ih =>
      intro kept hxs hk
      have hrest := fun z hz => hxs z (mem_cons_of_mem x hz)
      unfold normComps
      split
      · exact ih kept hrest hk
      next hdot =>
        split
        · exact ih kept.tail hrest fun z hz => hk z (mem_of_mem_tail hz)
        next hdots =>
          exact ih (x :: kept) hrest (hk.cons (hxs x mem_cons_self) hdot hdots)
  intro x hx
  exact hnorm _ [] (components_ok p) (forall_mem_nil _) x (mem_reverse.mp hx)

theorem pathCanon_complete_iff (p : Text) :
    pathCanon 512 p = pathOf (normal p) ↔ RoomFor 512 (components p) [] := by
  rw [← canonComps_eq_norm, pathCanon_eq_pathOf]
  constructor
  · intro h
    exact reverse_injective (pathOf_inj (canon_canonComps 512 p) (canon_normal p) h)
  · intro h
    rw [h]
    rfl

/-- The result fits the buffer, and nothing was left out, or the cut at the end of the buffer makes
up for it. -/
def ClampRoom (path root : Text) : Prop :=
  let ns := normal (belowRoot path root)
  let ks := (canonComps 512 (components (belowRoot path root)) []).reverse
  root.length + (tailOf ns).length ≤ 511 ∧
    (RoomFor 512 (components (belowRoot path root)) [] ∨
      root.length + (tailOf ns).length = 511 ∧ tailOf ns <+: tailOf ks)

theorem take_append_eq_iff {a b r : Text} {n : ℕ} :
    (r ++ b).take n = r ++ a ↔ r.length + a.length ≤ n ∧
      (b = a ∨ r.length + a.length = n ∧ a <+: b) := by
  constructor
  · intro h
    have hl := congrArg List.length h
    rw [length_take, length_append, length_append] at hl
    refine ⟨by omega, ?_⟩
    by_cases hcut : (r ++ b).length ≤ n
    · rw [take_of_length_le hcut] at h
      exact .inl (append_cancel_left h)
    · rw [length_append] at hcut
      refine .inr ⟨by omega, ?_⟩
      have hpre : r ++ a <+: r ++ b := h ▸ take_prefix n (r ++ b)
      exact (prefix_append_right_inj r).mp hpre
  · rintro ⟨hle, rfl | ⟨heq, c, rfl⟩⟩
    · exact take_of_length_le (by rw [length_append]; exact hle)
    · rw [← append_assoc, take_append_of_le_length (by simp; omega)]
      exact take_of_length_le (by simp; omega)

theorem clamp_full_iff (hroot : root ≠ []) (path : Text) :
    jailCanonClamp path root = root ++ tailOf (normal (belowRoot path root)) ↔
      ClampRoom path root := by
  rw [jailCanonClamp_eq hroot, take_append_eq_iff, ClampRoom, ← canonComps_eq_norm]
  have hsame : tailOf (canonComps 512 (components (belowRoot path root)) []).reverse =
      tailOf (normal (belowRoot path root)) ↔ canonComps 512 (components (belowRoot path root)) [] =
        normComps (components (belowRoot path root)) [] := by
    constructor
    · intro h
      exact reverse_injective
        (tailOf_inj (canon_canonComps 512 _) (canon_normal _) h)
    · intro h
      rw [h]
      rfl
  rw [hsame]

theorem count_tailOf (hx : Canon xs) : (tailOf xs).count '/' = xs.length := by
  induction xs with
  | nil => rfl
  | cons x xs ih =>
    have hnone : x.count '/' = 0 := count_eq_zero.mpr (hx x mem_cons_self).2.1
    rw [tailOf_cons, count_cons_self, count_append, hnone,
      ih fun z hz => hx z (mem_cons_of_mem _ hz)]
    simp

theorem length_tailOf (xs : List Text) :
    (tailOf xs).length = (xs.map fun k => k.length + 1).sum := by
  induction xs with
  | nil => rfl
  | cons x xs ih =>
    rw [tailOf_cons, map_cons, sum_cons, ← ih]
    simp
    omega

theorem ClampRoom.small (h : ClampRoom path root) : Small 512 (normal (belowRoot path root)) := by
  obtain ⟨hfit, hkept⟩ := h
  have hshort : ((normal (belowRoot path root)).map fun k => k.length + 1).sum < 512 := by
    rw [← length_tailOf]
    omega
  have hsmall := canonComps_small 512 (components (belowRoot path root)) []
    ⟨Nat.zero_le _, by decide⟩
  refine ⟨?_, hshort⟩
  rcases hkept with hroom | ⟨-, hpre⟩
  · rw [← canonComps_eq_norm] at hroom
    rw [normal, length_reverse, ← hroom]
    exact hsmall.few
  · have hcount := hpre.sublist.count_le '/'
    rw [count_tailOf (canon_normal _), count_tailOf (canon_canonComps 512 _),
      length_reverse] at hcount
    exact hcount.trans hsmall.few

theorem clamp_again (hroot : root ≠ []) (h : ClampRoom path root) :
    jailCanonClamp (jailCanonClamp path root) root = jailCanonClamp path root := by
  have hsmall := h.small
  have hcanon := canon_normal (belowRoot path root)
  rw [(clamp_full_iff hroot path).mpr h, jailCanonClamp_eq hroot, belowRoot_append,
    components_tailOf hcanon]
  have hall : canonComps 512 (normal (belowRoot path root)) [] =
      (normal (belowRoot path root)).reverse := by
    rw [canonComps_canon hcanon, append_nil]
    refine ⟨?_, ?_⟩
    · simpa using hsmall.few
    · have hsum := hsmall.short
      rw [append_nil, map_reverse, sum_reverse]
      exact hsum
  rw [hall, reverse_reverse]
  exact take_of_length_le (by rw [length_append]; exact h.1)

/-- When the clamp and `path_canon` are right, for every root. -/
theorem clamp_exact_iff (root path : Text) (hroot : root ≠ []) :
    ClampExact path root ↔ ClampRoom path root ∧ RoomFor 512 (components path) [] := by
  constructor
  · intro h
    exact ⟨(clamp_full_iff hroot path).mp h.full, (pathCanon_complete_iff path).mp h.canon⟩
  · rintro ⟨hclamp, hcanon⟩
    have hfull := (clamp_full_iff hroot path).mpr hclamp
    refine ⟨hfull, ?_, clamp_again hroot hclamp, (pathCanon_complete_iff path).mpr hcanon,
      pathCanon_idem (by decide) path⟩
    intro rest hrest
    rw [hfull] at hrest
    exact append_cancel_left (hrest.symm.trans (append_nil _).symm)

theorem clamp_exact_iff_jail : ClampExact ['/', 'j', '/', 'a'] ['/', 'j'] ↔
    ClampRoom ['/', 'j', '/', 'a'] ['/', 'j'] ∧
      RoomFor 512 (components ['/', 'j', '/', 'a']) [] :=
  clamp_exact_iff ['/', 'j'] ['/', 'j', '/', 'a'] (by decide)

def deepPath (n : ℕ) : Text := tailOf (List.replicate n ['a'])

theorem components_deepPath (n : ℕ) : components (deepPath n) = List.replicate n ['a'] := by
  apply components_tailOf
  intro x hx
  rw [eq_of_mem_replicate hx]
  exact ⟨by decide, by decide, by decide, by decide⟩

/-- The last of 129 components is lost without a word. -/
theorem clamp_drops_component :
    jailCanonClamp (deepPath 129) ['/', 'j'] = ['/', 'j'] ++ deepPath 128 ∧
      ¬ ClampExact (deepPath 129) ['/', 'j'] := by
  have hbelow : belowRoot (deepPath 129) ['/', 'j'] = deepPath 129 := by decide +kernel
  have hkept : canonComps 512 (List.replicate 129 ['a']) [] = List.replicate 128 ['a'] := by
    decide +kernel
  have hclamp : jailCanonClamp (deepPath 129) ['/', 'j'] = ['/', 'j'] ++ deepPath 128 := by
    rw [jailCanonClamp_eq (by decide), hbelow, components_deepPath, hkept,
      reverse_replicate]
    decide +kernel
  refine ⟨hclamp, fun h => ?_⟩
  have hfull := h.full
  rw [hclamp, hbelow, normal, components_deepPath] at hfull
  exact absurd hfull (by decide +kernel)

end Kyronix.Fs
