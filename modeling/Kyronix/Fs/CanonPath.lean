import Kyronix.Fs.Mount

/-! Canonical absolute paths as lists of components: `path_under` is the order of prefixes on them.
-/
namespace Kyronix.Fs

open List

def CompOk (x : Text) : Prop := x ≠ [] ∧ '/' ∉ x ∧ x ≠ ['.'] ∧ x ≠ ['.', '.']

def Canon (xs : List Text) : Prop := ∀ x ∈ xs, CompOk x

def tailOf (xs : List Text) : Text := (xs.map fun x => '/' :: x).flatten

def pathOf (xs : List Text) : Text := if xs = [] then ['/'] else tailOf xs

def Slashy (r : Text) : Prop := ∀ ch, r.head? = some ch → ch = '/'

variable {x y : Text} {xs ys zs : List Text} {a b p d : Text}

theorem Canon.left (h : Canon (xs ++ ys)) : Canon xs := fun x hx => h x (mem_append_left _ hx)

theorem Canon.right (h : Canon (xs ++ ys)) : Canon ys :=
  fun x hx => h x (mem_append_right _ hx)

theorem Canon.append (h : Canon xs) (h' : Canon ys) : Canon (xs ++ ys) := by
  intro x hx
  rcases mem_append.mp hx with hx | hx
  · exact h x hx
  · exact h' x hx

theorem tailOf_nil : tailOf [] = [] := rfl

theorem tailOf_cons (x : Text) (xs : List Text) : tailOf (x :: xs) = '/' :: (x ++ tailOf xs) := rfl

theorem tailOf_append (xs ys : List Text) : tailOf (xs ++ ys) = tailOf xs ++ tailOf ys := by
  simp [tailOf]

theorem slashy_tailOf (xs : List Text) : Slashy (tailOf xs) := by
  intro ch hch
  cases xs with
  | nil => cases hch
  | cons x xs => exact (Option.some.inj hch).symm

theorem Slashy.append (ha : Slashy a) (hb : Slashy b) : Slashy (a ++ b) := by
  intro ch hch
  cases a with
  | nil => exact hb ch hch
  | cons c a => exact ha ch hch

theorem pathOf_of_ne_nil (h : xs ≠ []) : pathOf xs = tailOf xs := if_neg h

theorem pathOf_nil : pathOf [] = ['/'] := rfl

theorem head?_pathOf (xs : List Text) : (pathOf xs).head? = some '/' := by
  cases xs with
  | nil => rfl
  | cons x xs => rfl

theorem length_pathOf_pos (xs : List Text) : 0 < (pathOf xs).length := by
  cases xs with
  | nil => exact Nat.zero_lt_one
  | cons x xs => exact Nat.succ_pos _

theorem takeWhile_comp (hx : '/' ∉ x) (ha : Slashy a) : (x ++ a).takeWhile (· ≠ '/') = x := by
  induction x with
  | nil =>
    cases a with
    | nil => rfl
    | cons c a => simp [ha c rfl]
  | cons c x ih =>
    have hc : c ≠ '/' := fun heq => hx (heq ▸ mem_cons_self)
    rw [cons_append, takeWhile_cons_of_pos (by simpa using hc),
      ih fun h => hx (mem_cons_of_mem _ h)]

theorem comp_split (hx : '/' ∉ x) (hy : '/' ∉ y) (ha : Slashy a) (hb : Slashy b)
    (h : x ++ a = y ++ b) : x = y ∧ a = b := by
  have hxy : x = y := by rw [← takeWhile_comp hx ha, h, takeWhile_comp hy hb]
  subst hxy
  exact ⟨rfl, append_cancel_left h⟩

theorem pathUnder_iff : pathUnder p d = true ↔ ∃ r, p = d ++ r ∧ Slashy r := by
  unfold pathUnder
  rw [Bool.and_eq_true, isPrefixOf_iff_prefix]
  constructor
  · rintro ⟨⟨r, rfl⟩, hr⟩
    rw [drop_left] at hr
    refine ⟨r, rfl, fun ch hch => ?_⟩
    rw [hch] at hr
    simpa using hr
  · rintro ⟨r, rfl, hr⟩
    refine ⟨prefix_append d r, ?_⟩
    rw [drop_left]
    cases hch : r.head? with
    | none => rfl
    | some ch => simpa using hr ch hch

theorem tailOf_prefix (hx : Canon xs) (hy : Canon ys) {r : Text} (hr : Slashy r)
    (h : tailOf ys = tailOf xs ++ r) : xs <+: ys := by
  induction xs generalizing ys with
  | nil => exact nil_prefix
  | cons x xs ih =>
    cases ys with
    | nil => cases h
    | cons y ys =>
      rw [tailOf_cons, tailOf_cons, cons_append, append_assoc] at h
      obtain ⟨rfl, htail⟩ := comp_split (hy y mem_cons_self).2.1 (hx x mem_cons_self).2.1
        (slashy_tailOf ys) ((slashy_tailOf xs).append hr) (List.cons.inj h).2
      exact prefix_cons_inj y |>.mpr (ih (fun z hz => hx z (mem_cons_of_mem _ hz))
        (fun z hz => hy z (mem_cons_of_mem _ hz)) htail)

theorem pathUnder_pathOf (hx : Canon xs) (hy : Canon ys) (hne : xs ≠ []) :
    pathUnder (pathOf ys) (pathOf xs) = true ↔ xs <+: ys := by
  rw [pathUnder_iff, pathOf_of_ne_nil hne]
  constructor
  · rintro ⟨r, hr, hs⟩
    cases ys with
    | nil =>
      cases xs with
      | nil => exact absurd rfl hne
      | cons x xs =>
        rw [pathOf_nil, tailOf_cons] at hr
        have hx0 := (hx x mem_cons_self).1
        have hnil := (append_eq_nil_iff.mp (List.cons.inj hr).2.symm).1
        exact absurd (append_eq_nil_iff.mp hnil).1 hx0
    | cons y ys =>
      rw [pathOf_of_ne_nil (cons_ne_nil y ys)] at hr
      exact tailOf_prefix hx hy hs hr
  · rintro ⟨zs, rfl⟩
    have hne' : xs ++ zs ≠ [] := by simp [hne]
    exact ⟨tailOf zs, by rw [pathOf_of_ne_nil hne', tailOf_append], slashy_tailOf zs⟩

theorem pathUnder_root (hy : Canon ys) (hne : ys ≠ []) : pathUnder (pathOf ys) ['/'] = false := by
  rw [← Bool.not_eq_true, pathUnder_iff]
  rintro ⟨r, hr, hs⟩
  obtain ⟨y, ys, rfl⟩ := exists_cons_of_ne_nil hne
  rw [pathOf_of_ne_nil hne, tailOf_cons] at hr
  have hyok := hy y mem_cons_self
  obtain ⟨c, t, rfl⟩ := exists_cons_of_ne_nil hyok.1
  have hrest : c :: t ++ tailOf ys = r := (List.cons.inj hr).2
  have hc := hs c (by rw [← hrest]; rfl)
  exact hyok.2.1 (hc ▸ mem_cons_self)

theorem pathOf_inj (hx : Canon xs) (hy : Canon ys) (h : pathOf xs = pathOf ys) : xs = ys := by
  have hself : ∀ t : Text, pathUnder t t = true := by
    intro t
    exact pathUnder_iff.mpr ⟨[], (append_nil t).symm, fun _ hch => by cases hch⟩
  by_cases hxn : xs = []
  · by_contra hne
    have hyn : ys ≠ [] := fun h' => hne (hxn.trans h'.symm)
    have hroot := pathUnder_root hy hyn
    rw [← h, hxn] at hroot
    exact Bool.noConfusion ((hself ['/']).symm.trans hroot)
  · by_cases hyn : ys = []
    · have hroot := pathUnder_root hx hxn
      rw [h, hyn] at hroot
      exact Bool.noConfusion ((hself ['/']).symm.trans hroot)
    · have hxy := (pathUnder_pathOf hx hy hxn).mp (h ▸ hself _)
      have hyx := (pathUnder_pathOf hy hx hyn).mp (h ▸ hself _)
      exact hxy.eq_of_length_le hyx.length_le

theorem skipSlashes_comp (hx : CompOk x) (a : Text) : skipSlashes (x ++ a) = x ++ a := by
  obtain ⟨c, t, rfl⟩ := exists_cons_of_ne_nil hx.1
  have hc : c ≠ '/' := fun heq => hx.2.1 (heq ▸ mem_cons_self)
  unfold skipSlashes
  rw [cons_append, dropWhile_cons_of_neg (by simpa using hc)]

theorem skipSlashes_tailOf_cons (hx : CompOk x) (xs : List Text) :
    skipSlashes (tailOf (x :: xs)) = x ++ tailOf xs := by
  rw [tailOf_cons]
  show skipSlashes (x ++ tailOf xs) = _
  exact skipSlashes_comp hx _

theorem pathTokens_comp (hx : CompOk x) (ha : Slashy a) :
    pathTokens (x ++ a) = (x, skipSlashes a) :: pathTokens (skipSlashes a) := by
  have hhead : headComp (x ++ a) = x := takeWhile_comp hx.2.1 ha
  have hafter : afterComp (x ++ a) = skipSlashes a := by
    have hsplit := takeWhile_append_dropWhile (p := (· ≠ '/')) (l := x ++ a)
    rw [takeWhile_comp hx.2.1 ha] at hsplit
    unfold afterComp
    rw [append_cancel_left hsplit]
  obtain ⟨c, t, rfl⟩ := exists_cons_of_ne_nil hx.1
  rw [cons_append] at hhead hafter ⊢
  rw [pathTokens, hhead, hafter]

theorem components_tailOf (hx : Canon xs) : components (tailOf xs) = xs := by
  unfold components
  induction xs with
  | nil => rw [tailOf_nil]; decide +kernel
  | cons x xs ih =>
    have hxok := hx x mem_cons_self
    rw [skipSlashes_tailOf_cons hxok, pathTokens_comp hxok (slashy_tailOf xs), map_cons,
      ih fun z hz => hx z (mem_cons_of_mem _ hz)]

theorem components_pathOf (hx : Canon xs) : components (pathOf xs) = xs := by
  by_cases hne : xs = []
  · subst hne
    decide +kernel
  · rw [pathOf_of_ne_nil hne, components_tailOf hx]

theorem head?_skipSlashes (p : Text) : (skipSlashes p).head? ≠ some '/' := by
  intro h
  have hnot := List.head?_dropWhile_not (· = '/') p
  unfold skipSlashes at h
  rw [h] at hnot
  simp at hnot

theorem pathTokens_ok (t : Text) (ht : t.head? ≠ some '/') :
    ∀ b ∈ pathTokens t, b.1 ≠ [] ∧ '/' ∉ b.1 := by
  induction t using pathTokens.induct with
  | case1 =>
    intro b hb
    rw [pathTokens] at hb
    cases hb
  | case2 ch t ih =>
    intro b hb
    rw [pathTokens] at hb
    rcases mem_cons.mp hb with rfl | hb
    · have hch : ch ≠ '/' := fun heq => ht (by rw [heq]; rfl)
      constructor
      · unfold headComp
        rw [takeWhile_cons_of_pos (by simpa using hch)]
        exact cons_ne_nil _ _
      · intro hmem
        have := mem_takeWhile_imp hmem
        simp at this
    · exact ih (head?_skipSlashes _) b hb

theorem Canon.cons {x : Text} {kept : List Text} (hk : Canon kept) (hx : x ≠ [] ∧ '/' ∉ x)
    (hdot : x ≠ ['.']) (hdots : x ≠ ['.', '.']) : Canon (x :: kept) :=
  forall_mem_cons.mpr ⟨⟨hx.1, hx.2, hdot, hdots⟩, hk⟩

theorem canonComps_ok (sz : ℕ) (xs kept : List Text) (hxs : ∀ x ∈ xs, x ≠ [] ∧ '/' ∉ x)
    (hk : Canon kept) : Canon (canonComps sz xs kept) := by
  induction xs generalizing kept with
  | nil => exact hk
  | cons x xs ih =>
    have hrest := fun z hz => hxs z (mem_cons_of_mem x hz)
    unfold canonComps
    split
    · exact ih kept hrest hk
    next hdot =>
      split
      · exact ih kept.tail hrest fun z hz => hk z (mem_of_mem_tail hz)
      next hdots =>
        split
        · exact hk
        · exact ih (x :: kept) hrest (hk.cons (hxs x mem_cons_self) hdot hdots)

theorem components_ok (p : Text) : ∀ x ∈ components p, x ≠ [] ∧ '/' ∉ x := by
  intro x hx
  obtain ⟨b, hb, rfl⟩ := mem_map.mp hx
  exact pathTokens_ok _ (head?_skipSlashes p) b hb

theorem canon_canonComps (sz : ℕ) (p : Text) : Canon (canonComps sz (components p) []).reverse :=
  fun x hx => canonComps_ok sz (components p) [] (components_ok p) (forall_mem_nil _) x
    (mem_reverse.mp hx)

theorem pathCanon_eq_pathOf (sz : ℕ) (p : Text) :
    pathCanon sz p = pathOf (canonComps sz (components p) []).reverse := by
  unfold pathCanon
  split
  · next hnil => rw [hnil]; rfl
  · next hne =>
    rw [pathOf_of_ne_nil (by simpa using hne)]
    rfl

theorem pathCanon_spec (sz : ℕ) (p : Text) : ∃ xs, Canon xs ∧ pathCanon sz p = pathOf xs :=
  ⟨_, canon_canonComps sz p, pathCanon_eq_pathOf sz p⟩

theorem makeAbs_spec {c : Caller} {inp : Text} (hne : inp ≠ []) (h : makeAbs c inp = some p) :
    Canon (components p) ∧ pathOf (components p) = p := by
  have hcanon : ∃ q, p = pathCanon 512 q := by
    unfold makeAbs at h
    rw [if_neg hne] at h
    dsimp only at h
    split at h
    · exact ⟨_, (Option.some.inj h).symm⟩
    · obtain ⟨-, h⟩ := Option.ite_none_left_eq_some.mp h
      exact ⟨_, (Option.some.inj h).symm⟩
  obtain ⟨q, rfl⟩ := hcanon
  obtain ⟨xs, hxs, heq⟩ := pathCanon_spec 512 q
  rw [heq, components_pathOf hxs]
  exact ⟨hxs, rfl⟩

end Kyronix.Fs
