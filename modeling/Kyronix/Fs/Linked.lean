import Kyronix.Lib.Table
import Kyronix.Fs.Vfs

/-! The links of the tree lead to nodes that are there: what directories list, what nodes have as
their parent, and what a walk arrives at. -/
namespace Kyronix.Fs

open Function List Fs.Tree

variable {t : Tree} {c : Caller} {n d p i j : ℕ} {nd dir nd' : Vnode}

namespace Tree

theorem get_of_node (h : t.node n = some nd) : t.get n = nd := by
  unfold get
  rw [h]
  rfl

theorem set_node_self (t : Tree) (n : ℕ) (nd : Vnode) : (t.set n nd).node n = some nd :=
  update_self ..

theorem set_node_ne (t : Tree) (nd : Vnode) (h : j ≠ n) : (t.set n nd).node j = t.node j :=
  update_of_ne h ..

theorem set_node_cases {x : Vnode} (h : (t.set n nd).node j = some x) :
    (j = n ∧ x = nd) ∨ (j ≠ n ∧ t.node j = some x) := by
  by_cases hj : j = n
  · subst hj
    rw [set_node_self] at h
    exact .inl ⟨rfl, (Option.some.inj h).symm⟩
  · rw [set_node_ne t nd hj] at h
    exact .inr ⟨hj, h⟩

theorem set_get_self (t : Tree) (n : ℕ) (nd : Vnode) : (t.set n nd).get n = nd :=
  get_of_node (set_node_self t n nd)

theorem set_get_ne (t : Tree) (nd : Vnode) (h : j ≠ n) : (t.set n nd).get j = t.get j := by
  unfold get
  rw [set_node_ne t nd h]

theorem free_node_cases {x : Vnode} (h : (t.free n).node j = some x) :
    j ≠ n ∧ t.node j = some x := Lib.of_update_none h

theorem free_node_ne (t : Tree) (h : j ≠ n) : (t.free n).node j = t.node j :=
  update_of_ne h ..

theorem add_node_cases {x : Vnode} (h : (t.add nd).node j = some x) :
    (j = t.next ∧ x = nd) ∨ (j ≠ t.next ∧ t.node j = some x) := set_node_cases h

theorem add_node_self (t : Tree) (nd : Vnode) : (t.add nd).node t.next = some nd :=
  update_self ..

theorem add_node_ne (t : Tree) (nd : Vnode) (h : j ≠ t.next) : (t.add nd).node j = t.node j :=
  update_of_ne h ..

end Tree

def Vnode.Has (nd : Vnode) (i : ℕ) : Prop := i ∈ nd.children ∨ ∃ l, nd.index = some l ∧ i ∈ l

/-- What a directory lists is there, not deleted, and has the directory as its parent. -/
structure Tree.Parented (t : Tree) : Prop where
  child : ∀ {d dir i}, t.node d = some dir → dir.Has i →
    ∃ x, t.node i = some x ∧ x.deleted = false ∧ x.parent = some d
  bound : ∀ {n nd}, t.node n = some nd → n < t.next

theorem Tree.Parented.set {x : Vnode} (h : t.Parented) (hn : t.node n = some nd)
    (hhas : ∀ i, x.Has i → nd.Has i ∨
      i ≠ n ∧ ∃ y, t.node i = some y ∧ y.deleted = false ∧ y.parent = some n)
    (hlisted : x.deleted = nd.deleted ∧ x.parent = nd.parent ∨
      ∀ {e y}, t.node e = some y → ¬ y.Has n) : (t.set n x).Parented where
  child := by
    intro d dir i hd hi
    have hold : (∃ y, t.node d = some y ∧ y.Has i) ∨
        i ≠ n ∧ ∃ y, t.node i = some y ∧ y.deleted = false ∧ y.parent = some d := by
      rcases set_node_cases hd with ⟨rfl, rfl⟩ | ⟨-, hd⟩
      · exact (hhas i hi).imp_left fun hi => ⟨nd, hn, hi⟩
      · exact .inl ⟨dir, hd, hi⟩
    rcases hold with ⟨y, hy, hyi⟩ | ⟨hin, y, hy, hrest⟩
    · obtain ⟨z, hz, hzdel, hzpar⟩ := h.child hy hyi
      by_cases hin : i = n
      · subst hin
        rw [hn] at hz
        cases hz
        rcases hlisted with ⟨hdel, hpar⟩ | hnot
        · exact ⟨x, set_node_self .., hdel.trans hzdel, hpar.trans hzpar⟩
        · exact absurd hyi (hnot hy)
      · exact ⟨z, (set_node_ne _ _ hin).trans hz, hzdel, hzpar⟩
    · exact ⟨y, (set_node_ne _ _ hin).trans hy, hrest⟩
  bound := by
    intro j y hy
    rcases set_node_cases hy with ⟨rfl, rfl⟩ | ⟨-, hy⟩
    · exact h.bound hn
    · exact h.bound hy

theorem Tree.Parented.free (h : t.Parented) (hdel : (t.get n).deleted = true) :
    (t.free n).Parented where
  child := by
    intro d dir i hd hhas
    obtain ⟨x, hx, hxdel, hup⟩ := h.child (free_node_cases hd).2 hhas
    have hi : i ≠ n := by
      rintro rfl
      rw [get_of_node hx, hxdel] at hdel
      cases hdel
    exact ⟨x, (free_node_ne t hi).trans hx, hxdel, hup⟩
  bound := fun hx => h.bound (free_node_cases hx).2

theorem Tree.Parented.add (h : t.Parented) (hch : nd.children = []) (hidx : nd.index = none) :
    (t.add nd).Parented where
  child := by
    intro d dir i hd hhas
    rcases add_node_cases hd with ⟨rfl, rfl⟩ | ⟨-, hd⟩
    · simp [Vnode.Has, hch, hidx] at hhas
    · obtain ⟨x, hx, hrest⟩ := h.child hd hhas
      exact ⟨x, (add_node_ne t nd (h.bound hx).ne).trans hx, hrest⟩
  bound := by
    intro j x hx
    rcases add_node_cases hx with ⟨rfl, -⟩ | ⟨-, hx⟩
    · exact Nat.lt_succ_self _
    · exact Nat.lt_succ_of_lt (h.bound hx)

/-- What is listed is there, what is a parent is a directory that is there, and directories are not
deleted. -/
structure Linked (t : Tree) : Prop where
  child : ∀ {d dir i}, t.node d = some dir → dir.Has i →
    ∃ x, t.node i = some x ∧ x.deleted = false ∧ x.parent = some d
  up : ∀ {n nd p}, t.node n = some nd → nd.parent = some p →
    ∃ dir, t.node p = some dir ∧ dir.type = .dir
  kept : ∀ {n nd}, t.node n = some nd → nd.deleted = true → nd.type ≠ .dir
  once : ∀ {d dir}, t.node d = some dir → dir.children.Nodup ∧ ∀ l, dir.index = some l → l.Nodup
  bound : ∀ {n nd}, t.node n = some nd → n < t.next

theorem Linked.parented (h : Linked t) : t.Parented := ⟨h.child, h.bound⟩

section

variable (h : Linked t) (hn : t.node n = some nd)
include h hn

theorem Linked.not_has (hp : nd.parent ≠ some d) (hd : t.node d = some dir) : ¬ dir.Has n := by
  intro hhas
  obtain ⟨x, hx, -, hup⟩ := h.child hd hhas
  rw [hn] at hx
  cases hx
  exact hp hup

theorem Linked.set {x : Vnode} (htype : x.type = nd.type) (hkept : x.deleted = true → x.type ≠ .dir)
    (honce : x.children.Nodup ∧ ∀ l, x.index = some l → l.Nodup)
    (hhas : ∀ i, x.Has i → nd.Has i ∨
      i ≠ n ∧ ∃ y, t.node i = some y ∧ y.deleted = false ∧ y.parent = some n)
    (hup : ∀ p, x.parent = some p → ∃ dir, t.node p = some dir ∧ dir.type = .dir)
    (hlisted : x.deleted = nd.deleted ∧ x.parent = nd.parent ∨
      ∀ {e y}, t.node e = some y → ¬ y.Has n) : Linked (t.set n x) where
  child := (h.parented.set hn hhas hlisted).child
  up := by
    intro j y p hy hp
    have hold : ∃ dir, t.node p = some dir ∧ dir.type = .dir := by
      rcases set_node_cases hy with ⟨rfl, rfl⟩ | ⟨-, hy⟩
      · exact hup p hp
      · exact h.up hy hp
    obtain ⟨dir, hdir, hd⟩ := hold
    by_cases hpn : p = n
    · subst hpn
      rw [hn] at hdir
      cases hdir
      exact ⟨x, set_node_self .., htype.trans hd⟩
    · exact ⟨dir, (set_node_ne _ _ hpn).trans hdir, hd⟩
  kept := by
    intro j y hy
    rcases set_node_cases hy with ⟨rfl, rfl⟩ | ⟨-, hy⟩
    · exact hkept
    · exact h.kept hy
  once := by
    intro j y hy
    rcases set_node_cases hy with ⟨rfl, rfl⟩ | ⟨-, hy⟩
    · exact honce
    · exact h.once hy
  bound := (h.parented.set hn hhas hlisted).bound

theorem Linked.set_deleted (hpar : nd.parent = none)
    (htype : nd.type ≠ .dir) : Linked (t.set n { nd with deleted := true }) := by
  have honce := h.once hn
  exact h.set hn rfl (fun _ => htype) honce (fun _ hi => .inl hi) (fun _ hp => h.up hn hp)
    (.inr fun hy => h.not_has hn (by simp [hpar]) hy)

theorem Linked.free (hdel : nd.deleted = true) : Linked (t.free n) where
  child := (h.parented.free (by rwa [get_of_node hn])).child
  up := by
    intro j x p hx hp
    obtain ⟨dir, hdir, htype⟩ := h.up (free_node_cases hx).2 hp
    have hpn : p ≠ n := by
      intro hpn
      subst hpn
      rw [hn] at hdir
      cases hdir
      exact h.kept hn hdel htype
    exact ⟨dir, by rw [free_node_ne _ hpn, hdir], htype⟩
  kept := fun hx => h.kept (free_node_cases hx).2
  once := fun hx => h.once (free_node_cases hx).2
  bound := fun hx => h.bound (free_node_cases hx).2

end

theorem Linked.add (h : Linked t) (hpar : nd.parent = none) (hch : nd.children = [])
    (hidx : nd.index = none) (hdel : nd.deleted = true → nd.type ≠ .dir) : Linked (t.add nd) where
  child := (h.parented.add hch hidx).child
  up := by
    intro j x p hx hp
    rcases add_node_cases hx with ⟨rfl, rfl⟩ | ⟨-, hx⟩
    · rw [hpar] at hp
      cases hp
    · obtain ⟨dir, hdir, htype⟩ := h.up hx hp
      exact ⟨dir, (add_node_ne t nd (h.bound hdir).ne).trans hdir, htype⟩
  kept := by
    intro j x hx
    rcases add_node_cases hx with ⟨rfl, rfl⟩ | ⟨-, hx⟩
    · exact hdel
    · exact h.kept hx
  once := by
    intro j x hx
    rcases add_node_cases hx with ⟨rfl, rfl⟩ | ⟨-, hx⟩
    · rw [hch, hidx]
      exact ⟨nodup_nil, by simp⟩
    · exact h.once hx
  bound := (h.parented.add hch hidx).bound

namespace Tree

theorem dirRemove_eq (hd : t.node d = some dir) (hn : t.node n = some nd) (hne : d ≠ n) :
    t.dirRemove d n = (t.set d { dir with
      children := dir.children.erase n
      index := dir.index.map (·.erase n) }).set n { nd with parent := none } := by
  unfold dirRemove
  dsimp only
  rw [get_of_node hd, set_get_ne _ _ hne.symm, get_of_node hn]

def withEntry (dir : Vnode) (n : ℕ) (room : Bool) : Vnode :=
  { dir with
    children := n :: dir.children
    index := match dir.index with
      | some l => some (n :: l)
      | none => if room then some [n] else none }

theorem dirInsert_eq (hd : t.node d = some dir) (hn : t.node n = some nd) (hne : d ≠ n)
    (room : Bool) :
    t.dirInsert d n room = (t.set n { nd with parent := some d }).set d (withEntry dir n room) := by
  unfold dirInsert
  dsimp only
  rw [get_of_node hn, set_get_ne _ _ hne, get_of_node hd]
  rfl

end Tree

theorem Vnode.has_erase (hnodup : dir.children.Nodup) (hidx : ∀ l, dir.index = some l → l.Nodup)
    (h : Vnode.Has { dir with
      children := dir.children.erase n
      index := dir.index.map (·.erase n) } i) : dir.Has i ∧ i ≠ n := by
  rcases h with h | ⟨l, hl, h⟩
  · obtain ⟨hne, hmem⟩ := hnodup.mem_erase_iff.mp h
    exact ⟨.inl hmem, hne⟩
  · obtain ⟨l', hl', rfl⟩ := Option.map_eq_some_iff.mp hl
    obtain ⟨hne, hmem⟩ := (hidx l' hl').mem_erase_iff.mp h
    exact ⟨.inr ⟨l', hl', hmem⟩, hne⟩

theorem Vnode.has_withEntry {room : Bool} (h : (withEntry dir n room).Has i) :
    i = n ∨ dir.Has i := by
  unfold withEntry at h
  rcases h with h | ⟨l, hl, h⟩
  · exact (mem_cons.mp h).imp_right .inl
  · cases hidx : dir.index with
    | some l' =>
      rw [hidx] at hl
      cases hl
      exact (mem_cons.mp h).imp_right fun h => .inr ⟨l', hidx, h⟩
    | none =>
      rw [hidx] at hl
      cases room with
      | true =>
        cases hl
        exact .inl (mem_singleton.mp h)
      | false => cases hl

section

variable (h : Linked t) (hd : t.node d = some dir)
include h hd

theorem Linked.unlist (n : ℕ) : Linked (t.set d { dir with
    children := dir.children.erase n, index := dir.index.map (·.erase n) }) := by
  obtain ⟨hnodup, hidx⟩ := h.once hd
  have hkept := h.kept hd
  refine h.set hd rfl hkept ⟨hnodup.erase n, fun l hl => ?_⟩
    (fun i hi => .inl (Vnode.has_erase hnodup hidx hi).1) (fun _ hp => h.up hd hp) (.inl ⟨rfl, rfl⟩)
  obtain ⟨l', hl', rfl⟩ := Option.map_eq_some_iff.mp hl
  exact (hidx l' hl').erase n

theorem Linked.dirRemove (hn : t.node n = some nd)
    (hpar : nd.parent = some d) (hne : d ≠ n) : Linked (t.dirRemove d n) := by
  rw [dirRemove_eq hd hn hne]
  obtain ⟨hnodup, hidx⟩ := h.once hd
  have hkept := h.kept hn
  have honce := h.once hn
  refine (h.unlist hd n).set ((set_node_ne _ _ hne.symm).trans hn) rfl hkept honce
    (fun _ hi => .inl hi) (fun _ hp => nomatch hp) (.inr fun {e y} hy hhas => ?_)
  rcases set_node_cases hy with ⟨rfl, rfl⟩ | ⟨hed, hy⟩
  · exact (Vnode.has_erase hnodup hidx hhas).2 rfl
  · exact h.not_has hn (by rw [hpar]; simpa using hed.symm) hy hhas

theorem Linked.place (hn : t.node n = some nd) (htype : dir.type = .dir) (hpar : nd.parent = none) :
    Linked (t.set n { nd with parent := some d }) := by
  have hkept := h.kept hn
  have honce := h.once hn
  refine h.set hn rfl hkept honce (fun _ hi => .inl hi) (fun p hp => ?_)
    (.inr fun hx => h.not_has hn (by simp [hpar]) hx)
  cases hp
  exact ⟨dir, hd, htype⟩

theorem Linked.dirInsert (hn : t.node n = some nd)
    (htype : dir.type = .dir) (hpar : nd.parent = none) (hdel : nd.deleted = false) (hne : d ≠ n)
    (room : Bool) : Linked (t.dirInsert d n room) := by
  rw [dirInsert_eq hd hn hne]
  have hnot : ¬ dir.Has n := h.not_has hn (by simp [hpar]) hd
  have hplaced := h.place hd hn htype hpar
  have hd' := (set_node_ne t { nd with parent := some d } hne).trans hd
  have hself := set_node_self t n { nd with parent := some d }
  have hkept := h.kept hd
  obtain ⟨hnodup, hidx⟩ := h.once hd
  refine hplaced.set hd' rfl hkept ⟨nodup_cons.mpr ⟨fun hm => hnot (.inl hm), hnodup⟩,
    fun l hl => ?_⟩ (fun i hi => ?_) (fun _ hp => hplaced.up hd' hp) (.inl ⟨rfl, rfl⟩)
  · unfold withEntry at hl
    cases hi : dir.index with
    | some l' =>
      rw [hi] at hl
      cases hl
      exact nodup_cons.mpr ⟨fun hm => hnot (.inr ⟨l', hi, hm⟩), hidx l' hi⟩
    | none =>
      rw [hi] at hl
      cases room with
      | true =>
        cases hl
        exact nodup_singleton n
      | false => cases hl
  · rcases Vnode.has_withEntry hi with rfl | hi
    · exact .inr ⟨hne.symm, _, hself, hdel, rfl⟩
    · exact .inl hi

end

structure Tree.Evolves (t t' : Tree) : Prop where
  next : t.next ≤ t'.next
  old : ∀ {n nd'}, t'.node n = some nd' → n < t.next → ∃ nd, t.node n = some nd ∧
    nd'.type = nd.type ∧ nd'.sock = nd.sock ∧ (nd.parent = none → nd'.parent = none)

namespace Tree.Evolves

variable {t' t'' : Tree}

theorem refl (t : Tree) : t.Evolves t := ⟨Nat.le_refl _, fun h _ => ⟨_, h, rfl, rfl, id⟩⟩

theorem trans (h : t.Evolves t') (h' : t'.Evolves t'') : t.Evolves t'' where
  next := h.next.trans h'.next
  old := by
    intro n nd hnd hlt
    obtain ⟨x, hx, htype, hsock, hpar⟩ := h'.old hnd (hlt.trans_le h.next)
    obtain ⟨y, hy, hytype, hysock, hypar⟩ := h.old hx hlt
    exact ⟨y, hy, htype.trans hytype, hsock.trans hysock, fun hy => hpar (hypar hy)⟩

theorem set (hn : t.node n = some nd) (htype : nd'.type = nd.type) (hsock : nd'.sock = nd.sock)
    (hpar : nd.parent = none → nd'.parent = none) : t.Evolves (t.set n nd') where
  next := Nat.le_refl _
  old := by
    intro j x hx _
    rcases set_node_cases hx with ⟨rfl, rfl⟩ | ⟨-, hx⟩
    · exact ⟨nd, hn, htype, hsock, hpar⟩
    · exact ⟨x, hx, rfl, rfl, id⟩

theorem free (t : Tree) (n : ℕ) : t.Evolves (t.free n) where
  next := Nat.le_refl _
  old := fun hx _ => ⟨_, (free_node_cases hx).2, rfl, rfl, id⟩

theorem add (t : Tree) (nd : Vnode) : t.Evolves (t.add nd) where
  next := Nat.le_succ _
  old := by
    intro j x hx hlt
    rcases add_node_cases hx with ⟨rfl, -⟩ | ⟨-, hx⟩
    · exact absurd hlt (Nat.lt_irrefl _)
    · exact ⟨x, hx, rfl, rfl, id⟩

theorem dirRemove (hd : t.node d = some dir) (hn : t.node n = some nd) (hne : d ≠ n) :
    t.Evolves (t.dirRemove d n) := by
  rw [dirRemove_eq hd hn hne]
  have hd' : t.Evolves (t.set d { dir with
      children := dir.children.erase n
      index := dir.index.map (·.erase n) }) := set hd rfl rfl id
  exact hd'.trans (set ((set_node_ne _ _ hne.symm).trans hn) rfl rfl fun _ => rfl)

theorem create (hd : t.node d = some dir) (hlt : d < t.next) (nd : Vnode) (room : Bool) :
    t.Evolves ((t.add nd).dirInsert d t.next room) := by
  have hd' : (t.add nd).node d = some dir := (add_node_ne _ _ hlt.ne).trans hd
  rw [dirInsert_eq hd' (add_node_self t nd) hlt.ne]
  refine ⟨Nat.le_succ _, ?_⟩
  intro j x hx hj
  rcases set_node_cases hx with ⟨rfl, rfl⟩ | ⟨-, hx⟩
  · exact ⟨dir, hd, rfl, rfl, id⟩
  · rcases set_node_cases hx with ⟨rfl, -⟩ | ⟨-, hx⟩
    · exact absurd hj (Nat.lt_irrefl _)
    · exact (add t nd).old hx hj

end Tree.Evolves

def Tree.RootsLive (t : Tree) : Prop :=
  ∀ ns ∈ t.initMnt :: t.mnts, (∃ nd, t.node ns.root = some nd) ∧
    ∀ m ∈ ns.mounts, ∃ nd, t.node m.root = some nd

theorem Tree.nsMntCurrent_mem (t : Tree) (c : Caller) : t.nsMntCurrent c ∈ t.initMnt :: t.mnts := by
  unfold nsMntCurrent
  rw [getD_eq_getElem?_getD]
  cases hget : t.mnts[c.mnt]? with
  | none => exact mem_cons_self
  | some ns => exact mem_cons_of_mem _ (mem_of_getElem? hget)

theorem Vnode.has_of_mem {nd : Vnode} (hi : i ∈ nd.index.getD nd.children) : nd.Has i := by
  cases hidx : nd.index with
  | none =>
    rw [hidx] at hi
    exact .inl hi
  | some l =>
    rw [hidx] at hi
    exact .inr ⟨l, hidx, hi⟩

theorem Tree.has_of_dirFind (hd : t.node d = some dir) {name : Text}
    (hi : t.dirFind d name = some i) : dir.Has i := by
  unfold dirFind at hi
  rw [get_of_node hd] at hi
  exact Vnode.has_of_mem (mem_of_find?_eq_some hi)

structure Tree.WalkInv (t : Tree) (c : Caller) (I : Tree.Walk → Prop) : Prop where
  start : I ⟨(t.nsMntCurrent c).root, (t.nsMntCurrent c).root, ['/']⟩
  up : ∀ {w}, I w → I (t.walkUp w)
  mount : ∀ {w x child cand m}, I w → t.dirFind w.cur x = some child →
    lookupPathPush w.path x = some cand → nsMntFind (t.nsMntCurrent c) cand = some m →
    I ⟨m.root, m.root, cand⟩
  down : ∀ {w x child cand}, I w → t.dirFind w.cur x = some child →
    lookupPathPush w.path x = some cand → nsMntFind (t.nsMntCurrent c) cand = none →
    I ⟨child, w.boundary, cand⟩

namespace Tree.WalkInv

variable {I : Tree.Walk → Prop} {follow : Bool}

theorem hop (h : t.WalkInv c I) {x rest : Text} {w w' : Tree.Walk} (hw : I w)
    (hhop : t.hop c follow x rest w = .on w') : I w' := by
  unfold Tree.hop at hhop
  split at hhop
  · cases hhop
    exact hw
  split at hhop
  · cases hhop
    exact h.up hw
  split at hhop
  · cases hhop
  split at hhop
  · cases hhop
  split at hhop
  · cases hhop
  next child hchild =>
    split at hhop
    · split at hhop <;> cases hhop
    · unfold Tree.walkDown at hhop
      split at hhop
      · cases hhop
      next cand hcand =>
        split at hhop
        · next m hm =>
          cases hhop
          exact h.mount hw hchild hcand hm
        · next hm =>
          cases hhop
          exact h.down hw hchild hcand hm

theorem walk (h : t.WalkInv c I) {restart : Text → Option ℕ}
    (hre : ∀ p m, restart p = some m → ∃ w, I w ∧ w.cur = m) (xs : List (Text × Text))
    (w : Tree.Walk) (hw : I w) (hn : t.walk c follow restart xs w = some n) :
    ∃ w, I w ∧ w.cur = n := by
  induction xs generalizing w with
  | nil => exact ⟨w, hw, Option.some.inj hn⟩
  | cons a xs ih =>
    unfold Tree.walk at hn
    split at hn
    · cases hn
    · exact hre _ _ hn
    · next w' hhop => exact ih w' (h.hop hw hhop) hn

theorem lookup (h : t.WalkInv c I) (k : ℕ) (path : Text) (follow : Bool)
    (hn : t.lookupInternal c k path follow = some n) : ∃ w, I w ∧ w.cur = n := by
  induction k generalizing path follow n with
  | zero => cases hn
  | succ k ih =>
    unfold lookupInternal at hn
    split at hn
    · cases hn
    split at hn
    · exact h.walk (fun p m hm => ih p true hm) _ _ h.start hn
    split at hn
    · cases hn
    · exact ih _ _ hn

end Tree.WalkInv

theorem Tree.mem_of_nsMntFind {ns : MntNs} {target : Text} {m : Mount}
    (h : nsMntFind ns target = some m) : m ∈ ns.mounts := mem_reverse.mp (mem_of_find?_eq_some h)

structure Tree.Closed (t : Tree) (c : Caller) (P : ℕ → Prop) : Prop where
  root : P (t.nsMntCurrent c).root
  mount : ∀ m ∈ (t.nsMntCurrent c).mounts, P m.root
  up : ∀ {n p}, P n → (t.get n).parent = some p → P p
  down : ∀ {n x i}, P n → t.dirFind n x = some i → P i

theorem Tree.Closed.lookup {P : ℕ → Prop} (h : t.Closed c P) (k : ℕ) (path : Text) (follow : Bool)
    (hn : t.lookupInternal c k path follow = some n) : P n := by
  have hinv : t.WalkInv c fun w => P w.cur := by
    refine ⟨h.root, ?_, ?_, ?_⟩
    · intro w hw
      unfold walkUp
      split
      · next p hp =>
        split
        · exact hw
        · exact h.up hw hp
      · exact hw
    · exact fun _ _ _ hm => h.mount _ (mem_of_nsMntFind hm)
    · exact fun hw hchild _ _ => h.down hw hchild
  obtain ⟨w, hw, rfl⟩ := hinv.lookup k path follow hn
  exact hw

theorem Linked.closed (h : Linked t) (hr : t.RootsLive) :
    t.Closed c fun n => ∃ nd, t.node n = some nd where
  root := (hr _ (t.nsMntCurrent_mem c)).1
  mount := (hr _ (t.nsMntCurrent_mem c)).2
  up := by
    rintro n p ⟨nd, hnd⟩ hp
    rw [get_of_node hnd] at hp
    obtain ⟨dir, hdir, -⟩ := h.up hnd hp
    exact ⟨dir, hdir⟩
  down := by
    rintro n x i ⟨nd, hnd⟩ hi
    obtain ⟨y, hy, -⟩ := h.child hnd (has_of_dirFind hnd hi)
    exact ⟨y, hy⟩

theorem Linked.resolve_live (h : Linked t) (hr : t.RootsLive) {path : Text} {follow : Bool}
    (hn : t.resolve c path follow = some n) : ∃ nd, t.node n = some nd ∧ nd.deleted = false := by
  obtain ⟨hlook, hdel⟩ := Option.filter_eq_some_iff.mp hn
  obtain ⟨nd, hnd⟩ := (h.closed hr).lookup _ _ _ hlook
  rw [get_of_node hnd] at hdel
  exact ⟨nd, hnd, by simpa using hdel⟩

end Kyronix.Fs
