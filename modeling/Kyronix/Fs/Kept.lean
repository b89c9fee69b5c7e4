import Kyronix.Fs.Entries

/-! The books of the reference counts: no call that takes a path loses a reference. Those in `E` are
of open files and of a call in progress; the mounts have their own. -/
namespace Kyronix.Fs

open Function Multiset Fs.Tree Vfs

variable {T : Prop} {v w : Vfs} {t : Tree} {c : Caller} {E : Multiset ℕ} {n p : ℕ} {nd dir : Vnode}
  {path : Text} {follow : Bool} {mem : Mem}

def MntNs.refs (ns : MntNs) : Multiset ℕ :=
  (if ns.rootCounted then {ns.root} else 0) + (ns.mounts.map Mount.root : List ℕ)

def Tree.mntRefs (t : Tree) : Multiset ℕ :=
  Multiset.bind (t.initMnt :: t.mnts : List MntNs) MntNs.refs

/-- Every reference is counted. With `T` nothing else is, and a deleted node is there only while
something refers to it. -/
structure Kept (T : Prop) (v : Vfs) (E : Multiset ℕ) : Prop where
  linked : Linked v.toTree
  root : ∀ ns ∈ v.initMnt :: v.mnts, ns.rootCounted = false →
    ∃ nd, v.node ns.root = some nd ∧ nd.type = .dir
  le : ∀ n, (v.mntRefs + E).count n ≤ v.refcnt n
  live : ∀ n ∈ v.mntRefs + E, ∃ nd, v.node n = some nd
  ge : T → ∀ n nd, v.node n = some nd → v.refcnt n ≤ (v.mntRefs + E).count n
  gone : T → ∀ n nd, v.node n = some nd → nd.deleted = true → 0 < v.refcnt n

theorem Tree.mem_mntRefs {ns : MntNs} (hns : ns ∈ t.initMnt :: t.mnts) (hn : n ∈ ns.refs) :
    n ∈ t.mntRefs := mem_bind.mpr ⟨ns, mem_coe.mpr hns, hn⟩

theorem Kept.rootsLive (h : Kept T v E) : v.RootsLive := by
  intro ns hns
  constructor
  · cases hc : ns.rootCounted with
    | false =>
      obtain ⟨nd, hnd, -⟩ := h.root ns hns hc
      exact ⟨nd, hnd⟩
    | true =>
      apply h.live
      apply mem_add.mpr
      refine .inl (mem_mntRefs hns ?_)
      unfold MntNs.refs
      rw [hc]
      exact mem_add.mpr (.inl (mem_singleton_self _))
  · intro m hm
    apply h.live
    apply mem_add.mpr
    refine .inl (mem_mntRefs hns ?_)
    exact mem_add.mpr (.inr (mem_coe.mpr (List.mem_map_of_mem hm)))

theorem Kept.resolve (h : Kept T v E) (hn : v.resolve c path follow = some n) :
    ∃ nd, v.node n = some nd ∧ nd.deleted = false := h.linked.resolve_live h.rootsLive hn

theorem Vfs.count_cons_refs (v : Vfs) (n : ℕ) (E : Multiset ℕ) (j : ℕ) :
    (v.mntRefs + n ::ₘ E).count j = (v.mntRefs + E).count j + if j = n then 1 else 0 := by
  rw [add_cons, count_cons]

theorem Vfs.nodeRef_refcnt (v : Vfs) (n j : ℕ) :
    (v.nodeRef n).refcnt j = v.refcnt j + if j = n then 1 else 0 := by
  unfold nodeRef
  by_cases hj : j = n
  · simp [hj]
  · simp [hj]

theorem Kept.nodeRef (h : Kept T v E) (hn : v.node n = some nd) :
    Kept T (v.nodeRef n) (n ::ₘ E) where
  linked := h.linked
  root := h.root
  le := by
    intro j
    rw [nodeRef_refcnt]
    exact (v.count_cons_refs n E j).trans_le (Nat.add_le_add_right (h.le j) _)
  live := by
    intro j hj
    rw [add_cons] at hj
    rcases mem_cons.mp hj with rfl | hj
    · exact ⟨nd, hn⟩
    · exact h.live j hj
  ge := by
    intro ht j x hx
    rw [nodeRef_refcnt]
    exact (Nat.add_le_add_right (h.ge ht j x hx) _).trans_eq (v.count_cons_refs n E j).symm
  gone := by
    intro ht j x hx hdel
    rw [nodeRef_refcnt]
    exact Nat.add_pos_left (h.gone ht j x hx hdel) _

theorem Kept.free (h : Kept False v E) (hn : v.node n = some nd) (hdel : nd.deleted = true)
    (hfree : v.refcnt n = 0)
    (hge : T → ∀ j x, j ≠ n → v.node j = some x → v.refcnt j ≤ (v.mntRefs + E).count j)
    (hgone : T → ∀ j x, j ≠ n → v.node j = some x → x.deleted = true → 0 < v.refcnt j) :
    Kept T (v.nodeDestroy n) E where
  linked := h.linked.free hn hdel
  root := by
    intro ns hns hc
    obtain ⟨x, hx, htype⟩ := h.root ns hns hc
    have hne : ns.root ≠ n := by
      intro heq
      rw [heq, hn] at hx
      cases hx
      exact h.linked.kept hn hdel htype
    exact ⟨x, (free_node_ne _ hne).trans hx, htype⟩
  le := h.le
  live := by
    intro j hj
    have hne : j ≠ n := by
      intro heq
      subst heq
      have hpos := count_pos.mpr hj
      have hle := h.le j
      rw [hfree] at hle
      exact absurd hpos (Nat.not_lt.mpr hle)
    obtain ⟨x, hx⟩ := h.live j hj
    exact ⟨x, (free_node_ne _ hne).trans hx⟩
  ge := by
    intro ht j x hx
    obtain ⟨hne, hx⟩ := free_node_cases hx
    exact hge ht j x hne hx
  gone := by
    intro ht j x hx
    obtain ⟨hne, hx⟩ := free_node_cases hx
    exact hgone ht j x hne hx

theorem Kept.pos (h : Kept T v (n ::ₘ E)) : 0 < v.refcnt n := by
  have hle := h.le n
  rw [v.count_cons_refs, if_pos rfl] at hle
  exact Nat.lt_of_lt_of_le (Nat.succ_pos _) hle

theorem Kept.nodeUnref (h : Kept T v (n ::ₘ E)) : Kept T (v.nodeUnref n) E := by
  have hpos := h.pos
  obtain ⟨nd, hn⟩ := h.live n (by rw [add_cons]; exact mem_cons_self _ _)
  set u : Vfs := { v with refcnt := update v.refcnt n (v.refcnt n - 1) } with hu
  have hcnt : ∀ j, u.refcnt j = v.refcnt j - if j = n then 1 else 0 := by
    intro j
    by_cases hj : j = n
    · simp [hu, hj]
    · simp [hu, hj]
  have hother : ∀ j, j ≠ n → u.refcnt j = v.refcnt j := fun j hj => update_of_ne hj ..
  -- the count of the node and the references to it go down together
  have hle : ∀ j, (v.mntRefs + E).count j ≤ u.refcnt j := by
    intro j
    rw [hcnt]
    exact Nat.le_sub_of_add_le ((v.count_cons_refs n E j).symm.trans_le (h.le j))
  have hge : T → ∀ j x, v.node j = some x → u.refcnt j ≤ (v.mntRefs + E).count j := by
    intro ht j x hx
    rw [hcnt]
    exact Nat.sub_le_iff_le_add.mpr ((h.ge ht j x hx).trans_eq (v.count_cons_refs n E j))
  have hlive : ∀ j ∈ v.mntRefs + E, ∃ x, v.node j = some x := by
    intro j hj
    apply h.live
    rw [add_cons]
    exact mem_cons_of_mem hj
  have hgone : T → ∀ j x, j ≠ n → v.node j = some x → x.deleted = true → 0 < u.refcnt j := by
    intro ht j x hj hx hdel
    rw [hother j hj]
    exact h.gone ht j x hx hdel
  unfold Vfs.nodeUnref
  rw [if_neg hpos.ne']
  dsimp only
  split
  · next hlast =>
    rw [get_of_node hn] at hlast
    exact Kept.free ⟨h.linked, h.root, hle, hlive, False.elim, False.elim⟩ hn hlast.2 hlast.1
      (fun ht j x _ hx => hge ht j x hx) hgone
  · next hlast =>
    refine ⟨h.linked, h.root, hle, hlive, hge, ?_⟩
    intro ht j x hx hdel
    by_cases hj : j = n
    · subst hj
      rw [hn] at hx
      cases hx
      rw [get_of_node hn] at hlast
      exact Nat.pos_of_ne_zero fun hzero => hlast ⟨hzero, hdel⟩
    · exact hgone ht j x hj hx hdel

theorem Kept.setNode (h : Kept T v E) (hn : v.node n = some nd) {nd' : Vnode}
    (hl : Linked (v.toTree.set n nd')) (htype : nd'.type = nd.type)
    (hdel : T → nd'.deleted = true → nd.deleted = true ∨ 0 < v.refcnt n) :
    Kept T { v with toTree := v.toTree.set n nd' } E := by
  have hkeep : ∀ j x, v.node j = some x →
      ∃ y, (v.toTree.set n nd').node j = some y ∧ y.type = x.type := by
    intro j x hx
    by_cases hj : j = n
    · subst hj
      rw [hn] at hx
      cases hx
      exact ⟨nd', set_node_self .., htype⟩
    · exact ⟨x, (set_node_ne _ _ hj).trans hx, rfl⟩
  have hfrom : ∀ j y, (v.toTree.set n nd').node j = some y → ∃ x, v.node j = some x ∧
      (T → y.deleted = true → x.deleted = true ∨ 0 < v.refcnt j) := by
    intro j y hy
    rcases set_node_cases hy with ⟨rfl, rfl⟩ | ⟨-, hy⟩
    · exact ⟨nd, hn, hdel⟩
    · exact ⟨y, hy, fun _ => .inl⟩
  constructor
  case linked => exact hl
  case root =>
    intro ns hns hc
    obtain ⟨x, hx, htype⟩ := h.root ns hns hc
    obtain ⟨y, hy, hytype⟩ := hkeep _ x hx
    exact ⟨y, hy, hytype.trans htype⟩
  case le => exact h.le
  case live =>
    intro j hj
    obtain ⟨x, hx⟩ := h.live j hj
    obtain ⟨y, hy, -⟩ := hkeep j x hx
    exact ⟨y, hy⟩
  case ge =>
    intro ht j y hy
    obtain ⟨x, hx, -⟩ := hfrom j y hy
    exact h.ge ht j x hx
  case gone =>
    intro ht j y hy hdel
    obtain ⟨x, hx, hwhy⟩ := hfrom j y hy
    exact (hwhy ht hdel).elim (h.gone ht j x hx) id

theorem Kept.markDeleted (h : Kept T v (n ::ₘ E)) (hn : v.node n = some nd)
    (hpar : nd.parent = none) (htype : nd.type ≠ .dir) : Kept T (v.markDeleted n) (n ::ₘ E) := by
  unfold Vfs.markDeleted
  rw [get_of_node hn]
  exact h.setNode hn (h.linked.set_deleted hn hpar htype) rfl fun _ _ => .inr h.pos

theorem Kept.dirRemove (h : Kept T v E) (hn : v.node n = some nd) (hpar : nd.parent = some p)
    (hne : p ≠ n) : Kept T (v.dirRemove p n) E := by
  obtain ⟨dir, hd, -⟩ := h.linked.up hn hpar
  have hl := h.linked.dirRemove hd hn hpar hne
  unfold Vfs.dirRemove
  rw [dirRemove_eq hd hn hne] at hl ⊢
  have hunlisted := h.setNode hd (h.linked.unlist hd n) rfl fun _ => .inl
  exact hunlisted.setNode ((set_node_ne _ _ hne.symm).trans hn) hl rfl fun _ => .inl

theorem Kept.dirInsert (h : Kept T v E) (hd : v.node p = some dir) (htype : dir.type = .dir)
    (hn : v.node n = some nd) (hpar : nd.parent = none) (hdel : nd.deleted = false) (hne : p ≠ n)
    (room : Bool) : Kept T (v.dirInsert p n room) E := by
  have hl := h.linked.dirInsert hd hn htype hpar hdel hne room
  unfold Vfs.dirInsert
  rw [dirInsert_eq hd hn hne] at hl ⊢
  have hplaced := h.setNode hn (h.linked.place hd hn htype hpar) rfl fun _ => .inl
  exact hplaced.setNode ((set_node_ne _ _ hne).trans hd) hl rfl fun _ => .inl

theorem Kept.count_next (h : Kept T v E) : (v.mntRefs + E).count v.next = 0 := by
  apply count_eq_zero.mpr
  intro hmem
  obtain ⟨x, hx⟩ := h.live _ hmem
  exact absurd (h.linked.bound hx) (Nat.lt_irrefl _)

theorem Kept.addNode_weak (h : Kept T v E) (hnew : NewNode nd) : Kept False (v.addNode nd) E where
  linked := h.linked.add hnew.parent hnew.children hnew.index hnew.kept
  root := by
    intro ns hns hc
    obtain ⟨x, hx, htype⟩ := h.root ns hns hc
    exact ⟨x, (add_node_ne _ _ (h.linked.bound hx).ne).trans hx, htype⟩
  le := by
    intro j
    show (v.mntRefs + E).count j ≤ update v.refcnt v.next 0 j
    by_cases hj : j = v.next
    · subst hj
      rw [h.count_next]
      exact Nat.zero_le _
    · rw [update_of_ne hj]
      exact h.le j
  live := by
    intro j hj
    obtain ⟨x, hx⟩ := h.live j hj
    exact ⟨x, (add_node_ne _ _ (h.linked.bound hx).ne).trans hx⟩
  ge := False.elim
  gone := False.elim

theorem Vfs.addNode_refcnt_ne (v : Vfs) (nd : Vnode) {j : ℕ} (hj : j ≠ v.next) :
    (v.addNode nd).refcnt j = v.refcnt j := update_of_ne hj ..

theorem Vfs.addNode_refcnt_next (v : Vfs) (nd : Vnode) : (v.addNode nd).refcnt v.next = 0 :=
  update_self ..

theorem Kept.addNode (h : Kept T v E) (hnew : NewNode nd) (hdel : nd.deleted = false) :
    Kept T (v.addNode nd) E where
  linked := (h.addNode_weak hnew).linked
  root := (h.addNode_weak hnew).root
  le := (h.addNode_weak hnew).le
  live := (h.addNode_weak hnew).live
  ge := by
    intro ht j x hx
    rcases add_node_cases hx with ⟨rfl, rfl⟩ | ⟨hj, hx⟩
    · rw [addNode_refcnt_next]
      exact Nat.zero_le _
    · rw [addNode_refcnt_ne _ _ hj]
      exact h.ge ht j x hx
  gone := by
    intro ht j x hx hxdel
    rcases add_node_cases hx with ⟨rfl, rfl⟩ | ⟨hj, hx⟩
    · rw [hdel] at hxdel
      cases hxdel
    · rw [addNode_refcnt_ne _ _ hj]
      exact h.gone ht j x hx hxdel

theorem Kept.addRef (h : Kept T v E) (hnew : NewNode nd) :
    Kept T ((v.addNode nd).nodeRef v.next) (v.next ::ₘ E) := by
  have hweak := (h.addNode_weak hnew).nodeRef (add_node_self v.toTree nd)
  have hcnt : ∀ j, j ≠ v.next → ((v.addNode nd).nodeRef v.next).refcnt j = v.refcnt j := by
    intro j hj
    unfold Vfs.nodeRef
    dsimp only
    rw [update_of_ne hj, Vfs.addNode_refcnt_ne _ _ hj]
  have hone : ((v.addNode nd).nodeRef v.next).refcnt v.next = 1 := by
    unfold Vfs.nodeRef
    dsimp only
    rw [update_self, Vfs.addNode_refcnt_next]
  refine ⟨hweak.linked, hweak.root, hweak.le, hweak.live, ?_, ?_⟩
  · intro ht j x hx
    show _ ≤ (v.mntRefs + v.next ::ₘ E).count j
    rw [add_cons]
    rcases add_node_cases hx with ⟨rfl, rfl⟩ | ⟨hj, hx⟩
    · rw [hone, count_cons_self]
      exact Nat.succ_le_succ (Nat.zero_le _)
    · rw [hcnt j hj, count_cons_of_ne hj]
      exact h.ge ht j x hx
  · intro ht j x hx hdel
    rcases add_node_cases hx with ⟨rfl, rfl⟩ | ⟨hj, hx⟩
    · rw [hone]
      exact Nat.one_pos
    · rw [hcnt j hj]
      exact h.gone ht j x hx hdel

theorem Kept.create (h : Kept T v E) (hd : v.node p = some dir) (htype : dir.type = .dir)
    (hnew : NewNode nd) (hdel : nd.deleted = false) (room : Bool) :
    Kept T (v.create p nd room) E := by
  have hp : p ≠ v.next := (h.linked.bound hd).ne
  have hd' : (v.addNode nd).node p = some dir := (add_node_ne _ _ hp).trans hd
  have hn' : (v.addNode nd).node v.next = some nd := add_node_self ..
  exact (h.addNode hnew hdel).dirInsert hd' htype hn' hnew.parent hdel hp room

theorem Kept.vfsUnlink_cases (h : Kept T v E) (c : Caller) (path : Text) :
    (∃ e, v.vfsUnlink c path = (e, v)) ∨
      ∃ n nd p, v.node n = some nd ∧ nd.type ≠ .dir ∧ nd.parent = some p ∧
        v.vfsUnlink c path = (0, (v.nodeRef n).unlinkFound p n) := by
  rcases v.vfsUnlink_cases c path with hfail | ⟨n, p, hn, htype, hpar, heq⟩
  · exact .inl hfail
  · obtain ⟨nd, hnd, -⟩ := h.resolve hn
    rw [get_of_node hnd] at htype hpar
    exact .inr ⟨n, nd, p, hnd, htype, hpar, heq⟩

theorem Vfs.create_nodeRef {p : ℕ} (hp : p ≠ v.next) (nd : Vnode) (room : Bool) :
    (v.nodeRef p).create p nd room = (v.create p nd room).nodeRef p := by
  unfold create addNode dirInsert nodeRef
  dsimp only
  congr 1
  rw [update_comm hp, update_of_ne hp]

theorem Kept.create_nodeUnref (h : Kept T v E) (hd : v.node p = some dir)
    (hdel : dir.deleted = false) (nd : Vnode) (room : Bool) :
    ((v.nodeRef p).create p nd room).nodeUnref p = v.create p nd room := by
  rw [create_nodeRef (h.linked.bound hd).ne, nodeUnref_nodeRef]
  have hp := (h.linked.bound hd).ne
  have hd' : (v.addNode nd).node p = some dir := (add_node_ne _ _ hp).trans hd
  have hput := dirInsert_eq hd' (add_node_self v.toTree nd) hp room
  unfold Vfs.create Vfs.dirInsert
  rwa [hput, set_get_self]

theorem Kept.vfsCreateFile_cases (h : Kept T v E) (c : Caller) (path : Text) (mode : UInt32)
    (mem : Mem) :
    v.vfsCreateFile c path mode mem = (none, v) ∨
      ∃ p dir, v.node p = some dir ∧ dir.type = .dir ∧
        ((∃ e, v.dirFind p (splitLeaf path).2 = some e ∧ (v.get e).type = .reg ∧
            v.vfsCreateFile c path mode mem = (some e, v)) ∨
          v.vfsCreateFile c path mode mem = (some v.next, v.create p
            (nodeAlloc c (splitLeaf path).2 .reg (applyUmask c (mode &&& 0o7777) ||| 0o100000))
            mem.index)) := by
  rcases v.vfsCreateFile_cases c path mode mem with heq | ⟨p, hp, htype, hrest⟩
  · exact .inl heq
  obtain ⟨dir, hdir, hdel⟩ := h.resolve hp
  rw [get_of_node hdir] at htype
  rcases hrest with ⟨e, he, heq⟩ | heq
  · by_cases hreg : (v.get e).type = .reg
    · rw [if_pos hreg] at heq
      exact .inr ⟨p, dir, hdir, htype, .inl ⟨e, he, hreg, heq⟩⟩
    · rw [if_neg hreg] at heq
      exact .inl heq
  · rw [h.create_nodeUnref hdir hdel] at heq
    exact .inr ⟨p, dir, hdir, htype, .inr heq⟩

theorem Linked.parent_ne (h : Linked t) (hn : t.node n = some nd) (hpar : nd.parent = some p)
    (htype : nd.type ≠ .dir) : p ≠ n := by
  intro heq
  subst heq
  obtain ⟨dir, hd, hdir⟩ := h.up hn hpar
  rw [hn] at hd
  cases hd
  exact htype hdir

theorem Linked.dirRemove_node (h : Linked v.toTree) (hn : v.node n = some nd)
    (hpar : nd.parent = some p) (hne : p ≠ n) :
    (v.dirRemove p n).node n = some { nd with parent := none } := by
  obtain ⟨dir, hd, -⟩ := h.up hn hpar
  unfold Vfs.dirRemove
  rw [dirRemove_eq hd hn hne]
  exact set_node_self ..

theorem Kept.unlinkFound (h : Kept T v (n ::ₘ E)) (hn : v.node n = some nd)
    (hpar : nd.parent = some p) (htype : nd.type ≠ .dir) : Kept T (v.unlinkFound p n) E := by
  have hne := h.linked.parent_ne hn hpar htype
  have hrem := h.dirRemove hn hpar hne
  have hn' := h.linked.dirRemove_node hn hpar hne
  have hdel := hrem.linked.set_deleted hn' rfl htype
  have hmark := hrem.setNode hn' hdel rfl fun _ _ => .inr hrem.pos
  have hpos := hmark.pos
  unfold Vfs.unlinkFound Vfs.nodeUnlinkOrDestroy
  rw [get_of_node hn']
  rw [if_neg hpos.ne']
  exact hmark.nodeUnref

theorem Vfs.nodeUnref_evolves (v : Vfs) (n : ℕ) : v.Evolves (v.nodeUnref n).toTree := by
  unfold nodeUnref
  split
  · exact .refl _
  dsimp only
  split
  · exact .free _ n
  · exact .refl _

theorem Vfs.markDeleted_evolves (hn : v.node n = some nd) : v.Evolves (v.markDeleted n).toTree := by
  unfold markDeleted
  rw [get_of_node hn]
  exact .set hn rfl rfl id

theorem Linked.unlinkFound_evolves (h : Linked v.toTree) (hn : v.node n = some nd)
    (hpar : nd.parent = some p) (htype : nd.type ≠ .dir) :
    v.Evolves (v.unlinkFound p n).toTree := by
  obtain ⟨dir, hd, hdir⟩ := h.up hn hpar
  have hne := h.parent_ne hn hpar htype
  have hn' := h.dirRemove_node hn hpar hne
  have hrem : v.Evolves (v.dirRemove p n).toTree := .dirRemove hd hn hne
  refine (hrem.trans ?_).trans (nodeUnref_evolves _ n)
  unfold nodeUnlinkOrDestroy
  rw [get_of_node hn']
  have hset : (v.dirRemove p n).Evolves
      ((v.dirRemove p n).toTree.set n { nd with parent := none, deleted := true }) :=
    .set hn' rfl rfl fun _ => rfl
  dsimp only
  split
  · exact hset.trans (.free _ n)
  · exact hset

theorem Kept.vfsUnlink_evolves (h : Kept T v E) (c : Caller) (path : Text) :
    v.Evolves (v.vfsUnlink c path).2.toTree := by
  rcases h.vfsUnlink_cases c path with ⟨e, heq⟩ | ⟨n, nd, p, hn, htype, hpar, heq⟩
  · rw [heq]
    exact .refl _
  · rw [heq]
    exact Linked.unlinkFound_evolves (v := v.nodeRef n) h.linked hn hpar htype

theorem Kept.create_evolves (h : Kept T v E) (hd : v.node p = some dir) (nd : Vnode)
    (room : Bool) : v.Evolves (v.create p nd room).toTree := .create hd (h.linked.bound hd) nd room

theorem Kept.vfsUnlink (h : Kept T v E) (c : Caller) (path : Text) :
    Kept T (v.vfsUnlink c path).2 E := by
  rcases h.vfsUnlink_cases c path with ⟨e, heq⟩ | ⟨n, nd, p, hn, htype, hpar, heq⟩
  · rw [heq]
    exact h
  · rw [heq]
    exact (h.nodeRef hn).unlinkFound hn hpar htype

end Kyronix.Fs
