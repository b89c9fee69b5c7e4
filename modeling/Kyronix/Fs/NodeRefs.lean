import Kyronix.Lib.Ledger
import Kyronix.Fs.Files
import Kyronix.Fs.Kept

/-! Reference counts of nodes over whole runs: between two calls, the count of a node is the number
of open files on it and of mounts of it. -/
namespace Kyronix.Fs

open Lib.Ledger Lib.Run Function Multiset Sys Fs.Tree

variable {s : Sys} {c : Caller} {hand : Multiset ℕ} {n : ℕ} {nd : Vnode} {f : File} {i : Slot}
  {mem : Mem}

def nodeRefs (o : Option ℕ) : Multiset ℕ := o.elim 0 singleton

def fileRef (o : Option File) : Multiset ℕ := nodeRefs (o.bind File.node)

@[irreducible]
def fdRefs (fds : Slot → Option File) : Multiset ℕ := total (fun _ => fileRef) fds Finset.univ

def Sys.fileRefs (s : Sys) : Multiset ℕ := fdRefs s.fds

theorem fdRefs_update (fds : Slot → Option File) (i : Slot) (o : Option File) :
    fdRefs (update fds i o) + fileRef (fds i) = fdRefs fds + fileRef o := by
  unfold fdRefs
  exact @total_update_univ Slot (Multiset ℕ) (fun _ => Option File) _ _ (fun _ => fileRef) fds i _ o

theorem fdRefs_fill {fds : Slot → Option File} (h : fds i = none) (o : Option File) :
    fdRefs (update fds i o) = fdRefs fds + fileRef o := by
  have hup := fdRefs_update fds i o
  rw [h] at hup
  exact (add_zero _).symm.trans hup

theorem fdRefs_clear (fds : Slot → Option File) (i : Slot) :
    fileRef (fds i) + fdRefs (update fds i none) = fdRefs fds := by
  have hup := fdRefs_update fds i none
  rw [add_comm]
  exact hup.trans (add_zero _)

def Sys.openFiles (s : Sys) (n : ℕ) : ℕ :=
  (Finset.univ.filter fun i => (s.fds i).bind File.node = some n).card

theorem count_nodeRefs (o : Option ℕ) (n : ℕ) :
    (nodeRefs o).count n = if o = some n then 1 else 0 := by
  cases o with
  | none => rfl
  | some m =>
    show Multiset.count n {m} = _
    rw [count_singleton]
    by_cases h : n = m
    · subst h
      simp
    · have h' : ¬ (some m = some n) := fun e => h (Option.some.inj e).symm
      rw [if_neg h, if_neg h']

theorem Sys.count_fileRefs (s : Sys) (n : ℕ) : s.fileRefs.count n = s.openFiles n := by
  unfold fileRefs fdRefs total openFiles
  rw [count_sum', Finset.card_filter]
  apply Finset.sum_congr rfl
  intro i _
  exact count_nodeRefs _ n

/-- The counts are exact, and the sockets that files are open on are not in the tree. -/
structure Books (s : Sys) (hand : Multiset ℕ) : Prop where
  kept : Kept True s.vfs (hand + s.fileRefs)
  own : ∀ {i f n nd}, s.fds i = some f → f.node = some n → s.vfs.node n = some nd →
    nd.type = .sock → nd.parent = none

open Books

def OwnNode (s : Sys) (o : Option ℕ) : Prop :=
  ∀ n nd, o = some n → s.vfs.node n = some nd → nd.type = .sock → nd.parent = none

theorem mem_fileRefs (hf : s.fds i = some f) (hn : f.node = some n) : n ∈ s.fileRefs := by
  have hmem : n ∈ fileRef (s.fds i) := by
    rw [hf]
    show n ∈ nodeRefs f.node
    rw [hn]
    exact mem_singleton_self n
  unfold fileRefs
  rw [← fdRefs_clear s.fds i]
  exact mem_add.mpr (.inl hmem)

section

variable (h : Books s hand)
include h

theorem Books.live (hf : s.fds i = some f) (hn : f.node = some n) :
    ∃ nd, s.vfs.node n = some nd := by
  have hmem := mem_fileRefs hf hn
  apply h.kept.live
  rw [← add_assoc]
  exact mem_add.mpr (.inr hmem)

theorem Books.setVfs {v : Vfs} {hand' : Multiset ℕ}
    (hk : Kept True v (hand' + s.fileRefs)) (hev : s.vfs.Evolves v.toTree) :
    Books { s with vfs := v } hand' where
  kept := hk
  own := by
    intro i f n nd hf hn hnd htype
    obtain ⟨x, hx⟩ := h.live hf hn
    obtain ⟨y, hy, hytype, -, hpar⟩ := hev.old hnd (h.kept.linked.bound hx)
    exact hpar (h.own hf hn hy (hytype ▸ htype))

theorem Books.ownNode (hf : s.fds i = some f) : OwnNode s f.node :=
  fun _ _ hn hnd => h.own hf hn hnd

theorem Books.hand_live (hn : n ∈ hand) : ∃ nd, s.vfs.node n = some nd := by
  apply h.kept.live
  rw [← add_assoc, add_comm s.vfs.mntRefs, add_assoc]
  exact mem_add.mpr (.inl hn)

theorem Books.refNode (o : Option ℕ) (hlive : ∀ n, o = some n → ∃ nd, s.vfs.node n = some nd) :
    Books (s.refNode o) (nodeRefs o + hand) := by
  cases o with
  | none =>
    show Books s (0 + hand)
    rw [zero_add]
    exact h
  | some n =>
    obtain ⟨nd, hnd⟩ := hlive n rfl
    have hk : Kept True (s.vfs.nodeRef n) (({n} + hand) + s.fileRefs) := by
      rw [singleton_add, cons_add]
      exact h.kept.nodeRef hnd
    exact h.setVfs hk (.refl _)

end

theorem Books.fill (h : Books s (nodeRefs f.node + hand)) (hi : s.fds i = none)
    (hown : OwnNode s f.node) {t : Sys} (hv : t.vfs = s.vfs)
    (hfds : t.fds = update s.fds i (some f)) : Books t hand where
  kept := by
    have hrefs : t.fileRefs = s.fileRefs + nodeRefs f.node := by
      unfold fileRefs
      rw [hfds]
      exact fdRefs_fill hi (some f)
    rw [hv, hrefs, add_comm s.fileRefs, ← add_assoc, add_comm hand]
    exact h.kept
  own := by
    intro j g n nd hg hn hnd htype
    rw [hv] at hnd
    rw [hfds] at hg
    rcases Lib.of_update hg with ⟨-, ⟨⟩⟩ | ⟨-, hg⟩
    · exact hown n nd hn hnd htype
    · exact h.own hg hn hnd htype

theorem Books.clear (h : Books s hand) (hi : s.fds i = some f) :
    Books (s.setFd i none) (nodeRefs f.node + hand) where
  kept := by
    have hrefs := fdRefs_clear s.fds i
    rw [hi] at hrefs
    have hk : Kept True s.vfs (hand + fdRefs s.fds) := h.kept
    rw [← hrefs] at hk
    show Kept True s.vfs (nodeRefs f.node + hand + fdRefs (update s.fds i none))
    rwa [add_comm (nodeRefs f.node), add_assoc]
  own := by
    intro j g n nd hg hn hnd htype
    exact h.own (Lib.of_update_none hg).2 hn hnd htype

theorem Books.unref (h : Books s (n ::ₘ hand)) :
    Books { s with vfs := s.vfs.nodeUnref n } hand := by
  apply h.setVfs _ (s.vfs.nodeUnref_evolves n)
  apply Kept.nodeUnref
  have hk := h.kept
  rwa [cons_add] at hk

variable {j : Fin fdMax}

theorem Sys.fdAllocFrom_free {start : ℕ} (h : s.fdAllocFrom c start = some j) :
    s.fds (c.table, j) = none := by
  have hp := List.find?_some h
  simp only [Bool.and_eq_true, Option.isNone_iff_eq_none] at hp
  exact hp.2

theorem Books.unixSocketClose (h : Books s (n ::ₘ hand)) (hn : s.vfs.node n = some nd)
    (htype : nd.type = .sock) (hpar : nd.parent = none) :
    Books (s.unixSocketClose c n) (n ::ₘ hand) := by
  -- what happens to the tree before the mark is at most an unlink
  have hmark : ∀ {t : Sys}, Books t (n ::ₘ hand) ∧ s.vfs.Evolves t.vfs.toTree →
      Books { t with vfs := t.vfs.markDeleted n } (n ::ₘ hand) := by
    rintro t ⟨ht, hev⟩
    obtain ⟨x, hx⟩ := ht.hand_live (mem_cons_self n hand)
    obtain ⟨y, hy, hxtype, -, hxpar⟩ := hev.old hx (h.kept.linked.bound hn)
    rw [hn] at hy
    cases hy
    apply ht.setVfs _ (Vfs.markDeleted_evolves hx)
    have hk := ht.kept
    rw [cons_add] at hk ⊢
    exact hk.markDeleted hx (hxpar hpar) (by rw [hxtype, htype]; decide)
  unfold Sys.unixSocketClose
  apply hmark
  split
  · exact ⟨h, .refl _⟩
  split
  · exact ⟨⟨h.kept, h.own⟩, .refl _⟩
  · next p _ =>
    have hu := h.setVfs (h.kept.vfsUnlink c p) (h.kept.vfsUnlink_evolves c p)
    exact ⟨⟨hu.kept, hu.own⟩, h.kept.vfsUnlink_evolves c p⟩
  split
  · exact ⟨⟨h.kept, h.own⟩, .refl _⟩
  · split <;> exact ⟨⟨h.kept, h.own⟩, .refl _⟩

theorem Books.fileDestroy (h : Books s (nodeRefs f.node + hand)) (hown : OwnNode s f.node) :
    Books (s.fileDestroy c f) hand := by
  unfold Sys.fileDestroy
  cases hf : f.node with
  | none =>
    rw [hf] at h
    change Books s (0 + hand) at h
    rwa [zero_add] at h
  | some n =>
    rw [hf] at h
    change Books s ({n} + hand) at h
    rw [singleton_add] at h
    apply unref
    split
    · next hsock =>
      obtain ⟨nd, hnd⟩ := h.hand_live (mem_cons_self n hand)
      rw [get_of_node hnd] at hsock
      exact h.unixSocketClose hnd hsock.2 (hown n nd hf hnd hsock.2)
    · exact h

theorem Books.fdClose (h : Books s 0) (fd : ℕ) : Books (s.fdClose c fd).2 0 := by
  unfold Sys.fdClose
  split
  · split
    · exact h
    · next f hf => exact fileDestroy (h.clear hf) (h.ownNode hf)
  · exact h

theorem Sys.refNode_fds (s : Sys) (o : Option ℕ) : (s.refNode o).fds = s.fds := by
  cases o <;> rfl

theorem Sys.refNode_node (s : Sys) (o : Option ℕ) : (s.refNode o).vfs.toTree = s.vfs.toTree := by
  cases o <;> rfl

theorem Books.clone (h : Books s hand) {o : Option ℕ} (hi : s.fds i = none) (hf : f.node = o)
    (hlive : ∀ n, o = some n → ∃ nd, s.vfs.node n = some nd) (hown : OwnNode s o) :
    Books ((s.refNode o).setFd i (some f)) hand := by
  subst hf
  have href := h.refNode f.node hlive
  apply href.fill (i := i) (f := f)
  · rw [refNode_fds]
    exact hi
  · intro n nd hn hnd
    rw [refNode_node] at hnd
    exact hown n nd hn hnd
  · rfl
  · rfl

theorem Sys.slot_of_fdGet {fd : ℕ} (hf : s.fdGet c fd = some f) : ∃ i, s.fds i = some f := by
  unfold fdGet at hf
  split at hf
  · exact ⟨_, hf⟩
  · cases hf

theorem Books.fdDup (h : Books s 0) (fd start : ℕ) : Books (s.fdDup c fd start mem).2 0 := by
  unfold Sys.fdDup
  split
  · exact h
  next f hf =>
    split
    · exact h
    split
    · exact h
    next j hj =>
      split
      · exact h
      obtain ⟨i, hi⟩ := Sys.slot_of_fdGet hf
      exact h.clone (Sys.fdAllocFrom_free hj) rfl (fun n hn => h.live hi hn) (h.ownNode hi)

theorem Sys.setFd_refNode (s : Sys) (i : Slot) (o : Option ℕ) (x : Option File) :
    ((s.setFd i none).refNode o).setFd i x = (s.refNode o).setFd i x := by
  cases o <;> simp only [setFd, refNode, update_idem]

theorem Books.fdDup2 (h : Books s 0) (oldfd newfd : ℕ) :
    Books (s.fdDup2 c oldfd newfd mem).2 0 := by
  unfold Sys.fdDup2
  split
  · exact h
  next f hf =>
    obtain ⟨j, hj⟩ := Sys.slot_of_fdGet hf
    split
    · exact h
    split
    · split
      · exact h
      · dsimp only
        split
        · next hfree => exact h.clone hfree rfl (fun n hn => h.live hj hn) (h.ownNode hj)
        · next hlt _ _ old hold =>
          -- the old file is taken out before the copy goes in
          have hclear := h.clear hold
          have hnone : (s.setFd (c.table, ⟨newfd, hlt⟩) none).fds (c.table, ⟨newfd, hlt⟩) = none :=
            update_self ..
          have hcopy := hclear.clone hnone rfl (fun n hn => h.live hj hn) (h.ownNode hj)
          rw [Sys.setFd_refNode] at hcopy
          apply fileDestroy hcopy
          intro n nd hn hnd
          change (s.refNode f.node).vfs.node n = some nd at hnd
          rw [Sys.refNode_node] at hnd
          exact h.ownNode hold n nd hn hnd
    · exact h

theorem Sys.setFd_none (h : s.fds i = none) : s.setFd i none = s := by
  unfold setFd
  rw [← h, update_eq_self]

variable {src dst : Fin procMax} {room : Fin fdMax → Bool}

theorem Books.copyFd
    (h : Books s 0) (hfree : s.fds (dst, j) = none) : Books (Sys.copyFd src dst room s j) 0 := by
  unfold Sys.copyFd
  split
  · rwa [Sys.setFd_none hfree]
  next f hf =>
    split
    · rwa [Sys.setFd_none hfree]
    dsimp only
    split
    · exact h.clone hfree rfl (fun n hn => by cases hn) (fun n nd hn => by cases hn)
    · exact h.clone hfree rfl (fun n hn => h.live hf hn) (h.ownNode hf)

theorem Sys.copyFd_fds_ne (hi : i ≠ (dst, j)) : (copyFd src dst room s j).fds i = s.fds i := by
  unfold copyFd
  split
  · exact update_of_ne hi ..
  · split
    · exact update_of_ne hi ..
    · refine (update_of_ne hi ..).trans ?_
      rw [refNode_fds]

theorem Books.copyFds (l : List (Fin fdMax))
    (hnodup : l.Nodup) (h : Books s 0) (hfree : ∀ j ∈ l, s.fds (dst, j) = none) :
    Books (l.foldl (Sys.copyFd src dst room) s) 0 := by
  induction l generalizing s with
  | nil => exact h
  | cons j l ih =>
    obtain ⟨hj, hnodup⟩ := List.nodup_cons.mp hnodup
    apply ih hnodup (h.copyFd (hfree j List.mem_cons_self))
    intro k hk
    have hne : (dst, k) ≠ (dst, j) := by
      intro heq
      cases heq
      exact hj hk
    rw [Sys.copyFd_fds_ne hne]
    exact hfree k (List.mem_cons_of_mem _ hk)

theorem Books.vfsCopyFdtable (h : Books s 0) (dst : Fin procMax) (room : Fin fdMax → Bool) :
    Books (s.vfsCopyFdtable c dst room) 0 := by
  unfold Sys.vfsCopyFdtable
  split
  · exact h
  · next hnew =>
    apply h.copyFds _ (List.nodup_finRange _)
    intro j _
    by_contra hne
    exact hnew (.inr ⟨j, hne⟩)

theorem Books.unref_lookup (h : Books s hand) {path : Text} {follow : Bool}
    (hn : s.vfs.resolve c path follow = some n) : (s.vfs.nodeRef n).nodeUnref n = s.vfs := by
  obtain ⟨nd, hnd, hdel⟩ := h.kept.resolve hn
  apply Vfs.nodeUnref_nodeRef
  rw [get_of_node hnd, hdel]

theorem Books.statPath (h : Books s hand) (path : Text) (follow : Bool) :
    (s.statPath c path follow).2 = s := by
  unfold Sys.statPath
  rcases s.vfs.lookup_cases c path follow with hlook | ⟨n, hn, hlook⟩
  · rw [hlook]
  · rw [hlook]
    dsimp only
    rw [h.unref_lookup hn]

theorem Books.vfsUnlink (h : Books s 0) (path : Text) : Books (s.vfsUnlink c path).2 0 :=
  h.setVfs (h.kept.vfsUnlink c path) (h.kept.vfsUnlink_evolves c path)

theorem Books.install (h : Books s (n ::ₘ hand)) (hj : s.fds (c.table, j) = none)
    (hn : s.vfs.node n = some nd) (htype : nd.type = .sock → nd.parent = none) (piped : Bool)
    (o : Ofd) : Books (s.install (c.table, j) (some n) piped o) hand := by
  have hb : Books s (nodeRefs (some n) + hand) := by
    show Books s ({n} + hand)
    rwa [singleton_add]
  have hown : OwnNode s (some n) := by
    intro m x hm hx
    cases hm
    rw [hn] at hx
    cases hx
    exact htype
  exact fill (f := ⟨some n, s.nextOfd, piped⟩) (t := s.install (c.table, j) (some n) piped o)
    hb hj hown rfl rfl

theorem Books.ref (h : Books s hand) (hn : s.vfs.node n = some nd) :
    Books { s with vfs := s.vfs.nodeRef n } (n ::ₘ hand) := by
  have hk : Kept True (s.vfs.nodeRef n) (n ::ₘ hand + s.fileRefs) := by
    rw [cons_add]
    exact h.kept.nodeRef hn
  exact h.setVfs hk (.refl _)

theorem Books.setRam (h : Books s hand) (n : ℕ) (r : RamNode) : Books (s.setRam n r) hand :=
  ⟨h.kept, h.own⟩

theorem Books.create (h : Books s hand) {p : ℕ} {dir : Vnode} (hd : s.vfs.node p = some dir)
    (htype : dir.type = .dir) (hnew : NewNode nd) (hdel : nd.deleted = false) (room : Bool) :
    Books { s with vfs := s.vfs.create p nd room } hand :=
  h.setVfs (h.kept.create hd htype hnew hdel room) (h.kept.create_evolves hd nd room)

structure Opened (s : Sys) (n : ℕ) : Prop where
  books : Books s {n}
  plain : ∃ nd, s.vfs.node n = some nd ∧ nd.type ≠ .sock

theorem Vfs.create_node (v : Vfs) {p : ℕ} (hp : p ≠ v.next) (nd : Vnode) (room : Bool)
    {dir : Vnode} (hd : v.node p = some dir) :
    (v.create p nd room).node v.next = some { nd with parent := some p } := by
  have hd' : (v.addNode nd).node p = some dir := (add_node_ne _ _ hp).trans hd
  have hn' : (v.addNode nd).node v.next = some nd := add_node_self ..
  unfold Vfs.create Vfs.dirInsert
  rw [dirInsert_eq hd' hn' hp, set_node_ne _ _ hp.symm]
  exact set_node_self ..

theorem Books.openTarget (h : Books s 0) (path : Text) (fl : OpenFlags) (mode : UInt32)
    (hplain : ∀ n, s.vfs.resolve c path (!fl.nofollow) = some n → (s.vfs.get n).type ≠ .sock) :
    (∃ e, (s.openTarget c path fl mode mem).1 = .error e ∧
      Books (s.openTarget c path fl mode mem).2 0) ∨
    ∃ n, (s.openTarget c path fl mode mem).1 = .ok n ∧
      Opened (s.openTarget c path fl mode mem).2 n := by
  unfold Sys.openTarget
  rcases s.vfs.lookup_cases c path (!fl.nofollow) with hlook | ⟨n, hn, hlook⟩
  · rw [hlook]
    dsimp only
    split
    · exact .inl ⟨_, rfl, h⟩
    rcases s.vfs.parentOf_cases c path with hpar | ⟨p, hp, hpar⟩
    · rw [hpar]
      exact .inl ⟨_, rfl, h⟩
    rw [hpar]
    dsimp only
    rw [h.unref_lookup hp]
    split
    · exact .inl ⟨_, rfl, h⟩
    rcases h.kept.vfsCreateFile_cases c path mode mem with
      heq | ⟨q, dir, hd, htype, ⟨e, he, hreg, heq⟩ | heq⟩
    · rw [heq]
      exact .inl ⟨_, rfl, h⟩
    · rw [heq]
      obtain ⟨x, hx, -, -⟩ := h.kept.linked.child hd (has_of_dirFind hd he)
      rw [get_of_node hx] at hreg
      refine .inr ⟨e, rfl, setRam (h.ref hx) e emptyRam, x, hx, ?_⟩
      rw [hreg]
      decide
    · rw [heq]
      have hq := (h.kept.linked.bound hd).ne
      have hnode := Vfs.create_node s.vfs hq (nodeAlloc c (splitLeaf path).2 .reg
        (applyUmask c (mode &&& 0o7777) ||| 0o100000)) mem.index hd
      have hmade := h.create hd htype (newNode_alloc c (splitLeaf path).2 .reg
        (applyUmask c (mode &&& 0o7777) ||| 0o100000)) rfl mem.index
      refine .inr ⟨s.vfs.next, rfl, setRam (hmade.ref hnode) _ _, _, hnode, ?_⟩
      show VType.reg ≠ .sock
      decide
  · rw [hlook]
    dsimp only
    rw [h.unref_lookup hn]
    split
    · exact .inl ⟨_, rfl, h⟩
    · obtain ⟨nd, hnd, -⟩ := h.kept.resolve hn
      have hp := hplain n hn
      rw [get_of_node hnd] at hp
      exact .inr ⟨n, rfl, h.ref hnd, nd, hnd, hp⟩

theorem Books.fdOpenNode (h : Books s hand) (hn : s.vfs.node n = some nd) (htype : nd.type ≠ .sock)
    (fl : OpenFlags) : Books (s.fdOpenNode c n fl mem).2 hand := by
  unfold Sys.fdOpenNode
  split
  · exact h
  next j hj =>
    split
    · exact h
    · exact install (h.ref hn) (Sys.fdAllocFrom_free hj) hn (fun hc => absurd hc htype) _ _

theorem Opened.openFound (h : Opened s n) (fl : OpenFlags) :
    Books (s.openFound c n fl mem).2 0 := by
  obtain ⟨hb, nd, hnd, htype⟩ := h
  have hdrop : Books { s with vfs := s.vfs.nodeUnref n } 0 := unref hb
  have hput : ∀ {t : Sys} {j : Fin fdMax} {o : Ofd}, Books t {n} → t.vfs = s.vfs →
      t.fds (c.table, j) = none → Books (t.install (c.table, j) (some n) false o) 0 := by
    intro t j o ht hv hj
    have hnd' : t.vfs.node n = some nd := hv ▸ hnd
    exact install ht hj hnd' (fun hc => absurd hc htype) _ _
  unfold Sys.openFound
  dsimp only
  split
  · exact unref (hb.fdOpenNode hnd htype fl)
  split
  · exact hdrop
  split
  · exact hdrop
  split
  · exact hdrop
  next j hj =>
    have hj := Sys.fdAllocFrom_free hj
    split
    · exact hdrop
    split
    · split
      · exact hdrop
      · exact hput (setRam hb n _) rfl hj
    · exact hput hb rfl hj

theorem Books.fdTmpfileOpen (h : Books s 0) (path : Text) (fl : OpenFlags) (mode : UInt32) :
    Books (s.fdTmpfileOpen c path fl mode mem).2 0 := by
  unfold Sys.fdTmpfileOpen
  rcases s.vfs.lookup_cases c path (!fl.nofollow) with hlook | ⟨d, hd, hlook⟩
  · rw [hlook]
    exact h
  rw [hlook]
  dsimp only
  rw [h.unref_lookup hd]
  split
  · exact h
  split
  · exact h
  split
  · exact h
  split
  · exact h
  next j hj =>
    have hj := Sys.fdAllocFrom_free hj
    split
    · exact h
    obtain ⟨dir, hdir, -⟩ := h.kept.resolve hd
    set nd : Vnode := { nodeAlloc c ['#'] .reg (applyUmask c (mode &&& 0o7777) ||| 0o100000) with
      deleted := true } with hnd
    have hnew : NewNode nd := ⟨rfl, rfl, rfl, fun _ => by simp [hnd, nodeAlloc]⟩
    have href := h.ref hdir
    have hkept := (href.kept.addRef hnew)
    have hev : s.vfs.Evolves (((s.vfs.nodeRef d).addNode nd).nodeRef s.vfs.next).toTree := .add _ _
    have hadd : Books { s with vfs := ((s.vfs.nodeRef d).addNode nd).nodeRef s.vfs.next }
        (d ::ₘ {s.vfs.next}) := by
      apply h.setVfs _ hev
      have hswap : d ::ₘ {s.vfs.next} + s.fileRefs = s.vfs.next ::ₘ (d ::ₘ 0 + s.fileRefs) := by
        rw [cons_add, singleton_add, cons_add, zero_add,
          cons_swap]
      rw [hswap]
      exact hkept
    have hdrop := hadd.unref
    obtain ⟨x, hx⟩ := hdrop.hand_live (mem_singleton_self _)
    refine install (setRam hdrop _ emptyRam) hj hx ?_ false ⟨0, fl.acc⟩
    -- the node is not in the tree, and dropping the directory does not change that
    intro _
    have hlive : (((s.vfs.nodeRef d).addNode nd).nodeRef s.vfs.next).node s.vfs.next = some nd :=
      add_node_self ..
    obtain ⟨y, hy, -, -, hpar⟩ := (Vfs.nodeUnref_evolves _ d).old hx (Nat.lt_succ_self s.vfs.next)
    rw [hlive] at hy
    cases hy
    exact hpar rfl

theorem Books.fdOpenImpl (h : Books s 0) (path : Text) (fl : OpenFlags) (mode : UInt32)
    (reroot : Bool) (hplain : ∀ n, s.vfs.resolve c (Sys.openPath c path reroot) (!fl.nofollow) =
      some n → (s.vfs.get n).type ≠ .sock) :
    Books (s.fdOpenImpl c path fl mode mem reroot).2 0 := by
  unfold Sys.fdOpenImpl
  split
  · exact h.fdDup _ _
  dsimp only
  split
  · exact h
  split
  · split
    · exact h
    · exact h.fdTmpfileOpen _ _ _
  rcases @openTarget s c mem h _ fl mode hplain with ⟨e, he, hb⟩ | ⟨n, hn, ho⟩
  · split
    · next heq =>
      rw [heq] at hb
      exact hb
    · next heq =>
      rw [heq] at he
      cases he
  · split
    · next heq =>
      rw [heq] at hn
      cases hn
    · next heq =>
      rw [heq] at hn ho
      cases hn
      exact ho.openFound fl

theorem Books.fdSocket (h : Books s 0) (stream : Bool) : Books (s.fdSocket c stream mem).2 0 := by
  unfold Sys.fdSocket
  split
  · exact h
  split
  · exact h
  split
  · exact h
  next j hj =>
    split
    · exact h
    set nd : Vnode := { nodeAlloc c [] .sock 0o140666 with sock := some s.nextSock } with hnd
    have hnew : NewNode nd := ⟨rfl, rfl, rfl, fun hdel => by cases hdel⟩
    have hk : Kept True ((s.vfs.addNode nd).nodeRef s.vfs.next) ({s.vfs.next} + s.fileRefs) := by
      have hk := h.kept.addRef hnew
      rw [zero_add] at hk
      exact hk
    have hadd := h.setVfs hk (.add _ _)
    have hb : Books { s with
        vfs := (s.vfs.addNode nd).nodeRef s.vfs.next
        sock := update s.sock s.nextSock (some ⟨.unbound, .none, 0⟩)
        nextSock := s.nextSock + 1 } {s.vfs.next} := ⟨hadd.kept, hadd.own⟩
    have hnode : ((s.vfs.addNode nd).nodeRef s.vfs.next).node s.vfs.next = some nd :=
      add_node_self ..
    exact install hb (Sys.fdAllocFrom_free hj) hnode (fun _ => rfl) _ _

theorem Books.setSock (h : Books s hand) (k : ℕ) (x : Sock) : Books (s.setSock k x) hand :=
  ⟨h.kept, h.own⟩

theorem Books.bindPath (h : Books s 0) (k : ℕ) (path : Text) :
    Books (s.bindPath c k path mem).2 0 := by
  unfold Sys.bindPath
  split
  · exact h
  next dir leaf _ =>
    split
    · exact h
    rcases s.vfs.lookup_cases c (if dir = [] then ['/'] else dir) true with
      hlook | ⟨p, hp, hlook⟩
    · rw [hlook]
      exact h
    rw [hlook]
    dsimp only
    rw [h.unref_lookup hp]
    obtain ⟨x, hx, hdel⟩ := h.kept.resolve hp
    have hget : (s.vfs.nodeRef p).get p = x := get_of_node hx
    rw [hget]
    split
    · exact h
    next htype =>
      split
      · exact h
      split
      · exact h
      split
      · exact h
      rw [h.kept.create_nodeUnref hx hdel]
      have hnew : NewNode { nodeAlloc c leaf .sock 0o140666 with sock := some k } :=
        ⟨rfl, rfl, rfl, fun hdel => by cases hdel⟩
      exact setSock (h.create hx (not_not.mp htype) hnew rfl mem.index) _ _

theorem Books.fdBindUnix (h : Books s 0) (fd : ℕ) (addr : UnixAddr) :
    Books (s.fdBindUnix c fd addr mem).2 0 := by
  unfold Sys.fdBindUnix
  split
  · exact h
  split
  · exact h
  split
  · exact h
  split
  · exact h.bindPath _ _
  · unfold Sys.bindAbstract
    split
    · exact h
    · exact ⟨h.kept, h.own⟩

theorem Books.fdListenUnix (h : Books s 0) (fd : ℕ) : Books (s.fdListenUnix c fd).2 0 := by
  unfold Sys.fdListenUnix
  split
  · split
    · exact h
    · exact h.setSock _ _
  · exact h

theorem Books.fdAcceptUnix (h : Books s 0) (fd : ℕ) : Books (s.fdAcceptUnix c fd mem).2 0 := by
  unfold Sys.fdAcceptUnix
  split
  · next k _ =>
    split
    · exact h
    split
    · exact h
    dsimp only
    set t := s.setSock k { s.getSock k with backlog := (s.getSock k).backlog - 1 } with ht
    have hb : Books t 0 := h.setSock _ _
    split
    · exact hb
    next j hj =>
      split
      · exact hb
      · have hfree : t.fds (c.table, j) = none := Sys.fdAllocFrom_free hj
        exact fill (f := ⟨none, t.nextOfd, true⟩)
          (t := t.install (c.table, j) none true ⟨0, .rdwr⟩) hb hfree (fun n nd hn => by cases hn)
          rfl rfl
  · exact h

theorem Books.detach (h : Books s 0) (hi : s.fds i = some f) (hf : f.node = some n)
    (hn : s.vfs.node n = some nd) (htype : nd.type = .sock) :
    Books ({ s with vfs := (s.vfs.markDeleted n).nodeUnref n }.setFd i
      (some { f with node := none, piped := true })) 0 := by
  have hclear : Books (s.setFd i none) (n ::ₘ 0) := by
    have hc := h.clear hi
    rw [hf] at hc
    exact hc
  have hk : Kept True (s.vfs.markDeleted n) (n ::ₘ 0 + (s.setFd i none).fileRefs) := by
    have hk := hclear.kept
    rw [cons_add] at hk ⊢
    exact hk.markDeleted hn (h.own hi hf hn htype) (by rw [htype]; decide)
  set u : Sys := { s.setFd i none with vfs := (s.vfs.markDeleted n).nodeUnref n } with hu
  have hdrop : Books u (nodeRefs none + 0) :=
    (hclear.setVfs hk (Vfs.markDeleted_evolves hn)).unref
  have hnone : u.fds i = none := update_self ..
  refine fill (s := u) (f := { f with node := none, piped := true }) hdrop hnone ?_ rfl ?_
  · exact fun m x hm => by cases hm
  · exact (update_idem ..).symm

theorem Sys.sockOf_some {fd m : ℕ} {k : Option ℕ} (h : s.sockOf c fd = some (f, m, k)) :
    ∃ hlt : fd < fdMax, s.fds (c.table, ⟨fd, hlt⟩) = some f ∧ f.node = some m ∧
      (s.vfs.get m).type = .sock := by
  obtain ⟨g, hg, h⟩ := Option.bind_eq_some_iff.mp h
  obtain ⟨x, hx, h⟩ := Option.bind_eq_some_iff.mp h
  split at h
  · next htype =>
    cases h
    unfold fdGet at hg
    split at hg
    · next hlt => exact ⟨hlt, hg, hx, htype⟩
    · cases hg
  · cases h

def ConnectOk (s : Sys) (c : Caller) (mem : Mem) : UnixAddr → Prop
  | .abstract name => s.findAbstract c name = none
  | .path p => ∀ n k, s.vfs.resolve c p true = some n → (s.vfs.get n).type = .sock →
      (s.vfs.get n).sock = some k →
      s.sock k ≠ none ∧ ((s.getSock k).state = .listening → mem.data = true)

theorem Books.fdConnectUnix (h : Books s 0) (fd : ℕ) (addr : UnixAddr)
    (hok : ConnectOk s c mem addr) : Books (s.fdConnectUnix c fd addr mem).2 0 := by
  unfold Sys.fdConnectUnix
  split
  · exact h
  next f n cs hsock =>
    obtain ⟨hlt, hi, hf, htype⟩ := Sys.sockOf_some hsock
    obtain ⟨nd, hnd⟩ := h.live hi hf
    rw [get_of_node hnd] at htype
    cases addr with
    | abstract name =>
      have hnone : s.findAbstract c name = none := hok
      simp only [Sys.connectTarget, hnone]
      exact h
    | path p =>
      rcases s.vfs.lookup_cases c p true with hlook | ⟨m, hm, hlook⟩
      · simp only [Sys.connectTarget, hlook]
        exact h
      simp only [Sys.connectTarget, hlook]
      have hback : { s with vfs := (s.vfs.nodeRef m).nodeUnref m } = s := by
        rw [h.unref_lookup hm]
      have hgetm : (s.vfs.nodeRef m).get m = s.vfs.get m := rfl
      split
      · show Books { s with vfs := (s.vfs.nodeRef m).nodeUnref m } 0
        rwa [hback]
      next k hk =>
        split
        · show Books { s with vfs := (s.vfs.nodeRef m).nodeUnref m } 0
          rwa [hback]
        next hlis =>
          have hms : (s.vfs.get m).type = .sock ∧ (s.vfs.get m).sock = some k := by
            rw [hgetm] at hk
            split at hk
            · next hms => exact ⟨hms, hk⟩
            · cases hk
          have hdata := (hok m k hm hms.1 hms.2).2 (not_not.mp hlis)
          rw [if_neg (by rw [hdata]; decide)]
          -- the rest does not depend on what became of the connection
          have hrest : ∀ t : Sys, t.vfs = s.vfs → t.fds = s.fds →
              Books ({ t with vfs := (t.vfs.markDeleted n).nodeUnref n }.setFd
                (c.table, ⟨fd, hlt⟩) (some { f with node := none, piped := true })) 0 := by
            intro t hv hfds
            have ht : Books t 0 := by
              refine ⟨?_, ?_⟩
              · have hk := h.kept
                unfold Sys.fileRefs at hk ⊢
                rw [hv, hfds]
                exact hk
              · rw [hv, hfds]
                exact h.own
            exact ht.detach (by rw [hfds]; exact hi) hf (by rw [hv]; exact hnd) htype
          apply hrest
          · cases cs <;> exact h.unref_lookup hm
          · cases cs <;> rfl

inductive NodeAct
  | lookup (path : Text) (follow : Bool)
  | open (path : Text) (fl : OpenFlags) (mode : UInt32) (mem : Mem) (reroot : Bool)
  | close (fd : ℕ)
  | dup (fd start : ℕ) (mem : Mem)
  | dup2 (oldfd newfd : ℕ) (mem : Mem)
  | fork (dst : Fin procMax) (room : Fin fdMax → Bool)
  | statx (dirfd : ℕ) (path : Option Text) (follow : Bool)
  | socket (stream : Bool) (mem : Mem)
  | bind (fd : ℕ) (addr : UnixAddr) (mem : Mem)
  | listen (fd : ℕ)
  | connect (fd : ℕ) (addr : UnixAddr) (mem : Mem)
  | accept (fd : ℕ) (mem : Mem)
  | unlink (path : Text)

def nodeStep (s : Sys) : Caller × NodeAct → Sys
  | (c, .lookup path follow) => (s.statPath c path follow).2
  | (c, .open path fl mode mem reroot) => (s.fdOpenImpl c path fl mode mem reroot).2
  | (c, .close fd) => (s.fdClose c fd).2
  | (c, .dup fd start mem) => (s.fdDup c fd start mem).2
  | (c, .dup2 oldfd newfd mem) => (s.fdDup2 c oldfd newfd mem).2
  | (c, .fork dst room) => s.vfsCopyFdtable c dst room
  | (c, .statx dirfd path follow) => (s.sysStatx c dirfd path follow).2
  | (c, .socket stream mem) => (s.fdSocket c stream mem).2
  | (c, .bind fd addr mem) => (s.fdBindUnix c fd addr mem).2
  | (c, .listen fd) => (s.fdListenUnix c fd).2
  | (c, .connect fd addr mem) => (s.fdConnectUnix c fd addr mem).2
  | (c, .accept fd mem) => (s.fdAcceptUnix c fd mem).2
  | (c, .unlink path) => (s.vfsUnlink c path).2

def SockUsable (s : Sys) (c : Caller) (fd : ℕ) : Prop :=
  ∀ f n k, s.sockOf c fd = some (f, n, some k) → s.sock k ≠ none

/-- The calls that keep the counts: `statx` has a path or finds no node, `open` finds no socket, a
connection is to a path and finds memory, and no socket state is used after it was freed. -/
def NodeOk (s : Sys) : Caller × NodeAct → Prop
  | (c, .statx dirfd none _) => (s.fdGet c dirfd).bind File.node = none
  | (c, .open path fl _ _ reroot) => ∀ n,
      s.vfs.resolve c (openPath c path reroot) (!fl.nofollow) = some n →
        (s.vfs.get n).type ≠ .sock
  | (c, .connect fd addr mem) => SockUsable s c fd ∧ ConnectOk s c mem addr
  | (c, .close fd) => SockUsable s c fd
  | (c, .dup2 _ newfd _) => SockUsable s c newfd
  | (c, .bind fd _ _) => SockUsable s c fd
  | (c, .listen fd) => SockUsable s c fd
  | (c, .accept fd _) => SockUsable s c fd
  | _ => True

theorem Books.step (h : Books s 0) {a : Caller × NodeAct} (hok : NodeOk s a) :
    Books (nodeStep s a) 0 := by
  obtain ⟨c, a⟩ := a
  cases a with
  | lookup path follow =>
    show Books (s.statPath c path follow).2 0
    rwa [h.statPath]
  | «open» path fl mode mem reroot => exact h.fdOpenImpl path fl mode reroot hok
  | close fd => exact h.fdClose fd
  | dup fd start mem => exact h.fdDup fd start
  | dup2 oldfd newfd mem => exact h.fdDup2 oldfd newfd
  | fork dst room => exact h.vfsCopyFdtable dst room
  | statx dirfd path follow =>
    show Books (s.sysStatx c dirfd path follow).2 0
    unfold sysStatx
    cases path with
    | some path =>
      rwa [h.statPath]
    | none =>
      have hnone : (s.fdGet c dirfd).bind File.node = none := hok
      rw [hnone]
      exact h
  | socket stream mem => exact h.fdSocket stream
  | bind fd addr mem => exact h.fdBindUnix fd addr
  | listen fd => exact h.fdListenUnix fd
  | connect fd addr mem => exact h.fdConnectUnix fd addr hok.2
  | accept fd mem => exact h.fdAcceptUnix fd
  | unlink path => exact h.vfsUnlink path

/-- The counts are exact: a node with an open file has not been destroyed, and an unlinked node
without files and mounts has. -/
structure RefsExact (s : Sys) : Prop where
  count : ∀ {n nd}, s.vfs.node n = some nd →
    s.vfs.refcnt n = s.openFiles n + s.vfs.mntRefs.count n
  open_live : ∀ {i f n}, s.fds i = some f → f.node = some n → s.vfs.node n ≠ none
  unlinked_used : ∀ {n nd}, s.vfs.node n = some nd → nd.deleted = true →
    0 < s.openFiles n + s.vfs.mntRefs.count n

structure NodeStart (s : Sys) : Prop where
  closed : ∀ i, s.fds i = none
  linked : Linked s.vfs.toTree
  root : ∀ ns ∈ s.vfs.initMnt :: s.vfs.mnts, ns.rootCounted = false →
    ∃ nd, s.vfs.node ns.root = some nd ∧ nd.type = .dir
  count : ∀ n, s.vfs.refcnt n = s.vfs.mntRefs.count n
  mounted : ∀ n ∈ s.vfs.mntRefs, ∃ nd, s.vfs.node n = some nd
  unlinked : ∀ n nd, s.vfs.node n = some nd → nd.deleted = true → n ∈ s.vfs.mntRefs

theorem Sys.fileRefs_closed (h : ∀ i, s.fds i = none) : s.fileRefs = 0 := by
  unfold fileRefs fdRefs total
  simp only [h]
  exact Finset.sum_const_zero

theorem NodeStart.books (h : NodeStart s) : Books s 0 := by
  refine ⟨?_, fun hf => by rw [h.closed] at hf; cases hf⟩
  rw [fileRefs_closed h.closed, zero_add]
  refine ⟨h.linked, h.root, ?_, ?_, ?_, ?_⟩
  · intro n
    rw [add_zero, h.count]
  · intro n hn
    rw [add_zero] at hn
    exact h.mounted n hn
  · intro _ n nd _
    rw [add_zero, h.count]
  · intro _ n nd hn hdel
    rw [h.count]
    exact count_pos.mpr (h.unlinked n nd hn hdel)

theorem Books.refsExact (h : Books s 0) : RefsExact s := by
  have hcount : ∀ {n nd}, s.vfs.node n = some nd →
      s.vfs.refcnt n = s.openFiles n + s.vfs.mntRefs.count n := by
    intro n nd hn
    have hle := h.kept.le n
    have hge := h.kept.ge trivial n nd hn
    rw [zero_add, count_add, count_fileRefs] at hle hge
    omega
  refine ⟨hcount, ?_, ?_⟩
  · intro i f n hf hn hnone
    obtain ⟨nd, hnd⟩ := h.live hf hn
    rw [hnone] at hnd
    cases hnd
  · intro n nd hn hdel
    rw [← hcount hn]
    exact h.kept.gone trivial n nd hn hdel

theorem node_refcounts_exact (s : Sys) (as : List (Caller × NodeAct)) (hs : NodeStart s)
    (hok : Along nodeStep NodeOk s as) : Always nodeStep RefsExact s as := by
  have hall : Always nodeStep (fun s => Books s 0) s as :=
    hok.always hs.books fun s a h ha => h.step ha
  exact fun pre hp => (hall pre hp).refsExact

def hostCaller : Caller := ⟨0, 0, 0, 0, ['/'], [], 0, false, 0, ⟨0, by decide⟩⟩

def smallTree : Tree where
  node := fun n =>
    if n = 0 then
      some { nodeAlloc hostCaller [] .dir 0o40755 with
        parent := some 0, children := [1], index := some [1] }
    else if n = 1 then some { nodeAlloc hostCaller ['a'] .reg 0o100644 with parent := some 0 }
    else none
  next := 2
  initMnt := ⟨0, false, 0, []⟩
  mnts := []

def smallSys : Sys where
  vfs := { smallTree with refcnt := fun _ => 0 }
  ram := fun _ => emptyRam
  ofd := fun _ => ⟨0, .rdonly⟩
  nextOfd := 0
  fds := fun _ => none
  sock := fun _ => none
  nextSock := 0
  freed := []
  abs := fun _ => none

theorem smallTree_node {n : ℕ} {nd : Vnode} (h : smallTree.node n = some nd) :
    (n = 0 ∧ nd = { nodeAlloc hostCaller [] .dir 0o40755 with
        parent := some 0, children := [1], index := some [1] }) ∨
      (n = 1 ∧ nd = { nodeAlloc hostCaller ['a'] .reg 0o100644 with parent := some 0 }) := by
  unfold smallTree at h
  dsimp only at h
  split at h
  · next hn => exact .inl ⟨hn, (Option.some.inj h).symm⟩
  · split at h
    · next hn => exact .inr ⟨hn, (Option.some.inj h).symm⟩
    · cases h

theorem smallTree_linked : Linked smallTree := by
  constructor
  case child =>
    intro d dir i hd hhas
    rcases smallTree_node hd with ⟨rfl, rfl⟩ | ⟨rfl, rfl⟩
    · have hi : i = 1 := by simpa [Vnode.Has, nodeAlloc] using hhas
      subst hi
      exact ⟨_, rfl, rfl, rfl⟩
    · simp [Vnode.Has, nodeAlloc] at hhas
  case up =>
    intro n nd p hn hp
    have hp : p = 0 := by
      rcases smallTree_node hn with ⟨rfl, rfl⟩ | ⟨rfl, rfl⟩ <;> exact (Option.some.inj hp).symm
    subst hp
    exact ⟨_, rfl, rfl⟩
  case kept =>
    intro n nd hn hdel
    rcases smallTree_node hn with ⟨rfl, rfl⟩ | ⟨rfl, rfl⟩ <;> cases hdel
  case once =>
    intro d dir hd
    rcases smallTree_node hd with ⟨rfl, rfl⟩ | ⟨rfl, rfl⟩ <;> simp [nodeAlloc]
  case bound =>
    intro n nd hn
    rcases smallTree_node hn with ⟨rfl, -⟩ | ⟨rfl, -⟩ <;> decide

theorem smallSys_start : NodeStart smallSys where
  closed := fun _ => rfl
  linked := smallTree_linked
  root := by
    intro ns hns _
    cases List.mem_singleton.mp hns
    exact ⟨_, rfl, rfl⟩
  count := fun n => (count_zero n).symm
  mounted := fun n hn => absurd hn (notMem_zero n)
  unlinked := by
    intro n nd hn hdel
    rcases smallTree_node hn with ⟨rfl, rfl⟩ | ⟨rfl, rfl⟩ <;> cases hdel

def readOnly : OpenFlags := ⟨.rdonly, false, false, false, false, false, false, false⟩

def openA : Caller × NodeAct := (hostCaller, .open ['/', 'a'] readOnly 0 .ok true)
def unlinkA : Caller × NodeAct := (hostCaller, .unlink ['/', 'a'])

theorem openA_ok : NodeOk smallSys openA := by
  intro n hn
  have hone : smallSys.vfs.resolve hostCaller (openPath hostCaller ['/', 'a'] true) true =
      some 1 := by decide +kernel
  cases hone.symm.trans hn
  decide

theorem node_refcounts_exact_unlink :
    Always nodeStep RefsExact smallSys [openA, unlinkA, (hostCaller, .close 3)] := by
  have hopen : Along nodeStep NodeOk smallSys ([] ++ [openA]) :=
    along_concat.mpr ⟨along_nil, openA_ok⟩
  have hunlink : Along nodeStep NodeOk smallSys ([openA] ++ [unlinkA]) :=
    along_concat.mpr ⟨hopen, trivial⟩
  have hclose : Along nodeStep NodeOk smallSys ([openA, unlinkA] ++ [(hostCaller, .close 3)]) := by
    refine along_concat.mpr ⟨hunlink, ?_⟩
    intro f n k hsock
    have hnone : (exec nodeStep smallSys [openA, unlinkA]).sockOf hostCaller 3 = none := by
      decide +kernel
    rw [hnone] at hsock
    cases hsock
  exact node_refcounts_exact smallSys _ smallSys_start hclose

/-- `statx` without a path drops a reference that it did not take: the node is destroyed by an
unlink while it is open. -/
theorem statx_destroys_open_node :
    NodeStart smallSys ∧
      ¬ Always nodeStep RefsExact smallSys
        [openA, (hostCaller, .statx 3 none false), unlinkA] := by
  refine ⟨smallSys_start, ?_⟩
  intro h
  have hend := h _ List.prefix_rfl
  have hfile : (exec nodeStep smallSys [openA, (hostCaller, .statx 3 none false), unlinkA]).fds
      (⟨0, by decide⟩, ⟨3, by decide⟩) = some ⟨some 1, 0, false⟩ := by decide +kernel
  have hgone : (exec nodeStep smallSys [openA, (hostCaller, .statx 3 none false), unlinkA]).vfs.node
      1 = none := by decide +kernel
  exact hend.open_live hfile rfl hgone

end Kyronix.Fs
