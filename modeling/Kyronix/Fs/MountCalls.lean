import Kyronix.Fs.MountTable

/-! What the calls on mount namespaces do to the meaning of paths: another root, a mount that is
moved, and one that is made and taken away again. -/
namespace Kyronix.Fs

open Lib.Prefix Lib.Run List MntSys Fs.Tree MntTable Option

def Tree.descend (t : Tree) (n : ℕ) (xs : List Text) : Option ℕ := xs.foldlM t.dirFind n

namespace MntTable

variable {tb : MntTable} {m : Mount} {r q xs : List Text} {n : ℕ} {t : Tree} {c : Caller}

def reached (tb : MntTable) (t : Tree) (p : List Text) : Option ℕ × UInt32 :=
  let b := tb.resolved p
  (t.descend b.2.1 b.1, b.2.2)

def Without (tb tb' : MntTable) (t : List Text) : Prop :=
  ∀ p, Canon p → longest (fun z => if z = t then none else tb.entry z) p = some (tb'.resolved p)

/-- The new root has a mount of its own, or the flags that apply there are those of the root. -/
def RootOk (tb : MntTable) (r : List Text) : Prop :=
  tb.find (pathOf r) ≠ none ∨ (tb.resolve (pathOf r)).flags = tb.rootFlags

theorem Wf.rootFlags_rebase (h : tb.Wf) (hr : Canon r) (n : ℕ) :
    (tb.rebase (pathOf r) n).rootFlags = (tb.resolve (pathOf r)).flags ↔ tb.RootOk r := by
  unfold MntTable.rebase RootOk
  cases hfind : tb.find (pathOf r) with
  | none =>
    rw [or_iff_right (not_not.mpr rfl)]
    exact eq_comm
  | some b =>
    obtain ⟨i, m⟩ := b
    obtain ⟨hm, ht⟩ := find_some hfind
    obtain ⟨xs, hxs, hx, ht'⟩ := h.target hm
    obtain rfl := pathOf_inj hr hx (ht.symm.trans ht')
    have hself := h.resolved_eq hr
    rw [longest_self.mpr ((h.entry_eq_some hxs).mpr ⟨i, m, hm, ht, rfl⟩)] at hself
    have hflags := congrArg (fun b => b.2.2) (Option.some.inj hself)
    exact iff_of_true hflags (.inl (some_ne_none _))

theorem Wf.reached_rebase (h : tb.Wf) (hr : Canon r) (hn : (tb.reached t r).1 = some n) :
    (∀ q, Canon q → (tb.rebase (pathOf r) n).reached t q = tb.reached t (r ++ q)) ↔
      tb.RootOk r := by
  rw [← h.rootFlags_rebase hr n]
  constructor
  · intro hall
    have hnil := hall [] (forall_mem_nil _)
    obtain ⟨-, hnew⟩ := h.resolved_rebase hr (forall_mem_nil _) n
    rw [append_nil] at hnil
    unfold reached at hnil
    rw [hnew] at hnil
    exact congrArg Prod.snd hnil
  · intro hflags q hq
    obtain ⟨hold, hnew⟩ := h.resolved_rebase hr hq n
    unfold reached
    rw [hold, hnew]
    cases longest (fun z => if z = [] then none else tb.entry (r ++ z)) q with
    | some b => rfl
    | none =>
      refine Prod.ext ?_ hflags
      show t.descend n q = t.descend (tb.resolved r).2.1 ((tb.resolved r).1 ++ q)
      have hdown : t.descend (tb.resolved r).2.1 ((tb.resolved r).1 ++ q) =
          (tb.reached t r).1.bind fun n => t.descend n q := foldlM_append
      rw [hdown, hn]
      rfl

theorem nsMntFind_view (tb : MntTable) (target : Text) :
    nsMntFind tb.view target = (tb.find target).map Prod.snd := by
  have hlist : ∀ l : List (Fin nsMntMax), (l.filterMap tb.slot).find? (fun m => m.target = target) =
      (l.findSome? fun i => (tb.slot i).bind fun m =>
        if m.target = target then some (i, m) else none).map Prod.snd := by
    intro l
    induction l with
    | nil => rfl
    | cons i l ih =>
      rw [filterMap_cons, List.findSome?_cons]
      cases tb.slot i with
      | none => exact ih
      | some m =>
        by_cases hm : m.target = target
        · simp [hm]
        · simpa [hm] using ih
  unfold nsMntFind find
  rw [← hlist, filterMap_reverse]
  rfl

variable {p : List Text}

theorem lookupPathPush_pathOf {cand x : Text} (hp : Canon p)
    (h : lookupPathPush (pathOf p) x = some cand) : cand = pathOf (p ++ [x]) := by
  unfold lookupPathPush at h
  obtain ⟨-, h⟩ := ite_none_left_eq_some.mp h
  rw [← Option.some.inj h]
  by_cases hpn : p = []
  · subst hpn
    rw [if_neg (show ¬ 1 < (pathOf []).length by decide), nil_append,
      pathOf_of_ne_nil (cons_ne_nil x []), tailOf_cons, tailOf_nil, append_nil]
    rfl
  · have hlen : 1 < (pathOf p).length := by
      obtain ⟨y, ys, rfl⟩ := exists_cons_of_ne_nil hpn
      obtain ⟨ch, u, rfl⟩ := exists_cons_of_ne_nil (hp y mem_cons_self).1
      rw [pathOf_of_ne_nil hpn, tailOf_cons]
      simp
    rw [if_pos hlen, pathOf_of_ne_nil hpn, pathOf_of_ne_nil (by simp), tailOf_append, tailOf_cons,
      tailOf_nil, append_nil]

theorem Wf.reached_concat (h : tb.Wf) {x : Text} (hp : Canon (p ++ [x])) :
    (tb.reached t (p ++ [x])).1 = match tb.find (pathOf (p ++ [x])) with
      | some (_, m) => some m.root
      | none => (tb.reached t p).1.bind fun d => t.dirFind d x := by
  have hne : p ++ [x] ≠ [] := by simp
  have hres := h.resolved_eq hp
  have hentry := entry_of_ne_nil tb hne
  unfold reached
  cases hfind : tb.find (pathOf (p ++ [x])) with
  | some b =>
    rw [hfind] at hentry
    rw [longest_self.mpr hentry] at hres
    rw [← Option.some.inj hres]
    rfl
  | none =>
    rw [hfind] at hentry
    rw [longest_concat hentry, h.resolved_eq hp.left] at hres
    rw [← Option.some.inj hres]
    show t.descend _ (_ ++ [x]) = _
    unfold descend
    rw [foldlM_append]
    simp

theorem hop_on {x rest : Text} {w w' : Tree.Walk} {follow : Bool} (hx : CompOk x)
    (h : t.hop c follow x rest w = .on w') :
    ∃ child, t.dirFind w.cur x = some child ∧ lookupPathPush w.path x = some w'.path ∧
      w'.cur = match nsMntFind (t.nsMntCurrent c) w'.path with
        | some m => m.root
        | none => child := by
  unfold hop at h
  rw [if_neg hx.2.2.1, if_neg hx.2.2.2] at h
  split at h
  · cases h
  split at h
  · cases h
  split at h
  · cases h
  next child hchild =>
  split at h
  · split at h <;> cases h
  unfold walkDown at h
  split at h
  · cases h
  next cand hcand =>
  refine ⟨child, hchild, ?_⟩
  split at h
  · next m hm =>
    cases h
    exact ⟨hcand, by rw [hm]⟩
  · next hm =>
    cases h
    exact ⟨hcand, by rw [hm]⟩

theorem Wf.walk_reached (h : tb.Wf) (hns : t.nsMntCurrent c = tb.view) {zs : List Text}
    (hz : Canon zs) {w : Tree.Walk} (hp : Canon p) (hpath : w.path = pathOf p)
    (hcur : (tb.reached t p).1 = some w.cur)
    (hwalk : t.walk c true (fun _ => none) (pathTokens (skipSlashes (tailOf zs))) w = some n) :
    (tb.reached t (p ++ zs)).1 = some n := by
  induction zs generalizing p w with
  | nil =>
    have hnil : pathTokens (skipSlashes (tailOf [])) = [] := by decide +kernel
    rw [hnil] at hwalk
    rw [append_nil, hcur]
    exact hwalk
  | cons x zs ih =>
    have hx := hz x mem_cons_self
    have hz' : Canon zs := fun y hy => hz y (mem_cons_of_mem _ hy)
    have hpx : Canon (p ++ [x]) := hp.append fun y hy => mem_singleton.mp hy ▸ hx
    rw [skipSlashes_tailOf_cons hx, pathTokens_comp hx (slashy_tailOf zs)] at hwalk
    unfold walk at hwalk
    split at hwalk
    · cases hwalk
    · cases hwalk
    next w' hhop =>
    obtain ⟨child, hchild, hpush, hnext⟩ := hop_on hx hhop
    rw [hpath] at hpush
    have hpath' := lookupPathPush_pathOf hp hpush
    rw [append_cons]
    apply ih hz' hpx hpath' ?_ hwalk
    rw [h.reached_concat hpx, hnext, hns, nsMntFind_view, hpath', hcur]
    cases tb.find (pathOf (p ++ [x])) with
    | none => exact hchild
    | some b => rfl

end MntTable

def MountArgs.IsMove (a : MountArgs) : Prop :=
  a.flags &&& msRemount = 0 ∧ a.flags &&& msPropagation = 0 ∧ a.flags &&& msMove ≠ 0

def MountArgs.IsAttach (a : MountArgs) : Prop :=
  a.flags &&& msRemount = 0 ∧ a.flags &&& msPropagation = 0 ∧ a.flags &&& msMove = 0

structure Tree.Tidy (t : Tree) : Prop extends t.Parented where
  empty : ∀ {n nd i}, t.node n = some nd → nd.deleted = true → ¬ nd.Has i

variable {t t' : Tree} {n d : ℕ} {c : Caller} {v : Vfs}

theorem Tree.descend_congr (h : ∀ d x, t'.dirFind d x = t.dirFind d x) (n : ℕ) (xs : List Text) :
    t'.descend n xs = t.descend n xs := by
  unfold descend
  rw [funext₂ h]

theorem Tree.Tidy.congr (h : t.Tidy) (hnode : t'.node = t.node) (hnext : t'.next = t.next) :
    t'.Tidy where
  toParented := h.toParented.congr hnode hnext
  empty := by
    rw [hnode]
    exact h.empty

theorem Tree.Tidy.free (h : t.Tidy) (hdel : (t.get n).deleted = true) : (t.free n).Tidy where
  toParented := h.toParented.free hdel
  empty := fun hx => h.empty (free_node_cases hx).2

theorem Tree.dirFind_eq_none (h : ∀ dir, t.node d = some dir → ∀ i, ¬ dir.Has i) (x : Text) :
    t.dirFind d x = none := by
  cases hfind : t.dirFind d x with
  | none => rfl
  | some i =>
    obtain ⟨dir, hdir, hhas⟩ := edge_of_dirFind hfind
    exact absurd hhas (h dir hdir i)

theorem Tree.Tidy.dirFind_free (h : t.Tidy) (hdel : (t.get n).deleted = true) (d : ℕ) (x : Text) :
    (t.free n).dirFind d x = t.dirFind d x := by
  by_cases hd : d = n
  · subst hd
    rw [dirFind_eq_none fun dir hdir => absurd rfl (free_node_cases hdir).1,
      dirFind_eq_none fun dir hdir i => ?_]
    rw [get_of_node hdir] at hdel
    exact h.empty hdir hdel
  · have hget : ∀ j, j ≠ n → (t.free n).get j = t.get j := by
      intro j hj
      unfold get
      rw [free_node_ne t hj]
    unfold dirFind
    rw [hget d hd]
    refine List.find?_congr fun i hi => ?_
    have hin : i ≠ n := by
      rintro rfl
      cases hdir : t.node d with
      | none =>
        unfold get at hi
        rw [hdir] at hi
        cases hi
      | some dir =>
        rw [get_of_node hdir] at hi
        obtain ⟨y, hy, hydel, -⟩ := h.child hdir (Vnode.has_of_mem hi)
        rw [get_of_node hy, hydel] at hdel
        cases hdel
    rw [hget i hin]

namespace MntSys

variable {s s' : MntSys}

structure Keeps (s s' : MntSys) : Prop where
  tidy : s'.vfs.Tidy
  find : ∀ d x, s'.vfs.dirFind d x = s.vfs.dirFind d x

section

variable (h : s.Keeps s')
include h

theorem Keeps.unref (n : ℕ) : s.Keeps (s'.unref n) := by
  unfold MntSys.unref Vfs.nodeUnref
  split
  · exact h
  · dsimp only
    split
    · next hfree =>
      exact ⟨h.tidy.free hfree.2, fun d x => (h.tidy.dirFind_free hfree.2 d x).trans (h.find d x)⟩
    · exact ⟨h.tidy, h.find⟩

theorem Keeps.ref (n : ℕ) : s.Keeps (s'.ref n) := ⟨h.tidy, h.find⟩

theorem Keeps.foldl_unref (l : List ℕ) : s.Keeps (l.foldl MntSys.unref s') := by
  induction l generalizing s' with
  | nil => exact h
  | cons n l ih => exact ih (h.unref n)

theorem Keeps.foldl_ref (l : List ℕ) : s.Keeps (l.foldl MntSys.ref s') := by
  induction l generalizing s' with
  | nil => exact h
  | cons n l ih => exact ih (h.ref n)

theorem Keeps.setCurrent (c : Caller) (tb : MntTable) : s.Keeps (s'.setCurrent c tb) := by
  unfold MntSys.setCurrent
  split <;> exact ⟨h.tidy, h.find⟩

theorem Keeps.mntClone (c : Caller) : s.Keeps (s'.mntClone c) := by
  have hrefs := h.foldl_ref ((s'.current c).root :: (s'.current c).roots)
  exact ⟨hrefs.tidy, hrefs.find⟩

theorem Keeps.rebaseRoot (c : Caller) (newroot : Text) (n : ℕ) :
    s.Keeps (s'.rebaseRoot c newroot n) :=
  (((h.foldl_unref _).ref n).unref _).setCurrent c _

end

theorem current_setCurrent (s : MntSys) (c : Caller) (tb : MntTable) :
    (s.setCurrent c tb).current c = tb := by
  unfold setCurrent current
  split
  · next hlt => simp [getD_eq_getElem?_getD, hlt]
  · next hge => simp [getD_eq_getElem?_getD, Nat.not_lt.mp hge]

def SameTables (s s' : MntSys) : Prop := s'.init = s.init ∧ s'.tables = s.tables

theorem SameTables.refl (s : MntSys) : s.SameTables s := ⟨rfl, rfl⟩

theorem SameTables.current (h : s.SameTables s') (c : Caller) : s'.current c = s.current c := by
  unfold MntSys.current
  rw [h.1, h.2]

theorem SameTables.foldl_unref (h : s.SameTables s') (l : List ℕ) :
    s.SameTables (l.foldl unref s') := by
  induction l generalizing s' with
  | nil => exact h
  | cons n l ih => exact ih h

theorem SameTables.foldl_ref (h : s.SameTables s') (l : List ℕ) :
    s.SameTables (l.foldl ref s') := by
  induction l generalizing s' with
  | nil => exact h
  | cons n l ih => exact ih h

theorem current_rebaseRoot (s : MntSys) (c : Caller) (newroot : Text) (n : ℕ) :
    (s.rebaseRoot c newroot n).current c = (s.current c).rebase newroot n := current_setCurrent ..

theorem current_mntClone (s : MntSys) (c : Caller) :
    (s.mntClone c).current (atRoot c s.tables.length) =
      { s.current c with rootCounted := true } := by
  have htables : (s.mntClone c).tables =
      s.tables ++ [{ s.current c with rootCounted := true }] := by
    show (List.foldl ref s _).tables ++ _ = _
    rw [((SameTables.refl s).foldl_ref _).2]
  show (s.mntClone c).tables.getD s.tables.length _ = _
  rw [htables]
  simp [getD_eq_getElem?_getD]

def Plain (s : MntSys) (c : Caller) (path : Text) : Prop :=
  (s.fs.walk c true (fun _ => none) (pathTokens (skipSlashes path))
    ⟨(s.current c).root, (s.current c).root, ['/']⟩).isSome

def Rerooted (s : MntSys) (c : Caller) (s' : MntSys) (c' : Caller) (r : List Text) : Prop :=
  ∀ q, Canon q →
    (s'.current c').reached s'.vfs.toTree q = (s.current c).reached s.vfs.toTree (r ++ q)

variable {priv : Bool} {path kpath : Text} {r : List Text}

theorem walk_of_plain {follow : Bool} {restart : Text → Option ℕ} {xs : List (Text × Text)}
    {w : Tree.Walk} (h : t.walk c follow (fun _ => none) xs w = some n) :
    t.walk c follow restart xs w = some n := by
  induction xs generalizing w with
  | nil => exact h
  | cons x xs ih =>
    unfold walk at h ⊢
    split at h
    · cases h
    · cases h
    · exact ih h

theorem skipSlashes_pathOf (r : List Text) : skipSlashes (pathOf r) = skipSlashes (tailOf r) := by
  by_cases hr : r = []
  · subst hr
    rfl
  · rw [pathOf_of_ne_nil hr]

theorem Plain.reached (hplain : s.Plain c (pathOf r)) (hw : (s.current c).Wf) (hr : Canon r)
    (hn : s.fs.resolve c (pathOf r) true = some n) :
    ((s.current c).reached s.vfs.toTree r).1 = some n := by
  obtain ⟨k, hk⟩ := isSome_iff_exists.mp hplain
  obtain ⟨hlook, -⟩ := filter_eq_some_iff.mp hn
  have hns := s.fs_nsMntCurrent c
  have hroot : (s.fs.nsMntCurrent c).root = (s.current c).root := by
    rw [hns]
    rfl
  have heq : k = n := by
    have hne : pathOf r ≠ [] := fun h => absurd (length_pathOf_pos r) (by rw [h]; decide)
    unfold lookupInternal at hlook
    rw [if_neg hne, if_pos (head?_pathOf r), hroot, walk_of_plain hk] at hlook
    exact Option.some.inj hlook
  subst heq
  rw [skipSlashes_pathOf] at hk
  have hstart : ((s.current c).reached s.fs.toTree []).1 = some (s.current c).root := by
    have hnil := hw.resolved_eq (forall_mem_nil _)
    unfold reached
    rw [← Option.some.inj hnil]
    rfl
  exact hw.walk_reached (p := []) hns hr (forall_mem_nil _) rfl hstart hk

theorem newRoot_spec (s : MntSys) (c : Caller) (priv : Bool) (path : Text) :
    (∃ e s₁, s.newRoot c priv path = (.error e, s₁) ∧ e ≠ 0 ∧ s.SameTables s₁) ∨
      ∃ kpath n, path ≠ [] ∧ makeAbs c path = some kpath ∧ s.fs.resolve c kpath true = some n ∧
        s.newRoot c priv path = (.ok (kpath, n), { s with vfs := s.fs.nodeRef n }) := by
  unfold newRoot
  split
  · exact .inl ⟨_, _, rfl, by decide, rfl, rfl⟩
  split
  · exact .inl ⟨_, _, rfl, by decide, rfl, rfl⟩
  split
  · exact .inl ⟨_, _, rfl, by decide, rfl, rfl⟩
  next hne =>
  split
  · exact .inl ⟨_, _, rfl, by decide, rfl, rfl⟩
  next kpath hk =>
  unfold Vfs.lookup
  cases hres : s.fs.resolve c kpath true with
  | none => exact .inl ⟨_, _, rfl, by decide, rfl, rfl⟩
  | some n =>
    dsimp only
    split
    · exact .inl ⟨_, _, rfl, by decide, rfl, rfl⟩
    · exact .inr ⟨kpath, n, hne, hk, hres, rfl⟩

variable {c' : Caller}

theorem rerooted_iff (hw : (s.current c).Wf) (hne : path ≠ [])
    (hpath : makeAbs c path = some kpath) (hplain : s.Plain c kpath)
    (hn : s.fs.resolve c kpath true = some n) (hkeep : s.Keeps s')
    (htable : s'.current c' = (s.current c).rebase kpath n) :
    s.Rerooted c s' c' (components kpath) ↔ (s.current c).RootOk (components kpath) := by
  obtain ⟨hr, heq⟩ := makeAbs_spec hne hpath
  rw [← heq] at hplain hn htable
  rw [← hw.reached_rebase hr (hplain.reached hw hr hn)]
  unfold Rerooted
  rw [htable, heq]
  refine forall₂_congr fun q _ => ?_
  unfold reached
  dsimp only
  rw [descend_congr hkeep.find]

theorem sysChroot_rerooted {room last : Bool} (ht : s.vfs.Tidy)
    (hw : (s.current c).Wf) (h : s.sysChroot c priv path room last = (0, s', c'))
    (hpath : makeAbs c path = some kpath) (hplain : s.Plain c kpath) :
    s.Rerooted c s' c' (components kpath) ↔ (s.current c).RootOk (components kpath) := by
  unfold sysChroot at h
  rcases newRoot_spec s c priv path with ⟨e, s₁, hnew, he, -⟩ | ⟨k, n, hne, hk, hn, hnew⟩
  · rw [hnew] at h
    exact absurd (neg_eq_zero.mp (congrArg Prod.fst h)) he
  rw [hpath] at hk
  cases hk
  rw [hnew] at h
  dsimp only at h
  have hkeep : s.Keeps { s with vfs := s.fs.nodeRef n } := ⟨ht.congr rfl rfl, fun _ _ => rfl⟩
  have hclone := ((hkeep.mntClone c).rebaseRoot (atRoot c s.tables.length) kpath n).unref n
  have htable : (((mntClone { s with vfs := s.fs.nodeRef n } c).rebaseRoot
      (atRoot c s.tables.length) kpath n).unref n).current (atRoot c s.tables.length) =
      (s.current c).rebase kpath n := by
    refine (current_rebaseRoot _ _ kpath n).trans ?_
    rw [current_mntClone { s with vfs := s.fs.nodeRef n } c]
    rfl
  split at h
  · exact absurd (Prod.mk.inj h).1 (by decide)
  obtain ⟨hs, rfl⟩ := Prod.mk.inj (Prod.mk.inj h).2
  apply rerooted_iff hw hne hpath hplain hn
  · rw [← hs]
    split
    · exact hclone.foldl_unref _
    · exact hclone
  · rw [← hs]
    split
    · exact (((SameTables.refl _).foldl_unref _).current _).trans htable
    · exact htable

theorem sysPivotRoot_rerooted (ht : s.vfs.Tidy)
    (hw : (s.current c).Wf) (h : s.sysPivotRoot c priv path [] = (0, s', c'))
    (hpath : makeAbs c path = some kpath) (hplain : s.Plain c kpath) :
    s.Rerooted c s' c' (components kpath) ↔ (s.current c).RootOk (components kpath) := by
  unfold sysPivotRoot at h
  rcases newRoot_spec s c priv path with ⟨e, s₁, hnew, he, -⟩ | ⟨k, n, hne, hk, hn, hnew⟩
  · rw [hnew] at h
    exact absurd (neg_eq_zero.mp (congrArg Prod.fst h)) he
  rw [hpath] at hk
  cases hk
  rw [hnew] at h
  dsimp only at h
  have hkeep : s.Keeps { s with vfs := s.fs.nodeRef n } := ⟨ht.congr rfl rfl, fun _ _ => rfl⟩
  rw [if_pos rfl] at h
  obtain ⟨rfl, rfl⟩ := Prod.mk.inj (Prod.mk.inj h).2
  apply rerooted_iff hw hne hpath hplain hn
  · exact (hkeep.rebaseRoot c kpath n).unref n
  · exact current_rebaseRoot _ c kpath n

section

variable (s : MntSys) (c : Caller)

theorem ensureTarget_tables (target : Text) (dir : Bool) (mem : Mem) :
    s.SameTables (s.ensureTarget c target dir mem).2 := by
  unfold ensureTarget
  split
  · exact ⟨rfl, rfl⟩
  split
  · split <;> exact ⟨rfl, rfl⟩
  · exact ⟨rfl, rfl⟩

theorem bindSource_tables (fds : ℕ → Option ℕ) (path : Text) :
    s.SameTables (s.bindSource c fds path).2 := by
  unfold bindSource
  split
  · split <;> exact ⟨rfl, rfl⟩
  · exact ⟨rfl, rfl⟩

theorem fsRoot_tables (fstype data : Text) (mem : Mem) :
    s.SameTables (s.fsRoot c fstype data mem).2 := by
  unfold fsRoot
  split
  · split <;> exact ⟨rfl, rfl⟩
  split
  · split <;> exact ⟨rfl, rfl⟩
  · exact ⟨rfl, rfl⟩

theorem fsRoot_error (fstype data : Text) (mem : Mem) :
    ∀ e, (s.fsRoot c fstype data mem).1 = .error e → e ≠ 0 := by
  unfold fsRoot
  intro e he
  split at he
  · split at he
    · cases he
      decide
    · cases he
  split at he
  · split at he
    · cases he
      decide
    · cases he
  · cases he
    decide

end

variable {a : MountArgs} {mem : Mem} {source target : Text}

theorem sysMount_checked (h : s.sysMount c priv a mem = (0, s'))
    (htgt : makeAbs c a.target = some target) (hfd : (fdNumber target).bind a.fds = none) :
    ∃ source, makeAbs c a.source = some source ∧ a.target ≠ [] ∧
      s.mountAt c a source target mem = (0, s') := by
  unfold sysMount at h
  split at h
  · exact absurd (Prod.mk.inj h).1 (by decide)
  split at h
  · exact absurd (Prod.mk.inj h).1 (by decide)
  split at h
  · exact absurd (Prod.mk.inj h).1 (by decide)
  next hne =>
  rw [htgt] at h
  split at h
  · next source given hsrc hgiven =>
    cases hgiven
    rw [hfd] at h
    exact ⟨source, hsrc, hne, h⟩
  · exact absurd (Prod.mk.inj h).1 (by decide)

theorem sysMount_move (h : s.sysMount c priv a mem = (0, s')) (hmove : a.IsMove)
    (hsrc : makeAbs c a.source = some source) (htgt : makeAbs c a.target = some target)
    (hfd : (fdNumber target).bind a.fds = none) :
    ∃ i j m, (s.current c).find source = some (i, m) ∧ (s.current c).slotFor target = some j ∧
      s'.current c = moveSlot (s.current c) i j m target := by
  obtain ⟨hremount, hprop, hmv⟩ := hmove
  obtain ⟨source', hsrc', -, hbody⟩ := sysMount_checked h htgt hfd
  rw [hsrc] at hsrc'
  cases hsrc'
  rw [mountAt, hremount, if_neg (by decide), hprop, if_neg (by decide),
    if_pos (bne_iff_ne.mpr hmv)] at hbody
  unfold moveMount at hbody
  split at hbody
  · exact absurd (Prod.mk.inj hbody).1 (by decide)
  next i m hfind =>
  have hsame := (s.ensureTarget_tables c target ((s.vfs.get m.root).type == .dir) mem).current c
  dsimp only at hbody
  rw [hsame] at hbody
  split at hbody
  · exact absurd (Prod.mk.inj hbody).1 (by decide)
  split at hbody
  · exact absurd (Prod.mk.inj hbody).1 (by decide)
  next j hslot =>
  refine ⟨i, j, m, hfind, hslot, ?_⟩
  rw [← (Prod.mk.inj hbody).2]
  exact current_setCurrent ..

theorem attachRoot_ok {root : ℕ} {dir : Bool} {flags : UInt32} (hne : target ≠ ['/'])
    (h : s.attachRoot c target root dir flags mem = (0, s')) :
    ∃ i, (s.current c).slotFor target = some i ∧
      s'.current c = (s.current c).setSlot i (some ⟨cut 256 target, root, flags⟩) := by
  unfold attachRoot at h
  have hsame := (s.ensureTarget_tables c target dir mem).current c
  dsimp only at h
  split at h
  · next hneg =>
    exact absurd (Prod.mk.inj h).1 hneg.ne
  unfold mountAttach at h
  rw [if_neg hne, hsame] at h
  split at h
  · exact absurd (Prod.mk.inj h).1 (show -enospc ≠ 0 by decide)
  next i hslot =>
  refine ⟨i, hslot, ?_⟩
  rw [← (Prod.mk.inj h).2]
  exact current_setCurrent ..

theorem sysMount_attach (h : s.sysMount c priv a mem = (0, s')) (hattach : a.IsAttach)
    (htgt : makeAbs c a.target = some target) (hfd : (fdNumber target).bind a.fds = none)
    (hne : target ≠ ['/']) :
    ∃ i root, (s.current c).slotFor target = some i ∧
      s'.current c =
        (s.current c).setSlot i (some ⟨cut 256 target, root, a.flags.toUInt32⟩) := by
  obtain ⟨hremount, hprop, hmv⟩ := hattach
  obtain ⟨source, -, -, hbody⟩ := sysMount_checked h htgt hfd
  rw [mountAt, hremount, if_neg (by decide), hprop, if_neg (by decide), hmv,
    if_neg (by decide)] at hbody
  split at hbody
  · split at hbody
    · exact absurd (Prod.mk.inj hbody).1 (by decide)
    have hsame := (s.bindSource_tables c a.fds source).current c
    split at hbody
    · exact absurd (Prod.mk.inj hbody).1 (by decide)
    next n s₁ hbind =>
    rw [hbind] at hsame
    obtain ⟨i, hslot, htable⟩ := attachRoot_ok hne hbody
    rw [hsame] at hslot htable
    exact ⟨i, n, hslot, htable⟩
  · split at hbody
    · exact absurd (Prod.mk.inj hbody).1 (by decide)
    have hsame := (s.fsRoot_tables c a.fstype a.data mem).current c
    have herr := fsRoot_error s c a.fstype a.data mem
    split at hbody
    · next e s₁ hroot =>
      rw [hroot] at herr
      exact absurd (neg_eq_zero.mp (Prod.mk.inj hbody).1) (herr e rfl)
    next n s₁ hroot =>
    rw [hroot] at hsame
    obtain ⟨i, hslot, htable⟩ := attachRoot_ok hne hbody
    rw [hsame] at hslot htable
    exact ⟨i, n, hslot, htable⟩

theorem sysUmount2_ok {flags : ℕ} {i : Fin nsMntMax} {m : Mount} (hne : target ≠ ['/'])
    (h : s.sysUmount2 c priv path flags = (0, s')) (hpath : makeAbs c path = some target)
    (hfind : (s.current c).find target = some (i, m)) :
    s'.current c = (s.current c).setSlot i none := by
  unfold sysUmount2 at h
  split at h
  · exact absurd (Prod.mk.inj h).1 (by decide)
  split at h
  · exact absurd (Prod.mk.inj h).1 (by decide)
  split at h
  · exact absurd (Prod.mk.inj h).1 (by decide)
  rw [hpath] at h
  dsimp only at h
  rw [if_neg hne, hfind] at h
  rw [← (Prod.mk.inj h).2]
  exact current_setCurrent ..

theorem sysMount_moved (hw : (s.current c).Wf) (h : s.sysMount c priv a mem = (0, s'))
    (hmove : a.IsMove) (hsrc : makeAbs c a.source = some source)
    (htgt : makeAbs c a.target = some target) (hfd : (fdNumber target).bind a.fds = none) :
    (s.current c).Follows (s'.current c) (components source) (components target) ∧
        (s.current c).Frame (s'.current c) [components source, components target] ↔
      (s.current c).MoveOk (components source) (components target) := by
  obtain ⟨-, -, hne, -⟩ := sysMount_checked h htgt hfd
  obtain ⟨hdst, hteq⟩ := makeAbs_spec hne htgt
  obtain ⟨i, j, m, hfind, hslot, htable⟩ := sysMount_move h hmove hsrc htgt hfd
  obtain ⟨hm, hmt⟩ := find_some hfind
  obtain ⟨xs, -, hxs, hmx⟩ := hw.target hm
  have hseq : pathOf (components source) = source := by
    rw [← hmt, hmx, components_pathOf hxs]
  have hsrcc : Canon (components source) := by
    rw [← hmt, hmx, components_pathOf hxs]
    exact hxs
  have hmoves : (s.current c).Moves i j m (components source) (components target) :=
    ⟨hw, hsrcc, hdst, by rw [hseq, hfind], by rw [hteq, hslot]⟩
  have hlaw := hmoves.law
  rw [hteq, ← htable] at hlaw
  exact hlaw

theorem sysUmount2_without {flags : ℕ} (hw : (s.current c).Wf)
    (h : s.sysUmount2 c priv path flags = (0, s')) (hpath : makeAbs c path = some target)
    (hfound : (s.current c).find target ≠ none) :
    (s.current c).Without (s'.current c) (components target) ∧
      (s.current c).Frame (s'.current c) [components target] := by
  obtain ⟨⟨i, m⟩, hfind⟩ := ne_none_iff_exists'.mp hfound
  obtain ⟨hm, hmt⟩ := find_some hfind
  obtain ⟨xs, hxn, hxs, hmx⟩ := hw.target hm
  have hteq : target = pathOf xs := hmt.symm.trans hmx
  have hne : target ≠ ['/'] := by
    intro heq
    exact hxn (pathOf_inj hxs (forall_mem_nil _) (hteq.symm.trans heq))
  have htable := sysUmount2_ok hne h hpath hfind
  have hcomp : components target = xs := by rw [hteq, components_pathOf hxs]
  rw [hcomp, htable]
  have hwithout : (s.current c).Without ((s.current c).setSlot i none) xs := by
    intro p hp
    rw [← (hw.clear i).resolved_eq hp]
    refine longest_congr fun z hz => ?_
    obtain ⟨y, rfl⟩ := hz
    exact (hw.entry_clear hm hmx hxn hxs hp.left).symm
  refine ⟨hwithout, fun p hp hout => ?_⟩
  apply Option.some.inj
  rw [← hwithout p hp, ← hw.resolved_eq hp]
  refine longest_congr fun z hz => ?_
  rw [if_neg]
  rintro rfl
  exact hout z (mem_singleton_self z) hz

theorem mount_umount {s₁ : MntSys} {priv' : Bool} {flags : ℕ} (hw : (s.current c).Wf)
    (h : s.sysMount c priv a mem = (0, s₁)) (hattach : a.IsAttach)
    (htgt : makeAbs c a.target = some target) (hfd : (fdNumber target).bind a.fds = none)
    (hroot : target ≠ ['/']) (h' : s₁.sysUmount2 c priv' path flags = (0, s'))
    (hpath : makeAbs c path = some target) (hfound : (s₁.current c).find target ≠ none) :
    (s.current c).Follows (s'.current c) (components target) (components target) ∧
        (s.current c).Frame (s'.current c) [components target] ↔
      (s.current c).find target = none := by
  obtain ⟨-, -, hne, -⟩ := sysMount_checked h htgt hfd
  obtain ⟨ht, hteq⟩ := makeAbs_spec hne htgt
  obtain ⟨i, root, hslot, htable⟩ := sysMount_attach h hattach htgt hfd hroot
  set t := components target
  have htn : t ≠ [] := by
    intro heq
    rw [heq] at hteq
    exact hroot hteq.symm
  obtain ⟨⟨k, m⟩, hfind⟩ := ne_none_iff_exists'.mp hfound
  have htable' := sysUmount2_ok hroot h' hpath hfind
  obtain ⟨hm, hmt⟩ := find_some hfind
  obtain ⟨hsame, hfree⟩ := slotFor_spec hw hslot
  rw [htable] at hm htable'
  have hki : k = i := by
    rcases setSlot_some hm with ⟨hki, -⟩ | ⟨hki, hold⟩
    · exact hki
    · exact absurd hmt (hfree k m hki hold)
  have hclear : s'.current c = (s.current c).setSlot i none := by
    rw [htable', hki]
    unfold setSlot
    rw [Function.update_idem]
  rw [hclear]
  cases hold : (s.current c).find target with
  | none =>
    have hempty : (s.current c).slot i = none := by
      cases hs : (s.current c).slot i with
      | none => rfl
      | some m' => exact absurd (hsame m' hs) (find_none hold hs)
    have hback : (s.current c).setSlot i none = s.current c := by
      unfold setSlot
      rw [← hempty, Function.update_eq_self]
    rw [hback]
    exact iff_of_true ⟨fun _ _ => rfl, fun _ _ _ => rfl⟩ rfl
  | some b =>
    -- the mount that was there before is not found again
    refine iff_of_false (fun hback => ?_) (some_ne_none b)
    obtain ⟨hb, hbt⟩ := find_some (i := b.1) (m := b.2) hold
    have hbi : b.1 = i := by
      by_contra hbi
      exact hfree b.1 b.2 hbi hb hbt
    have hnil := hback.1 [] (forall_mem_nil _)
    have hself := hw.resolved_eq ht
    have hentry := (hw.entry_eq_some htn).mpr ⟨b.1, b.2, hb, hbt.trans hteq.symm, rfl⟩
    rw [longest_self.mpr hentry] at hself
    rw [append_nil, ← Option.some.inj hself] at hnil
    obtain ⟨j, m', hm', hm't⟩ := resolved_full ht htn (congrArg Prod.fst hnil)
    rcases setSlot_some hm' with ⟨-, ho⟩ | ⟨hji, hm'⟩
    · cases ho
    · exact hfree j m' hji hm' (hm't.trans hteq)

end MntSys

/-- The targets of a call fit the buffers of the table, and nothing is moved to the root. -/
def MntCall.Fits (c : Caller) : MntCall → Prop
  | .mount _ a _ => ∀ target, makeAbs c a.target = some target →
      (fdNumber target).bind a.fds = none ∧ target.length < 256 ∧
        (a.flags &&& msMove ≠ 0 → target ≠ ['/'])
  | .pivotRoot _ _ putOld => ∀ target, makeAbs c putOld = some target → target.length < 256
  | _ => True

namespace MntSys

variable {s s' s₁ : MntSys} {F : Prop} {target : Text}

def Wf (s : MntSys) : Prop := s.init.Wf ∧ ∀ tb ∈ s.tables, tb.Wf

theorem Wf.current (h : s.Wf) (c : Caller) : (s.current c).Wf := by
  unfold MntSys.current
  rw [getD_eq_getElem?_getD]
  cases htb : s.tables[c.mnt]? with
  | none => exact h.1
  | some tb => exact h.2 tb (mem_of_getElem? htb)

structure Preserves (F : Prop) (s s' : MntSys) : Prop where
  parented : s.Parented → s'.Parented
  wf : F → s.Wf → s'.Wf

def Short (target : Text) : Prop := target.length < 256 ∧ ∃ t, Canon t ∧ pathOf t = target

theorem Preserves.refl (s : MntSys) : Preserves F s s := ⟨id, fun _ => id⟩

section

variable (h : Preserves F s s')
include h

theorem Preserves.same (hs : s'.SameTables s₁) (hp : s'.Parented → s₁.Parented) :
    Preserves F s s₁ := by
  refine ⟨fun hs => hp (h.parented hs), fun hF hwf => ?_⟩
  unfold Wf
  rw [hs.1, hs.2]
  exact h.wf hF hwf

theorem Preserves.unref (n : ℕ) : Preserves F s (s'.unref n) := h.same ⟨rfl, rfl⟩ (·.unref n)

theorem Preserves.ref (n : ℕ) : Preserves F s (s'.ref n) := h.same ⟨rfl, rfl⟩ (·.ref n)

theorem Preserves.foldl_unref (l : List ℕ) : Preserves F s (l.foldl MntSys.unref s') :=
  h.same ((SameTables.refl s').foldl_unref l) (·.foldl_unref l)

variable (c : Caller)

theorem Preserves.ensureTarget (target : Text) (dir : Bool) (mem : Mem) :
    Preserves F s (s'.ensureTarget c target dir mem).2 :=
  h.same (s'.ensureTarget_tables c target dir mem) (·.ensureTarget c target dir mem)

theorem Preserves.setCurrent {tb : MntTable} (htb : F → s.Wf → tb.Wf) :
    Preserves F s (s'.setCurrent c tb) := by
  refine ⟨fun hs => (h.parented hs).setCurrent c tb, fun hF hs => ?_⟩
  have hs' := h.wf hF hs
  unfold MntSys.setCurrent
  split
  · refine ⟨hs'.1, fun tb' htb' => ?_⟩
    rcases mem_or_eq_of_mem_set htb' with hold | rfl
    · exact hs'.2 tb' hold
    · exact htb hF hs
  · exact ⟨htb hF hs, hs'.2⟩

theorem Preserves.mountAttach (ht : F → Short target) (root : ℕ) (flags : UInt32) :
    Preserves F s (s'.mountAttach c target root flags).2 := by
  have hcur := fun hF hs => (h.wf hF hs).current c
  unfold MntSys.mountAttach
  dsimp only
  split
  · refine ((h.unref _).ref root).setCurrent c fun hF hs => ?_
    exact ⟨(hcur hF hs).target, (hcur hF hs).short, (hcur hF hs).once⟩
  next hroot =>
  split
  · exact h
  next i hslot =>
  refine Preserves.setCurrent (Preserves.ref ?_ root) c fun hF hs => ?_
  · split
    · exact h.unref _
    · exact h
  · obtain ⟨hlen, t, hc, rfl⟩ := ht hF
    have htn : t ≠ [] := by
      rintro rfl
      exact hroot rfl
    exact (hcur hF hs).putFor htn hc hlen hslot root flags

theorem Preserves.attachRoot (ht : F → Short target) (root : ℕ) (dir : Bool)
    (flags : UInt32) (mem : Mem) :
    Preserves F s (s'.attachRoot c target root dir flags mem).2 := by
  have hens := h.ensureTarget c target dir mem
  unfold MntSys.attachRoot
  dsimp only
  split
  · exact hens.unref root
  · exact (hens.mountAttach c ht root flags).unref root

theorem Preserves.remount (target : Text) (flags : UInt32) :
    Preserves F s (s'.remount c target flags).2 := by
  have hcur := fun hF hs => (h.wf hF hs).current c
  unfold MntSys.remount
  dsimp only
  split
  · next i m hfind =>
    obtain ⟨hm, -⟩ := find_some hfind
    refine h.setCurrent c fun hF hs => ?_
    obtain ⟨xs, hxs, hx, ht⟩ := (hcur hF hs).target hm
    have hlen := (hcur hF hs).short hm
    refine (hcur hF hs).put hxs hx ht hlen fun j m' hj hm' heq => ?_
    exact hj ((hcur hF hs).once hm' hm heq)
  split
  · refine h.setCurrent c fun hF hs => ?_
    exact ⟨(hcur hF hs).target, (hcur hF hs).short, (hcur hF hs).once⟩
  · exact h

theorem Preserves.moveMount (source : Text) (ht : F → Short target)
    (hroot : F → target ≠ ['/']) (mem : Mem) :
    Preserves F s (s'.moveMount c source target mem).2 := by
  unfold MntSys.moveMount
  split
  · exact h
  next i m _ =>
  have hens := h.ensureTarget c target ((s'.vfs.get m.root).type == .dir) mem
  dsimp only
  split
  · exact hens
  split
  · exact hens
  next j hslot =>
  refine Preserves.setCurrent ?_ c fun hF hs => ?_
  · split
    · exact hens.unref _
    · exact hens
  · obtain ⟨hlen, t, hc, rfl⟩ := ht hF
    have htn : t ≠ [] := by
      rintro rfl
      exact hroot hF rfl
    exact (((hens.wf hF hs).current c).putFor htn hc hlen hslot m.root m.flags).clear i

theorem Preserves.mntClone : Preserves F s (s'.mntClone c) := by
  have hrefs := h.same
    ((SameTables.refl s').foldl_ref ((s'.current c).root :: (s'.current c).roots)) (·.foldl_ref _)
  refine ⟨hrefs.parented, fun hF hs => ⟨(hrefs.wf hF hs).1, fun tb htb => ?_⟩⟩
  rcases mem_append.mp htb with hold | hnew
  · exact (hrefs.wf hF hs).2 tb hold
  · have hcur := (h.wf hF hs).current c
    rw [mem_singleton.mp hnew]
    exact ⟨hcur.target, hcur.short, hcur.once⟩

theorem Preserves.rebaseRoot {r : List Text} (hr : Canon r) (n : ℕ) :
    Preserves F s (s'.rebaseRoot c (pathOf r) n) :=
  (((h.foldl_unref _).ref n).unref _).setCurrent c fun hF hs =>
    ((h.wf hF hs).current c).rebase hr n

end

variable (s : MntSys) (c : Caller)

theorem mountAt_preserves (a : MountArgs) (source : Text) (mem : Mem)
    (ht : F → Short target ∧ (a.flags &&& msMove ≠ 0 → target ≠ ['/'])) :
    Preserves F s (s.mountAt c a source target mem).2 := by
  have h : Preserves F s s := .refl s
  have hshort := fun hF => (ht hF).1
  unfold mountAt
  split
  · exact h.remount c _ _
  split
  · exact h
  split
  · next hmv =>
    exact h.moveMount c source hshort (fun hF => (ht hF).2 (bne_iff_ne.mp hmv)) mem
  split
  · split
    · exact h
    have hsrc := h.same (s.bindSource_tables c a.fds source) (·.bindSource c a.fds source)
    split
    · next w hw =>
      rw [hw] at hsrc
      exact hsrc
    · next n w hw =>
      rw [hw] at hsrc
      exact hsrc.attachRoot c hshort n _ _ mem
  split
  · exact h
  have hroot := h.same (s.fsRoot_tables c a.fstype a.data mem) (·.fsRoot c a.fstype a.data mem)
  split
  · next e w hw =>
    rw [hw] at hroot
    exact hroot
  · next n w hw =>
    rw [hw] at hroot
    exact hroot.attachRoot c hshort n true _ mem

theorem sysMount_preserves (priv : Bool) (a : MountArgs) (mem : Mem)
    (hfit : F → (MntCall.mount priv a mem).Fits c) : Preserves F s (s.sysMount c priv a mem).2 := by
  have h : Preserves F s s := .refl s
  unfold MntSys.sysMount
  split
  · exact h
  split
  · exact h
  split
  · exact h
  next hne =>
  split
  · next source given _ hgiven =>
    refine mountAt_preserves s c a source mem fun hF => ?_
    obtain ⟨hfd, hlen, hmove⟩ := hfit hF given hgiven
    obtain ⟨hc, heq⟩ := makeAbs_spec hne hgiven
    rw [hfd]
    exact ⟨⟨hlen, _, hc, heq⟩, hmove⟩
  · exact h

theorem sysUmount2_preserves (priv : Bool) (target : Text) (flags : ℕ) :
    Preserves F s (s.sysUmount2 c priv target flags).2 := by
  have h : Preserves F s s := .refl s
  unfold MntSys.sysUmount2
  split
  · exact h
  split
  · exact h
  split
  · exact h
  split
  · exact h
  split
  · exact h
  split
  · exact h
  · next i m _ => exact (h.unref m.root).setCurrent c fun _ hs => (hs.current c).clear i

theorem newRoot_preserves (priv : Bool) (path : Text) :
    (∃ e s₁, s.newRoot c priv path = (.error e, s₁) ∧ Preserves F s s₁) ∨
      ∃ r n s₁, Canon r ∧ s.newRoot c priv path = (.ok (pathOf r, n), s₁) ∧ Preserves F s s₁ := by
  have hp : s.Parented → (s.newRoot c priv path).2.Parented := (·.newRoot c priv path)
  rcases newRoot_spec s c priv path with ⟨e, s₁, hnew, -, hsame⟩ | ⟨kpath, n, hne, hk, -, hnew⟩
  · rw [hnew] at hp
    exact .inl ⟨e, s₁, hnew, (Preserves.refl s).same hsame hp⟩
  · obtain ⟨hr, heq⟩ := makeAbs_spec hne hk
    rw [hnew] at hp
    refine .inr ⟨_, n, { s with vfs := s.fs.nodeRef n }, hr, ?_, ?_⟩
    · rw [hnew, heq]
    · exact (Preserves.refl s).same ⟨rfl, rfl⟩ hp

theorem sysChroot_preserves (priv : Bool) (path : Text)
    (room last : Bool) : Preserves F s (s.sysChroot c priv path room last).2.1 := by
  unfold MntSys.sysChroot
  rcases newRoot_preserves s c priv path with ⟨e, s₁, hnew, h⟩ | ⟨r, n, s₁, hr, hnew, h⟩
  · rw [hnew]
    exact h
  rw [hnew]
  dsimp only
  split
  · exact h.unref n
  · have hdone := ((h.mntClone c).rebaseRoot (atRoot c s₁.tables.length) hr n).unref n
    split
    · exact hdone.foldl_unref _
    · exact hdone

theorem sysPivotRoot_preserves (priv : Bool) (path putOld : Text)
    (hfit : F → (MntCall.pivotRoot priv path putOld).Fits c) :
    Preserves F s (s.sysPivotRoot c priv path putOld).2.1 := by
  unfold MntSys.sysPivotRoot
  rcases newRoot_preserves s c priv path with ⟨e, s₁, hnew, h⟩ | ⟨r, n, s₁, hr, hnew, h⟩
  · rw [hnew]
    exact h
  rw [hnew]
  dsimp only
  split
  · exact (h.rebaseRoot c hr n).unref n
  next hput =>
  split
  · exact h.unref n
  split
  · exact h.unref n
  next kput hkput =>
  split
  · exact (h.rebaseRoot c hr n).unref n
  · obtain ⟨ht, hteq⟩ := makeAbs_spec hput hkput
    have hatt := h.mountAttach c (fun hF => ⟨hfit hF kput hkput, _, ht, hteq⟩)
      (s₁.current c).root (s₁.current c).rootFlags
    split
    · exact hatt.unref n
    · exact (hatt.rebaseRoot c hr n).unref n

end MntSys

theorem mntStep_preserves (s : MntSys) (a : Caller × MntCall) :
    MntSys.Preserves (a.2.Fits a.1) s (mntStep s a) := by
  obtain ⟨c, call⟩ := a
  cases call with
  | mount priv a mem => exact s.sysMount_preserves c priv a mem id
  | umount priv target flags => exact s.sysUmount2_preserves c priv target flags
  | chroot priv path room last => exact s.sysChroot_preserves c priv path room last
  | pivotRoot priv path putOld => exact s.sysPivotRoot_preserves c priv path putOld id
  | clone => exact (Preserves.refl s).mntClone c

/-- After any calls whose targets fit, a path leads to the mount with the longest target on it, and
the rest of it is looked up there. -/
theorem mounts_resolve_longest {s : MntSys} (h : s.Wf) {calls : List (Caller × MntCall)}
    (hfit : Along mntStep (fun _ a => a.2.Fits a.1) s calls) :
    Always mntStep (fun s => ∀ c ys, Canon ys →
      longest (s.current c).entry ys = some ((s.current c).resolved ys)) s calls := by
  intro pre hpre c ys hys
  have hwf := hfit.always h (fun s a hs hok => (mntStep_preserves s a).wf hok hs) pre hpre
  exact (hwf.current c).resolved_eq hys

/-- After any mount calls a lookup ends at a node below the root of the caller's namespace or
below that of one of its mounts. -/
theorem lookup_stays_below_roots {s : MntSys} (h : s.Parented) (calls : List (Caller × MntCall)) :
    Always mntStep (fun s => ∀ (c : Caller) (path : Text) (follow : Bool) (n : ℕ),
      (s.fs.lookup c path follow).1 = some n →
      ∃ r, (r = (s.current c).root ∨ ∃ i m, (s.current c).slot i = some m ∧ r = m.root) ∧
        s.fs.Below r n) s calls := by
  have hany : Along mntStep (fun _ _ => True) s calls := fun _ _ _ => trivial
  have hall : Always mntStep MntSys.Parented s calls := by
    refine Along.always hany h ?_
    exact fun s a hs _ => (mntStep_preserves s a).parented hs
  intro pre hpre c path follow n hn
  obtain ⟨r, hroot, hbelow⟩ := (hall pre hpre).fs.resolve (Vfs.resolve_of_lookup hn)
  refine ⟨r, ?_, hbelow⟩
  rcases hroot with hroot | ⟨m, hm, rfl⟩
  · left
    rw [hroot, MntSys.fs_nsMntCurrent]
    rfl
  · right
    rw [MntSys.fs_nsMntCurrent] at hm
    obtain ⟨i, -, hi⟩ := List.mem_filterMap.mp hm
    exact ⟨i, m, hi, rfl⟩

def mntCaller (mnt : ℕ) : Caller := ⟨0, 0, 0, 0, ['/'], [], 0, false, mnt, 0⟩

def oneDirSys : MntSys where
  vfs :=
    { node := fun n =>
        if n = 0 then some { nodeAlloc (mntCaller 0) [] .dir 0o40755 with
          parent := some 0, children := [1] }
        else if n = 1 then some { nodeAlloc (mntCaller 0) ['a'] .dir 0o40755 with
          parent := some 0 }
        else none
      next := 2
      initMnt := ⟨0, false, 0, []⟩
      mnts := []
      refcnt := fun _ => 0 }
  init := ⟨0, false, 0, fun _ => none⟩
  tables := []
  groot := 0

theorem oneDirSys_node {n : ℕ} {nd : Vnode} (h : oneDirSys.vfs.node n = some nd) :
    (n = 0 ∧ nd.children = [1] ∧ nd.index = none) ∨
      (n = 1 ∧ nd.children = [] ∧ nd.index = none) := by
  unfold oneDirSys at h
  dsimp only at h
  split at h
  · next hn =>
    cases h
    exact .inl ⟨hn, rfl, rfl⟩
  · split at h
    · next hn =>
      cases h
      exact .inr ⟨hn, rfl, rfl⟩
    · cases h

theorem oneDirSys_parented : oneDirSys.Parented where
  child := by
    intro d dir i hd hhas
    rcases oneDirSys_node hd with ⟨rfl, hch, hidx⟩ | ⟨rfl, hch, hidx⟩
    · have hi : i = 1 := by simpa [Vnode.Has, hch, hidx] using hhas
      subst hi
      exact ⟨_, rfl, rfl, rfl⟩
    · simp [Vnode.Has, hch, hidx] at hhas
  bound := by
    intro n nd hn
    rcases oneDirSys_node hn with ⟨rfl, -⟩ | ⟨rfl, -⟩ <;> decide

theorem lookup_stays_below_roots_chroot :
    let s := exec mntStep oneDirSys [(mntCaller 1, .chroot true ['/', 'a'] true true)]
    (s.fs.lookup (mntCaller 0) ['/', '.', '.', '/', '.', '.'] true).1 = some 1 ∧
      ∃ r, (r = (s.current (mntCaller 0)).root ∨
        ∃ i m, (s.current (mntCaller 0)).slot i = some m ∧ r = m.root) ∧ s.fs.Below r 1 := by
  intro s
  have hn : (s.fs.lookup (mntCaller 0) ['/', '.', '.', '/', '.', '.'] true).1 = some 1 := by
    decide +kernel
  exact ⟨hn, lookup_stays_below_roots oneDirSys_parented _ _ List.prefix_rfl _ _ _ _ hn⟩

/-- Paths stand for what they should, just when: the flags of the root apply at a new root without a
mount of its own; a mount is moved to another path that fits its buffer and has below it the mounts
that the old one has; and a mount that is taken away again had none under it. -/
theorem mount_calls_relabel_iff (s : MntSys) (c : Caller) (ht : s.vfs.Tidy)
    (hw : (s.current c).Wf) :
    (∀ priv path room last s' c' kpath, s.sysChroot c priv path room last = (0, s', c') →
      makeAbs c path = some kpath → s.Plain c kpath →
      (s.Rerooted c s' c' (components kpath) ↔ (s.current c).RootOk (components kpath))) ∧
    (∀ priv path s' c' kpath, s.sysPivotRoot c priv path [] = (0, s', c') →
      makeAbs c path = some kpath → s.Plain c kpath →
      (s.Rerooted c s' c' (components kpath) ↔ (s.current c).RootOk (components kpath))) ∧
    (∀ priv a mem s' source target, s.sysMount c priv a mem = (0, s') → a.IsMove →
      makeAbs c a.source = some source → makeAbs c a.target = some target →
      (fdNumber target).bind a.fds = none →
      ((s.current c).Follows (s'.current c) (components source) (components target) ∧
          (s.current c).Frame (s'.current c) [components source, components target] ↔
        (s.current c).MoveOk (components source) (components target))) ∧
    (∀ priv path flags s' target, s.sysUmount2 c priv path flags = (0, s') →
      makeAbs c path = some target → (s.current c).find target ≠ none →
      (s.current c).Without (s'.current c) (components target) ∧
        (s.current c).Frame (s'.current c) [components target]) ∧
    (∀ priv a mem s₁ target priv' path flags s', s.sysMount c priv a mem = (0, s₁) →
      a.IsAttach → makeAbs c a.target = some target → (fdNumber target).bind a.fds = none →
      target ≠ ['/'] → s₁.sysUmount2 c priv' path flags = (0, s') →
      makeAbs c path = some target → (s₁.current c).find target ≠ none →
      ((s.current c).Follows (s'.current c) (components target) (components target) ∧
          (s.current c).Frame (s'.current c) [components target] ↔
        (s.current c).find target = none)) := by
  refine ⟨?_, ?_, ?_, ?_, ?_⟩
  · intro priv path room last s' c' kpath h hpath hplain
    exact sysChroot_rerooted ht hw h hpath hplain
  · intro priv path s' c' kpath h hpath hplain
    exact sysPivotRoot_rerooted ht hw h hpath hplain
  · intro priv a mem s' source target h hmove hsrc htgt hfd
    exact sysMount_moved hw h hmove hsrc htgt hfd
  · intro priv path flags s' target h hpath hfound
    exact sysUmount2_without hw h hpath hfound
  · intro priv a mem s₁ target priv' path flags s' h hattach htgt hfd hroot h' hpath hfound
    exact mount_umount hw h hattach htgt hfd hroot h' hpath hfound

theorem oneDirSys_tidy : oneDirSys.vfs.Tidy where
  toParented := oneDirSys_parented
  empty := by
    intro n nd i hn hdel hhas
    rcases oneDirSys_node hn with ⟨rfl, -⟩ | ⟨rfl, hch, hidx⟩
    · cases hn
      cases hdel
    · simp [Vnode.Has, hch, hidx] at hhas

theorem oneDirSys_wf (c : Caller) : (oneDirSys.current c).Wf where
  target := fun h => by cases h
  short := fun h => by cases h
  once := fun h => by cases h

theorem mounts_resolve_longest_bind :
    let a : MountArgs := ⟨['/'], ['/', 'a'], [], msBind, [], fun _ => none⟩
    let s := exec mntStep oneDirSys [(mntCaller 1, .mount true a Mem.ok)]
    longest (s.current (mntCaller 1)).entry [['a'], ['a']] = some ([['a']], 0, 4096) := by
  intro a s
  have hmade : makeAbs (mntCaller 1) a.target = some ['/', 'a'] := by decide +kernel
  have hres : (s.current (mntCaller 1)).resolved [['a'], ['a']] = ([['a']], 0, 4096) := by
    decide +kernel
  rw [← hres]
  refine mounts_resolve_longest ⟨oneDirSys_wf (mntCaller 0), nofun⟩ (along_cons.mpr ⟨?_, along_nil⟩)
    _ List.prefix_rfl _ _ (by simp [Canon, CompOk])
  intro t ht
  cases hmade.symm.trans ht
  decide +kernel

theorem mount_calls_relabel_iff_chroot :
    let r := oneDirSys.sysChroot (mntCaller 1) true ['/', 'a'] true true
    r.1 = 0 ∧ oneDirSys.Rerooted (mntCaller 1) r.2.1 r.2.2 [['a']] := by
  intro r
  have h0 : r.1 = 0 := by decide +kernel
  have hok : oneDirSys.sysChroot (mntCaller 1) true ['/', 'a'] true true = (0, r.2.1, r.2.2) :=
    Prod.ext h0 rfl
  have habs : makeAbs (mntCaller 1) ['/', 'a'] = some ['/', 'a'] := by decide +kernel
  have hplain : oneDirSys.Plain (mntCaller 1) ['/', 'a'] := by
    unfold MntSys.Plain
    decide +kernel
  have hlaw := (mount_calls_relabel_iff oneDirSys (mntCaller 1) oneDirSys_tidy
    (oneDirSys_wf _)).1 _ _ _ _ _ _ _ hok habs hplain
  have hcomp : components ['/', 'a'] = [['a']] := by decide +kernel
  rw [hcomp] at hlaw
  refine ⟨h0, hlaw.mpr (.inr ?_)⟩
  decide +kernel

/-- The root directory mounted on `/a` for reading only: `/a/a` is for reading only, but not when
it is the root. -/
theorem chroot_drops_read_only :
    let c := mntCaller 1
    let a : MountArgs := ⟨['/'], ['/', 'a'], [], msBind ||| msRdonly, [], fun _ => none⟩
    let m := oneDirSys.sysMount c true a Mem.ok
    let r := m.2.sysChroot c true ['/', 'a', '/', 'a'] true true
    m.1 = 0 ∧ r.1 = 0 ∧ m.2.Plain c ['/', 'a', '/', 'a'] ∧
      (m.2.current c).reached m.2.vfs.toTree [['a'], ['a']] = (some 1, 4097) ∧
      (r.2.1.current r.2.2).reached r.2.1.vfs.toTree [] = (some 1, 0) := by
  unfold MntSys.Plain
  decide +kernel

end Kyronix.Fs
