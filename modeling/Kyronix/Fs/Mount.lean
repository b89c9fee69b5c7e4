import Kyronix.Lib.Run
import Kyronix.Fs.Entries

/-! Mount tables and the calls that change them (`mount.c`, `ns.c`), and what a walk along a path
cannot leave. -/
namespace Kyronix.Fs

open Lib.Run Fs.Tree

def nsMntMax : ℕ := 64

/-- An unused slot has no mount. -/
structure MntTable where
  root : ℕ
  rootCounted : Bool
  rootFlags : UInt32
  slot : Fin nsMntMax → Option Mount

namespace MntTable

variable (tb : MntTable)

def view : MntNs :=
  ⟨tb.root, tb.rootCounted, tb.rootFlags, (List.finRange nsMntMax).filterMap tb.slot⟩

def find (target : Text) : Option (Fin nsMntMax × Mount) :=
  (List.finRange nsMntMax).reverse.findSome? fun i =>
    (tb.slot i).bind fun m => if m.target = target then some (i, m) else none

def mountSlot : Option (Fin nsMntMax) :=
  (List.finRange nsMntMax).find? fun i => (tb.slot i).isNone

def setSlot (i : Fin nsMntMax) (o : Option Mount) : MntTable :=
  { tb with slot := Function.update tb.slot i o }

def slotFor (target : Text) : Option (Fin nsMntMax) :=
  match tb.find target with
  | some (i, _) => some i
  | none => tb.mountSlot

def rebaseMount (newroot : Text) (m : Mount) : Option Mount :=
  if newroot = ['/'] then some m
  else if pathUnder m.target newroot = false then none
  else if m.target.drop newroot.length = [] then none
  else some { m with target := m.target.drop newroot.length }

/-- `mnt_rebase_root`: a mount on the new root itself gives its flags to the root and goes. -/
def rebase (newroot : Text) (node : ℕ) : MntTable where
  root := node
  rootCounted := true
  rootFlags := match tb.find newroot with
    | some (_, m) => m.flags
    | none => tb.rootFlags
  slot := fun i =>
    if (tb.find newroot).map Prod.fst = some i then none
    else (tb.slot i).bind (rebaseMount newroot)

def rebaseDrops (newroot : Text) : List ℕ :=
  let first := tb.find newroot
  (first.map fun b => b.2.root).toList ++ (List.finRange nsMntMax).filterMap fun i =>
    if first.map Prod.fst = some i then none
    else (tb.slot i).bind fun m => if (rebaseMount newroot m).isSome then none else some m.root

def roots : List ℕ := tb.view.mounts.map Mount.root

end MntTable

def makeAbs (c : Caller) (inp : Text) : Option Text :=
  if inp = [] then some []
  else if inp.head? = some '/' then
    some (pathCanon 512 (jailCanonClamp (cut 512 (c.jail ++ inp)) c.jail))
  else
    let cwd := if c.cwd = [] then ['/'] else c.cwd
    if cwd.length ≥ 511 then none
    else some (pathCanon 512 (jailCanonClamp (cut 512 (joinDir cwd inp)) c.jail))

def fdNumber (path : Text) : Option ℕ :=
  let num :=
    if "/proc/self/fd/".toList.isPrefixOf path then some (path.drop 14)
    else if "/dev/fd/".toList.isPrefixOf path then some (path.drop 8)
    else none
  num.bind fun ds =>
    if ds = [] ∨ ds.all Char.isDigit = false then none
    else some (ds.foldl (fun n d => 10 * n + (d.toNat - '0'.toNat)) 0)

def Tree.nodeDepthIn (t : Tree) (ancestor : ℕ) : ℕ → ℕ → ℕ → Option ℕ
  | 0, _, _ => none
  | k + 1, n, depth =>
    if n = ancestor then some depth
    else match (t.get n).parent with
      | none => none
      | some p => if p = n then none else t.nodeDepthIn ancestor k p (depth + 1)

def Tree.namesFrom (t : Tree) (ancestor : ℕ) : ℕ → ℕ → List Text → Option (List Text)
  | 0, n, acc => if n = ancestor then some acc else none
  | k + 1, n, acc =>
    if n = ancestor then some acc
    else match (t.get n).parent with
      | none => none
      | some p => if p = n then none else t.namesFrom ancestor k p ((t.get n).name :: acc)

def joinNames : Text → List Text → Option Text
  | out, [] => some out
  | out, [x] => if out.length + x.length + 1 ≥ 512 then none else some (out ++ x)
  | out, x :: y :: xs =>
    if out.length + x.length + 1 ≥ 512 then none else joinNames (out ++ x ++ ['/']) (y :: xs)

def Tree.nodeRelpath (t : Tree) (n ancestor : ℕ) (target : Text) : Option Text :=
  (t.namesFrom ancestor 128 n []).bind fun names =>
    if target.length ≥ 512 then none
    else if names = [] then some target
    else if target.getLast? = some '/' then joinNames target names
    else if target.length + 1 ≥ 512 then none
    else joinNames (target ++ ['/']) names

def Tree.abspathStep (t : Tree) (n : ℕ) (best : Option (ℕ × Text)) (root : ℕ) (target : Text) :
    Option (ℕ × Text) :=
  match t.nodeDepthIn root 128 n 0 with
  | none => best
  | some d =>
    if best.any (d < ·.1) = true then best
    else match t.nodeRelpath n root target with
      | none => best
      | some path => some (d, path)

def Tree.vfsNodeAbspath (t : Tree) (ns : MntNs) (n : ℕ) : Text :=
  let best := ns.mounts.foldl (fun best m => t.abspathStep n best m.root m.target)
    (t.abspathStep n none ns.root ['/'])
  match best with
  | none => ['/']
  | some (_, path) => if path = [] then ['/'] else path

/-- The first mount namespace and those made since; `groot` is `g_root`. The namespaces in `vfs` are
not used. -/
structure MntSys where
  vfs : Vfs
  init : MntTable
  tables : List MntTable
  groot : ℕ

namespace MntSys

variable (s : MntSys) (c : Caller)

def fs : Vfs :=
  { s.vfs with initMnt := s.init.view, mnts := s.tables.map MntTable.view }

def current : MntTable := s.tables.getD c.mnt s.init

def setCurrent (tb : MntTable) : MntSys :=
  if c.mnt < s.tables.length then { s with tables := s.tables.set c.mnt tb }
  else { s with init := tb }

def unref (n : ℕ) : MntSys := { s with vfs := s.vfs.nodeUnref n }
def ref (n : ℕ) : MntSys := { s with vfs := s.vfs.nodeRef n }

def mountAttach (target : Text) (root : ℕ) (flags : UInt32) : ℤ × MntSys :=
  let tb := s.current c
  if target = ['/'] then
    (0, ((s.unref tb.root).ref root).setCurrent c
      { tb with root := root, rootCounted := true, rootFlags := flags })
  else match tb.slotFor target with
    | none => (-enospc, s)
    | some i =>
      let s := match tb.slot i with
        | some m => s.unref m.root
        | none => s
      (0, (s.ref root).setCurrent c (tb.setSlot i (some ⟨cut 256 target, root, flags⟩)))

def ensureTarget (target : Text) (dir : Bool) (mem : Mem) : ℤ × MntSys :=
  match s.fs.lookup c target true with
  | (some n, v) =>
    let isDir := (v.get n).type == .dir
    (if isDir = dir then 0 else if dir = true then -enotdir else -eisdir,
      { s with vfs := v.nodeUnref n })
  | (none, v) =>
    if dir = false then
      match v.vfsCreateFile c target 0o600 mem with
      | (none, v) => (-enoent, { s with vfs := v })
      | (some _, v) => (0, { s with vfs := v })
    else
      let r := v.vfsMkdir c target 0o755 mem
      (r.1, { s with vfs := r.2 })

def bindSource (fds : ℕ → Option ℕ) (path : Text) : Option ℕ × MntSys :=
  match fdNumber path with
  | some fd =>
    match fds fd with
    | none => (none, s)
    | some n => (some n, s.ref n)
  | none =>
    let r := s.fs.lookup c path true
    (r.1, { s with vfs := r.2 })

end MntSys

def msRdonly : UInt64 := 1
def msRemount : UInt64 := 32
def msBind : UInt64 := 4096
def msMove : UInt64 := 8192
def msPropagation : UInt64 := 0x1e0000

structure MountArgs where
  source : Text
  target : Text
  fstype : Text
  flags : UInt64
  data : Text
  fds : ℕ → Option ℕ

def modeDigits : Text → Option Text
  | [] => none
  | ch :: t => if "mode=".toList.isPrefixOf (ch :: t) then some (t.drop 4) else modeDigits t

def parseMode (data : Text) (dflt : UInt32) : UInt32 :=
  match modeDigits data with
  | none => dflt
  | some t =>
    let ds := (t.take 6).takeWhile fun d => '0' ≤ d ∧ d ≤ '7'
    if ds = [] then dflt
    else ds.foldl (fun mode d => mode * 8 + (d.toNat - '0'.toNat).toUInt32) 0

def freshFsTypes : List Text :=
  ["tmpfs", "ramfs", "devpts", "mqueue", "cgroup", "cgroup2", "securityfs", "debugfs", "tracefs",
    "configfs", "bpf", "hugetlbfs"].map String.toList

def oldFsTypes : List (Text × Text) :=
  [("proc", "proc"), ("sysfs", "sys"), ("devtmpfs", "dev")].map fun b => (b.1.toList, b.2.toList)

namespace MntSys

variable (s : MntSys) (c : Caller)

def createMountRoot (mode : UInt32) : MntSys :=
  let nd := { nodeAlloc c ['/'] .dir ((mode &&& 0o7777) ||| 0o40000) with
    parent := some s.vfs.next }
  { s with vfs := s.vfs.addNode nd }

def fsRoot (fstype data : Text) (mem : Mem) : Except ℤ ℕ × MntSys :=
  match oldFsTypes.find? fun b => b.1 = fstype with
  | some (_, name) =>
    match s.vfs.dirFind s.groot name with
    | none => (.error enodev, s)
    | some n => (.ok n, s)
  | none =>
    if fstype ∈ freshFsTypes then
      if mem.node = false then (.error enomem, s)
      else
        let mode := parseMode data (if fstype = "tmpfs".toList then 0o1777 else 0o755)
        (.ok s.vfs.next, s.createMountRoot c mode)
    else (.error enodev, s)

def remount (target : Text) (flags : UInt32) : ℤ × MntSys :=
  let tb := s.current c
  match tb.find target with
  | some (i, m) => (0, s.setCurrent c (tb.setSlot i (some { m with flags := flags })))
  | none =>
    if target = ['/'] then (0, s.setCurrent c { tb with rootFlags := flags }) else (-einval, s)

def moveSlot (tb : MntTable) (i j : Fin nsMntMax) (m : Mount) (target : Text) : MntTable :=
  (tb.setSlot j (some { m with target := cut 256 target })).setSlot i none

def moveMount (source target : Text) (mem : Mem) : ℤ × MntSys :=
  match (s.current c).find source with
  | none => (-einval, s)
  | some (i, m) =>
    match s.ensureTarget c target ((s.vfs.get m.root).type == .dir) mem with
    | (r, s) =>
      let tb := s.current c
      if r < 0 then (-einval, s)
      else match tb.slotFor target with
        | none => (-enospc, s)
        | some j =>
          let s := match tb.slot j with
            | some m => s.unref m.root
            | none => s
          (0, s.setCurrent c (moveSlot tb i j m target))

def attachRoot (target : Text) (root : ℕ) (dir : Bool) (flags : UInt32) (mem : Mem) : ℤ × MntSys :=
  match s.ensureTarget c target dir mem with
  | (r, s) =>
    if r < 0 then (r, s.unref root)
    else
      let a := s.mountAttach c target root flags
      (a.1, a.2.unref root)

/-- The rest of `sys_mount`, with both paths absolute. -/
def mountAt (a : MountArgs) (source target : Text) (mem : Mem) : ℤ × MntSys :=
  let flags := a.flags.toUInt32
  if a.flags &&& msRemount != 0 then s.remount c target flags
  else if a.flags &&& msPropagation != 0 then (0, s)
  else if a.flags &&& msMove != 0 then s.moveMount c source target mem
  else if a.flags &&& msBind != 0 then
    if source = [] then (-einval, s)
    else match s.bindSource c a.fds source with
      | (none, s) => (-enoent, s)
      | (some n, s) => s.attachRoot c target n ((s.vfs.get n).type == .dir) flags mem
  else if a.fstype = [] then (-einval, s)
  else match s.fsRoot c a.fstype a.data mem with
    | (.error e, s) => (-e, s)
    | (.ok n, s) => s.attachRoot c target n true flags mem

def sysMount (priv : Bool) (a : MountArgs) (mem : Mem) : ℤ × MntSys :=
  if priv = false then (-eperm, s)
  else if a.source.length ≥ 512 ∨ a.target.length ≥ 512 ∨ a.fstype.length ≥ 16 ∨
      a.data.length ≥ 128 then (-efault, s)
  else if a.target = [] then (-einval, s)
  else match makeAbs c a.source, makeAbs c a.target with
    | some source, some given =>
      s.mountAt c a source (match (fdNumber given).bind a.fds with
        | some n => cut 512 (s.fs.vfsNodeAbspath (s.current c).view n)
        | none => given) mem
    | _, _ => (-efault, s)

def mntDetach : ℕ := 2

def sysUmount2 (priv : Bool) (target : Text) (flags : ℕ) : ℤ × MntSys :=
  let detach := flags &&& mntDetach != 0
  if priv = false then (-eperm, s)
  else if target.length ≥ 512 then (-efault, s)
  else if target = [] then (-einval, s)
  else match makeAbs c target with
    | none => (-efault, s)
    | some target =>
      if target = ['/'] then (if detach = true then 0 else -ebusy, s)
      else match (s.current c).find target with
        | none => (if detach = true then 0 else -einval, s)
        | some (i, m) => (0, (s.unref m.root).setCurrent c ((s.current c).setSlot i none))

def mntClone : MntSys :=
  let tb := s.current c
  let s := (tb.root :: tb.roots).foldl ref s
  { s with tables := s.tables ++ [{ tb with rootCounted := true }] }

def mntFree (tb : MntTable) : MntSys := (tb.roots ++ [tb.root]).foldl unref s

def rebaseRoot (newroot : Text) (node : ℕ) : MntSys :=
  let tb := s.current c
  let s := (tb.rebaseDrops newroot).foldl unref s
  ((s.ref node).unref tb.root).setCurrent c (tb.rebase newroot node)

def newRoot (priv : Bool) (path : Text) : Except ℤ (Text × ℕ) × MntSys :=
  if priv = false then (.error eperm, s)
  else if path.length ≥ 512 then (.error efault, s)
  else if path = [] then (.error einval, s)
  else match makeAbs c path with
    | none => (.error efault, s)
    | some kpath =>
      match s.fs.lookup c kpath true with
      | (none, v) => (.error enoent, { s with vfs := v })
      | (some n, v) =>
        if (v.get n).type ≠ .dir then (.error enotdir, { s with vfs := v.nodeUnref n })
        else (.ok (kpath, n), { s with vfs := v })

def atRoot (mnt : ℕ) : Caller := { c with mnt := mnt, cwd := ['/'] }

/-- `room` is the memory for the new namespace; with `last` nobody else uses the old one, which is
freed if it is not the first. -/
def sysChroot (priv : Bool) (path : Text) (room last : Bool) : ℤ × MntSys × Caller :=
  match s.newRoot c priv path with
  | (.error e, s) => (-e, s, c)
  | (.ok (kpath, n), s) =>
    if room = false then (-enomem, s.unref n, c)
    else
      let old := s.current c
      let c' := atRoot c s.tables.length
      let s := ((s.mntClone c).rebaseRoot c' kpath n).unref n
      (0, if last = true ∧ c.mnt < s.tables.length - 1 then s.mntFree old else s, c')

/-- `sys_pivot_root`; an empty `putOld` stands for none. -/
def sysPivotRoot (priv : Bool) (path putOld : Text) : ℤ × MntSys × Caller :=
  match s.newRoot c priv path with
  | (.error e, s) => (-e, s, c)
  | (.ok (kpath, n), s) =>
    let fin := fun s : MntSys => ((0 : ℤ), (s.rebaseRoot c kpath n).unref n, atRoot c c.mnt)
    if putOld = [] then fin s
    else if putOld.length ≥ 512 then (-efault, s.unref n, c)
    else match makeAbs c putOld with
      | none => (-efault, s.unref n, c)
      | some kput =>
        if kput = kpath then fin s
        else match s.mountAttach c kput (s.current c).root (s.current c).rootFlags with
          | (r, s) => if r < 0 then (r, s.unref n, c) else fin s

end MntSys

inductive MntCall
  | mount (priv : Bool) (a : MountArgs) (mem : Mem)
  | umount (priv : Bool) (target : Text) (flags : ℕ)
  | chroot (priv : Bool) (path : Text) (room last : Bool)
  | pivotRoot (priv : Bool) (path putOld : Text)
  | clone

def mntStep (s : MntSys) : Caller × MntCall → MntSys
  | (c, .mount priv a mem) => (s.sysMount c priv a mem).2
  | (c, .umount priv target flags) => (s.sysUmount2 c priv target flags).2
  | (c, .chroot priv path room last) => (s.sysChroot c priv path room last).2.1
  | (c, .pivotRoot priv path putOld) => (s.sysPivotRoot c priv path putOld).2.1
  | (c, .clone) => s.mntClone c

variable {t : Tree} {c : Caller} {v : Vfs} {n d r : ℕ} {nd : Vnode}

def Tree.Edge (t : Tree) (d i : ℕ) : Prop := ∃ dir, t.node d = some dir ∧ dir.Has i

def Tree.Below (t : Tree) : ℕ → ℕ → Prop := Relation.ReflTransGen t.Edge

def Tree.IsRoot (t : Tree) (c : Caller) (r : ℕ) : Prop :=
  r = (t.nsMntCurrent c).root ∨ ∃ m ∈ (t.nsMntCurrent c).mounts, r = m.root

theorem Tree.edge_of_dirFind {name : Text} {i : ℕ} (hi : t.dirFind d name = some i) :
    t.Edge d i := by
  cases hd : t.node d with
  | none =>
    unfold dirFind get at hi
    rw [hd] at hi
    cases hi
  | some dir => exact ⟨dir, hd, has_of_dirFind hd hi⟩

theorem Tree.Parented.walkInv (h : t.Parented) (c : Caller) :
    t.WalkInv c fun w => t.IsRoot c w.boundary ∧ t.Below w.boundary w.cur := by
  refine ⟨⟨.inl rfl, .refl⟩, ?_, ?_, ?_⟩
  · rintro w ⟨hroot, hbelow⟩
    unfold walkUp
    split
    · next p hp =>
      split
      · exact ⟨hroot, hbelow⟩
      · next hne =>
        -- the last step down to the node was from its parent
        rcases Relation.ReflTransGen.cases_tail hbelow with heq | ⟨q, hq, dir, hdir, hhas⟩
        · exact absurd heq hne
        · obtain ⟨x, hx, -, hxq⟩ := h.child hdir hhas
          rw [get_of_node hx, hxq] at hp
          cases hp
          exact ⟨hroot, hq⟩
    · exact ⟨hroot, hbelow⟩
  · exact fun _ _ _ hm => ⟨.inr ⟨_, mem_of_nsMntFind hm, rfl⟩, .refl⟩
  · rintro w x child cand ⟨hroot, hbelow⟩ hchild _ _
    exact ⟨hroot, hbelow.tail (edge_of_dirFind hchild)⟩

variable {path : Text}

theorem Tree.Parented.resolve (h : t.Parented) {follow : Bool}
    (hn : t.resolve c path follow = some n) : ∃ r, t.IsRoot c r ∧ t.Below r n := by
  obtain ⟨hlook, -⟩ := Option.filter_eq_some_iff.mp hn
  obtain ⟨w, ⟨hroot, hbelow⟩, rfl⟩ := (h.walkInv c).lookup _ _ _ hlook
  exact ⟨w.boundary, hroot, hbelow⟩

theorem Tree.Parented.congr {t' : Tree} (h : t.Parented) (hnode : t'.node = t.node)
    (hnext : t'.next = t.next) : t'.Parented where
  child := by
    rw [hnode]
    exact h.child
  bound := by
    rw [hnode, hnext]
    exact h.bound

theorem Tree.Parented.nodeUnref (h : v.toTree.Parented) (n : ℕ) :
    (v.nodeUnref n).toTree.Parented := by
  unfold Vfs.nodeUnref
  split
  · exact h
  · dsimp only
    split
    · next hfree => exact h.free hfree.2
    · exact h

theorem Tree.Parented.dirInsert (h : t.Parented) {dir : Vnode} (hd : t.node d = some dir)
    (hn : t.node n = some nd) (hdel : nd.deleted = false) (hne : d ≠ n)
    (hfree : ∀ e, ¬ t.Edge e n) (room : Bool) : (t.dirInsert d n room).Parented := by
  rw [dirInsert_eq hd hn hne]
  have hplaced : (t.set n { nd with parent := some d }).Parented :=
    h.set hn (fun _ hi => .inl hi) (.inr fun hy hhas => hfree _ ⟨_, hy, hhas⟩)
  refine hplaced.set ((set_node_ne t _ hne).trans hd) (fun i hi => ?_) (.inl ⟨rfl, rfl⟩)
  rcases Vnode.has_withEntry hi with rfl | hi
  · exact .inr ⟨hne.symm, _, set_node_self .., hdel, rfl⟩
  · exact .inl hi

theorem Tree.Parented.create (h : v.toTree.Parented) {nd : Vnode}
    (hd : (v.get d).type = .dir) (hch : nd.children = []) (hidx : nd.index = none)
    (hdel : nd.deleted = false) (room : Bool) :
    (((v.nodeRef d).create d nd room).nodeUnref d).toTree.Parented := by
  have hnode : ∃ dir, v.node d = some dir := by
    cases hnode : v.node d with
    | none =>
      unfold get at hd
      rw [hnode] at hd
      cases hd
    | some dir => exact ⟨dir, rfl⟩
  obtain ⟨dir, hdir⟩ := hnode
  have hne : d ≠ v.next := (h.bound hdir).ne
  have hadd := h.add hch hidx
  apply Tree.Parented.nodeUnref
  apply hadd.dirInsert ((add_node_ne _ _ hne).trans hdir) (add_node_self ..) hdel hne
  -- nothing that is listed has the number of a new node
  rintro e ⟨x, hx, hhas⟩
  rcases add_node_cases hx with ⟨rfl, rfl⟩ | ⟨-, hx⟩
  · simp [Vnode.Has, hch, hidx] at hhas
  · obtain ⟨y, hy, -⟩ := h.child hx hhas
    exact absurd (h.bound hy) (Nat.lt_irrefl _)

theorem Vfs.lookup_toTree (v : Vfs) (c : Caller) (path : Text) (follow : Bool) :
    (v.lookup c path follow).2.toTree = v.toTree := by
  unfold Vfs.lookup
  split <;> rfl

theorem Tree.Parented.vfsCreateFile (h : v.toTree.Parented) (c : Caller) (path : Text)
    (mode : UInt32) (mem : Mem) : (v.vfsCreateFile c path mode mem).2.toTree.Parented := by
  rcases v.vfsCreateFile_cases c path mode mem with heq | ⟨p, -, htype, ⟨e, -, heq⟩ | heq⟩
  · rwa [heq]
  · rwa [heq]
  · rw [heq]
    exact h.create htype rfl rfl rfl mem.index

theorem Tree.Parented.vfsMkdir (h : v.toTree.Parented) (c : Caller) (path : Text) (mode : UInt32)
    (mem : Mem) : (v.vfsMkdir c path mode mem).2.toTree.Parented := by
  unfold Vfs.vfsMkdir
  rcases v.lookup_cases c path false with hlook | ⟨e, he, hlook⟩
  swap
  · rw [hlook]
    dsimp only
    rwa [Vfs.nodeUnref_found he]
  rw [hlook]
  dsimp only
  split
  · exact h
  rcases v.parentOf_cases c path with hpar | ⟨p, hp, hpar⟩
  · rwa [hpar]
  rw [hpar]
  dsimp only
  rw [Vfs.nodeUnref_found hp]
  split
  · exact h
  next hdir =>
    split
    · exact h
    split
    · exact h
    split
    · exact h
    · exact h.create (not_not.mp (not_or.mp hdir).1) rfl rfl rfl mem.index

theorem Vfs.resolve_of_lookup {follow : Bool}
    (hn : (v.lookup c path follow).1 = some n) : v.resolve c path follow = some n := by
  unfold Vfs.lookup at hn
  split at hn
  · cases hn
  · next m hm => rw [hm, ← hn]

namespace MntSys

variable {s : MntSys}

theorem fs_nsMntCurrent (s : MntSys) (c : Caller) :
    s.fs.nsMntCurrent c = (s.current c).view := List.getD_map ..

def Parented (s : MntSys) : Prop := s.vfs.toTree.Parented

section

variable (h : s.Parented)
include h

theorem Parented.fs : s.fs.toTree.Parented :=
  Tree.Parented.congr h rfl rfl

theorem Parented.unref (n : ℕ) : (s.unref n).Parented := h.nodeUnref n

theorem Parented.ref (n : ℕ) : (s.ref n).Parented := h

theorem Parented.setCurrent (c : Caller) (tb : MntTable) : (s.setCurrent c tb).Parented := by
  unfold MntSys.setCurrent
  split <;> exact h

theorem Parented.foldl_unref (l : List ℕ) : (l.foldl MntSys.unref s).Parented := by
  induction l generalizing s with
  | nil => exact h
  | cons n l ih => exact ih (h.unref n)

theorem Parented.foldl_ref (l : List ℕ) : (l.foldl MntSys.ref s).Parented := by
  induction l generalizing s with
  | nil => exact h
  | cons n l ih => exact ih (h.ref n)

theorem Parented.lookup (c : Caller) (path : Text) (follow : Bool) :
    (s.fs.lookup c path follow).2.toTree.Parented := by
  rw [Vfs.lookup_toTree]
  exact h.fs

theorem Parented.ensureTarget (c : Caller) (target : Text) (dir : Bool)
    (mem : Mem) : (s.ensureTarget c target dir mem).2.Parented := by
  have hlook := h.lookup c target true
  unfold MntSys.ensureTarget
  split
  · next n w hw =>
    rw [hw] at hlook
    exact hlook.nodeUnref n
  next w hw =>
    rw [hw] at hlook
    split
    · have hfile := hlook.vfsCreateFile c target 0o600 mem
      split
      · next u hu =>
        rw [hu] at hfile
        exact hfile
      · next u hu =>
        rw [hu] at hfile
        exact hfile
    · exact hlook.vfsMkdir c target 0o755 mem

theorem Parented.bindSource (c : Caller) (fds : ℕ → Option ℕ) (path : Text) :
    (s.bindSource c fds path).2.Parented := by
  unfold MntSys.bindSource
  split
  · split
    · exact h
    · exact h.ref _
  · exact h.lookup c path true

theorem Parented.fsRoot (c : Caller) (fstype data : Text) (mem : Mem) :
    (s.fsRoot c fstype data mem).2.Parented := by
  unfold MntSys.fsRoot
  split
  · split <;> exact h
  split
  · split
    · exact h
    · exact Tree.Parented.add h rfl rfl
  · exact h

theorem Parented.newRoot (c : Caller) (priv : Bool) (path : Text) :
    (s.newRoot c priv path).2.Parented := by
  unfold MntSys.newRoot
  split_ifs
  · exact h
  · exact h
  · exact h
  split
  · exact h
  next kpath _ =>
    have hlook := h.lookup c kpath true
    split
    · next w hw =>
      rw [hw] at hlook
      exact hlook
    next n w hw =>
      rw [hw] at hlook
      split
      · exact hlook.nodeUnref n
      · exact hlook

end

end MntSys

end Kyronix.Fs
