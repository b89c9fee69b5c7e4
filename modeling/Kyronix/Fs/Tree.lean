import Kyronix.Fs.Path

/-! The tree of nodes (`vfs.c`), the permission checks, and the walk that finds the node a path
names. Nodes are numbered in the order of their creation; a number without a node is one whose node
was destroyed. -/
namespace Kyronix.Fs

inductive VType
  | reg
  | dir
  | sym
  | chr
  | sock
deriving DecidableEq

/-- A `vfs_node_t` without its contents and count. `index` are the entries of the hash index of a
directory; `sock` is the socket state at `data`. -/
structure Vnode where
  name : Text
  type : VType
  mode : UInt32
  uid : ℕ
  gid : ℕ
  deleted : Bool
  parent : Option ℕ
  children : List ℕ
  index : Option (List ℕ)
  symlink : Option Text
  chrOpen : Bool
  sock : Option ℕ
deriving DecidableEq

structure Mount where
  target : Text
  root : ℕ
  flags : UInt32
deriving DecidableEq

structure MntNs where
  root : ℕ
  rootCounted : Bool
  rootFlags : UInt32
  mounts : List Mount
deriving DecidableEq

def procMax : ℕ := 64

instance : NeZero procMax := ⟨by decide⟩

/-- `jail` is the root of the jail of the process, empty on the host; `table` is its table of
descriptors. -/
structure Caller where
  fsuid : ℕ
  fsgid : ℕ
  euid : ℕ
  umask : UInt32
  cwd : Text
  jail : Text
  jailId : ℕ
  ipcIsolated : Bool
  mnt : ℕ
  table : Fin procMax
deriving DecidableEq

structure Tree where
  node : ℕ → Option Vnode
  next : ℕ
  initMnt : MntNs
  mnts : List MntNs

def nodeAlloc (c : Caller) (name : Text) (type : VType) (mode : UInt32) : Vnode where
  name := cut 256 name
  type := type
  mode := mode
  uid := c.fsuid
  gid := c.fsgid
  deleted := false
  parent := none
  children := []
  index := none
  symlink := none
  chrOpen := false
  sock := none

def Vnode.classBits (nd : Vnode) (c : Caller) : UInt32 :=
  if nd.uid = c.fsuid then (nd.mode >>> 6) &&& 7
  else if nd.gid = c.fsgid then (nd.mode >>> 3) &&& 7
  else nd.mode &&& 7

def mayAccess (c : Caller) (nd : Vnode) (need : UInt32) : Bool :=
  c.fsuid == 0 || nd.classBits c &&& need == need

def mayCreateIn (c : Caller) (dir : Vnode) : Bool := dir.type == .dir && mayAccess c dir 3

def sIsvtx : UInt32 := 0x200

def mayDeleteIn (c : Caller) (dir victim : Vnode) : Bool :=
  mayCreateIn c dir &&
    (dir.mode &&& sIsvtx == 0 || c.fsuid == 0 || victim.uid == c.fsuid || dir.uid == c.fsuid)

def applyUmask (c : Caller) (mode : UInt32) : UInt32 := mode &&& ~~~ c.umask

namespace Tree

variable (t : Tree) (c : Caller)

def get (n : ℕ) : Vnode :=
  (t.node n).getD ⟨[], .reg, 0, 0, 0, false, none, [], none, none, false, none⟩

def set (n : ℕ) (nd : Vnode) : Tree :=
  { t with node := Function.update t.node n (some nd) }

def add (nd : Vnode) : Tree :=
  { t with node := Function.update t.node t.next (some nd), next := t.next + 1 }

def free (n : ℕ) : Tree := { t with node := Function.update t.node n none }

def dirFind (d : ℕ) (name : Text) : Option ℕ :=
  ((t.get d).index.getD (t.get d).children).find? fun i => (t.get i).name = name

/-- `room` tells whether there is memory for a missing index, which then has the new entry only. -/
def dirInsert (d n : ℕ) (room : Bool) : Tree :=
  let t := t.set n { t.get n with parent := some d }
  let dir := t.get d
  t.set d { dir with
    children := n :: dir.children
    index := match dir.index with
      | some l => some (n :: l)
      | none => if room then some [n] else none }

def dirRemove (d n : ℕ) : Tree :=
  let dir := t.get d
  let t := t.set d { dir with
    children := dir.children.erase n
    index := dir.index.map (·.erase n) }
  t.set n { t.get n with parent := none }

def nsMntCurrent : MntNs := t.mnts.getD c.mnt t.initMnt

def nsMntFind (ns : MntNs) (target : Text) : Option Mount :=
  ns.mounts.reverse.find? fun m => m.target = target

def nsMntResolve (ns : MntNs) (path : Text) : UInt32 :=
  (ns.mounts.foldl (fun (best : ℕ × UInt32) m =>
    if m.target.length < best.1 ∨ pathUnder path m.target = false then best
    else (m.target.length, m.flags)) (1, ns.rootFlags)).2

def mntWriteDenied (path : Text) : Bool :=
  path.head? == some '/' && nsMntResolve (t.nsMntCurrent c) (pathCanon 512 path) &&& 1 != 0

/-- The names from a node up to the root, at most 127. -/
def nodeNames (t : Tree) : ℕ → ℕ → List Text → Option (List Text)
  | 0, _, _ => none
  | k + 1, n, acc =>
    match (t.get n).parent with
    | none => if k = 0 then none else some ((t.get n).name :: acc)
    | some p => if p = n then some acc else t.nodeNames k p ((t.get n).name :: acc)

def appendNames : Text → List Text → Option Text
  | p, [] => some p
  | p, x :: xs =>
    let p := if p.length > 1 then p ++ ['/'] else p
    if p.length + x.length ≥ 512 then none else appendNames (p ++ x) xs

def vfsNodePath (n : ℕ) : Option Text :=
  (t.nodeNames 128 n []).bind (appendNames ['/'])

def resolveLink (child : ℕ) (link rest : Text) : Option Text :=
  let tail := if rest = [] then link else link ++ '/' :: rest
  if link.head? = some '/' then some (jailCanonClamp (cut 512 (c.jail ++ tail)) c.jail)
  else
    ((t.get child).parent.bind t.vfsNodePath).map fun base =>
      jailCanonClamp (cut 512 (if base = ['/'] then '/' :: tail else base ++ '/' :: tail)) c.jail

structure Walk where
  cur : ℕ
  boundary : ℕ
  path : Text

inductive Hop
  | stop
  | jump (path : Text)
  | on (w : Walk)

def walkUp (w : Walk) : Walk :=
  match (t.get w.cur).parent with
  | some p => if w.cur = w.boundary then w else { w with cur := p, path := lookupPathPop w.path }
  | none => w

def walkDown (w : Walk) (x : Text) (child : ℕ) : Hop :=
  match lookupPathPush w.path x with
  | none => .stop
  | some cand =>
    match nsMntFind (t.nsMntCurrent c) cand with
    | some m => .on ⟨m.root, m.root, cand⟩
    | none => .on ⟨child, w.boundary, cand⟩

def hop (follow : Bool) (x rest : Text) (w : Walk) : Hop :=
  if x = ['.'] then .on w
  else if x = ['.', '.'] then .on (t.walkUp w)
  else if x.length ≥ 256 then .stop
  else if (t.get w.cur).type ≠ .dir ∨ mayAccess c (t.get w.cur) 1 = false then .stop
  else match t.dirFind w.cur x with
    | none => .stop
    | some child =>
      if (t.get child).type = .sym ∧ (follow = true ∨ rest ≠ []) then
        match (t.get child).symlink.bind fun link => t.resolveLink c child link rest with
        | none => .stop
        | some path => .jump path
      else t.walkDown c w x child

def walk (t : Tree) (c : Caller) (follow : Bool) (restart : Text → Option ℕ) :
    List (Text × Text) → Walk → Option ℕ
  | [], w => some w.cur
  | (x, rest) :: xs, w =>
    match t.hop c follow x rest w with
    | .stop => none
    | .jump path => restart path
    | .on w => t.walk c follow restart xs w

/-- `lookup_internal` up to its last `lookup_ref`; the first argument is what is left of the
depth of 32. -/
def lookupInternal (t : Tree) (c : Caller) : ℕ → Text → Bool → Option ℕ
  | 0, _, _ => none
  | k + 1, path, follow =>
    if path = [] then none
    else if path.head? = some '/' then
      let root := (t.nsMntCurrent c).root
      t.walk c follow (fun p => t.lookupInternal c k p true) (pathTokens (skipSlashes path))
        ⟨root, root, ['/']⟩
    else if c.cwd.length + 1 + path.length ≥ 512 then none
    else t.lookupInternal c k (joinDir c.cwd path) follow

def resolve (path : Text) (follow : Bool) : Option ℕ :=
  (t.lookupInternal c 33 path follow).filter fun n => !(t.get n).deleted

end Tree

end Kyronix.Fs
