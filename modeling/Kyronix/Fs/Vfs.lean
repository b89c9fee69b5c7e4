import Kyronix.Errno
import Kyronix.Fs.Tree

/-! Nodes with their reference counts and the calls of `vfs.c` that create and remove entries. -/
namespace Kyronix.Fs

structure Vfs extends Tree where
  refcnt : ℕ → ℕ

/-- Which allocations of a call succeed: a node, the hash index of a directory, the text or bytes of
a new node, and a `vfs_file_t`. -/
structure Mem where
  node : Bool
  index : Bool
  data : Bool
  file : Bool
deriving DecidableEq

def Mem.ok : Mem := ⟨true, true, true, true⟩

namespace Vfs

variable (v : Vfs) (c : Caller)

def nodeRef (n : ℕ) : Vfs :=
  { v with refcnt := Function.update v.refcnt n (v.refcnt n + 1) }

def nodeDestroy (n : ℕ) : Vfs := { v with toTree := v.toTree.free n }

def nodeUnref (n : ℕ) : Vfs :=
  if v.refcnt n = 0 then v
  else
    let w := { v with refcnt := Function.update v.refcnt n (v.refcnt n - 1) }
    if w.refcnt n = 0 ∧ (v.get n).deleted = true then w.nodeDestroy n else w

def markDeleted (n : ℕ) : Vfs :=
  { v with toTree := v.toTree.set n { v.get n with deleted := true } }

def nodeUnlinkOrDestroy (n : ℕ) : Vfs :=
  let v := { v with toTree := v.toTree.set n { v.get n with deleted := true, parent := none } }
  if v.refcnt n = 0 then v.nodeDestroy n else v

def addNode (nd : Vnode) : Vfs :=
  { v with toTree := v.toTree.add nd, refcnt := Function.update v.refcnt v.next 0 }

def dirInsert (v : Vfs) (d n : ℕ) (room : Bool) : Vfs :=
  { v with toTree := v.toTree.dirInsert d n room }

def dirRemove (v : Vfs) (d n : ℕ) : Vfs := { v with toTree := v.toTree.dirRemove d n }

def lookup (path : Text) (follow : Bool) : Option ℕ × Vfs :=
  match v.resolve c path follow with
  | none => (none, v)
  | some n => (some n, v.nodeRef n)

def parentOf (path : Text) : Option ℕ × Vfs :=
  if (splitLeaf path).1.length ≥ 512 then (none, v) else v.lookup c (splitLeaf path).1 true

def create (d : ℕ) (nd : Vnode) (room : Bool) : Vfs :=
  (v.addNode nd).dirInsert d v.next room

/-- With no data. It makes no permission check of its own. -/
def vfsCreateFile (path : Text) (mode : UInt32) (mem : Mem) : Option ℕ × Vfs :=
  let leaf := (splitLeaf path).2
  if v.mntWriteDenied c path = true then (none, v)
  else match v.parentOf c path with
    | (none, v) => (none, v)
    | (some p, v) =>
      if (v.get p).type ≠ .dir then (none, v.nodeUnref p)
      else if mem.node = false then (none, v.nodeUnref p)
      else match v.dirFind p leaf with
        | some e => (if (v.get e).type = .reg then some e else none, v.nodeUnref p)
        | none =>
          let nd := nodeAlloc c leaf .reg (applyUmask c (mode &&& 0o7777) ||| 0o100000)
          (some v.next, (v.create p nd mem.index).nodeUnref p)

def vfsMkdir (path : Text) (mode : UInt32) (mem : Mem) : ℤ × Vfs :=
  let leaf := (splitLeaf path).2
  match v.lookup c path false with
  | (some e, v) => (-eexist, v.nodeUnref e)
  | (none, v) =>
    if v.mntWriteDenied c path = true then (-erofs, v)
    else match v.parentOf c path with
      | (none, v) => (-enoent, v)
      | (some p, v) =>
        if (v.get p).type ≠ .dir ∨ leaf = [] then (-enoent, v.nodeUnref p)
        else if mayCreateIn c (v.get p) = false then (-eacces, v.nodeUnref p)
        else if mem.node = false then (-enomem, v.nodeUnref p)
        else if (v.dirFind p leaf).isSome then (-eexist, v.nodeUnref p)
        else
          let nd := nodeAlloc c leaf .dir (applyUmask c (mode &&& 0o7777) ||| 0o40000)
          (0, (v.create p nd mem.index).nodeUnref p)

def unlinkFound (p n : ℕ) : Vfs :=
  ((v.dirRemove p n).nodeUnlinkOrDestroy n).nodeUnref n

def vfsUnlink (path : Text) : ℤ × Vfs :=
  if v.mntWriteDenied c path = true then (-erofs, v)
  else match v.lookup c path false with
    | (none, v) => (-enoent, v)
    | (some n, v) =>
      if (v.get n).type = .dir then (-eisdir, v.nodeUnref n)
      else match (v.get n).parent with
        | none => (-einval, v.nodeUnref n)
        | some p =>
          if mayDeleteIn c (v.get p) (v.get n) = false then (-eacces, v.nodeUnref n)
          else (0, v.unlinkFound p n)

end Vfs

end Kyronix.Fs
