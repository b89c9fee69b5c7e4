import Kyronix.Fs.RamFile
import Kyronix.Fs.Vfs

/-! Open files and local sockets (`vfs.c`, `fdctl.c`, `unix_socket.c`). A slot of a table of
descriptors owns its `vfs_file_t`: duplicates share an open file description. -/
namespace Kyronix.Fs

open Function

def fdMax : ℕ := 1024
abbrev Slot := Fin procMax × Fin fdMax

structure File where
  node : Option ℕ
  desc : ℕ
  piped : Bool
deriving DecidableEq

inductive SockState
  | unbound
  | bound
  | listening
deriving DecidableEq

inductive SockAddr
  | none
  | path (p : Text)
  | abstract (name : Text)
deriving DecidableEq

inductive UnixAddr
  | path (p : Text)
  | abstract (name : Text)
deriving DecidableEq

structure Sock where
  state : SockState
  addr : SockAddr
  backlog : ℕ
deriving DecidableEq

structure AbsSlot where
  name : Text
  node : ℕ
  jailId : ℕ
deriving DecidableEq

structure Sys where
  vfs : Vfs
  ram : ℕ → RamNode
  ofd : ℕ → Ofd
  nextOfd : ℕ
  fds : Slot → Option File
  sock : ℕ → Option Sock
  nextSock : ℕ
  freed : List ℕ
  abs : Fin 16 → Option AbsSlot

-- the flags of open; O_ACCMODE itself acts as O_RDWR everywhere
structure OpenFlags where
  acc : AccMode
  creat : Bool
  excl : Bool
  trunc : Bool
  append : Bool
  directory : Bool
  nofollow : Bool
  tmpfile : Bool
deriving DecidableEq

def emptyRam : RamNode := ⟨0, 0, fun _ => 0⟩

namespace Sys

variable (s : Sys) (c : Caller)

def setFd (i : Slot) (o : Option File) : Sys :=
  { s with fds := update s.fds i o }

def setSock (k : ℕ) (x : Sock) : Sys :=
  { s with sock := update s.sock k (some x) }

def setRam (n : ℕ) (r : RamNode) : Sys := { s with ram := update s.ram n r }

def getSock (k : ℕ) : Sock := (s.sock k).getD ⟨.unbound, .none, 0⟩

def kfreeSock (k : ℕ) : Sys :=
  { s with sock := update s.sock k none, freed := k :: s.freed }

def fdGet (fd : ℕ) : Option File :=
  if h : fd < fdMax then s.fds (c.table, ⟨fd, h⟩) else none

def fdAllocFrom (start : ℕ) : Option (Fin fdMax) :=
  (List.finRange fdMax).find? fun i => start ≤ i.val && (s.fds (c.table, i)).isNone

def install (i : Slot) (node : Option ℕ) (piped : Bool) (o : Ofd) : Sys :=
  { s with
    ofd := update s.ofd s.nextOfd o
    nextOfd := s.nextOfd + 1
    fds := update s.fds i (some ⟨node, s.nextOfd, piped⟩) }

def unixSocketClose (n : ℕ) : Sys :=
  let t := match (s.vfs.get n).sock with
    | none => s
    | some k =>
      let u := match (s.getSock k).addr with
        | .none => s
        | .path p => { s with vfs := (s.vfs.vfsUnlink c p).2 }
        | .abstract name =>
          if name = [] then s
          else match (List.finRange 16).find? fun i => (s.abs i).map AbsSlot.node = some n with
            | none => s
            | some i => { s with abs := update s.abs i none }
      u.kfreeSock k
  { t with vfs := t.vfs.markDeleted n }

def fileDestroy (f : File) : Sys :=
  match f.node with
  | none => s
  | some n =>
    let s := if f.piped = false ∧ (s.vfs.get n).type = .sock then s.unixSocketClose c n else s
    { s with vfs := s.vfs.nodeUnref n }

def fdClose (fd : ℕ) : ℤ × Sys :=
  if h : fd < fdMax then
    match s.fds (c.table, ⟨fd, h⟩) with
    | none => (-ebadf, s)
    | some f => (0, (s.setFd (c.table, ⟨fd, h⟩) none).fileDestroy c f)
  else (-ebadf, s)

def refNode (o : Option ℕ) : Sys :=
  match o with
  | none => s
  | some n => { s with vfs := s.vfs.nodeRef n }

def fdDup (fd start : ℕ) (mem : Mem) : ℤ × Sys :=
  match s.fdGet c fd with
  | none => (-ebadf, s)
  | some f =>
    if start ≥ fdMax then (-einval, s)
    else match s.fdAllocFrom c start with
      | none => (-emfile, s)
      | some i =>
        if mem.file = false then (-enomem, s)
        else (i, (s.refNode f.node).setFd (c.table, i) (some f))

def fdDup2 (oldfd newfd : ℕ) (mem : Mem) : ℤ × Sys :=
  match s.fdGet c oldfd with
  | none => (-ebadf, s)
  | some f =>
    if oldfd = newfd then (newfd, s)
    else if h : newfd < fdMax then
      if mem.file = false then (-enomem, s)
      else
        let i : Slot := (c.table, ⟨newfd, h⟩)
        let t := (s.refNode f.node).setFd i (some f)
        match s.fds i with
        | none => (newfd, t)
        | some old => (newfd, t.fileDestroy c old)
    else (-ebadf, s)

/-- A child has no part in the life of a socket. -/
def copyFd (src dst : Fin procMax) (room : Fin fdMax → Bool) (s : Sys) (i : Fin fdMax) : Sys :=
  match s.fds (src, i) with
  | none => s.setFd (dst, i) none
  | some f =>
    if room i = false then s.setFd (dst, i) none
    else
      let isSock := f.node.any fun n => (s.vfs.get n).type = .sock
      let f := if isSock then { f with node := none } else f
      (s.refNode f.node).setFd (dst, i) (some f)

def vfsCopyFdtable (dst : Fin procMax) (room : Fin fdMax → Bool) : Sys :=
  if dst = c.table ∨ ∃ i, s.fds (dst, i) ≠ none then s
  else (List.finRange fdMax).foldl (copyFd c.table dst room) s

def statPath (path : Text) (follow : Bool) : ℤ × Sys :=
  match s.vfs.lookup c path follow with
  | (none, v) => (-enoent, { s with vfs := v })
  | (some n, v) => (0, { s with vfs := v.nodeUnref n })

/-- The path is the one that `at_resolve` made, if any. -/
def sysStatx (dirfd : ℕ) (path : Option Text) (follow : Bool) : ℤ × Sys :=
  match path with
  | some path => s.statPath c path follow
  | none =>
    match (s.fdGet c dirfd).bind File.node with
    | none => (-enoent, s)
    | some n => (0, { s with vfs := s.vfs.nodeUnref n })

def procFd (path : Text) : Option ℕ :=
  let digits := (["/proc/self/fd/".toList, "/dev/fd/".toList].findSome? fun pre =>
    if pre.isPrefixOf path then some (path.drop pre.length) else none).getD []
  let digits := digits.takeWhile Char.isDigit
  if digits = [] then none
  else some (digits.foldl (fun n ch => n * 10 + (ch.toNat - 48)) 0)

def fdOpenNode (n : ℕ) (fl : OpenFlags) (mem : Mem) : ℤ × Sys :=
  match s.fdAllocFrom c 0 with
  | none => (-emfile, s)
  | some i =>
    if mem.file = false then (-enomem, s)
    else (i, { s with vfs := s.vfs.nodeRef n }.install (c.table, i) (some n) false ⟨0, fl.acc⟩)

def fdTmpfileOpen (path : Text) (fl : OpenFlags) (mode : UInt32) (mem : Mem) : ℤ × Sys :=
  match s.vfs.lookup c path (!fl.nofollow) with
  | (none, v) => (-enoent, { s with vfs := v })
  | (some d, v) =>
    let fail := fun e : ℤ => (-e, { s with vfs := v.nodeUnref d })
    if (v.get d).type ≠ .dir then fail enotdir
    else if mayCreateIn c (v.get d) = false then fail eacces
    else if mem.node = false then fail enomem
    else match s.fdAllocFrom c 3 with
      | none => fail emfile
      | some i =>
        if mem.file = false then fail enomem
        else
          let nd := nodeAlloc c ['#'] .reg (applyUmask c (mode &&& 0o7777) ||| 0o100000)
          let n := v.next
          let v := ((v.addNode { nd with deleted := true }).nodeRef n).nodeUnref d
          let t := { s with vfs := v }.setRam n emptyRam
          (i, t.install (c.table, i) (some n) false ⟨0, fl.acc⟩)

def openTarget (path : Text) (fl : OpenFlags) (mode : UInt32) (mem : Mem) : Except ℤ ℕ × Sys :=
  match s.vfs.lookup c path (!fl.nofollow) with
  | (some n, v) =>
    if fl.creat = true ∧ fl.excl = true then (.error (-eexist), { s with vfs := v.nodeUnref n })
    else (.ok n, { s with vfs := v })
  | (none, v) =>
    if fl.creat = false then (.error (-enoent), { s with vfs := v })
    else match v.parentOf c path with
      | (none, v) => (.error (-eacces), { s with vfs := v })
      | (some p, v) =>
        let allowed := mayCreateIn c (v.get p)
        let v := v.nodeUnref p
        if allowed = false then (.error (-eacces), { s with vfs := v })
        else match v.vfsCreateFile c path mode mem with
          | (none, v) => (.error (-enomem), { s with vfs := v })
          | (some n, v) => (.ok n, { s with vfs := v.nodeRef n }.setRam n emptyRam)

def openNeed (fl : OpenFlags) (type : VType) : UInt32 :=
  (if fl.acc ≠ .wronly then 4 else 0) |||
    (if fl.acc ≠ .rdonly ∨ (fl.trunc = true ∧ type = .reg) then 2 else 0)

def openFound (n : ℕ) (fl : OpenFlags) (mem : Mem) : ℤ × Sys :=
  let nd := s.vfs.get n
  let fail := fun (s : Sys) (e : ℤ) => (-e, { s with vfs := s.vfs.nodeUnref n })
  if nd.type = .chr ∧ nd.chrOpen = true then
    let r := s.fdOpenNode c n fl mem
    (r.1, { r.2 with vfs := r.2.vfs.nodeUnref n })
  else if nd.type = .dir ∧ fl.acc ≠ .rdonly then fail s eisdir
  else if mayAccess c nd (openNeed fl nd.type) = false then fail s eacces
  else match s.fdAllocFrom c 3 with
    | none => fail s emfile
    | some i =>
      if mem.file = false then fail s enomem
      else if fl.trunc = true ∧ nd.type = .reg then
        match (s.ram n).vfsNodeTruncate 0 none with
        | .error e => (e, { s with vfs := s.vfs.nodeUnref n })
        | .ok r => (i, (s.setRam n r).install (c.table, i) (some n) false ⟨0, fl.acc⟩)
      else
        let pos := if fl.append = true then (s.ram n).size else 0
        (i, s.install (c.table, i) (some n) false ⟨pos, fl.acc⟩)

def openPath (path : Text) (reroot : Bool) : Text :=
  let abs := vfsAbsPath c.jail c.cwd path
  if reroot = true ∧ abs ≠ [] then abs else path

def fdOpenImpl (path : Text) (fl : OpenFlags) (mode : UInt32) (mem : Mem)
    (reroot : Bool) : ℤ × Sys :=
  match procFd path with
  | some fd => s.fdDup c fd 0 mem
  | none =>
    let lpath := openPath c path reroot
    if (fl.acc ≠ .rdonly ∨ fl.creat = true ∨ fl.trunc = true) ∧
        s.vfs.mntWriteDenied c lpath = true then (-erofs, s)
    else if fl.tmpfile = true then
      if fl.directory = false ∨ fl.creat = true ∨ fl.acc = .rdonly then (-einval, s)
      else s.fdTmpfileOpen c lpath fl mode mem
    else match s.openTarget c lpath fl mode mem with
      | (.error e, s) => (e, s)
      | (.ok n, s) => s.openFound c n fl mem

def vfsUnlink (s : Sys) (c : Caller) (path : Text) : ℤ × Sys :=
  let r := s.vfs.vfsUnlink c path
  (r.1, { s with vfs := r.2 })

def fdSocket (stream : Bool) (mem : Mem) : ℤ × Sys :=
  if stream = false then (-eopnotsupp, s)
  else if mem.data = false ∨ mem.node = false then (-enomem, s)
  else match s.fdAllocFrom c 0 with
    | none => (-emfile, s)
    | some i =>
      if mem.file = false then (-enomem, s)
      else
        let n := s.vfs.next
        let k := s.nextSock
        let nd := { nodeAlloc c [] .sock 0o140666 with sock := some k }
        let t := { s with
          vfs := (s.vfs.addNode nd).nodeRef n
          sock := update s.sock k (some ⟨.unbound, .none, 0⟩)
          nextSock := k + 1 }
        (i, t.install (c.table, i) (some n) false ⟨0, .rdwr⟩)

def sockOf (fd : ℕ) : Option (File × ℕ × Option ℕ) :=
  (s.fdGet c fd).bind fun f => f.node.bind fun n =>
    if (s.vfs.get n).type = .sock then some (f, n, (s.vfs.get n).sock) else none

def splitLast (p : Text) : Option (Text × Text) :=
  let dir := (p.reverse.dropWhile (· ≠ '/')).reverse
  if dir = [] then none else some (dir.dropLast, p.drop dir.length)

def bindPath (k : ℕ) (path : Text) (mem : Mem) : ℤ × Sys :=
  match splitLast (cut 512 path) with
  | none => (-einval, s)
  | some (dir, leaf) =>
    if leaf = [] then (-einval, s)
    else match s.vfs.lookup c (if dir = [] then ['/'] else dir) true with
      | (none, v) => (-enoent, { s with vfs := v })
      | (some p, v) =>
        let fail := fun e : ℤ => (-e, { s with vfs := v.nodeUnref p })
        if (v.get p).type ≠ .dir then fail enoent
        else if mayCreateIn c (v.get p) = false then fail eacces
        else if (v.dirFind p leaf).isSome then fail eexist
        else if mem.node = false then fail enomem
        else
          let nd := { nodeAlloc c leaf .sock 0o140666 with sock := some k }
          let t := { s with vfs := (v.create p nd mem.index).nodeUnref p }
          (0, t.setSock k { s.getSock k with state := .bound, addr := .path (cut 108 path) })

def bindAbstract (n k : ℕ) (name : Text) : ℤ × Sys :=
  match (List.finRange 16).find? fun i => (s.abs i).isNone with
  | none => (-eaddrinuse, s)
  | some i =>
    let t := { s with abs := update s.abs i (some ⟨cut 107 name, n, c.jailId⟩) }
    (0, t.setSock k { s.getSock k with state := .bound, addr := .abstract (cut 107 name) })

def fdBindUnix (fd : ℕ) (addr : UnixAddr) (mem : Mem) : ℤ × Sys :=
  match s.sockOf c fd with
  | none => (-ebadf, s)
  | some (_, n, k) =>
    match k with
    | none => (-einval, s)
    | some k =>
      if (s.getSock k).state ≠ .unbound then (-einval, s)
      else match addr with
        | .path p => s.bindPath c k p mem
        | .abstract name => s.bindAbstract c n k name

def fdListenUnix (fd : ℕ) : ℤ × Sys :=
  match s.sockOf c fd with
  | some (_, _, some k) =>
    if (s.getSock k).state = .unbound then (-einval, s)
    else (0, s.setSock k { s.getSock k with state := .listening })
  | _ => (-ebadf, s)

def fdAcceptUnix (fd : ℕ) (mem : Mem) : ℤ × Sys :=
  match s.sockOf c fd with
  | some (_, _, some k) =>
    if (s.getSock k).state ≠ .listening then (-einval, s)
    else if (s.getSock k).backlog = 0 then (-eagain, s)
    else
      let s := s.setSock k { s.getSock k with backlog := (s.getSock k).backlog - 1 }
      match s.fdAllocFrom c 0 with
      | none => (-emfile, s)
      | some i =>
        if mem.file = false then (-enomem, s)
        else (i, s.install (c.table, i) none true ⟨0, .rdwr⟩)
  | _ => (-ebadf, s)

def findAbstract (name : Text) : Option ℕ :=
  ((List.finRange 16).findSome? fun i => (s.abs i).filter fun a =>
    a.name = cut 107 name ∧ ¬ (c.ipcIsolated = true ∧ a.jailId ≠ c.jailId)).map AbsSlot.node

def unrefNode (o : Option ℕ) : Sys :=
  match o with
  | none => s
  | some n => { s with vfs := s.vfs.nodeUnref n }

def connectTarget : UnixAddr → Option ℕ × Sys
  | .path p =>
    let r := s.vfs.lookup c p true
    (r.1, { s with vfs := r.2 })
  | .abstract name => (s.findAbstract c name, s)

/-- `mem.data` tells whether the pipes and the connection could be made. -/
def fdConnectUnix (fd : ℕ) (addr : UnixAddr) (mem : Mem) : ℤ × Sys :=
  match s.sockOf c fd with
  | none => (-ebadf, s)
  | some (f, n, cs) =>
    match s.connectTarget c addr with
    | (none, s) => (-econnrefused, s)
    | (some sn, s) =>
      match if (s.vfs.get sn).type = .sock then (s.vfs.get sn).sock else none with
      | none => (-econnrefused, s.unrefNode sn)
      | some k =>
        if (s.getSock k).state ≠ .listening then (-econnrefused, s.unrefNode sn)
        else if mem.data = false then (-enomem, s)
        else
          let s := s.setSock k { s.getSock k with backlog := (s.getSock k).backlog + 1 }
          let s := s.unrefNode sn
          let s := match cs with
            | none => s
            | some k => s.kfreeSock k
          let s := { s with vfs := (s.vfs.markDeleted n).nodeUnref n }
          (0, if h : fd < fdMax then
            s.setFd (c.table, ⟨fd, h⟩) (some { f with node := none, piped := true }) else s)

end Sys

end Kyronix.Fs
