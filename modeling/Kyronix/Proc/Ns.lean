import Kyronix.Errno
import Kyronix.Lib.Ledger
import Kyronix.Proc.PidNs

/-! Namespaces of all seven kinds and their reference counts (`ns.c`): the `nsproxy` through which
processes share them, and the calls that clone, replace and release them. `room` is the number of
`kmalloc` calls that succeed before one fails. -/
namespace Kyronix.Proc

open Lib.Ledger Lib.Run Function

/-- The kind of namespace `id`, with its parent where it has one. A parent is older than its
child. -/
inductive NsKind (id : ℕ)
  | user (parent : Option (Fin id))
  | pid (parent : Option (Fin id))
  | mnt
  | uts
  | ipc
  | net
  | cgroup
deriving DecidableEq

def NsKind.parent {id : ℕ} : NsKind id → Option (Fin id)
  | .user p => p
  | .pid p => p
  | _ => none

-- ns_common_t, and of the rest what the counts depend on
structure Ns (id : ℕ) where
  kind : NsKind id
  refcnt : ℕ
  dynamic : Bool
deriving DecidableEq

structure NsHeap where
  cell : (id : ℕ) → Option (Ns id)
  next : ℕ

inductive NsField
  | userNs
  | pidNs
  | pidNsForChildren
  | mntNs
  | utsNs
  | ipcNs
  | netNs
  | cgroupNs
deriving DecidableEq

-- in the order in which the source takes and drops the references
def NsField.all : List NsField :=
  [.userNs, .pidNs, .pidNsForChildren, .mntNs, .utsNs, .ipcNs, .netNs, .cgroupNs]

instance : Fintype NsField := Fintype.ofList NsField.all fun f => by cases f <;> decide

structure NsProxy where
  refcnt : ℕ
  dynamic : Bool
  ns : NsField → ℕ

abbrev procMax : ℕ := 64

/-- `proc i` is the `nsproxy` of the process in slot `i`. `held` are the references that callers of
`ns_mnt_clone` have not given back. -/
structure NsSys where
  heap : NsHeap
  proxy : ℕ → Option NsProxy
  nextProxy : ℕ
  proc : Fin procMax → Option ℕ
  pids : PidTables
  held : Multiset ℕ

-- init_pid_ns, init_user_ns and the other five are numbers 0 to 6
def staticNs : ℕ := 7

def nsCommonGet (h : NsHeap) (id : ℕ) : NsHeap :=
  match h.cell id with
  | none => h
  | some n => { h with cell := update h.cell id (some { n with refcnt := n.refcnt + 1 }) }

def nsCommonPut (h : NsHeap) (id : ℕ) : NsHeap :=
  match h.cell id with
  | none => h
  | some n =>
    if n.refcnt = 1 ∧ n.dynamic = true then
      let h := { h with cell := update h.cell id none }
      match n.kind.parent with
      | none => h
      | some p => nsCommonPut h p
    else
      { h with cell := update h.cell id (some { n with refcnt := n.refcnt - 1 }) }
termination_by id
decreasing_by exact p.isLt

def Ns.fresh {id : ℕ} (kind : NsKind id) : Ns id := ⟨kind, 1, true⟩

def NsHeap.create (h : NsHeap) (kind : NsKind h.next) : NsHeap :=
  { cell := update h.cell h.next (some (.fresh kind)), next := h.next + 1 }

def older (id p : ℕ) : Option (Fin id) := if h : p < id then some ⟨p, h⟩ else none

def NsHeap.userNsCreate (h : NsHeap) (parent : ℕ) : NsHeap :=
  (nsCommonGet h parent).create (.user (older _ parent))

def NsHeap.pidNsCreate (h : NsHeap) (parent : ℕ) : NsHeap :=
  (nsCommonGet h parent).create (.pid (older _ parent))

namespace NsSys

variable (s : NsSys)

def nsproxyGet (q : ℕ) : NsSys :=
  match s.proxy q with
  | none => s
  | some p =>
    { s with proxy := update s.proxy q (some { p with refcnt := p.refcnt + 1 }) }

def nsproxyPut (o : Option ℕ) : NsSys :=
  match o with
  | none => s
  | some q =>
    match s.proxy q with
    | none => s
    | some p =>
      if p.dynamic = false then s
      else if p.refcnt = 1 then
        { s with
          heap := NsField.all.foldl (fun h f => nsCommonPut h (p.ns f)) s.heap
          proxy := update s.proxy q none }
      else { s with proxy := update s.proxy q (some { p with refcnt := p.refcnt - 1 }) }

def nsproxyClone (src : NsProxy) : NsSys :=
  { s with
    heap := NsField.all.foldl (fun h f => nsCommonGet h (src.ns f)) s.heap
    proxy := update s.proxy s.nextProxy (some ⟨1, true, src.ns⟩)
    nextProxy := s.nextProxy + 1 }

def nsOf (q : ℕ) (f : NsField) : ℕ :=
  match s.proxy q with
  | none => 0
  | some p => p.ns f

def setNs (q : ℕ) (f : NsField) (id : ℕ) : NsSys :=
  match s.proxy q with
  | none => s
  | some p =>
    { s with proxy := update s.proxy q (some { p with ns := update p.ns f id }) }

def replaceNs (q : ℕ) (f : NsField) (id : ℕ) : NsSys :=
  { s with heap := nsCommonPut s.heap (s.nsOf q f) }.setNs q f id

end NsSys

def cloneNewns : UInt64 := 0x00020000
def cloneNewcgroup : UInt64 := 0x02000000
def cloneNewuts : UInt64 := 0x04000000
def cloneNewipc : UInt64 := 0x08000000
def cloneNewuser : UInt64 := 0x10000000
def cloneNewpid : UInt64 := 0x20000000
def cloneNewnet : UInt64 := 0x40000000
def nsCloneAll : UInt64 :=
  cloneNewns ||| cloneNewcgroup ||| cloneNewuts ||| cloneNewipc ||| cloneNewuser |||
    cloneNewpid ||| cloneNewnet

structure Renewal where
  flag : UInt64
  field : NsField
  make : NsHeap → ℕ → NsHeap

def renewals : List Renewal :=
  [⟨cloneNewuser, .userNs, NsHeap.userNsCreate⟩, ⟨cloneNewns, .mntNs, fun h _ => h.create .mnt⟩,
    ⟨cloneNewuts, .utsNs, fun h _ => h.create .uts⟩,
    ⟨cloneNewipc, .ipcNs, fun h _ => h.create .ipc⟩,
    ⟨cloneNewnet, .netNs, fun h _ => h.create .net⟩,
    ⟨cloneNewcgroup, .cgroupNs, fun h _ => h.create .cgroup⟩]

namespace NsSys

variable (s : NsSys)

def renewNs (q : ℕ) (r : Renewal) : NsSys :=
  { s with heap := r.make s.heap (s.nsOf q r.field) }.replaceNs q r.field s.heap.next

def renewAll (flags : UInt64) (q : ℕ) : List Renewal → ℕ → NsSys → Bool × ℕ × NsSys
  | [], room, s => (true, room, s)
  | r :: rs, room, s =>
    if flags &&& r.flag = 0 then renewAll flags q rs room s
    else match room with
      | 0 => (false, 0, s)
      | room + 1 => renewAll flags q rs room (s.renewNs q r)

def renewPid (q : ℕ) : NsSys :=
  let id := s.heap.next
  let h := s.heap.pidNsCreate (s.nsOf q .pidNs)
  let h := nsCommonPut h (s.nsOf q .pidNs)
  let h := nsCommonPut h (s.nsOf q .pidNsForChildren)
  let s := { s with heap := nsCommonGet h id, pids := update s.pids id emptyPidNs }
  (s.setNs q .pidNs id).setNs q .pidNsForChildren id

def nsApplyNewNamespaces (q : ℕ) (flags : UInt64) (room : ℕ) : ℤ × NsSys :=
  match renewAll flags q renewals room s with
  | (false, _, s) => (-enomem, s)
  | (true, room, s) =>
    if flags &&& cloneNewpid = 0 then (0, s)
    else if room = 0 then (-enomem, s)
    else (0, s.renewPid q)

def retarget (q : ℕ) (f : NsField) (id : ℕ) : NsSys :=
  if s.nsOf q f = id then s
  else { s with heap := nsCommonGet s.heap id }.replaceNs q f id

def pidTree : PidTree where
  parent n :=
    match s.heap.cell (n + 1) with
    | some ⟨.pid (some p), _, _⟩ => p
    | _ => 0

def setProxy (i : Fin procMax) (q : Option ℕ) : NsSys :=
  { s with proc := update s.proc i q }.nsproxyPut (s.proc i)

def adopt (child : Fin procMax) (q : ℕ) : ℤ × NsSys :=
  let s := s.setProxy child (some q)
  let r := pidNsRegister s.pidTree s.pids (s.nsOf q .pidNs) (child + 1)
  (if r.1 then 0 else -eagain, { s with pids := r.2 })

def nsChildPrepare (parent child : Fin procMax) (flags : UInt64) (thread : Bool)
    (room : ℕ) : ℤ × NsSys :=
  if thread = true ∧ flags &&& nsCloneAll ≠ 0 then (-einval, s)
  else match s.proc parent with
    | none => (-einval, s) -- a process that forks has a proxy
    | some old =>
      if thread then (s.nsproxyGet old).adopt child old
      else match s.proxy old, room with
        | none, _ => (-einval, s)
        | some _, 0 => (-enomem, s)
        | some src, room + 1 =>
          let np := s.nextProxy
          let (rc, s) :=
            if flags &&& nsCloneAll = 0 then (0, s.nsproxyClone src)
            else (s.nsproxyClone src).nsApplyNewNamespaces np flags room
          if rc < 0 then (rc, s.nsproxyPut (some np))
          else if flags &&& cloneNewpid ≠ 0 then s.adopt child np
          else
            let target := s.nsOf old .pidNsForChildren
            ((s.retarget np .pidNs target).retarget np .pidNsForChildren target).adopt child np

def unsharePid (q : ℕ) : NsSys :=
  let id := s.heap.next
  let h := s.heap.pidNsCreate (s.nsOf q .pidNs)
  let h := nsCommonPut h (s.nsOf q .pidNsForChildren)
  let s := { s with heap := nsCommonGet h id, pids := update s.pids id emptyPidNs }
  s.setNs q .pidNsForChildren id

/-- `priv` is `host_priv() || ns_user_is_root(p)`. -/
def nsUnshare (p : Fin procMax) (flags : UInt64) (isThread priv : Bool) (room : ℕ) : ℤ × NsSys :=
  if flags &&& ~~~ nsCloneAll ≠ 0 then (-einval, s)
  else if flags = 0 then (0, s)
  else if isThread = true ∧ flags &&& (cloneNewuser ||| cloneNewpid ||| cloneNewns) ≠ 0 then
    (-einval, s)
  else if flags &&& cloneNewuser = 0 ∧ priv = false then (-eperm, s)
  -- nsproxy_clone(NULL) clones init_nsproxy
  else match s.proxy ((s.proc p).getD 0), room with
    | none, _ => (-enomem, s)
    | some _, 0 => (-enomem, s)
    | some src, room + 1 =>
      let np := s.nextProxy
      match renewAll flags np renewals room (s.nsproxyClone src) with
      | (false, _, s) => (-enomem, s.nsproxyPut (some np))
      | (true, room, s) =>
        if flags &&& cloneNewpid = 0 then (0, s.setProxy p (some np))
        else if room = 0 then (-enomem, s.nsproxyPut (some np))
        else (0, (s.unsharePid np).setProxy p (some np))

end NsSys

inductive NsType
  | user
  | pid
  | mnt
  | uts
  | ipc
  | net
  | cgroup
deriving DecidableEq

def NsType.flag : NsType → UInt64
  | .user => cloneNewuser
  | .pid => cloneNewpid
  | .mnt => cloneNewns
  | .uts => cloneNewuts
  | .ipc => cloneNewipc
  | .net => cloneNewnet
  | .cgroup => cloneNewcgroup

structure NsPath where
  self : Bool
  type : NsType
  forChildren : Bool

def NsPath.source (path : NsPath) : NsField :=
  match path.type with
  | .user => .userNs
  | .pid => if path.forChildren then .pidNsForChildren else .pidNs
  | .mnt => .mntNs
  | .uts => .utsNs
  | .ipc => .ipcNs
  | .net => .netNs
  | .cgroup => .cgroupNs

def NsPath.dest (path : NsPath) : NsField :=
  match path.type with
  | .pid => .pidNsForChildren
  | _ => path.source

namespace NsSys

variable (s : NsSys)

/-- `found` is the answer of `proc_find` for the pid in the path. -/
def nsSetns (p : Fin procMax) (path : Option NsPath) (nstype : UInt64)
    (found : Option (Fin procMax)) (isThread priv : Bool) : ℤ × NsSys :=
  match path with
  | none => (-einval, s)
  | some path =>
    if nstype ≠ 0 ∧ nstype ≠ path.type.flag then (-einval, s)
    else match if path.self then some p else found with
      | none => (-esrch, s)
      | some target =>
        if priv = false then (-eperm, s)
        else match s.proc target, s.proc p with
          | some src, some q =>
            if path.type = .user ∧ isThread = true then (-einval, s)
            else
              let id := s.nsOf src path.source
              (0, { s with heap := nsCommonGet s.heap id }.replaceNs q path.dest id)
          | _, _ => (-einval, s)

-- proc_alloc
def procAlloc (i : Fin procMax) : NsSys :=
  match s.proc i with
  | some _ => s
  | none => { s.nsproxyGet 0 with proc := update s.proc i (some 0) }

def procRelease (i : Fin procMax) : NsSys :=
  match s.proc i with
  | none => s
  | some q =>
    { s with pids := pidNsUnregister s.pidTree s.pids (s.nsOf q .pidNs) (i + 1) }.setProxy i none

-- ns_mnt_clone of the current namespace; the caller holds the new one
def nsMntClone (room : ℕ) : NsSys :=
  if room = 0 then s
  else { s with heap := s.heap.create .mnt, held := s.heap.next ::ₘ s.held }

def nsMntSet (p : Fin procMax) (id : ℕ) : NsSys :=
  match s.proc p with
  | some q =>
    if id ∈ s.held then { s with heap := nsCommonGet s.heap id }.replaceNs q .mntNs id else s
  | none => s

def nsMntPut (id : ℕ) : NsSys :=
  if id ∈ s.held then
    { s with heap := nsCommonPut s.heap id, held := s.held.erase id }
  else s

end NsSys

def parentRef {id : ℕ} : Option (Ns id) → Multiset ℕ
  | none => 0
  | some n => n.kind.parent.elim 0 fun p => {p.val}

def NsHeap.childRefs (h : NsHeap) : Multiset ℕ :=
  total (fun _ => parentRef) h.cell (Finset.range h.next)

def proxyRefs : Option NsProxy → Multiset ℕ
  | none => 0
  | some p => total (fun _ id => {id}) p.ns Finset.univ

def NsSys.fieldRefs (s : NsSys) : Multiset ℕ :=
  total (fun _ => proxyRefs) s.proxy (Finset.range s.nextProxy)

def procRef : Option ℕ → Multiset ℕ
  | none => 0
  | some q => {q}

def NsSys.procRefs (s : NsSys) : Multiset ℕ := total (fun _ => procRef) s.proc Finset.univ

end Kyronix.Proc
