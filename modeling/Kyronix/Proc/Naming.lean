import Kyronix.Proc.Jail
import Kyronix.Proc.PidNs

/-! Calls that name processes (`sig.c`, `cred.c`, `ptrace.c`, `syscall.c`). Each turns a number into
processes in its own way, with the pid namespace and the jail of the caller or without them. -/
namespace Kyronix.Proc

open Function List

open Fs (procMax)

inductive ProcState
  | running
  | ready
  | waiting
  | zombie
  | dying
  | stopped
  | embryo
  | quarantined
deriving DecidableEq

/-- `initialUser` tells that the user namespace is the initial one, and `ready` is the bit in
`g_ready_mask`. The pid and the group of an idle process are 0. -/
structure NProc where
  state : ProcState
  pid : ℕ
  pgid : ℤ
  ppid : ℕ
  uid : UInt32
  euid : UInt32
  suid : UInt32
  jailId : ℕ
  pidNs : ℕ
  initialUser : Bool
  tracerPid : ℕ
  pending : UInt64
  jobStopped : Bool
  ready : Bool
deriving DecidableEq

/-- The process table, without the unused slots; `jails` has the flags of the jails in use. -/
structure NameSys where
  proc : Fin procMax → Option NProc
  jails : ℕ → Option UInt32
  tables : PidTables

open NameSys

-- the casts of a call's argument
def uint32 (z : ℤ) : ℕ := (z % 2 ^ 32).toNat
def int32 (n : ℕ) : ℤ := Int.bmod n (2 ^ 32)

def jailfPid : UInt32 := 0x02

def nsig : ℤ := 64
def sigKill : ℕ := 9
def sigCont : ℕ := 18
def sigStop : ℕ := 19
def sigTstp : ℕ := 20
def sigTtin : ℕ := 21
def sigTtou : ℕ := 22

def sigBit (sig : ℕ) : UInt64 := 1 <<< (sig - 1).toUInt64

def sigStopMask : UInt64 := sigBit sigStop ||| sigBit sigTstp ||| sigBit sigTtin ||| sigBit sigTtou

def sigDefaultStop (sig : ℕ) : Bool := sigBit sig &&& sigStopMask != 0

def NProc.signalled (p : NProc) (sig : ℕ) : NProc :=
  let pending :=
    if sig = sigCont then p.pending &&& ~~~ sigStopMask
    else if sigDefaultStop sig = true then p.pending &&& ~~~ sigBit sigCont
    else p.pending
  let p := { p with pending := pending ||| sigBit sig }
  if p.jobStopped = true ∧ (sig = sigCont ∨ sig = sigKill) then
    { p with jobStopped := false, state := .ready, ready := true }
  else if p.state = .waiting then { p with state := .ready, ready := true }
  else p

namespace NameSys

variable (s : NameSys)

def set (i : Fin procMax) (p : NProc) : NameSys :=
  { s with proc := update s.proc i (some p) }

def procSendSignal (i : Fin procMax) (sig : ℕ) : NameSys :=
  match s.proc i with
  | none => s
  | some p => s.set i (p.signalled sig)

def procFind (pid : ℕ) : Option (Fin procMax × NProc) :=
  (List.finRange procMax).findSome? fun i =>
    (s.proc i).bind fun p => if p.state ≠ .embryo ∧ p.pid = pid then some (i, p) else none

def pidIn (cur p : NProc) : ℕ := nsProcPidIn s.tables cur.pidNs p.pid

def toGlobal (cur : NProc) (n : ℕ) : ℕ := nsPidToGlobal s.tables cur.pidNs n

def jailCanSee (observer target : NProc) : Bool :=
  (s.jails observer.jailId).all fun flags =>
    flags &&& jailfPid == 0 || observer.jailId == target.jailId

def jailHostPriv (p : NProc) : Bool :=
  p.euid == 0 && p.initialUser && (s.jails p.jailId).all fun flags => flags &&& jailfPriv == 0

end NameSys

/-- The result, the processes after it, and those signalled, attached to or changed. -/
structure Answer where
  ret : ℤ
  sys : NameSys
  hits : List (Fin procMax)

namespace NameSys

variable (s : NameSys) (me : Fin procMax)

def fail (e : ℤ) : Answer := ⟨-e, s, []⟩

def killPermitted (sender target : NProc) : Bool :=
  sender.euid == 0 || (sender.uid == target.uid || sender.uid == target.euid ||
    sender.euid == target.uid || sender.euid == target.euid)

structure Sweep where
  found : Bool
  permitted : Bool
  sys : NameSys
  hits : List (Fin procMax)

variable (cur : NProc) (sel : Fin procMax → NProc → Bool)

def sweepStep (sig : ℕ) (a : Sweep) (i : Fin procMax) : Sweep :=
  match a.sys.proc i with
  | none => a
  | some p =>
    if sel i p = false then a
    else if killPermitted cur p = false then { a with found := true }
    else if sig = 0 then { a with found := true, permitted := true }
    else ⟨true, true, a.sys.procSendSignal i sig, i :: a.hits⟩

@[irreducible] def sweep (sig : ℕ) : Sweep :=
  (List.finRange procMax).foldl (sweepStep cur sel sig) ⟨false, false, s, []⟩

def sweepRet (found permitted : Bool) : ℤ :=
  if found = false then -esrch else if permitted = false then -eperm else 0

def killSweep (sig : ℕ) : Answer :=
  let a := s.sweep cur sel sig
  ⟨sweepRet a.found a.permitted, a.sys, a.hits⟩

def selAll (i : Fin procMax) (p : NProc) : Bool :=
  p.pid != 1 && me != i && s.jailCanSee cur p && s.pidIn cur p != 0

def selGroup (pgid : ℤ) (_ : Fin procMax) (p : NProc) : Bool :=
  s.jailCanSee cur p && p.pgid == pgid

def killOne (pid : ℤ) (sig : ℕ) : Answer :=
  if s.toGlobal cur (uint32 pid) = 0 then s.fail esrch
  else match s.procFind (s.toGlobal cur (uint32 pid)) with
    | none => s.fail esrch
    | some (i, p) =>
      if s.jailCanSee cur p = false then s.fail esrch
      else if killPermitted cur p = false then s.fail eperm
      else if sig = 0 then ⟨0, s, []⟩
      else ⟨0, s.procSendSignal i sig, [i]⟩

def sysKill (pid sig : ℤ) : Answer :=
  if sig < 0 ∨ sig ≥ nsig then s.fail einval
  else if pid > 0 then s.killOne cur pid sig.toNat
  else if pid = -1 then s.killSweep cur (s.selAll me cur) sig.toNat
  else if pid < -1 then s.killSweep cur (s.selGroup cur (int32 (uint32 (-pid)))) sig.toNat
  else s.killSweep cur (s.selGroup cur cur.pgid) sig.toNat

def ptraceMayAttach (i : Fin procMax) (target : NProc) : Bool :=
  if me = i then false
  else if s.jailCanSee cur target = false then false
  else if cur.jailId ≠ target.jailId ∧ s.jailHostPriv cur = false then false
  else if s.jailHostPriv cur = true then true
  else if target.uid ≠ target.euid ∨ target.uid ≠ target.suid then false
  else cur.uid == target.uid && cur.euid == target.uid && cur.suid == target.uid

def ptraceAttach (pid : ℤ) : Answer :=
  match s.procFind (uint32 pid) with
  | none => s.fail esrch
  | some (i, t) =>
    if s.jailCanSee cur t = false then s.fail esrch
    else if t.tracerPid ≠ 0 then s.fail eperm
    else if s.ptraceMayAttach me cur i t = false then s.fail eperm
    else ⟨0, (s.set i { t with tracerPid := cur.pid }).procSendSignal i sigStop, [i]⟩

def pgidLocal (p : NProc) : ℕ :=
  match s.procFind (uint32 p.pgid) with
  | none => s.pidIn cur p
  | some (_, leader) => s.pidIn cur leader

def sysGetpgrp : ℕ :=
  if s.pgidLocal cur cur ≠ 0 then s.pgidLocal cur cur else s.pidIn cur cur

def sysGetpgid (pid : ℕ) : Answer :=
  if pid = 0 then ⟨s.sysGetpgrp cur, s, []⟩
  else if s.toGlobal cur (uint32 pid) = 0 then s.fail esrch
  else match s.procFind (s.toGlobal cur (uint32 pid)) with
    | none => s.fail esrch
    | some (_, p) =>
      if s.jailCanSee cur p = false then s.fail esrch else ⟨s.pgidLocal cur p, s, []⟩

def setpgidTarget (pid : ℕ) : Option (Fin procMax × NProc) :=
  if pid = 0 then some (me, cur)
  else if s.toGlobal cur (uint32 pid) = 0 then none
  else s.procFind (s.toGlobal cur (uint32 pid))

def setpgidDenied (i : Fin procMax) (p : NProc) : Bool :=
  i != me && (p.ppid != cur.pid || p.jailId != cur.jailId ||
    (!s.jailHostPriv cur && p.uid != cur.uid))

def setpgidGroup (p : NProc) (pgid : ℕ) : Option ℕ :=
  if pgid = 0 then some p.pid
  else if s.toGlobal cur (uint32 pgid) = 0 then none
  else (s.procFind (s.toGlobal cur (uint32 pgid))).map fun _ => s.toGlobal cur (uint32 pgid)

def sysSetpgid (pid pgid : ℕ) : Answer :=
  match s.setpgidTarget me cur pid with
  | none => s.fail esrch
  | some (i, p) =>
    if s.jailCanSee cur p = false then s.fail esrch
    else if s.setpgidDenied me cur i p = true then s.fail eperm
    else match s.setpgidGroup cur p pgid with
      | none => s.fail esrch
      | some group =>
        if group > procMax then s.fail einval
        else ⟨0, s.set i { p with pgid := group }, [i]⟩

/-- System call 124 asks neither the namespace nor the jail. -/
def getsid (s : NameSys) (cur : NProc) (pid : ℕ) : Answer :=
  if pid = 0 then ⟨cur.pgid, s, []⟩
  else match s.procFind (uint32 pid) with
    | none => s.fail esrch
    | some (_, p) => ⟨p.pgid, s, []⟩

end NameSys

inductive NameCall
  | kill (pid sig : ℤ)
  | tgkill (tgid tid sig : ℤ)
  | attach (pid : ℤ)
  | getpgid (pid : ℕ)
  | setpgid (pid pgid : ℕ)
  | getsid (pid : ℕ)
deriving DecidableEq

open NameCall

namespace NameCall

def run (s : NameSys) (me : Fin procMax) (cur : NProc) : NameCall → Answer
  | kill pid sig => s.sysKill me cur pid sig
  | tgkill _ tid sig => s.sysKill me cur tid sig
  | attach pid => s.ptraceAttach me cur pid
  | getpgid pid => s.sysGetpgid cur pid
  | setpgid pid pgid => s.sysSetpgid me cur pid pgid
  | getsid pid => s.getsid cur pid

def group : NameCall → Option ℤ
  | kill pid _ => if pid < -1 then some (-pid) else none
  | tgkill _ tid _ => if tid < -1 then some (-tid) else none
  | _ => none

end NameCall

namespace NameSys

/-- The process in slot `i` has a pid in the namespace of `cur`, and the jail lets it be seen. -/
def Visible (s : NameSys) (cur : NProc) (i : Fin procMax) : Prop :=
  ∃ p, s.proc i = some p ∧ s.pidIn cur p ≠ 0 ∧ s.jailCanSee cur p = true

def without (s : NameSys) (hide : Finset (Fin procMax)) : NameSys :=
  { s with proc := fun i => if i ∈ hide then none else s.proc i }

/-- A call acts on processes in sight only, and its result is the same without any of the
others. -/
structure Discreet (s : NameSys) (cur : NProc) (run : NameSys → Answer) : Prop where
  acts : ∀ i, i ∈ (run s).hits ∨ (run s).sys.proc i ≠ s.proc i → s.Visible cur i
  reveals : ∀ hide : Finset (Fin procMax), (∀ i ∈ hide, ¬ s.Visible cur i) →
    (run (s.without hide)).ret = (run s).ret

/-- Moreover a group is that of the leader with the local pid, as far as it is in sight. -/
structure Confined (s : NameSys) (me : Fin procMax) (cur : NProc) (call : NameCall) : Prop
    extends Discreet s cur fun s => call.run s me cur where
  group : ∀ g, call.group = some g → ∀ i p, s.proc i = some p →
    (s.selGroup cur (int32 (uint32 g)) i p = true ↔
      s.Visible cur i ∧ s.toGlobal cur g.toNat ≠ 0 ∧ p.pgid = s.toGlobal cur g.toNat)

/-- The tables are inverse to each other, and the caller has a pid in its own namespace. A process
that is not idle has the pid of its slot, idle ones are in no jail, and no group is negative. -/
structure Wf (s : NameSys) (me : Fin procMax) (cur : NProc) : Prop where
  here : s.proc me = some cur
  inverse : ∀ ns, ns ≠ 0 → (s.tables ns).Inverse
  own : s.pidIn cur cur ≠ 0
  pid : ∀ i p, s.proc i = some p → p.pid = i + 1 ∨ p.pid = 0 ∧ p.jailId = 0
  pgid : ∀ i p, s.proc i = some p → 0 ≤ p.pgid

variable {s : NameSys} {me i j : Fin procMax} {cur p q : NProc} {pid : ℕ} {n : ℕ} {sig : ℕ}
  {sel : Fin procMax → NProc → Bool} {hide : Finset (Fin procMax)}

theorem Wf.slot (h : s.Wf me cur) (hp : s.proc i = some p) (hq : s.proc j = some q)
    (hpid : p.pid ≠ 0) (heq : p.pid = q.pid) : i = j := by
  have hi := (h.pid i p hp).resolve_right fun hz => hpid hz.1
  have hj := (h.pid j q hq).resolve_right fun hz => hpid (heq.trans hz.1)
  exact Fin.ext (Nat.succ.inj (hi.symm.trans (heq.trans hj)))

theorem Discreet.quiet {f : NameSys → Answer} (hhits : (f s).hits = []) (hsys : (f s).sys = s)
    (hret : ∀ hide : Finset (Fin procMax), (∀ i ∈ hide, ¬ s.Visible cur i) →
      (f (s.without hide)).ret = (f s).ret) :
    s.Discreet cur f where
  acts := by
    intro i hi
    rw [hhits, hsys] at hi
    simp at hi
  reveals := hret

/-- The members that the jail shows have a pid in the namespace, and the local number is also the
global one, or nobody in sight is in a group that has it as its local or global number. -/
def GroupOk (s : NameSys) (cur : NProc) (g : ℤ) : Prop :=
  (∀ i p, s.proc i = some p → s.jailCanSee cur p = true → p.pgid = int32 (uint32 g) →
    s.pidIn cur p ≠ 0) ∧
  (s.toGlobal cur g.toNat ≠ 0 ∧ (s.toGlobal cur g.toNat : ℤ) = int32 (uint32 g) ∨
    ∀ i p, s.proc i = some p → s.jailCanSee cur p = true → s.pidIn cur p ≠ 0 →
      p.pgid ≠ int32 (uint32 g) ∧
        (s.toGlobal cur g.toNat ≠ 0 → p.pgid ≠ s.toGlobal cur g.toNat))

/-- The members of the caller's group that the jail shows and that it may signal have a pid in the
namespace, or no signal is sent. -/
def OwnGroupOk (s : NameSys) (cur : NProc) (sig : ℤ) : Prop :=
  sig ≤ 0 ∨ sig ≥ nsig ∨ ∀ i p, s.proc i = some p → s.jailCanSee cur p = true →
    p.pgid = cur.pgid → killPermitted cur p = true → s.pidIn cur p ≠ 0

def KillOk (s : NameSys) (cur : NProc) (pid sig : ℤ) : Prop :=
  (pid < -1 → s.GroupOk cur (-pid)) ∧ (pid = 0 → s.OwnGroupOk cur sig)

def AttachOk (s : NameSys) (cur : NProc) (pid : ℤ) : Prop :=
  ∀ i p, s.procFind (uint32 pid) = some (i, p) → s.jailCanSee cur p = true → s.pidIn cur p ≠ 0

/-- The leader of the group of the process that is named is in sight, or for the caller itself has
no pid in the namespace. -/
def GetpgidOk (s : NameSys) (cur : NProc) (pid : ℕ) : Prop :=
  (pid = 0 → ∀ l q, s.procFind (uint32 cur.pgid) = some (l, q) →
    s.pidIn cur q = 0 ∨ s.Visible cur l) ∧
  (pid ≠ 0 → ∀ i p, s.toGlobal cur (uint32 pid) ≠ 0 →
    s.procFind (s.toGlobal cur (uint32 pid)) = some (i, p) → s.jailCanSee cur p = true →
    ∀ l q, s.procFind (uint32 p.pgid) = some (l, q) → s.Visible cur l)

variable (h : s.Wf me cur)
include h

/-- The process with the local number of the group is not hidden by the jail, if the call asks for
it. -/
def SetpgidOk (s : NameSys) (me : Fin procMax) (cur : NProc) (pid pgid : ℕ) : Prop :=
  pgid ≠ 0 → ∀ i p, s.setpgidTarget me cur pid = some (i, p) → s.jailCanSee cur p = true →
    s.setpgidDenied me cur i p = false → s.toGlobal cur (uint32 pgid) ≠ 0 →
    ∀ l q, s.procFind (s.toGlobal cur (uint32 pgid)) = some (l, q) → s.jailCanSee cur q = true

def GetsidOk (s : NameSys) (cur : NProc) (pid : ℕ) : Prop :=
  pid ≠ 0 → ∀ i p, s.procFind (uint32 pid) = some (i, p) → s.Visible cur i

end NameSys

/-- Who has to be in sight for a call to be confined. `kill` with a positive pid or with -1 needs
nothing. -/
def NameCall.Ok (s : NameSys) (me : Fin procMax) (cur : NProc) : NameCall → Prop
  | kill pid sig => s.KillOk cur pid sig
  | tgkill _ tid sig => s.KillOk cur tid sig
  | attach pid => s.AttachOk cur pid
  | getpgid pid => s.GetpgidOk cur pid
  | setpgid pid pgid => s.SetpgidOk me cur pid pgid
  | getsid pid => s.GetsidOk cur pid

end Kyronix.Proc
