import Kyronix.Fs.PollFile

/-! Descriptors that are sent over a pair of connected sockets (`socket.c`, `pipe.c`). They wait in
a short queue beside the bytes of the pipe. Nothing else runs while a call waits, so that a wait
ends with a signal. -/
namespace Kyronix.Fs.SockPair

open Lib.Run

def pipeAncSlots : ℕ := 8
def pipeAncMaxfds : ℕ := 4
def iovMax : ℕ := 1024
def int64Max : ℕ := 2 ^ 63 - 1
def cmsgHdrLen : ℕ := 16
def controlMax : ℕ := 4096

/-- The files of one message. `start` and `bytes` are the place of its data in the stream. -/
structure Anc where
  files : List ℕ
  start : ℕ
  bytes : ℕ
deriving DecidableEq

/-- One direction: the queue from `anc_rd` to `anc_wr`, and how many bytes ever went in and came
out. -/
structure Chan where
  pipe : Pipe
  anc : List Anc
  written : ℕ
  taken : ℕ

inductive Event where
  -- a `sendmsg` that reported success was asked to send descriptors, and queued some
  | sent (asked queued : ℕ)
  -- a `recvmsg` took a message's files and the bytes from `start` on
  | received (m : Anc) (start bytes : ℕ)
deriving DecidableEq

/-- The two ends; `chan e` carries what `e` sends. A file reference has a number of its own. -/
structure Pair where
  chan : Bool → Chan
  openEnd : Bool → Bool
  nextFile : ℕ
  installed : List ℕ
  closed : List ℕ
  log : List Event

variable (s : Pair) (e : Bool)

def Pair.setChan (c : Chan) : Pair :=
  { s with chan := Function.update s.chan e c }

def Pair.boot : Pair where
  chan := fun _ => ⟨pipeAlloc 1 1, [], 0, 0⟩
  openEnd := fun _ => true
  nextFile := 0
  installed := []
  closed := []
  log := []

def code : Reply → ℤ
  | .done r _ => r
  | .waits => -eintr

structure Segment where
  data : List UInt8
  readable : Bool

def fdWriteEx (isOpen : Bool) (p : Pipe) (seg : Segment) (nonblock : Bool) : ℤ × Pipe :=
  if isOpen = false then (-ebadf, p)
  else if seg.data = [] then (0, p)
  else if seg.readable = false then (-efault, p)
  else if nonblock = true ∧ p.readRefs ≠ 0 then
    if pipeBufsz - p.count = 0 then (-eagain, p)
    else
      let r := pipeWrite p (seg.data.take (pipeBufsz - p.count)) true
      (code r.1, r.2)
  else
    let r := pipeWrite p seg.data true
    (code r.1, r.2)

structure Buffer where
  len : ℕ
  writable : Bool

def fdReadEx (isOpen : Bool) (p : Pipe) (buf : Buffer) (nonblock : Bool) : ℤ × Pipe :=
  if isOpen = false then (-ebadf, p)
  else if buf.len = 0 then (0, p)
  else if buf.writable = false then (-efault, p)
  else if nonblock = true ∧ p.count = 0 ∧ p.writeRefs ≠ 0 then (-eagain, p)
  else
    let r := pipeRead p buf.len true
    (code r.1, r.2)

def fdPeekEx (isOpen : Bool) (p : Pipe) (buf : Buffer) (skip : ℕ) (nonblock : Bool) : ℤ :=
  if isOpen = false then -ebadf
  else if buf.len = 0 then 0
  else if buf.writable = false then -efault
  else if nonblock = true ∧ p.count ≤ skip ∧ p.writeRefs ≠ 0 then -eagain
  else if pipeValid p = false then -eio
  else
    match pipePeekLoop p buf.len (UInt64.ofNat skip) [] with
    | (.block, _) => -eintr
    | (_, out) => out.length

-- what a call returns that fails after it has moved `total` bytes
def partly (total : ℕ) (err : ℤ) : ℤ := if total ≠ 0 then total else err

def eachPart {α : Type*} (len : α → ℕ) (move : α → ℕ → Pipe → ℤ × Pipe) :
    List α → ℕ → Pipe → Option ℤ × ℕ × Pipe
  | [], total, p => (none, total, p)
  | a :: as, total, p =>
    if len a > int64Max - total then (some (partly total (-einval)), total, p)
    else
      let r := move a total p
      if r.1 < 0 then (some (partly total r.1), total, r.2)
      else if r.1.toNat < len a then (none, total + r.1.toNat, r.2)
      else eachPart len move as (total + r.1.toNat) r.2

inductive SentFd where
  | bad
  | pipe
  -- whether there is memory for one more reference
  | file (room : Bool)
deriving DecidableEq

structure Control where
  null : Bool
  len : ℕ
  readable : Bool
  -- `SOL_SOCKET` and `SCM_RIGHTS`
  rights : Bool
  cmsgLen : ℕ
  fd : ℕ → SentFd

variable (c : Control) (args : RecvArgs)

def Control.nfds : ℕ := (c.cmsgLen - cmsgHdrLen) / 4

-- a readable header for descriptors that fits its buffer
def Control.valid : Bool :=
  !c.null && cmsgHdrLen ≤ c.len && c.readable && c.rights && cmsgHdrLen ≤ c.cmsgLen &&
    c.cmsgLen ≤ c.len

def Control.asked : ℕ := if c.valid = true then c.nfds else 0

structure SendArgs where
  hdrOk : Bool
  iov : List Segment
  iovOk : Bool
  nonblock : Bool
  ctl : Control

def cloned (n : ℕ) : ℕ :=
  ((List.range n).takeWhile fun i => c.fd i = .file true).length

def sendRights (start total : ℕ) : ℤ × ℕ × Pair :=
  if s.openEnd e = false ∨ c.nfds = 0 then (total, 0, s)
  else
    let n := min c.nfds pipeAncMaxfds
    let files := List.range' s.nextFile (cloned c n)
    let s := { s with nextFile := s.nextFile + cloned c n }
    if cloned c n ≠ n ∨ (s.chan e).anc.length + 1 = pipeAncSlots then
      (partly total (-ebadf), 0, { s with closed := files ++ s.closed })
    else
      (total, n, s.setChan e { s.chan e with anc := (s.chan e).anc ++ [⟨files, start, total⟩] })

def sendData (args : SendArgs) : Option ℤ × ℕ × Pipe :=
  eachPart (fun seg : Segment => seg.data.length)
    (fun seg _ p => fdWriteEx (s.openEnd e) p seg args.nonblock) args.iov 0 (s.chan e).pipe

-- the data is out, and the stream as much longer
def Pair.wrote (p : Pipe) (n : ℕ) : Pair :=
  s.setChan e { s.chan e with pipe := p, written := (s.chan e).written + n }

def sendmsg (args : SendArgs) : ℤ × ℕ × Pair :=
  if args.hdrOk = false then (-efault, 0, s)
  else if args.iov.length > iovMax then (-einval, 0, s)
  else if args.iov ≠ [] ∧ args.iovOk = false then (-efault, 0, s)
  else
    match sendData s e args with
    | (some r, total, p) => (r, 0, s.wrote e p total)
    | (none, total, p) =>
      let start := (s.chan e).written
      let s := s.wrote e p total
      if args.ctl.len > controlMax then (partly total (-einval), 0, s)
      else if args.ctl.valid = true then sendRights s e args.ctl start total
      else (total, 0, s)

def sysSocketSendmsg (args : SendArgs) : ℤ × Pair :=
  let r := sendmsg s e args
  if r.1 < 0 then (r.1, r.2.2)
  else (r.1, { r.2.2 with log := r.2.2.log ++ [.sent args.ctl.asked r.2.1] })

structure RecvArgs where
  hdrOk : Bool
  iov : List Buffer
  iovOk : Bool
  nonblock : Bool
  peek : Bool
  null : Bool
  len : ℕ
  writable : Bool
  passcred : Bool
  -- how many more descriptors the receiver may have
  room : ℕ

def align8 (n : ℕ) : ℕ := (n + 7) / 8 * 8

def recvData : Option ℤ × ℕ × Pipe :=
  eachPart Buffer.len
    (fun buf total p =>
      if args.peek = true then (fdPeekEx (s.openEnd e) p buf total args.nonblock, p)
      else fdReadEx (s.openEnd e) p buf args.nonblock)
    args.iov 0 (s.chan (!e)).pipe

-- the bytes are taken; a look at them takes none
def Pair.took (p : Pipe) (n : ℕ) : Pair :=
  s.setChan (!e) { s.chan (!e) with pipe := p, taken := (s.chan (!e)).taken + n }

def installFiles (files : List ℕ) : Pair :=
  if args.null = true ∨ args.len < align8 (cmsgHdrLen + files.length * 4) ∨
      args.writable = false then
    { s with closed := files ++ s.closed }
  else
    { s with
      installed := files.take args.room ++ s.installed
      closed := files.drop args.room ++ s.closed }

def recvRights (start total : ℕ) : Option Pair :=
  match (s.chan (!e)).anc with
  | [] => none
  | m :: rest =>
    let s := s.setChan (!e) { s.chan (!e) with anc := rest }
    let s := installFiles s args (m.files.take pipeAncMaxfds)
    some { s with log := s.log ++ [.received m start total] }

def credSpace : ℕ := align8 (cmsgHdrLen + 12)

def sysSocketRecvmsg : ℤ × Pair :=
  if args.hdrOk = false then (-efault, s)
  else if args.iov.length > iovMax then (-einval, s)
  else if args.iov ≠ [] ∧ args.iovOk = false then (-efault, s)
  else
    match recvData s e args with
    | (some r, total, p) => (r, s.took e p (if args.peek = true then 0 else total))
    | (none, total, p) =>
      let start := (s.chan (!e)).taken
      let s := s.took e p (if args.peek = true then 0 else total)
      if args.len > controlMax then (partly total (-einval), s)
      else
        match (if s.openEnd e = true ∧ args.peek = false then recvRights s e args start total
          else none) with
        | some s => (total, s)
        | none =>
          if args.passcred = true ∧ args.null = false ∧ args.len ≥ credSpace ∧
              args.writable = false then (-efault, s)
          else (total, s)

def sysRead (buf : Buffer) (nonblock : Bool) : ℤ × Pair :=
  let r := fdReadEx (s.openEnd e) (s.chan (!e)).pipe buf nonblock
  (r.1, s.took e r.2 r.1.toNat)

def pipeFree : Pair :=
  let c := s.chan e
  { s.setChan e { c with pipe := { c.pipe with magic := 0 }, anc := [] } with
    closed := c.anc.flatMap Anc.files ++ s.closed }

-- the last of the references frees the pipe
def pipeEndpointPut (p : Pipe) : Pair :=
  let s := s.setChan e { s.chan e with pipe := p }
  if p.readRefs = 0 ∧ p.writeRefs = 0 then pipeFree s e else s

def pipeUnrefRead : Pair :=
  let p := (s.chan e).pipe
  if p.readRefs = 0 then s else pipeEndpointPut s e { p with readRefs := p.readRefs - 1 }

def pipeUnrefWrite : Pair :=
  let p := (s.chan e).pipe
  if p.writeRefs = 0 then s else pipeEndpointPut s e { p with writeRefs := p.writeRefs - 1 }

def sysClose : ℤ × Pair :=
  if s.openEnd e = false then (-ebadf, s)
  else
    let s := { s with openEnd := Function.update s.openEnd e false }
    (0, pipeUnrefWrite (pipeUnrefRead s (!e)) e)

inductive PairCall where
  | send (e : Bool) (args : SendArgs)
  | recv (e : Bool) (args : RecvArgs)
  | read (e : Bool) (buf : Buffer) (nonblock : Bool)
  | close (e : Bool)

def pairStep : PairCall → Pair
  | .send e args => (sysSocketSendmsg s e args).2
  | .recv e args => (sysSocketRecvmsg s e args).2
  | .read e buf nonblock => (sysRead s e buf nonblock).2
  | .close e => (sysClose s e).2

def Pair.queued (s : Pair) : List ℕ :=
  ((s.chan false).anc ++ (s.chan true).anc).flatMap Anc.files

structure Clean (s : Pair) : Prop where
  -- a call that reported success sent all it was asked to
  all : ∀ asked queued, .sent asked queued ∈ s.log → queued = asked
  -- files come with the first byte of their message, and with no other message's bytes
  together : ∀ m start n, .received m start n ∈ s.log → start = m.start ∧ 0 < n ∧ n ≤ m.bytes
  -- and not later
  waiting : ∀ e, ∀ m ∈ (s.chan e).anc, (s.chan e).taken ≤ m.start

structure Conserved (s : Pair) : Prop extends Clean s where
  -- each reference that was taken is in one place
  once : ∀ f < s.nextFile, (s.queued ++ s.installed ++ s.closed).count f = 1

/-- At most four descriptors, each of a file that can be sent, by a call that comes to send them and
finds room in the queue. -/
structure SendsAll (s : Pair) (e : Bool) (args : SendArgs) : Prop where
  isOpen : s.openEnd e = true
  data : (sendData s e args).1 = none
  short : args.ctl.len ≤ controlMax
  few : args.ctl.nfds ≤ pipeAncMaxfds
  files : ∀ i < args.ctl.nfds, args.ctl.fd i = .file true
  room : (s.chan e).anc.length + 1 < pipeAncSlots

def recvBytes : ℕ :=
  if args.hdrOk = false ∨ args.iov.length > iovMax ∨ (args.iov ≠ [] ∧ args.iovOk = false) ∨
      args.peek = true then 0
  else (recvData s e args).2.1

def recvPops : Bool :=
  args.hdrOk && args.iov.length ≤ iovMax && (args.iov = [] || args.iovOk) && !args.peek &&
    (recvData s e args).1 = none && args.len ≤ controlMax && s.openEnd e

/-- A call that takes bytes while files wait either stops before the first byte of the oldest
message, or takes them, from that byte on and not past that message. -/
def TakesFit (c : Chan) (n : ℕ) (pops : Bool) : Prop :=
  ∀ m, c.anc.head? = some m →
    if pops = true then c.taken = m.start ∧ 0 < n ∧ n ≤ m.bytes else c.taken + n ≤ m.start

def PairOk : PairCall → Prop
  | .send e args => args.ctl.asked = 0 ∨ (sysSocketSendmsg s e args).1 < 0 ∨ SendsAll s e args
  | .recv e args => TakesFit (s.chan (!e)) (recvBytes s e args) (recvPops s e args)
  | .read e buf nonblock =>
    TakesFit (s.chan (!e)) (sysRead s e buf nonblock).1.toNat false
  | .close _ => True

end Kyronix.Fs.SockPair
