import Kyronix.Fs.Pipe
import Kyronix.Fs.Files

/-! Files that can be waited for (`vfs.c`, `eventfd.c`, `signalfd.c`, `inotify.c`, `inet_socket.c`,
`devfs.c`, `tty.c`): what a read, a write or an accept returns, and when it is announced as ready.
-/
namespace Kyronix.Fs

open Function

structure InEvent where
  wd : ℤ
  mask : UInt32
  cookie : UInt32
  name : Text
deriving DecidableEq

def InEvent.len (e : InEvent) : ℕ := if e.name = [] then 0 else (e.name.length + 1 + 3) / 4 * 4

inductive Data
  | nothing
  | bytes (l : List UInt8)
  | value (v : UInt64)
  | signal (sig : ℕ)
  | events (l : List InEvent)
  | overflow
deriving DecidableEq

inductive Reply
  | done (r : ℤ) (data : Data)
  | waits
deriving DecidableEq

namespace Reply

def fail (e : ℤ) : Reply := .done (-e) .nothing

def idle (nonblock intr : Bool) : Reply :=
  if nonblock = true then fail eagain else if intr = true then fail eintr else .waits

def Proceeds (r : Reply) : Prop := ∃ n d, r = .done n d ∧ n ≠ -eagain

end Reply

def pipeRead (p : Pipe) (len : ℕ) (intr : Bool) : Reply × Pipe :=
  if pipeValid p = false then (.fail eio, p)
  else match pipeReadLoop p len [] with
    | (.block, _, p) => (.idle false intr, p)
    | (_, out, p) => (.done out.length (.bytes out), p)

def pipeWrite (p : Pipe) (data : List UInt8) (intr : Bool) : Reply × Pipe :=
  if pipeValid p = false then (.fail eio, p)
  else if p.readRefs = 0 then (.fail epipe, p)
  else match pipeWriteLoop p data 0 with
    | (.ret, done, p) => (.done done .nothing, p)
    | (.sigpipe, done, p) => (if done = 0 then .fail epipe else .done done .nothing, p)
    | (.block, done, p) =>
      (if intr = false then .waits else if done = 0 then .fail eintr else .done done .nothing, p)

structure EventFd where
  counter : UInt64
  semaphore : Bool

def eventfdRead (e : EventFd) (nonblock : Bool) (len : ℕ) : Reply × EventFd :=
  if len < 8 then (.fail einval, e)
  else if e.counter ≠ 0 then
    if e.semaphore = true then (.done 8 (.value 1), { e with counter := e.counter - 1 })
    else (.done 8 (.value e.counter), { e with counter := 0 })
  else (.idle nonblock false, e)

def eventfdWrite (e : EventFd) (len : ℕ) (val : UInt64) : Reply × EventFd :=
  if len < 8 then (.fail einval, e)
  else if val = 0xffffffffffffffff then (.fail einval, e)
  else (.done 8 .nothing, { e with counter := e.counter + val })

structure TimerFd where
  intervalMs : UInt64
  nextTick : UInt64
  overruns : UInt64

def TimerFd.due (t : TimerFd) (now : UInt64) : Bool := t.nextTick ≠ 0 && t.nextTick ≤ now

def timerfdRead (t : TimerFd) (now : UInt64) (nonblock : Bool) (len : ℕ) : Reply × TimerFd :=
  if len < 8 then (.fail einval, t)
  else if t.due now = true then
    (.done 8 (.value (1 + t.overruns)), { t with
      overruns := 0
      nextTick := if t.intervalMs ≠ 0 then t.nextTick + t.intervalMs else 0 })
  else (.idle nonblock false, t)

def ctz (b : UInt64) : ℕ := ((List.range 64).find? fun i => b.toNat.testBit i).getD 64

def signalfdRead (mask pending : UInt64) (nonblock : Bool) (len : ℕ) (intr : Bool) :
    Reply × UInt64 :=
  if len < 128 then (.fail einval, pending)
  else
    let bits := pending &&& mask
    if bits ≠ 0 then
      let sig := ctz bits + 1
      (.done 128 (.signal sig), pending &&& ~~~ (1 <<< (sig - 1).toUInt64))
    else (.idle nonblock intr, pending)

structure Watch where
  node : ℕ
  wd : ℤ
  mask : UInt32
deriving DecidableEq

structure Inotify where
  watches : List Watch
  queue : List InEvent
  overflow : Bool

def inotifyTake (len : ℕ) : ℕ → List InEvent → List InEvent × List InEvent × ℕ
  | done, [] => ([], [], done)
  | done, e :: es =>
    if done + 16 + e.len ≤ len then
      let r := inotifyTake len (done + 16 + e.len) es
      (e :: r.1, r.2)
    else ([], e :: es, done)

def inotifyRead (st : Inotify) (len : ℕ) (nonblock intr : Bool) : Reply × Inotify :=
  if st.overflow = true then
    if len < 16 then (.fail einval, st) else (.done 16 .overflow, { st with overflow := false })
  else if st.queue ≠ [] then
    match inotifyTake len 0 st.queue with
    | (out, rest, done) =>
      if done ≠ 0 then (.done done (.events out), { st with queue := rest })
      else (.fail einval, { st with queue := rest })
  else (.idle nonblock intr, st)

inductive InetType
  | stream
  | dgram
  | raw
deriving DecidableEq

def rxBufSz : UInt32 := 16384

/-- Pointers to control blocks are told by whether they are set, and `established` is the state of
the one for streams. -/
structure NetConn where
  type : InetType
  pcb : Bool
  upcb : Bool
  rpcb : Bool
  established : Bool
  isServer : Bool
  phantomFake : Bool
  peerClosed : Bool
  error : Bool
  rxBuf : ℕ → UInt8
  rxHead : UInt32
  rxTail : UInt32
  udq : Fin 8 → List UInt8
  udqHead : Fin 8
  udqTail : Fin 8
  acceptQueue : List ℕ

namespace NetConn

def ringAvail (c : NetConn) : UInt32 := (c.rxHead - c.rxTail) &&& (rxBufSz - 1)

def ringPop (c : NetConn) (want : UInt32) : List UInt8 × NetConn :=
  let want := min want c.ringAvail
  (Lib.Ring.view rxBufSz.toNat c.rxBuf c.rxTail.toNat want.toNat,
    { c with rxTail := (c.rxTail + want) &&& (rxBufSz - 1) })

end NetConn

def inetFdRead (c : NetConn) (len : ℕ) (nonblock : Bool) : Reply × NetConn :=
  match c.type with
  | .stream =>
    if c.ringAvail = 0 then
      if c.peerClosed = true ∨ c.error = true ∨ c.pcb = false then (.done 0 .nothing, c)
      else (.idle nonblock false, c)
    else
      let r := c.ringPop len.toUInt32
      (.done r.1.length (.bytes r.1), r.2)
  | _ =>
    if c.udqHead = c.udqTail then (.idle nonblock false, c)
    else
      let out := (c.udq c.udqTail).take len
      (.done out.length (.bytes out), { c with udqTail := c.udqTail + 1 })

def inetPollIn (c : NetConn) : Bool :=
  match c.type with
  | .stream => c.ringAvail ≠ 0 || c.peerClosed || c.error
  | _ => c.udqHead ≠ c.udqTail

def inetPollOut (c : NetConn) : Bool :=
  match c.type with
  | .stream => c.phantomFake || c.error || (c.pcb && c.established)
  | .dgram => c.upcb
  | .raw => c.rpcb

structure Room where
  fd : Option ℕ
  mem : Bool

def Room.reply (room : Room) : Reply :=
  match room.fd with
  | none => .fail emfile
  | some fd => if room.mem = true then .done fd .nothing else .fail enomem

def inetAccept (c : NetConn) (nonblock : Bool) (room : Room) : Reply × NetConn :=
  if c.isServer = false then (.fail ebadf, c)
  else match c.acceptQueue with
    | [] => (.idle nonblock false, c)
    | _ :: rest => (room.reply, { c with acceptQueue := rest })

def acceptUnix (s : Sock) (nonblock : Bool) (room : Room) : Reply × Sock :=
  if s.state ≠ .listening then (.fail einval, s)
  else if s.backlog = 0 then (.idle nonblock false, s)
  else (room.reply, { s with backlog := s.backlog - 1 })

def unixSocketHasPending (s : Sock) : Bool := s.state = .listening && s.backlog ≠ 0

inductive MemDev
  | null
  | zero
  | full
  | random
  | urandom
  | mem
  | stdout
  | stderr
deriving DecidableEq

def MemDev.read (d : MemDev) (len : ℕ) : ℕ :=
  match d with
  | .zero | .full | .random | .urandom => len
  | .null | .mem | .stdout | .stderr => 0

def ptyMax : ℕ := 16

structure Pty where
  m2s : ℕ
  s2m : ℕ
  masterOpen : Bool
  slaveOpen : Bool

structure Tty where
  buf : List UInt8
  canonical : Bool
  veof : UInt8
  vmin : UInt8
  hardware : Bool

def Tty.dataReady (t : Tty) : Bool := t.buf ≠ [] || t.hardware

/-- The loop of `tty_read`: what is taken, what is left, and whether it ends for lack of room or at
the end character. -/
def Tty.take (t : Tty) : ℕ → List UInt8 → List UInt8 × List UInt8 × Bool
  | 0, buf => ([], buf, true)
  | _ + 1, [] => ([], [], false)
  | n + 1, ch :: buf =>
    if t.canonical = true ∧ ch = t.veof then ([], buf, true)
    else
      let r := t.take n buf
      (ch :: r.1, r.2)

def ttyRead (t : Tty) (len : ℕ) (intr : Bool) : Reply × Tty :=
  if len = 0 then (.done 0 .nothing, t)
  else
    let vmin := min (max t.vmin.toNat 1) len
    match t.take len t.buf with
    | (out, rest, ended) =>
      (if ended = true ∨ vmin ≤ out.length then .done out.length (.bytes out)
        else .idle false intr, { t with buf := rest })

def evdevRead (count len : ℕ) (intr : Bool) : Reply × ℕ :=
  if len < 24 then (.fail einval, count)
  else if count = 0 then (.idle false intr, count)
  else
    let n := min count (len / 24)
    (.done (24 * n) .nothing, count - n)

inductive ChrDev
  | mem (d : MemDev)
  | tty
  | ptym (i : Fin ptyMax)
  | ptys (i : Fin ptyMax)
  | evdev (i : Fin 2)
deriving DecidableEq

inductive Obj
  | event (k : ℕ)
  | timer (k : ℕ)
  | signal (k : ℕ)
  | inotify (k : ℕ)
  | inet (k : ℕ)
  | sockets (rd wr : ℕ)
  | pipe (k : ℕ) (write : Bool)
  | unix (k : ℕ)
  | chr (d : ChrDev)
deriving DecidableEq

structure PFile where
  obj : Obj
  acc : AccMode
  nonblock : Bool
deriving DecidableEq

structure PollSys where
  ticks : UInt64
  pending : ℕ → UInt64
  pipe : ℕ → Pipe
  event : ℕ → EventFd
  timer : ℕ → TimerFd
  sigMask : ℕ → UInt64
  inotify : ℕ → Inotify
  conn : ℕ → NetConn
  sock : ℕ → Sock
  pty : Fin ptyMax → Option Pty
  tty : Tty
  evdev : Fin 2 → ℕ

namespace PollSys

variable (s : PollSys) (t : ℕ)

def setPipe (k : ℕ) (p : Pipe) : PollSys := { s with pipe := update s.pipe k p }

def readable (p : Pipe) : Bool := p.count ≠ 0 || p.writeRefs = 0
def writable (p : Pipe) : Bool := p.count < pipeBufsz && p.readRefs ≠ 0

def chrPollin : ChrDev → Bool
  | .mem _ => s.tty.dataReady
  | .tty => s.tty.dataReady
  | .ptym i => (s.pty i).any fun p => (s.pipe p.s2m).count ≠ 0 || !p.slaveOpen
  | .ptys i => (s.pty i).any fun p => (s.pipe p.m2s).count ≠ 0 || !p.masterOpen
  | .evdev i => s.evdev i ≠ 0

variable (f : PFile)

def fdPollin : Bool :=
  match f.obj with
  | .event k => (s.event k).counter ≠ 0
  | .timer k => (s.timer k).due s.ticks
  | .signal k => s.pending t &&& s.sigMask k ≠ 0
  | .inotify k => (s.inotify k).queue ≠ [] || (s.inotify k).overflow
  | .inet k => inetPollIn (s.conn k)
  | .sockets rd _ => readable (s.pipe rd)
  | .pipe k write => !write && readable (s.pipe k)
  | .unix k => unixSocketHasPending (s.sock k)
  | .chr d => s.chrPollin d

def fdPollout : Bool :=
  match f.obj with
  | .event k => (s.event k).counter < 0xfffffffffffffffe
  | .timer _ | .signal _ | .inotify _ | .unix _ => false
  | .inet k => inetPollOut (s.conn k)
  | .sockets _ wr => writable (s.pipe wr)
  | .pipe k write => write && writable (s.pipe k)
  | .chr _ => true

def hasPollin : ChrDev → Bool
  | .mem _ | .tty => false
  | _ => true

def chrRead (d : ChrDev) (len : ℕ) (intr : Bool) : Reply × PollSys :=
  match d with
  | .mem d => (.done (d.read len) .nothing, s)
  | .tty =>
    let r := ttyRead s.tty len intr
    (r.1, { s with tty := r.2 })
  | .ptym i =>
    match s.pty i with
    | none => (.fail einval, s)
    | some p =>
      let r := pipeRead (s.pipe p.s2m) len intr
      (r.1, s.setPipe p.s2m r.2)
  | .ptys i =>
    match s.pty i with
    | none => (.fail einval, s)
    | some p =>
      let r := pipeRead (s.pipe p.m2s) len intr
      (r.1, s.setPipe p.m2s r.2)
  | .evdev i =>
    let r := evdevRead (s.evdev i) len intr
    (r.1, { s with evdev := update s.evdev i r.2 })

def pipeReadEx (k len : ℕ) (nonblock intr : Bool) : Reply × PollSys :=
  if nonblock = true ∧ (s.pipe k).count = 0 ∧ (s.pipe k).writeRefs ≠ 0 then (.fail eagain, s)
  else
    let r := pipeRead (s.pipe k) len intr
    (r.1, s.setPipe k r.2)

def readObj (len : ℕ) (force intr : Bool) : Reply × PollSys :=
  match f.obj with
  | .event k =>
    let r := eventfdRead (s.event k) f.nonblock len
    (r.1, { s with event := update s.event k r.2 })
  | .timer k =>
    let r := timerfdRead (s.timer k) s.ticks f.nonblock len
    (r.1, { s with timer := update s.timer k r.2 })
  | .signal k =>
    let r := signalfdRead (s.sigMask k) (s.pending t) f.nonblock len intr
    (r.1, { s with pending := update s.pending t r.2 })
  | .inotify k =>
    let r := inotifyRead (s.inotify k) len f.nonblock intr
    (r.1, { s with inotify := update s.inotify k r.2 })
  | .inet k =>
    let r := inetFdRead (s.conn k) len f.nonblock
    (r.1, { s with conn := update s.conn k r.2 })
  | .sockets rd _ => s.pipeReadEx rd len (f.nonblock || force) intr
  | .pipe k write =>
    if write = true then (.fail ebadf, s) else s.pipeReadEx k len (f.nonblock || force) intr
  | .unix _ => (.fail (if f.acc = .wronly then ebadf else einval), s)
  | .chr d =>
    if f.acc = .wronly then (.fail ebadf, s)
    else if f.nonblock = true ∧ hasPollin d = true ∧ s.chrPollin d = false then (.fail eagain, s)
    else s.chrRead d len intr

def fdReadEx (len : ℕ) (force intr : Bool) : Reply × PollSys :=
  if len = 0 then (.done 0 .nothing, s) else s.readObj t f len force intr

def accept (room : Room) : Reply × PollSys :=
  match f.obj with
  | .inet k =>
    let r := inetAccept (s.conn k) f.nonblock room
    (r.1, { s with conn := update s.conn k r.2 })
  | .unix k =>
    let r := acceptUnix (s.sock k) f.nonblock room
    (r.1, { s with sock := update s.sock k r.2 })
  | _ => (.fail ebadf, s)

def pipeWriteEx (k : ℕ) (data : List UInt8) (nonblock intr : Bool) : Reply × PollSys :=
  let p := s.pipe k
  if nonblock = true ∧ p.readRefs ≠ 0 then
    if pipeBufsz - p.count = 0 then (.fail eagain, s)
    else
      let r := pipeWrite p (data.take (pipeBufsz - p.count)) intr
      (r.1, s.setPipe k r.2)
  else
    let r := pipeWrite p data intr
    (r.1, s.setPipe k r.2)

def le64 (data : List UInt8) : UInt64 :=
  (data.take 8).foldr (fun b v => v * 256 + b.toUInt64) 0

def fdWriteEx (data : List UInt8) (force intr : Bool) : Option (Reply × PollSys) :=
  match f.obj with
  | .event k =>
    if data = [] then some (.done 0 .nothing, s)
    else
      let r := eventfdWrite (s.event k) data.length (le64 data)
      some (r.1, { s with event := update s.event k r.2 })
  | .sockets _ wr =>
    if data = [] then some (.done 0 .nothing, s)
    else some (s.pipeWriteEx wr data (f.nonblock || force) intr)
  | .pipe k write =>
    if data = [] then some (.done 0 .nothing, s)
    else if write = false then some (.fail ebadf, s)
    else some (s.pipeWriteEx k data (f.nonblock || force) intr)
  | _ => none

end PollSys

end Kyronix.Fs
