import Kyronix.Lib.Run
import Kyronix.Fs.PipeStream

/-! Sleeping and waking on one pipe (`pipe.c`). A call is cut where it can be interleaved: at its
locked section, at each `pipe_wake`, and around the sleep. A signal may come at any time. -/
namespace Kyronix.Fs
open Lib Lib.Run Function List

variable {T : Type*}

def PipeCall.wantRead : PipeCall → Bool
  | .write _ _ => false
  | _ => true

inductive Pc where
  | idle
  | lock (c : PipeCall)
  | wake (wantRead : Bool) (next : Pc)
  | consume (c : PipeCall)
  | asleep (c : PipeCall)
  | cancel (c : PipeCall)
  | check (c : PipeCall)
  | put

structure WaitSys (T : Type*) where
  pipe : Pipe
  endpointRefs : ℕ
  readerWaiters : T → Bool
  writerWaiters : T → Bool
  pc : T → Pc
  -- of each task: its state is PROC_WAITING, `blocked_pipe` is this pipe, `blocked_pipe_read`, and
  -- a signal that ends a blocking call is pending
  waiting : T → Bool
  blockedPipe : T → Bool
  blockedPipeRead : T → Bool
  pending : T → Bool

open WaitSys

def waitStart (T : Type*) (writeRefs readRefs : ℕ) : WaitSys T where
  pipe := pipeAlloc writeRefs readRefs
  endpointRefs := writeRefs + readRefs
  readerWaiters _ := false
  writerWaiters _ := false
  pc _ := .idle
  waiting _ := false
  blockedPipe _ := false
  blockedPipeRead _ := false
  pending _ := false

def pipeWake (s : WaitSys T) (wantRead : Bool) : WaitSys T :=
  let mask := if wantRead then s.readerWaiters else s.writerWaiters
  { s with
    readerWaiters := if wantRead then fun _ => false else s.readerWaiters
    writerWaiters := if wantRead then s.writerWaiters else fun _ => false
    waiting := fun t =>
      s.waiting t && !(mask t && s.blockedPipe t && (s.blockedPipeRead t == wantRead)) }

def pipeFree (s : WaitSys T) : WaitSys T :=
  let waiters := fun t => s.readerWaiters t || s.writerWaiters t
  { s with
    pipe := { s.pipe with magic := 0 }
    readerWaiters := fun _ => false
    writerWaiters := fun _ => false
    blockedPipe := fun t => s.blockedPipe t && !waiters t
    waiting := fun t => s.waiting t && !waiters t }

def pipeEndpointPut (s : WaitSys T) : WaitSys T :=
  let s' := { s with endpointRefs := s.endpointRefs - 1 }
  if s.endpointRefs = 1 then pipeFree s' else s'

def WaitSys.setRefs (s : WaitSys T) (writeRefs readRefs endpointRefs : ℕ) : WaitSys T :=
  { s with
    pipe := { s.pipe with writeRefs := writeRefs, readRefs := readRefs }
    endpointRefs := endpointRefs }

section calls

variable [DecidableEq T]

variable (s : WaitSys T) (t : T)

def WaitSys.goto (pc : Pc) : WaitSys T :=
  { s with pc := update s.pc t pc }

def pipeBlockLocked (wantRead : Bool) : WaitSys T :=
  { s with
    blockedPipe := update s.blockedPipe t true
    blockedPipeRead := update s.blockedPipeRead t wantRead
    waiting := update s.waiting t true
    readerWaiters := if wantRead then update s.readerWaiters t true else s.readerWaiters
    writerWaiters := if wantRead then s.writerWaiters else update s.writerWaiters t true }

def pipeCancelWait : WaitSys T :=
  if !s.blockedPipe t then s
  else { s with
    readerWaiters := update s.readerWaiters t false
    writerWaiters := update s.writerWaiters t false
    blockedPipe := update s.blockedPipe t false }

-- `counts` says that the signal is one that ends a blocking call; every signal makes its task ready
def procSendSignal (counts : Bool) : WaitSys T :=
  { s with
    pending := update s.pending t (s.pending t || counts)
    waiting := update s.waiting t false }

def WaitSys.readSection (len : ℕ) : WaitSys T :=
  match pipeReadLoop s.pipe len [] with
  | (.block, _, _) => (pipeBlockLocked s t true).goto t (.consume (.read len))
  -- only a loop that ran to its end goes on to `pipe_wake`
  | (_, out, p) =>
    { s with pipe := p }.goto t (if out.length < len then .idle else .wake false .idle)

def WaitSys.peekSection (len : ℕ) (skip : UInt64) : WaitSys T :=
  match pipePeekLoop s.pipe len skip [] with
  | (.block, _) => (pipeBlockLocked s t true).goto t (.consume (.peek len skip))
  | _ => s.goto t .idle

def WaitSys.writeSection (data : List UInt8) (done : ℕ) : WaitSys T :=
  match pipeWriteLoop s.pipe data done with
  | (.block, d, p) =>
    (pipeBlockLocked { s with pipe := p } t false).goto t (.wake true (.consume (.write data d)))
  | (.sigpipe, _, p) => (procSendSignal { s with pipe := p } t true).goto t .idle
  | (.ret, _, p) => { s with pipe := p }.goto t (.wake true .idle)

def WaitSys.lockedSection : PipeCall → WaitSys T
  | .read len => s.readSection t len
  | .peek len skip => s.peekSection t len skip
  | .write data done => s.writeSection t data done

-- `consume` to `check` is `pipe_block_or_consume_signal` and the test for a signal that follows it
def WaitSys.next (s : WaitSys T) (t : T) : WaitSys T :=
  match s.pc t with
  | .idle => s
  | .lock c => s.lockedSection t c
  | .wake wantRead pc => (pipeWake s wantRead).goto t pc
  | .consume c =>
    { s with
      waiting := update s.waiting t (s.waiting t && !s.pending t) }.goto t (.asleep c)
  | .asleep c => if s.waiting t then s else s.goto t (.cancel c)
  | .cancel c => (pipeCancelWait s t).goto t (.check c)
  | .check c => s.goto t (if s.pending t then .idle else .lock c)
  | .put => (pipeEndpointPut s).goto t .idle

inductive WaitAct (T : Type*) where
  | read (t : T) (len : ℕ)
  | peek (t : T) (len : ℕ) (skip : UInt64)
  | write (t : T) (data : List UInt8)
  | next (t : T)
  | signal (t : T) (counts : Bool)
  | deliver (t : T)
  | refRead
  | refWrite
  | unrefRead (t : T)
  | unrefWrite (t : T)

def Pc.isIdle : Pc → Bool
  | .idle => true
  | _ => false

def WaitSys.enter (c : PipeCall) : WaitSys T :=
  if (s.pc t).isIdle && pipeValid s.pipe then s.goto t (.lock c) else s

def WaitSys.enterWrite (data : List UInt8) : WaitSys T :=
  if (s.pc t).isIdle && pipeValid s.pipe then
    if s.pipe.readRefs = 0 then procSendSignal s t true
    else if data.length = 0 then s
    else s.goto t (.lock (.write data 0))
  else s

def pipeUnrefRead : WaitSys T :=
  if s.pipe.readRefs = 0 then s
  else (s.setRefs s.pipe.writeRefs (s.pipe.readRefs - 1) s.endpointRefs).goto t
    (if s.pipe.readRefs = 1 then .wake false .put else .put)

def pipeUnrefWrite : WaitSys T :=
  if s.pipe.writeRefs = 0 then s
  else (s.setRefs (s.pipe.writeRefs - 1) s.pipe.readRefs s.endpointRefs).goto t
    (if s.pipe.writeRefs = 1 then .wake true .put else .put)

def WaitSys.step : WaitAct T → WaitSys T
  | .read t len => s.enter t (.read len)
  | .peek t len skip => s.enter t (.peek len skip)
  | .write t data => s.enterWrite t data
  | .next t => s.next t
  | .signal t counts => procSendSignal s t counts
  | .deliver t => { s with pending := update s.pending t false }
  | .refRead => s.setRefs s.pipe.writeRefs (s.pipe.readRefs + 1) (s.endpointRefs + 1)
  | .refWrite => s.setRefs (s.pipe.writeRefs + 1) s.pipe.readRefs (s.endpointRefs + 1)
  | .unrefRead t => if (s.pc t).isIdle then pipeUnrefRead s t else s
  | .unrefWrite t => if (s.pc t).isIdle then pipeUnrefWrite s t else s

end calls

def Pc.settled : Pc → Bool
  | .idle => true
  | .lock _ => true
  | .asleep _ => true
  | _ => false

def WaitSys.Settled (s : WaitSys T) : Prop := ∀ t, (s.pc t).settled = true

/-- Whoever sleeps is queued, and sleeps on a condition that does not hold. -/
structure NoLostWakeup (s : WaitSys T) : Prop where
  writer : ∀ t, s.writerWaiters t = true → s.waiting t = true →
    s.pipe.count = pipeBufsz ∧ 0 < s.pipe.readRefs
  reader : ∀ t len, s.pc t = .asleep (.read len) → s.waiting t = true →
    s.pipe.count = 0 ∧ 0 < s.pipe.writeRefs
  queued : ∀ t data done, s.pc t = .asleep (.write data done) → s.waiting t = true →
    s.writerWaiters t = true

/-- A read that empties the pipe finds no writer asleep, and a write that fills a pipe nobody reads
no reader. -/
def Unattended (s : WaitSys T) : WaitAct T → Prop
  | .next t =>
    match s.pc t with
    | .lock (.read len) =>
      0 < s.pipe.count → s.pipe.count < len → ∀ u, s.writerWaiters u = true → s.waiting u = false
    | .lock (.write data done) =>
      s.pipe.readRefs = 0 → s.pipe.count < pipeBufsz →
        pipeBufsz < s.pipe.count + (data.length - done) →
        ∀ u, s.readerWaiters u = true → s.waiting u = false
    | _ => True
  | _ => True

theorem pipeReadLoop_writeRefs (p : Pipe) (len : ℕ) (out : List UInt8) :
    (pipeReadLoop p len out).2.2.writeRefs = p.writeRefs := by
  fun_induction pipeReadLoop p len out with
  | case4 p out hlt h0 take ih => exact ih
  | _ => rfl

theorem pipeReadLoop_count (p : Pipe) (len : ℕ) :
    (pipeReadLoop p len []).2.2.count = p.count - len := by
  have h := congrArg List.length (pipeReadLoop_spec p len []).2
  rwa [Pipe.length_contents, length_drop, Pipe.length_contents] at h

theorem length_pipeReadLoop (p : Pipe) (len : ℕ) :
    (pipeReadLoop p len []).2.1.length = min len p.count := by
  rw [(pipeReadLoop_spec p len []).1, nil_append, length_take, Pipe.length_contents]
  rfl

theorem pipeWriteLoop_fields (p : Pipe) (data : List UInt8) (done : ℕ) :
    (pipeWriteLoop p data done).2.2.magic = p.magic ∧
      (pipeWriteLoop p data done).2.2.readRefs = p.readRefs := by
  fun_induction pipeWriteLoop p data done with
  | case3 p done hlt hfull put ih => exact ih
  | _ => exact ⟨rfl, rfl⟩

theorem pipeWriteLoop_count_ge (p : Pipe) (data : List UInt8) (done : ℕ) :
    p.count ≤ (pipeWriteLoop p data done).2.2.count := by
  fun_induction pipeWriteLoop p data done with
  | case3 p done hlt hfull put ih => exact (Nat.le_add_right ..).trans ih
  | _ => exact le_rfl

variable {p : Pipe} {data : List UInt8} {done : ℕ}

theorem pipeWriteLoop_full
    (h : (pipeWriteLoop p data done).1 ≠ .ret) :
    (pipeWriteLoop p data done).2.2.count = pipeBufsz ∧
      pipeBufsz < p.count + (data.length - done) ∧
      ((pipeWriteLoop p data done).1 = .block ↔ p.readRefs ≠ 0) := by
  fun_induction pipeWriteLoop p data done with
  | case1 p done hlt hfull hr | case2 p done hlt hfull hr => exact ⟨hfull, by omega, by simp [hr]⟩
  | case3 p done hlt hfull put ih =>
    obtain ⟨hcount, hrest, hrefs⟩ := ih h
    refine ⟨hcount, ?_, hrefs⟩
    have hlen : ((data.drop done).take put).length = put := by
      rw [length_take, length_drop]
      exact min_eq_left (min_le_left ..)
    have hput : put ≤ data.length - done := min_le_left ..
    simp only [Pipe.produce, hlen] at hrest
    omega
  | case4 p done hlt => exact absurd rfl h

theorem pipeWriteLoop_ret
    (h : (pipeWriteLoop p data done).1 = .ret) :
    data.length ≤ done ∨ p.count + (data.length - done) ≤ pipeBufsz := by
  fun_induction pipeWriteLoop p data done with
  | case1 | case2 => cases h
  | case3 p done hlt hfull put ih =>
    have hlen : ((data.drop done).take put).length = put := by
      rw [length_take, length_drop]
      exact min_eq_left (min_le_left ..)
    have hput : put ≤ pipeBufsz - p.count := min_le_right ..
    have hle := p.count_le
    right
    rcases ih h with hdone | hroom
    · omega
    · simp only [Pipe.produce, hlen] at hroom
      omega
  | case4 p done hlt => exact Or.inl (Nat.not_lt.mp hlt)

def Pc.waits : Pc → Option PipeCall
  | .consume c => some c
  | .asleep c => some c
  | .wake _ pc => pc.waits
  | _ => none

def Pc.queues : Pc → Option PipeCall
  | .consume c => some c
  | .asleep c => some c
  | .cancel c => some c
  | .wake _ pc => pc.queues
  | _ => none

def WaitSys.mask (s : WaitSys T) (wantRead : Bool) : T → Bool :=
  if wantRead then s.readerWaiters else s.writerWaiters

def PipeCall.Stuck (p : Pipe) : PipeCall → Prop
  | .read _ => p.count = 0 ∧ p.writeRefs ≠ 0
  | .peek _ _ => True
  | .write _ _ => p.count = pipeBufsz ∧ p.readRefs ≠ 0

def WaitSys.Waking (s : WaitSys T) (wantRead : Bool) : Prop := ∃ t pc, s.pc t = .wake wantRead pc

structure WaitInv (s : WaitSys T) : Prop where
  queued : ∀ t, s.waiting t = true → ∃ c, (s.pc t).waits = some c ∧ s.blockedPipe t = true ∧
    s.blockedPipeRead t = c.wantRead ∧ s.mask c.wantRead t = true
  bit : ∀ t d, s.mask d t = true →
    s.blockedPipe t = true ∧ ∃ c, (s.pc t).queues = some c ∧ c.wantRead = d
  stuck : ∀ t c, s.waiting t = true → (s.pc t).waits = some c →
    c.Stuck s.pipe ∨ s.Waking c.wantRead

section

variable {s s' : WaitSys T} {t : T} {pc : Pc}

theorem WaitInv.not_waiting (h : WaitInv s) (hpc : (s.pc t).waits = none) :
    s.waiting t = false := by
  by_contra hw
  obtain ⟨c, hc, -⟩ := h.queued t (Bool.eq_true_of_not_eq_false hw)
  rw [hpc] at hc
  cases hc

theorem WaitInv.no_bit (h : WaitInv s) (hpc : (s.pc t).queues = none) (d : Bool) :
    s.mask d t = false := by
  by_contra hw
  obtain ⟨-, c, hc, -⟩ := h.bit t d (Bool.eq_true_of_not_eq_false hw)
  rw [hpc] at hc
  cases hc

theorem waits_of_queues (h : pc.queues = none) : pc.waits = none := by
  induction pc with
  | wake d pc ih => exact ih h
  | cancel c => cases h
  | _ => exact h

variable {c : PipeCall}

theorem queues_of_waits (h : pc.waits = some c) : pc.queues = some c := by
  induction pc with
  | wake d pc ih => exact ih h
  | cancel c => cases h
  | _ => exact h

theorem Waking.frame {d : Bool} (h : s.Waking d) (hpc : ∀ u, u ≠ t → s'.pc u = s.pc u)
    (ht : ∀ d pc, s.pc t ≠ .wake d pc) : s'.Waking d := by
  obtain ⟨u, pc, hu⟩ := h
  refine ⟨u, pc, ?_⟩
  rw [hpc u, hu]
  rintro rfl
  exact ht d pc hu

structure SameTasks (s s' : WaitSys T) : Prop where
  waiting : s'.waiting = s.waiting
  mask : s'.mask = s.mask
  blockedPipe : s'.blockedPipe = s.blockedPipe
  blockedPipeRead : s'.blockedPipeRead = s.blockedPipeRead

theorem WaitInv.own (h : WaitInv s) (ht : ∀ d pc, s.pc t ≠ .wake d pc)
    (hother : ∀ u, u ≠ t → s'.pc u = s.pc u ∧ s'.waiting u = s.waiting u ∧
      s'.blockedPipe u = s.blockedPipe u ∧ s'.blockedPipeRead u = s.blockedPipeRead u ∧
      ∀ d, s'.mask d u = s.mask d u)
    (hstuck : ∀ u c, s.waiting u = true → (s.pc u).waits = some c → c.Stuck s.pipe →
      c.Stuck s'.pipe ∨ s'.Waking c.wantRead)
    (hself : s'.waiting t = true → ∃ c, (s'.pc t).waits = some c ∧ s'.blockedPipe t = true ∧
      s'.blockedPipeRead t = c.wantRead ∧ s'.mask c.wantRead t = true ∧
      (c.Stuck s'.pipe ∨ s'.Waking c.wantRead))
    (hbit : ∀ d, s'.mask d t = true →
      s'.blockedPipe t = true ∧ ∃ c, (s'.pc t).queues = some c ∧ c.wantRead = d) : WaitInv s' := by
  refine ⟨fun u hu => ?_, fun u d hu => ?_, fun u c hu hc => ?_⟩ <;> by_cases hut : u = t
  · subst hut
    obtain ⟨c, hc, hb, hbr, hm, -⟩ := hself hu
    exact ⟨c, hc, hb, hbr, hm⟩
  · obtain ⟨hpc, hw, hb, hbr, hm⟩ := hother u hut
    simp only [hpc, hb, hbr, hm]
    exact h.queued u (hw ▸ hu)
  · subst hut
    exact hbit d hu
  · obtain ⟨hpc, -, hb, -, hm⟩ := hother u hut
    rw [hpc, hb]
    exact h.bit u d (hm d ▸ hu)
  · subst hut
    obtain ⟨c', hc', -, -, -, hs⟩ := hself hu
    rw [hc] at hc'
    cases hc'
    exact hs
  · obtain ⟨hpc, hw, -⟩ := hother u hut
    rw [hw] at hu
    rw [hpc] at hc
    rcases h.stuck u c hu hc with hs | hwake
    · exact hstuck u c hu hc hs
    · exact Or.inr (Waking.frame hwake (fun v hv => (hother v hv).1) ht)

theorem WaitInv.move [DecidableEq T] (h : WaitInv s) (hsame : SameTasks s s')
    (hpc : s'.pc = update s.pc t pc) (hq : (s.pc t).queues = none)
    (ht : ∀ d pc, s.pc t ≠ .wake d pc)
    (hstuck : ∀ u c, s.waiting u = true → (s.pc u).waits = some c → c.Stuck s.pipe →
      c.Stuck s'.pipe ∨ s'.Waking c.wantRead) : WaitInv s' := by
  refine h.own ht (fun u hu => ?_) hstuck (fun hw => ?_) fun d hm => ?_
  · simp [hpc, hu, hsame.waiting, hsame.mask, hsame.blockedPipe, hsame.blockedPipeRead]
  · rw [hsame.waiting, h.not_waiting (waits_of_queues hq)] at hw
    cases hw
  · rw [hsame.mask, h.no_bit hq d] at hm
    cases hm

theorem pc_goto_self [DecidableEq T] : (s.goto t pc).pc t = pc := update_self ..

theorem pc_goto_of_ne [DecidableEq T] {u : T} (hu : u ≠ t) : (s.goto t pc).pc u = s.pc u :=
  update_of_ne hu ..

theorem mask_pipeWake (d d' : Bool) :
    (pipeWake s d).mask d' = if d' = d then fun _ => false else s.mask d' := by
  cases d <;> cases d' <;> rfl

theorem WaitInv.wake [DecidableEq T] (h : WaitInv s) {d : Bool} (ht : s.pc t = .wake d pc) :
    WaitInv ((pipeWake s d).goto t pc) := by
  have hpc : ∀ u, (((pipeWake s d).goto t pc).pc u).waits = (s.pc u).waits ∧
      (((pipeWake s d).goto t pc).pc u).queues = (s.pc u).queues := by
    intro u
    by_cases hut : u = t
    · subst hut
      rw [pc_goto_self, ht]
      exact ⟨rfl, rfl⟩
    · rw [pc_goto_of_ne hut]
      exact ⟨rfl, rfl⟩
  have hslept : ∀ u, (pipeWake s d).waiting u = true → s.waiting u = true ∧
      ∀ c, (s.pc u).waits = some c → c.wantRead ≠ d := by
    intro u hu
    obtain ⟨hw, hout⟩ := Bool.and_eq_true_iff.mp hu
    refine ⟨hw, fun c hc hd => ?_⟩
    obtain ⟨c', hc', hb, hbr, hm⟩ := h.queued u hw
    rw [hc] at hc'
    cases hc'
    have hmask : (if d then s.readerWaiters else s.writerWaiters) u = true := by
      rw [← hd]
      exact hm
    rw [hmask, hb, hbr, hd, Bool.true_and, beq_self_eq_true] at hout
    cases hout
  refine ⟨fun u hu => ?_, fun u d' hu => ?_, fun u c hu hc => ?_⟩
  · obtain ⟨hw, hne⟩ := hslept u hu
    obtain ⟨c, hc, hb, hbr, hm⟩ := h.queued u hw
    refine ⟨c, (hpc u).1.trans hc, hb, hbr, ?_⟩
    have hmask : ((pipeWake s d).goto t pc).mask c.wantRead = s.mask c.wantRead :=
      (mask_pipeWake d c.wantRead).trans (if_neg (hne c hc))
    rw [hmask]
    exact hm
  · have hmask : (if d' = d then fun _ => false else s.mask d') u = true := by
      rw [← mask_pipeWake]
      exact hu
    split at hmask
    · cases hmask
    · obtain ⟨hb, c, hc, hd⟩ := h.bit u d' hmask
      exact ⟨hb, c, (hpc u).2.trans hc, hd⟩
  · obtain ⟨hw, hne⟩ := hslept u hu
    rw [(hpc u).1] at hc
    rcases h.stuck u c hw hc with hs | ⟨v, pc', hv⟩
    · exact Or.inl hs
    · -- whoever wakes the other direction is another thread
      refine Or.inr ⟨v, pc', ?_⟩
      have hvt : v ≠ t := by
        rintro rfl
        rw [ht] at hv
        cases hv
        exact hne c hc rfl
      exact (pc_goto_of_ne hvt).trans hv

theorem mask_pipeFree (d : Bool) : (pipeFree s).mask d = fun _ => false := by
  cases d <;> rfl

theorem WaitInv.free (h : WaitInv s) : WaitInv (pipeFree s) := by
  have hnone : ∀ u, (pipeFree s).waiting u ≠ true := by
    intro u hu
    obtain ⟨hw, hout⟩ := Bool.and_eq_true_iff.mp hu
    obtain ⟨c, -, -, -, hm⟩ := h.queued u hw
    have hbit : (s.readerWaiters u || s.writerWaiters u) = true := by
      rw [Bool.or_eq_true]
      cases hd : c.wantRead with
      | true =>
        rw [hd] at hm
        exact Or.inl hm
      | false =>
        rw [hd] at hm
        exact Or.inr hm
    exact absurd hbit (by simpa using hout)
  refine ⟨fun u hu => absurd hu (hnone u), fun u d hu => ?_, fun u c hu => absurd hu (hnone u)⟩
  rw [mask_pipeFree] at hu
  cases hu

theorem mask_pipeBlockLocked [DecidableEq T] (d d' : Bool) :
    (pipeBlockLocked s t d).mask d' =
      if d' = d then update (s.mask d') t true else s.mask d' := by
  cases d <;> cases d' <;> rfl

theorem WaitInv.block [DecidableEq T] (h : WaitInv s) {p : Pipe}
    (hq : (s.pc t).queues = none) (ht : ∀ d pc, s.pc t ≠ .wake d pc)
    (hwaits : pc.waits = some c) (hc : c.Stuck p)
    (hstuck : ∀ c' : PipeCall, c'.Stuck s.pipe →
      c'.Stuck p ∨ ∃ pc', pc = .wake c'.wantRead pc') :
    WaitInv ((pipeBlockLocked { s with pipe := p } t c.wantRead).goto t pc) := by
  have hmask (d : Bool) (u : T) :
      ((pipeBlockLocked { s with pipe := p } t c.wantRead).goto t pc).mask d u =
        if d = c.wantRead then update (s.mask d) t true u else s.mask d u :=
    (congrFun (mask_pipeBlockLocked c.wantRead d) u).trans (by split <;> rfl)
  refine h.own ht (fun u hu => ?_) (fun u c' _ _ hs => ?_)
    (fun _ => ⟨c, ?_, update_self .., update_self .., ?_, Or.inl hc⟩)
    fun d hm => ⟨update_self .., c, ?_, ?_⟩
  · refine ⟨pc_goto_of_ne hu, update_of_ne hu .., update_of_ne hu .., update_of_ne hu .., ?_⟩
    simp [hmask, hu]
  · rcases hstuck c' hs with hs | ⟨pc', rfl⟩
    · exact Or.inl hs
    · exact Or.inr ⟨t, pc', pc_goto_self⟩
  · rw [pc_goto_self, hwaits]
  · simp [hmask]
  · rw [pc_goto_self, queues_of_waits hwaits]
  · by_contra hd
    rw [hmask, if_neg (Ne.symm hd), h.no_bit hq d] at hm
    cases hm

theorem lock_queues (ht : s.pc t = .lock c) : (s.pc t).queues = none := by
  rw [ht]
  rfl

theorem lock_not_wake (ht : s.pc t = .lock c) (d : Bool) (pc : Pc) : s.pc t ≠ .wake d pc := by
  rw [ht]
  exact fun h => nomatch h

theorem WaitInv.mask_of_waits (h : WaitInv s) (hw : s.waiting t = true)
    (hc : (s.pc t).waits = some c) : s.mask c.wantRead t = true := by
  obtain ⟨c', hc', -, -, hm⟩ := h.queued t hw
  rw [hc] at hc'
  cases hc'
  exact hm

theorem idle_of_isIdle (h : (s.pc t).isIdle = true) : s.pc t = .idle := by
  cases ht : s.pc t with
  | idle => rfl
  | _ =>
    rw [ht] at h
    cases h

theorem WaitInv.ref (h : WaitInv s) {w r e : ℕ} (hw : s.pipe.writeRefs ≤ w)
    (hr : s.pipe.readRefs ≤ r) : WaitInv (s.setRefs w r e) := by
  refine ⟨h.queued, h.bit, fun u c hu hc => (h.stuck u c hu hc).imp_left fun hs => ?_⟩
  cases c with
  | read _ => exact ⟨hs.1, (by have := hs.2; omega : w ≠ 0)⟩
  | peek _ _ => trivial
  | write _ _ => exact ⟨hs.1, (by have := hs.2; omega : r ≠ 0)⟩

theorem WaitInv.noLostWakeup (h : WaitInv s) (hs : s.Settled) : NoLostWakeup s := by
  have hquiet : ∀ d, ¬ s.Waking d := by
    rintro d ⟨t, pc, ht⟩
    have hset := hs t
    rw [ht] at hset
    cases hset
  have hstuck : ∀ t c, s.waiting t = true → (s.pc t).waits = some c → c.Stuck s.pipe :=
    fun t c hw hc => (h.stuck t c hw hc).resolve_right (hquiet _)
  refine ⟨fun t hm hw => ?_, fun t len ht hw => ?_, fun t data done ht hw => ?_⟩
  · obtain ⟨c, hc, -⟩ := h.queued t hw
    obtain ⟨-, c', hc', hd⟩ := h.bit t false hm
    rw [queues_of_waits hc] at hc'
    cases hc'
    cases c with
    | write data done =>
      obtain ⟨hfull, hr⟩ := hstuck t _ hw hc
      exact ⟨hfull, Nat.pos_of_ne_zero hr⟩
    | _ => cases hd
  · obtain ⟨h0, hr⟩ := hstuck t (.read len) hw (by rw [ht]; rfl)
    exact ⟨h0, Nat.pos_of_ne_zero hr⟩
  · exact h.mask_of_waits (c := .write data done) hw (by rw [ht]; rfl)

variable [DecidableEq T]

variable {len : ℕ}

section

variable (h : WaitInv s)
include h

theorem WaitInv.readDone (ht : s.pc t = .lock (.read len)) (hc : Unattended s (.next t))
    {out : List UInt8} {p : Pipe} (hout : out.length = min len s.pipe.count)
    (hcount : p.count = s.pipe.count - len) (hrefs : p.writeRefs = s.pipe.writeRefs) :
    WaitInv
      ({ s with pipe := p }.goto t (if out.length < len then .idle else .wake false .idle)) := by
  rw [Unattended, ht] at hc
  refine h.move ⟨rfl, rfl, rfl, rfl⟩ rfl (lock_queues ht) (lock_not_wake ht)
    fun u c hu hwaits hs => ?_
  cases c with
  | read _ =>
    left
    exact ⟨hcount.trans (by rw [hs.1, Nat.zero_sub]), hrefs ▸ hs.2⟩
  | peek _ _ => exact Or.inl trivial
  | write data done =>
    right
    by_cases hlt : out.length < len
    · have hpos : 0 < s.pipe.count := by
        rw [hs.1]
        decide
      have hasleep := hc hpos (by omega) u (h.mask_of_waits hu hwaits)
      rw [hasleep] at hu
      cases hu
    · rw [if_neg hlt]
      exact ⟨t, .idle, pc_goto_self⟩

theorem WaitInv.readSection (ht : s.pc t = .lock (.read len))
    (hc : Unattended s (.next t)) : WaitInv (s.readSection t len) := by
  have hout := length_pipeReadLoop s.pipe len
  have hcount := pipeReadLoop_count s.pipe len
  have hrefs := pipeReadLoop_writeRefs s.pipe len []
  have hblock := @pipeReadLoop_block s.pipe len []
  unfold WaitSys.readSection
  rcases hr : pipeReadLoop s.pipe len [] with ⟨_ | _ | _, out, p⟩ <;>
    rw [hr] at hout hcount hrefs hblock
  · exact h.readDone ht hc hout hcount hrefs
  · exact h.readDone ht hc hout hcount hrefs
  · obtain ⟨-, h0, hw, -⟩ := hblock (fun h => nomatch h)
    exact h.block (c := .read len) (lock_queues ht) (lock_not_wake ht) rfl ⟨h0, hw⟩
      fun _ hs => Or.inl hs

theorem WaitInv.peekSection {skip : UInt64}
    (ht : s.pc t = .lock (.peek len skip)) : WaitInv (s.peekSection t len skip) := by
  unfold WaitSys.peekSection
  split
  · exact h.block (c := .peek len skip) (lock_queues ht) (lock_not_wake ht) rfl trivial
      fun _ hs => Or.inl hs
  · exact h.move ⟨rfl, rfl, rfl, rfl⟩ rfl (lock_queues ht) (lock_not_wake ht)
      fun u c _ _ hs => Or.inl hs

theorem WaitInv.writeSection {data : List UInt8} {done : ℕ} (ht : s.pc t = .lock (.write data done))
    (hc : Unattended s (.next t)) :
    WaitInv (s.writeSection t data done) := by
  have hge := pipeWriteLoop_count_ge s.pipe data done
  have hrefs := (pipeWriteLoop_fields s.pipe data done).2
  have hfull := @pipeWriteLoop_full s.pipe data done
  have hmax := (pipeWriteLoop s.pipe data done).2.2.count_le
  rw [Unattended, ht] at hc
  unfold WaitSys.writeSection
  rcases hr : pipeWriteLoop s.pipe data done with ⟨_ | _ | _, d, p⟩ <;>
    rw [hr] at hge hrefs hfull hmax <;> dsimp only at hge hrefs hfull hmax
  · -- the readers are woken next
    refine h.move ⟨rfl, rfl, rfl, rfl⟩ rfl (lock_queues ht) (lock_not_wake ht)
      fun u c hu hwaits hs => ?_
    cases c with
    | read _ => exact Or.inr ⟨t, .idle, pc_goto_self⟩
    | peek _ _ => exact Or.inl trivial
    | write _ _ => exact Or.inl ⟨le_antisymm hmax (hs.1 ▸ hge), hrefs ▸ hs.2⟩
  · -- nobody reads: what was asleep is left asleep
    obtain ⟨hcount, hlt, hblock⟩ := hfull (fun h => nomatch h)
    have hr0 : s.pipe.readRefs = 0 := by
      by_contra hr0
      cases hblock.mpr hr0
    have hwt : s.waiting t = false := h.not_waiting (by rw [ht]; rfl)
    refine h.move ⟨?_, rfl, rfl, rfl⟩ rfl (lock_queues ht) (lock_not_wake ht)
      fun u c hu hwaits hs => ?_
    · exact update_eq_iff.mpr ⟨hwt.symm, fun _ _ => rfl⟩
    cases c with
    | read _ =>
      have hlt' : s.pipe.count < pipeBufsz := by
        rw [hs.1]
        decide
      have hasleep := hc hr0 hlt' hlt u (h.mask_of_waits hu hwaits)
      rw [hasleep] at hu
      cases hu
    | peek _ _ => exact Or.inl trivial
    | write _ _ => exact absurd hr0 hs.2
  · obtain ⟨hcount, -, hblock⟩ := hfull (fun h => nomatch h)
    refine h.block (c := .write data d) (lock_queues ht) (lock_not_wake ht) rfl
      ⟨hcount, hrefs ▸ hblock.mp rfl⟩ fun c' hs => ?_
    cases c' with
    | read _ => exact Or.inr ⟨_, rfl⟩
    | peek _ _ => exact Or.inl trivial
    | write _ _ => exact Or.inl ⟨hcount, hrefs ▸ hs.2⟩

theorem WaitInv.lockedSection (ht : s.pc t = .lock c)
    (hc : Unattended s (.next t)) : WaitInv (s.lockedSection t c) := by
  cases c with
  | read len => exact h.readSection ht hc
  | peek len skip => exact h.peekSection ht
  | write data done => exact h.writeSection ht hc

theorem WaitInv.consume (ht : s.pc t = .consume c) :
    WaitInv ({ s with waiting := update s.waiting t (s.waiting t && !s.pending t) }.goto t
      (.asleep c)) := by
  have hwake : ∀ d pc, s.pc t ≠ .wake d pc := by simp [ht]
  refine h.own hwake (fun u hu => ⟨pc_goto_of_ne hu, update_of_ne hu .., rfl, rfl, fun _ => rfl⟩)
    (fun _ _ _ _ => Or.inl) (fun hw => ?_) fun d hm => ?_
  · have hold : s.waiting t = true := (Bool.and_eq_true_iff.mp ((update_self ..).symm.trans hw)).1
    obtain ⟨c', hc', hb, hbr, hm⟩ := h.queued t hold
    have hstuck := h.stuck t c' hold hc'
    rw [ht] at hc'
    refine ⟨c', by rw [pc_goto_self]; exact hc', hb, hbr, hm, ?_⟩
    exact hstuck.imp_right fun hw => Waking.frame hw (fun v hv => pc_goto_of_ne hv) hwake
  · obtain ⟨hb, hc⟩ := h.bit t d hm
    rw [ht] at hc
    exact ⟨hb, by rw [pc_goto_self]; exact hc⟩

theorem WaitInv.woken (ht : s.pc t = .asleep c)
    (hw : s.waiting t = false) : WaitInv (s.goto t (.cancel c)) := by
  refine h.own (by simp [ht]) (fun u hu => ⟨pc_goto_of_ne hu, rfl, rfl, rfl, fun _ => rfl⟩)
    (fun _ _ _ _ => Or.inl) (fun hw' => nomatch hw.symm.trans hw') fun d hm => ?_
  obtain ⟨hb, hc⟩ := h.bit t d hm
  rw [ht] at hc
  exact ⟨hb, by rw [pc_goto_self]; exact hc⟩

theorem WaitInv.cancel (ht : s.pc t = .cancel c) :
    WaitInv ((pipeCancelWait s t).goto t (.check c)) := by
  have hwt : s.waiting t = false := h.not_waiting (by rw [ht]; rfl)
  have hwake : ∀ d pc, s.pc t ≠ .wake d pc := by simp [ht]
  unfold pipeCancelWait
  split
  · next hb =>
    refine h.own hwake (fun u hu => ⟨pc_goto_of_ne hu, rfl, rfl, rfl, fun _ => rfl⟩)
      (fun _ _ _ _ => Or.inl) (fun hw => nomatch hwt.symm.trans hw) fun d hm => ?_
    rw [(h.bit t d hm).1] at hb
    cases hb
  · refine h.own hwake (fun u hu => ⟨pc_goto_of_ne hu, rfl, update_of_ne hu .., rfl, fun d => ?_⟩)
      (fun _ _ _ _ => Or.inl) (fun hw => nomatch hwt.symm.trans hw) fun d hm => ?_
    · cases d <;> exact update_of_ne hu ..
    · cases d <;> exact nomatch (update_self ..).symm.trans hm

theorem WaitInv.put (ht : s.pc t = .put) : WaitInv ((pipeEndpointPut s).goto t .idle) := by
  have hmove : WaitInv ({ s with endpointRefs := s.endpointRefs - 1 }.goto t .idle) :=
    h.move ⟨rfl, rfl, rfl, rfl⟩ rfl (by rw [ht]; rfl) (by rw [ht]; exact fun _ _ h => nomatch h)
      fun u c _ _ hs => Or.inl hs
  unfold pipeEndpointPut
  split
  · exact hmove.free
  · exact hmove

theorem WaitInv.signal (t : T) (counts : Bool) : WaitInv (procSendSignal s t counts) := by
  have hle : ∀ u, (procSendSignal s t counts).waiting u = true → s.waiting u = true := by
    intro u hu
    by_cases hut : u = t
    · subst hut
      exact absurd ((update_self ..).symm.trans hu) (by decide)
    · exact (update_of_ne hut ..).symm.trans hu
  exact ⟨fun u hu => h.queued u (hle u hu), h.bit, fun u c hu => h.stuck u c (hle u hu)⟩

theorem WaitInv.next (hc : Unattended s (.next t)) : WaitInv (s.next t) := by
  unfold WaitSys.next
  cases ht : s.pc t with
  | idle => exact h
  | lock c => exact h.lockedSection ht hc
  | wake d pc => exact h.wake ht
  | consume c => exact h.consume ht
  | asleep c =>
    dsimp only
    split
    · exact h
    · rename_i hw
      exact h.woken ht (Bool.eq_false_iff.mpr hw)
  | cancel c => exact h.cancel ht
  | check c =>
    exact h.move ⟨rfl, rfl, rfl, rfl⟩ rfl (by rw [ht]; rfl)
      (by rw [ht]; exact fun _ _ h => nomatch h) fun u c _ _ hs => Or.inl hs
  | put => exact h.put ht

theorem WaitInv.start (ht : s.pc t = .idle) (hsame : SameTasks s s')
    (hpc : s'.pc = update s.pc t pc)
    (hstuck : ∀ c : PipeCall, c.Stuck s.pipe → c.Stuck s'.pipe ∨ s'.Waking c.wantRead) :
    WaitInv s' :=
  h.move hsame hpc (by rw [ht]; rfl) (by rw [ht]; exact fun _ _ h => nomatch h)
    fun _ c _ _ hs => hstuck c hs

theorem WaitInv.enter (c : PipeCall) : WaitInv (s.enter t c) := by
  unfold WaitSys.enter
  split
  · rename_i hidle
    exact h.start (idle_of_isIdle (Bool.and_eq_true_iff.mp hidle).1) ⟨rfl, rfl, rfl, rfl⟩ rfl
      fun _ hs => Or.inl hs
  · exact h

theorem WaitInv.enterWrite (data : List UInt8) : WaitInv (s.enterWrite t data) := by
  unfold WaitSys.enterWrite
  split
  · rename_i hidle
    split
    · exact h.signal t true
    split
    · exact h
    · exact h.start (idle_of_isIdle (Bool.and_eq_true_iff.mp hidle).1) ⟨rfl, rfl, rfl, rfl⟩ rfl
        fun _ hs => Or.inl hs
  · exact h

theorem WaitInv.unrefRead (ht : s.pc t = .idle) : WaitInv (pipeUnrefRead s t) := by
  unfold pipeUnrefRead
  split
  · exact h
  rename_i h0
  refine h.start ht ⟨rfl, rfl, rfl, rfl⟩ rfl fun c hs => ?_
  cases c with
  | read _ => exact Or.inl hs
  | peek _ _ => exact Or.inl trivial
  | write _ _ =>
    by_cases h1 : s.pipe.readRefs = 1
    · rw [if_pos h1]
      exact Or.inr ⟨t, .put, pc_goto_self⟩
    · exact Or.inl ⟨hs.1, (by omega : s.pipe.readRefs - 1 ≠ 0)⟩

theorem WaitInv.unrefWrite (ht : s.pc t = .idle) : WaitInv (pipeUnrefWrite s t) := by
  unfold pipeUnrefWrite
  split
  · exact h
  rename_i h0
  refine h.start ht ⟨rfl, rfl, rfl, rfl⟩ rfl fun c hs => ?_
  cases c with
  | read _ =>
    by_cases h1 : s.pipe.writeRefs = 1
    · rw [if_pos h1]
      exact Or.inr ⟨t, .put, pc_goto_self⟩
    · exact Or.inl ⟨hs.1, (by omega : s.pipe.writeRefs - 1 ≠ 0)⟩
  | peek _ _ => exact Or.inl trivial
  | write _ _ => exact Or.inl hs

theorem WaitInv.step {a : WaitAct T} (hc : Unattended s a) : WaitInv (s.step a) := by
  cases a with
  | read t len => exact h.enter _
  | peek t len skip => exact h.enter _
  | write t data => exact h.enterWrite data
  | next t => exact h.next hc
  | signal t counts => exact h.signal t counts
  | deliver t => exact ⟨h.queued, h.bit, h.stuck⟩
  | refRead => exact h.ref le_rfl (Nat.le_succ _)
  | refWrite => exact h.ref (Nat.le_succ _) le_rfl
  | unrefRead t =>
    rw [WaitSys.step]
    split
    · exact h.unrefRead (idle_of_isIdle ‹_›)
    · exact h
  | unrefWrite t =>
    rw [WaitSys.step]
    split
    · exact h.unrefWrite (idle_of_isIdle ‹_›)
    · exact h

end

theorem waitInv_start (T : Type*) (writeRefs readRefs : ℕ) :
    WaitInv (waitStart T writeRefs readRefs) := by
  refine ⟨fun _ h => (nomatch h), fun _ d h => ?_, fun _ _ h => (nomatch h)⟩
  cases d <;> cases h

end

/-- Where no read empties the pipe past a sleeping writer, and no write fills a pipe without readers
past a sleeping reader, nobody sleeps on a condition that holds. -/
theorem pipe_no_lost_wakeup [DecidableEq T] (writeRefs readRefs : ℕ)
    (acts : List (WaitAct T))
    (h : Along step Unattended (waitStart T writeRefs readRefs) acts) :
    Always step (fun s => s.Settled → NoLostWakeup s) (waitStart T writeRefs readRefs)
      acts := by
  have hinv := h.always (waitInv_start T writeRefs readRefs) fun s a hs ha => hs.step ha
  exact fun pre hpre => (hinv pre hpre).noLostWakeup

def fillAndSleep (data : List UInt8) : List (WaitAct Bool) :=
  [.write false data, .next false, .next false, .next false]

variable {s : WaitSys T} {t : T}

theorem writeSection_block [DecidableEq T]
    {d : ℕ} (h : pipeWriteLoop s.pipe data done = (.block, d, p)) :
    s.writeSection t data done =
      (pipeBlockLocked { s with pipe := p } t false).goto t
        (.wake true (.consume (.write data d))) := by
  rw [writeSection, h]

variable {len : ℕ}

theorem readSection_block [DecidableEq T]
    {out : List UInt8} (h : pipeReadLoop s.pipe len [] = (.block, out, p)) :
    s.readSection t len = (pipeBlockLocked s t true).goto t (.consume (.read len)) := by
  rw [readSection, h]

theorem readSection_of_ne [DecidableEq T]
    {o : Pipe.Outcome} {out : List UInt8} (ho : o ≠ .block)
    (h : pipeReadLoop s.pipe len [] = (o, out, p)) :
    s.readSection t len =
      { s with pipe := p }.goto t (if out.length < len then .idle else .wake false .idle) := by
  rw [readSection, h]
  cases o with
  | block => exact absurd rfl ho
  | _ => rfl

structure WriterAsleep (s : WaitSys Bool) : Prop where
  full : s.pipe.count = pipeBufsz
  valid : pipeValid s.pipe = true
  pc : ∃ c, s.pc false = .asleep c
  idle : s.pc true = .idle
  waiting : s.waiting false = true
  queued : s.writerWaiters false = true

theorem fillAndSleep_blocks (hdata : pipeBufsz < data.length) :
    WriterAsleep (exec step (waitStart Bool 1 1) (fillAndSleep data)) := by
  have hret := @pipeWriteLoop_ret (pipeAlloc 1 1) data 0
  have hfull := @pipeWriteLoop_full (pipeAlloc 1 1) data 0
  have hmagic := (pipeWriteLoop_fields (pipeAlloc 1 1) data 0).1
  have hlock : (waitStart Bool 1 1).step (.write false data) =
      (waitStart Bool 1 1).goto false (.lock (.write data 0)) :=
    if_neg (by omega : ¬ data.length = 0)
  rcases hw : pipeWriteLoop (pipeAlloc 1 1) data 0 with ⟨_ | _ | _, d, p⟩ <;>
    rw [hw] at hret hfull hmagic
  · rcases hret rfl with h | h
    · omega
    · exact absurd h (by rw [Nat.sub_zero]; exact not_le.mpr (Nat.lt_add_left _ hdata))
  · cases (hfull (by simp)).2.2.mpr (by decide)
  · have hsection : ((waitStart Bool 1 1).goto false (.lock (.write data 0))).step (.next false) =
        (pipeBlockLocked { waitStart Bool 1 1 with pipe := p } false false).goto false
          (.wake true (.consume (.write data d))) := by
      refine (writeSection_block hw).trans ?_
      simp only [goto, pipeBlockLocked, update_idem]
    rw [fillAndSleep, exec, foldl_cons, hlock, foldl_cons, hsection]
    refine ⟨(hfull (by simp)).1, ?_, ⟨_, rfl⟩, rfl, rfl, rfl⟩
    exact beq_iff_eq.mpr hmagic

theorem WriterAsleep.drain {s : WaitSys Bool} (h : WriterAsleep s)
    (hlen : pipeBufsz < len) :
    ¬ ((exec step s [.read true len, .next true]).Settled →
      NoLostWakeup (exec step s [.read true len, .next true])) := by
  have hlock : s.step (.read true len) = s.goto true (.lock (.read len)) :=
    if_pos (by rw [h.idle, h.valid]; rfl)
  have hout := length_pipeReadLoop s.pipe len
  have hcount := pipeReadLoop_count s.pipe len
  have hblock := @pipeReadLoop_block s.pipe len []
  rw [h.full] at hout hcount hblock
  have hsection : ∃ p : Pipe, p.count = 0 ∧ (s.goto true (.lock (.read len))).step (.next true) =
      { s with pipe := p }.goto true .idle := by
    rcases hr : pipeReadLoop s.pipe len [] with ⟨o, out, p⟩
    rw [hr] at hout hcount hblock
    have ho : o ≠ .block := by
      rintro rfl
      exact absurd (hblock (fun h => nomatch h)).2.1 (by decide)
    refine ⟨p, hcount.trans (Nat.sub_eq_zero_of_le hlen.le),
      (readSection_of_ne (s := s.goto true (.lock (.read len))) ho hr).trans ?_⟩
    have hshort : out.length < len := by
      rw [hout]
      exact min_lt_of_right_lt hlen
    rw [if_pos hshort]
    simp only [goto, update_idem]
  obtain ⟨p, hp, hsection⟩ := hsection
  rw [exec, foldl_cons, hlock, foldl_cons, hsection, foldl_nil]
  intro hall
  obtain ⟨c, hc⟩ := h.pc
  have hsettled : WaitSys.Settled ({ s with pipe := p }.goto true .idle) := by
    intro t
    cases t with
    | false =>
      rw [pc_goto_of_ne (by decide)]
      exact congrArg Pc.settled hc
    | true => rfl
  have hfull := ((hall hsettled).writer false h.queued h.waiting).1
  exact absurd (hp.symm.trans hfull) (by decide)

/-- The writer of 65537 bytes is left asleep by the reader of 65537. -/
theorem drain_loses_wakeup :
    ¬ Always step (fun s => s.Settled → NoLostWakeup s) (waitStart Bool 1 1)
      (fillAndSleep (List.replicate 65537 0) ++ [.read true 65537, .next true]) := by
  intro h
  have hdata : pipeBufsz < (List.replicate 65537 (0 : UInt8)).length := by
    rw [length_replicate]
    decide
  have hlast := h _ prefix_rfl
  rw [exec_append] at hlast
  exact (fillAndSleep_blocks hdata).drain (by decide) hlast

theorem pipe_no_lost_wakeup_reader :
    Always step (fun s => s.Settled → NoLostWakeup s) (waitStart Bool 1 1)
      ([.read true 1] ++ [.next true] ++ [.next true]) := by
  apply pipe_no_lost_wakeup
  have hloop : pipeReadLoop (pipeAlloc 1 1) 1 [] = (.block, [], pipeAlloc 1 1) := by
    rw [pipeReadLoop]
    rfl
  have hsection : exec step (waitStart Bool 1 1) ([.read true 1] ++ [.next true]) =
      (pipeBlockLocked ((waitStart Bool 1 1).goto true (.lock (.read 1))) true true).goto true
        (.consume (.read 1)) := by
    rw [exec_concat]
    exact readSection_block (s := (waitStart Bool 1 1).goto true (.lock (.read 1))) hloop
  have hread : Along step Unattended (waitStart Bool 1 1) [.read true 1] :=
    along_concat.mpr ⟨along_nil, trivial⟩
  refine along_concat.mpr ⟨along_concat.mpr ⟨hread, fun h => absurd h (by decide)⟩, ?_⟩
  rw [hsection]
  exact trivial

end Kyronix.Fs
