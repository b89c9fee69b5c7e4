import Kyronix.Fs.PipeWait
import Kyronix.Fs.PollFile

/-! Readiness against the calls it announces: when `fd_pollin` and `fd_pollout` tell whether a call
that may not wait goes on. -/
namespace Kyronix.Fs

namespace Reply

variable {e n : ℤ} {d : Data} {intr : Bool}

theorem proceeds_done : (Reply.done n d).Proceeds ↔ n ≠ -eagain := by
  constructor
  · rintro ⟨m, d', heq, hm⟩
    cases heq
    exact hm
  · exact fun h => ⟨n, d, rfl, h⟩

theorem proceeds_natCast (n : ℕ) : (Reply.done n d).Proceeds := by
  rw [proceeds_done]
  exact (lt_of_lt_of_le (by decide) (Int.natCast_nonneg n)).ne'

theorem proceeds_fail (h : e ≠ eagain) : (Reply.fail e).Proceeds := by
  rw [fail, proceeds_done]
  exact fun heq => h (neg_injective heq)

theorem not_proceeds_waits : ¬ Reply.waits.Proceeds := by
  rintro ⟨n, d, heq, -⟩
  cases heq

theorem not_proceeds_idle (intr : Bool) : ¬ (Reply.idle true intr).Proceeds := by
  show ¬ (Reply.done (-eagain) .nothing).Proceeds
  rw [proceeds_done]
  exact not_not.mpr rfl

theorem proceeds_idle : (Reply.idle false intr).Proceeds ↔ intr = true := by
  cases intr with
  | true => exact iff_of_true (proceeds_fail (by decide)) rfl
  | false => exact iff_of_false not_proceeds_waits Bool.false_ne_true

end Reply

open Reply PollSys

variable {len : ℕ} {intr : Bool}

theorem pipeRead_proceeds (p : Pipe) (hlen : 0 < len) :
    (pipeRead p len intr).1.Proceeds ↔
      readable p = true ∨ intr = true ∨ pipeValid p = false := by
  unfold pipeRead
  split
  · next hbad => exact iff_of_true (proceeds_fail (by decide)) (.inr (.inr hbad))
  next hvalid =>
  rw [or_iff_left (b := pipeValid p = false) hvalid]
  by_cases hready : readable p = true
  · rw [or_iff_left_of_imp fun _ => hready]
    refine iff_of_true ?_ hready
    split
    · next hloop =>
      have hne : (pipeReadLoop p len []).1 ≠ .ret := by
        rw [hloop]
        exact Pipe.Outcome.noConfusion
      obtain ⟨-, hcount, hrefs, -⟩ := pipeReadLoop_block hne
      simp [readable, hcount, hrefs] at hready
    · exact proceeds_natCast _
  · rw [or_iff_right hready]
    have hempty : p.count = 0 ∧ p.writeRefs ≠ 0 := by simpa [readable] using hready
    have hloop : pipeReadLoop p len [] = (.block, [], p) := by
      unfold pipeReadLoop
      simp [hlen, hempty]
    rw [hloop]
    exact proceeds_idle

theorem pipeWrite_one (p : Pipe) (b : UInt8) (hroom : p.count < pipeBufsz)
    (hrefs : p.readRefs ≠ 0) : (pipeWrite p [b] intr).1.Proceeds := by
  unfold pipeWrite
  rw [if_neg (c := p.readRefs = 0) hrefs]
  split
  · exact proceeds_fail (by decide)
  have hret : (pipeWriteLoop p [b] 0).1 = .ret := by
    by_contra hfull
    exact absurd (pipeWriteLoop_full hfull).2.1 (Nat.not_lt.mpr hroom)
  split
  · exact proceeds_natCast _
  · next hloop =>
    rw [hloop] at hret
    cases hret
  · next hloop =>
    rw [hloop] at hret
    cases hret

theorem eventfdRead_proceeds (e : EventFd) (hlen : 8 ≤ len) :
    (eventfdRead e true len).1.Proceeds ↔ e.counter ≠ 0 := by
  unfold eventfdRead
  rw [if_neg (Nat.not_lt.mpr hlen)]
  split
  · next hne =>
    refine iff_of_true ?_ hne
    split <;> exact proceeds_natCast 8
  · next heq => exact iff_of_false (not_proceeds_idle false) heq

theorem timerfdRead_proceeds (t : TimerFd) (now : UInt64) (hlen : 8 ≤ len) :
    (timerfdRead t now true len).1.Proceeds ↔ t.due now = true := by
  unfold timerfdRead
  rw [if_neg (Nat.not_lt.mpr hlen)]
  split
  · next hdue => exact iff_of_true (proceeds_natCast 8) hdue
  · next hdue => exact iff_of_false (not_proceeds_idle false) hdue

theorem signalfdRead_proceeds (mask pending : UInt64) (hlen : 128 ≤ len) :
    (signalfdRead mask pending true len intr).1.Proceeds ↔ pending &&& mask ≠ 0 := by
  unfold signalfdRead
  rw [if_neg (Nat.not_lt.mpr hlen)]
  dsimp only
  split
  · next hne => exact iff_of_true (proceeds_natCast 128) hne
  · next heq => exact iff_of_false (not_proceeds_idle intr) heq

theorem inotifyRead_proceeds (st : Inotify) :
    (inotifyRead st len true intr).1.Proceeds ↔ st.queue ≠ [] ∨ st.overflow = true := by
  unfold inotifyRead
  split
  · next hover =>
    refine iff_of_true ?_ (.inr hover)
    split
    · exact proceeds_fail (by decide)
    · exact proceeds_natCast 16
  next hover =>
  split
  · next hne =>
    refine iff_of_true ?_ (.inl hne)
    dsimp only
    split
    · exact proceeds_natCast _
    · exact proceeds_fail (by decide)
  · next heq => exact iff_of_false (not_proceeds_idle intr) (not_or.mpr ⟨heq, hover⟩)

theorem inetFdRead_proceeds (len : ℕ) (c : NetConn) :
    (inetFdRead c len true).1.Proceeds ↔
      inetPollIn c = true ∨ c.type = .stream ∧ c.pcb = false := by
  unfold inetFdRead
  split
  · next htype =>
    unfold inetPollIn
    rw [htype]
    split
    · next hempty =>
      split
      · next hend =>
        refine iff_of_true (proceeds_natCast 0) ?_
        rcases hend with hend | hend | hend
        · simp [hend]
        · simp [hend]
        · exact .inr ⟨rfl, hend⟩
      · next hend =>
        refine iff_of_false (not_proceeds_idle false) ?_
        simp only [not_or] at hend
        simp [hempty, hend]
    · next hne => exact iff_of_true (proceeds_natCast _) (.inl (by simp [hne]))
  · next hother =>
    have hpoll : inetPollIn c = true ↔ c.udqHead ≠ c.udqTail := by
      unfold inetPollIn
      split
      · next htype => exact absurd htype hother
      · exact decide_eq_true_iff
    rw [hpoll, or_iff_left fun h => hother h.1]
    split
    · next heq => exact iff_of_false (not_proceeds_idle false) (not_not.mpr heq)
    · next hne => exact iff_of_true (proceeds_natCast _) hne

theorem Room.proceeds (room : Room) : room.reply.Proceeds := by
  unfold Room.reply
  split
  · exact proceeds_fail (by decide)
  · split
    · exact proceeds_natCast _
    · exact proceeds_fail (by decide)

theorem inetAccept_proceeds (c : NetConn) (room : Room) (hserver : c.isServer = true) :
    (inetAccept c true room).1.Proceeds ↔ c.acceptQueue ≠ [] := by
  unfold inetAccept
  rw [if_neg (by rw [hserver]; decide)]
  split
  · next heq => exact iff_of_false (not_proceeds_idle false) (not_not.mpr heq)
  · next heq => exact iff_of_true room.proceeds (by rw [heq]; exact List.cons_ne_nil _ _)

theorem acceptUnix_proceeds (s : Sock) (room : Room) (hlisten : s.state = .listening) :
    (acceptUnix s true room).1.Proceeds ↔ unixSocketHasPending s = true := by
  unfold acceptUnix unixSocketHasPending
  rw [if_neg (not_not.mpr hlisten)]
  split
  · next heq => exact iff_of_false (not_proceeds_idle false) (by simp [heq])
  · next hne => exact iff_of_true room.proceeds (by simp [hlisten, hne])

namespace PollSys

variable (s : PollSys) (t : ℕ) (f : PFile)

def listening : Bool :=
  match f.obj with
  | .inet k => (s.conn k).type = .stream && (s.conn k).isServer
  | .unix k => (s.sock k).state = .listening
  | _ => false

def readProbe (len : ℕ) (intr : Bool) (room : Room) : Reply :=
  if s.listening f = true then (s.accept f room).1 else (s.fdReadEx t f len false intr).1

def CanRead : Prop :=
  match f.obj with
  | .pipe _ write => write = false
  | .unix k => (s.sock k).state = .listening
  | .chr d => f.acc ≠ .wronly ∧ d ≠ .tty
  | _ => True

def minRead : ℕ :=
  match f.obj with
  | .event _ | .timer _ => 8
  | .signal _ => 128
  | _ => 1

def stirred (c : NetConn) : Prop := c.ringAvail ≠ 0 ∨ c.peerClosed = true ∨ c.error = true

def ptyOk (p : Pipe) (otherOpen intr : Bool) : Prop :=
  p.count ≠ 0 ∨ otherOpen = true ∨ p.writeRefs = 0 ∨ intr = true ∨ pipeValid p = false

def InOk (intr : Bool) : Prop :=
  match f.obj with
  | .inet k =>
    (s.conn k).type = .stream →
      if (s.conn k).isServer = true then ((s.conn k).acceptQueue ≠ [] ↔ stirred (s.conn k))
      else stirred (s.conn k) ∨ (s.conn k).pcb = true
  | .chr (.mem _) => s.tty.dataReady = true
  | .chr (.ptym i) => ∀ p, s.pty i = some p → ptyOk (s.pipe p.s2m) p.slaveOpen intr
  | .chr (.ptys i) => ∀ p, s.pty i = some p → ptyOk (s.pipe p.m2s) p.masterOpen intr
  | _ => True

variable {s t f} {room : Room}

theorem inetPollIn_stream {c : NetConn} (h : c.type = .stream) :
    inetPollIn c = true ↔ stirred c := by
  unfold inetPollIn stirred
  rw [h]
  simp [or_assoc]

theorem pipeReadEx_proceeds (k : ℕ) (hlen : 0 < len) :
    (s.pipeReadEx k len true intr).1.Proceeds ↔ readable (s.pipe k) = true := by
  unfold pipeReadEx
  split
  · next hempty =>
    refine iff_of_false (not_proceeds_idle intr) ?_
    simp [readable, hempty.2.1, hempty.2.2]
  · next hsome =>
    have hready : readable (s.pipe k) = true := by
      simp only [true_and, not_and, not_not] at hsome
      by_cases hcount : (s.pipe k).count = 0
      · simp [readable, hsome hcount]
      · simp [readable, hcount]
    refine iff_of_true ?_ hready
    exact (pipeRead_proceeds _ hlen).mpr (.inl hready)

theorem readProbe_read (hl : s.listening f = false) (hlen : 0 < len) :
    s.readProbe t f len intr room = (s.readObj t f len false intr).1 := by
  unfold readProbe fdReadEx
  rw [hl, if_neg Bool.false_ne_true, if_neg hlen.ne']

theorem readProbe_accept (hl : s.listening f = true) :
    s.readProbe t f len intr room = (s.accept f room).1 := if_pos hl

theorem chr_iff {d : ChrDev} {acc : AccMode} (hacc : acc ≠ .wronly) (hpoll : hasPollin d = true) :
    (s.chrPollin d = true ↔ (s.readObj t ⟨.chr d, acc, true⟩ len false intr).1.Proceeds) ↔
      (s.chrPollin d = true → (s.chrRead d len intr).1.Proceeds) := by
  unfold readObj
  dsimp only
  rw [if_neg hacc]
  cases hd : s.chrPollin d with
  | false =>
    rw [if_pos ⟨rfl, hpoll, rfl⟩]
    exact iff_of_true (iff_of_false Bool.false_ne_true (not_proceeds_idle intr))
      fun h => absurd h Bool.false_ne_true
  | true =>
    rw [if_neg fun h => Bool.false_ne_true h.2.2.symm]
    rw [eq_self_iff_true, true_iff, true_imp_iff]

theorem ptyOk_iff (p : Pipe) (otherOpen : Bool) (hlen : 0 < len) :
    ((p.count ≠ 0 || !otherOpen) = true → (pipeRead p len intr).1.Proceeds) ↔
      ptyOk p otherOpen intr := by
  rw [pipeRead_proceeds p hlen]
  unfold ptyOk readable
  cases otherOpen with
  | true =>
    simp only [Bool.not_true, Bool.or_false, decide_eq_true_iff, Bool.or_eq_true]
    exact iff_of_true (fun hcount => .inl (.inl hcount)) (.inr (.inl trivial))
  | false => simp [or_assoc]

theorem pollin_iff (hnb : f.nonblock = true) (hcan : s.CanRead f) (hlen : minRead f ≤ len) :
    (s.fdPollin t f = true ↔ (s.readProbe t f len intr room).Proceeds) ↔ s.InOk f intr := by
  obtain ⟨obj, acc, nonblock⟩ := f
  obtain rfl : nonblock = true := hnb
  cases obj with
  | event k =>
    have hlen : 8 ≤ len := hlen
    rw [readProbe_read rfl (by omega)]
    refine iff_of_true (Iff.symm ?_) trivial
    exact (eventfdRead_proceeds _ hlen).trans decide_eq_true_iff.symm
  | timer k =>
    have hlen : 8 ≤ len := hlen
    rw [readProbe_read rfl (by omega)]
    exact iff_of_true (timerfdRead_proceeds _ _ hlen).symm trivial
  | signal k =>
    have hlen : 128 ≤ len := hlen
    rw [readProbe_read rfl (by omega)]
    refine iff_of_true (Iff.symm ?_) trivial
    exact (signalfdRead_proceeds _ _ hlen).trans decide_eq_true_iff.symm
  | inotify k =>
    rw [readProbe_read rfl hlen]
    refine iff_of_true (Iff.symm ?_) trivial
    refine (inotifyRead_proceeds _).trans ?_
    unfold fdPollin
    simp
  | inet k =>
    have hpos : 0 < len := hlen
    have hl : s.listening ⟨.inet k, acc, true⟩ =
      (decide ((s.conn k).type = .stream) && (s.conn k).isServer) := rfl
    show (inetPollIn (s.conn k) = true ↔ _) ↔ ((s.conn k).type = .stream → _)
    by_cases htype : (s.conn k).type = .stream
    · rw [inetPollIn_stream htype, imp_iff_right htype]
      by_cases hserver : (s.conn k).isServer = true
      · rw [readProbe_accept (by rw [hl]; simp [htype, hserver]), if_pos hserver]
        exact (iff_congr Iff.rfl (inetAccept_proceeds _ _ hserver)).trans iff_comm
      · rw [readProbe_read (by rw [hl]; simp [hserver]) hpos, if_neg hserver]
        have hread := inetFdRead_proceeds len (s.conn k)
        rw [inetPollIn_stream htype] at hread
        refine (iff_congr Iff.rfl hread).trans ?_
        by_cases hstir : stirred (s.conn k)
        · simp [hstir]
        · simp [hstir, htype]
    · rw [readProbe_read (by rw [hl]; simp [htype]) hpos]
      have hread := inetFdRead_proceeds len (s.conn k)
      rw [or_iff_left fun h => htype h.1] at hread
      exact iff_of_true hread.symm fun h => absurd h htype
  | sockets rd wr =>
    rw [readProbe_read rfl hlen]
    exact iff_of_true (pipeReadEx_proceeds rd hlen).symm trivial
  | pipe k write =>
    obtain rfl : write = false := hcan
    rw [readProbe_read rfl hlen]
    exact iff_of_true (pipeReadEx_proceeds k hlen).symm trivial
  | unix k =>
    have hlisten : (s.sock k).state = .listening := hcan
    have hl : s.listening ⟨.unix k, acc, true⟩ = true := decide_eq_true hlisten
    rw [readProbe_accept hl]
    exact iff_of_true (acceptUnix_proceeds _ _ hlisten).symm trivial
  | chr d =>
    obtain ⟨hacc, htty⟩ := hcan
    rw [readProbe_read rfl hlen]
    cases d with
    | mem d =>
      have hread : (s.readObj t ⟨.chr (.mem d), acc, true⟩ len false intr).1.Proceeds := by
        unfold readObj
        dsimp only
        rw [if_neg hacc]
        exact proceeds_natCast _
      exact (iff_true_right hread).trans Iff.rfl
    | tty => exact absurd rfl htty
    | ptym i =>
      refine (chr_iff (d := .ptym i) hacc rfl).trans ?_
      unfold chrPollin chrRead InOk
      dsimp only
      cases hpty : s.pty i with
      | none => simp
      | some p => simpa using ptyOk_iff (s.pipe p.s2m) p.slaveOpen hlen
    | ptys i =>
      refine (chr_iff (d := .ptys i) hacc rfl).trans ?_
      unfold chrPollin chrRead InOk
      dsimp only
      cases hpty : s.pty i with
      | none => simp
      | some p => simpa using ptyOk_iff (s.pipe p.m2s) p.masterOpen hlen
    | evdev i =>
      refine (chr_iff (d := .evdev i) hacc rfl).trans ?_
      refine iff_of_true (fun hready => ?_) trivial
      have hne : s.evdev i ≠ 0 := of_decide_eq_true hready
      show (evdevRead (s.evdev i) len intr).1.Proceeds
      unfold evdevRead
      rw [if_neg (c := s.evdev i = 0) hne]
      split
      · exact proceeds_fail (by decide)
      · exact_mod_cast proceeds_natCast _

def SmallWrite (f : PFile) (data : List UInt8) : Prop :=
  match f.obj with
  | .event _ => data.length = 8 ∧ le64 data ≠ 0xffffffffffffffff
  | _ => data.length = 1

def CanWrite (f : PFile) : Prop :=
  match f.obj with
  | .event _ | .sockets _ _ => True
  | .pipe _ write => write = true
  | _ => False

def OutOk (s : PollSys) (f : PFile) : Prop :=
  match f.obj with
  | .event k => (s.event k).counter < 0xfffffffffffffffe
  | .sockets _ k | .pipe k _ => (s.pipe k).readRefs ≠ 0
  | _ => True

theorem pipeWriteEx_iff (k : ℕ) {data : List UInt8} (hdata : data.length = 1) :
    (writable (s.pipe k) = true ↔ (s.pipeWriteEx k data true intr).1.Proceeds) ↔
      (s.pipe k).readRefs ≠ 0 := by
  obtain ⟨b, rfl⟩ := List.length_eq_one_iff.mp hdata
  have hle := (s.pipe k).count_le
  unfold pipeWriteEx writable
  by_cases hrefs : (s.pipe k).readRefs = 0
  · rw [if_neg fun h => h.2 hrefs]
    refine iff_of_false (fun hiff => ?_) (not_not.mpr hrefs)
    have hwrite : (pipeWrite (s.pipe k) [b] intr).1.Proceeds := by
      unfold pipeWrite
      rw [if_pos (c := (s.pipe k).readRefs = 0) hrefs]
      split <;> exact proceeds_fail (by decide)
    have hout := hiff.mpr hwrite
    simp [hrefs] at hout
  · rw [if_pos ⟨rfl, hrefs⟩]
    refine iff_of_true ?_ hrefs
    by_cases hroom : (s.pipe k).count < pipeBufsz
    · rw [if_neg (Nat.sub_pos_of_lt hroom).ne',
        List.take_of_length_le (show [b].length ≤ _ from Nat.sub_pos_of_lt hroom)]
      exact iff_of_true (by simp [hroom, hrefs]) (pipeWrite_one _ b hroom hrefs)
    · rw [if_pos (Nat.sub_eq_zero_of_le (Nat.not_lt.mp hroom))]
      exact iff_of_false (by simp [hroom]) (not_proceeds_idle intr)

theorem pollout_iff (hnb : f.nonblock = true) (hcan : CanWrite f) {data : List UInt8}
    (hdata : SmallWrite f data) {r : Reply × PollSys}
    (hr : s.fdWriteEx f data false intr = some r) :
    (s.fdPollout f = true ↔ r.1.Proceeds) ↔ s.OutOk f := by
  obtain ⟨obj, acc, nonblock⟩ := f
  obtain rfl : nonblock = true := hnb
  have hne : data ≠ [] := by
    rintro rfl
    cases obj <;> simp [SmallWrite] at hdata
  cases obj with
  | event k =>
    obtain ⟨hlen, hval⟩ : data.length = 8 ∧ le64 data ≠ 0xffffffffffffffff := hdata
    cases (if_neg hne).symm.trans hr
    have hproceeds : (eventfdWrite (s.event k) data.length (le64 data)).1.Proceeds := by
      unfold eventfdWrite
      rw [if_neg (by omega), if_neg hval]
      exact proceeds_natCast 8
    exact (iff_true_right hproceeds).trans decide_eq_true_iff
  | sockets rd wr =>
    cases (if_neg hne).symm.trans hr
    exact pipeWriteEx_iff wr hdata
  | pipe k write =>
    obtain rfl : write = true := hcan
    cases (if_neg hne).symm.trans hr
    exact pipeWriteEx_iff k hdata
  | _ => exact absurd hcan not_false

end PollSys

/-- Readiness is right just when: for reading, a stream has a control block, or listens with a
connection waiting if it has something to tell, a device without readiness finds console input, and
the other end of a terminal is open or its pipe has no writers; for writing, there is a reader, and
the counter is not at its end. -/
theorem readiness_iff (s : PollSys) (t : ℕ) (f : PFile) (intr : Bool) (hnb : f.nonblock = true) :
    (s.CanRead f → ∀ len room, minRead f ≤ len →
      ((s.fdPollin t f = true ↔ (s.readProbe t f len intr room).Proceeds) ↔ s.InOk f intr)) ∧
    (PollSys.CanWrite f → ∀ data r, PollSys.SmallWrite f data →
      s.fdWriteEx f data false intr = some r →
      ((s.fdPollout f = true ↔ r.1.Proceeds) ↔ s.OutOk f)) :=
  ⟨fun hcan _ _ hlen => pollin_iff hnb hcan hlen,
    fun hcan _ _ hdata hr => pollout_iff hnb hcan hdata hr⟩

def pollStart : PollSys where
  ticks := 0
  pending := fun _ => 0
  pipe := fun _ => pipeAlloc 1 1
  event := fun _ => ⟨0, false⟩
  timer := fun _ => ⟨0, 0, 0⟩
  sigMask := fun _ => 0
  inotify := fun _ => ⟨[], [], false⟩
  conn := fun _ => ⟨.stream, true, false, false, false, false, false, false, false, fun _ => 0, 0,
    0, fun _ => [], ⟨0, Nat.zero_lt_succ _⟩, ⟨0, Nat.zero_lt_succ _⟩, []⟩
  sock := fun _ => ⟨.unbound, .none, 0⟩
  pty := fun _ => none
  tty := ⟨[], true, 4, 1, false⟩
  evdev := fun _ => 0

theorem readiness_iff_empty_pipe :
    (pollStart.fdPollin 1 ⟨.pipe 0 false, .rdonly, true⟩ = true ↔
      (pollStart.readProbe 1 ⟨.pipe 0 false, .rdonly, true⟩ 1 false ⟨none, true⟩).Proceeds) ∧
    (pollStart.fdPollout ⟨.pipe 0 true, .wronly, true⟩ = true ↔
      (pollStart.pipeWriteEx 0 [7] true false).1.Proceeds) :=
  ⟨((readiness_iff pollStart 1 ⟨.pipe 0 false, .rdonly, true⟩ false rfl).1 rfl 1 ⟨none, true⟩
      le_rfl).mpr trivial,
    ((readiness_iff pollStart 1 ⟨.pipe 0 true, .wronly, true⟩ false rfl).2 rfl [7] _ rfl rfl).mpr
      Nat.one_ne_zero⟩

/-- `/dev/null` can be read at once, but is not announced without console input; a pipe without
readers refuses a byte at once, but is not announced. -/
theorem null_device_not_announced :
    let null : PFile := ⟨.chr (.mem .null), .rdonly, true⟩
    let s := pollStart.setPipe 0 (pipeAlloc 1 0)
    pollStart.fdPollin 1 null = false ∧
      pollStart.readProbe 1 null 1 false ⟨none, true⟩ = .done 0 .nothing ∧
      s.fdPollout ⟨.pipe 0 true, .wronly, true⟩ = false ∧
      ((s.fdWriteEx ⟨.pipe 0 true, .wronly, true⟩ [7] false false).map fun r => r.1) =
        some (.fail epipe) := by
  decide +kernel

end Kyronix.Fs
