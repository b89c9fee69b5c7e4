import Kyronix.Fs.SockMsg

/-! Descriptors that are sent over a pair of sockets: none is lost or closed twice, and when each
comes with the bytes of its own message. -/
namespace Kyronix.Fs.SockPair

open Lib.Run Function List Pair

theorem pipeWrite_count (p : Pipe) (data : List UInt8) :
    (pipeWrite p data true).2.count = p.count + (code (pipeWrite p data true).1).toNat := by
  have hbad : ∀ e : ℤ, 0 ≤ e → (code (Reply.fail e)).toNat = 0 :=
    fun e he => Int.toNat_of_nonpos (Int.neg_nonpos_of_nonneg he)
  unfold pipeWrite
  split
  · rw [hbad eio (by decide), Nat.add_zero]
  split
  · rw [hbad epipe (by decide), Nat.add_zero]
  obtain ⟨-, hle, hcont⟩ := pipeWriteLoop_spec p data 0 (Nat.zero_le _)
  have hcount : (pipeWriteLoop p data 0).2.2.count = p.count + (pipeWriteLoop p data 0).2.1 := by
    have hlen := congrArg List.length hcont
    rw [Pipe.length_contents, length_append, Pipe.length_contents, drop_zero,
      Nat.sub_zero, length_take, min_eq_left hle] at hlen
    exact hlen
  have hshort : ∀ (done : ℕ) (e : ℤ), 0 ≤ e →
      (code (if done = 0 then Reply.fail e else .done done .nothing)).toNat = done := by
    intro done e he
    split
    · next h₀ => rw [hbad e he, h₀]
    · rfl
  rcases hw : pipeWriteLoop p data 0 with ⟨_ | _ | _, done, p'⟩ <;> rw [hw] at hcount
  · exact hcount
  · show p'.count = _
    rw [hshort done epipe (by decide)]
    exact hcount
  · show p'.count = p.count + (code (if done = 0 then Reply.fail eintr else _)).toNat
    rw [hshort done eintr (by decide)]
    exact hcount

theorem fdWriteEx_count (isOpen : Bool) (p : Pipe) (seg : Segment) (nonblock : Bool) :
    (fdWriteEx isOpen p seg nonblock).2.count =
      p.count + (fdWriteEx isOpen p seg nonblock).1.toNat := by
  unfold fdWriteEx
  split
  · rfl
  split
  · rfl
  split
  · rfl
  split
  · split
    · rfl
    · exact pipeWrite_count ..
  · exact pipeWrite_count ..

theorem pipeRead_count (p : Pipe) (len : ℕ) :
    (pipeRead p len true).2.count + (code (pipeRead p len true).1).toNat = p.count := by
  unfold pipeRead
  split
  · rfl
  obtain ⟨hout, hcont⟩ := pipeReadLoop_spec p len []
  have hlen := congrArg List.length hcont
  have hlout := congrArg List.length hout
  rw [Pipe.length_contents, length_drop, Pipe.length_contents, length_nil,
    Nat.sub_zero] at hlen
  rw [nil_append, length_take, Pipe.length_contents, length_nil,
    Nat.sub_zero] at hlout
  have hblock : (pipeReadLoop p len []).1 ≠ .ret → _ := pipeReadLoop_block
  rcases hr : pipeReadLoop p len [] with ⟨_ | _ | _, out, p'⟩ <;> rw [hr] at hlen hlout hblock
  · show p'.count + out.length = p.count
    dsimp only at hlen hlout
    omega
  · show p'.count + out.length = p.count
    dsimp only at hlen hlout
    omega
  · have hempty := (hblock nofun).2.1
    show p'.count + 0 = p.count
    dsimp only at hlen
    omega

theorem fdReadEx_count (isOpen : Bool) (p : Pipe) (buf : Buffer) (nonblock : Bool) :
    (fdReadEx isOpen p buf nonblock).2.count + (fdReadEx isOpen p buf nonblock).1.toNat =
      p.count := by
  unfold fdReadEx
  split
  · rfl
  split
  · rfl
  split
  · rfl
  split
  · rfl
  · exact pipeRead_count ..

theorem eachPart_moves {α : Type*} (len : α → ℕ) (move : α → ℕ → Pipe → ℤ × Pipe)
    {R : ℕ → Pipe → Pipe → Prop} (hrefl : ∀ p, R 0 p p)
    (htrans : ∀ {m n p q r}, R m p q → R n q r → R (m + n) p r)
    (hmove : ∀ a t p, R (move a t p).1.toNat p (move a t p).2) (as : List α) (total : ℕ)
    (p : Pipe) :
    ∃ n, (eachPart len move as total p).2.1 = total + n ∧
      R n p (eachPart len move as total p).2.2 := by
  induction as generalizing total p with
  | nil => exact ⟨0, rfl, hrefl p⟩
  | cons a as ih =>
    have hone := hmove a total p
    unfold eachPart
    split
    · exact ⟨0, rfl, hrefl p⟩
    dsimp only
    split
    · next hneg =>
      rw [Int.toNat_of_nonpos (le_of_lt hneg)] at hone
      exact ⟨0, rfl, hone⟩
    split
    · exact ⟨_, rfl, hone⟩
    · obtain ⟨n, htotal, hR⟩ := ih (total + (move a total p).1.toNat) (move a total p).2
      exact ⟨_ + n, htotal.trans (Nat.add_assoc ..), htrans hone hR⟩

theorem sendData_count (s : Pair) (e : Bool) (args : SendArgs) :
    (sendData s e args).2.2.count = (s.chan e).pipe.count + (sendData s e args).2.1 := by
  obtain ⟨n, htotal, hcount⟩ := eachPart_moves (fun seg : Segment => seg.data.length)
    (fun seg _ p => fdWriteEx (s.openEnd e) p seg args.nonblock)
    (R := fun n p q => q.count = p.count + n) (fun p => rfl)
    (fun hp hq => by omega) (fun _ _ _ => fdWriteEx_count ..) args.iov 0
    (s.chan e).pipe
  rw [Nat.zero_add] at htotal
  rw [sendData, htotal]
  exact hcount

theorem recvData_count (s : Pair) (e : Bool) (args : RecvArgs) :
    (recvData s e args).2.2.count + (if args.peek = true then 0 else (recvData s e args).2.1) =
      (s.chan (!e)).pipe.count := by
  obtain ⟨n, htotal, hcount⟩ := eachPart_moves Buffer.len
    (fun buf total p =>
      if args.peek = true then (fdPeekEx (s.openEnd e) p buf total args.nonblock, p)
      else fdReadEx (s.openEnd e) p buf args.nonblock)
    (R := fun n p q => q.count + (if args.peek = true then 0 else n) = p.count)
    (fun p => by split <;> rfl)
    (fun hp hq => by
      split at hp
      · next hpeek =>
        rw [if_pos hpeek] at hq ⊢
        omega
      · next hpeek =>
        rw [if_neg hpeek] at hq ⊢
        omega)
    (fun a t p => by
      by_cases hpeek : args.peek = true
      · rw [if_pos hpeek, if_pos hpeek]
        rfl
      · rw [if_neg hpeek, if_neg hpeek]
        exact fdReadEx_count ..)
    args.iov 0 (s.chan (!e)).pipe
  rw [Nat.zero_add] at htotal
  rw [recvData, htotal]
  exact hcount

structure ChanBooks (c : Chan) : Prop where
  bytes : c.taken + c.pipe.count = c.written
  ends : ∀ m ∈ c.anc, m.start + m.bytes ≤ c.written
  order : c.anc.Pairwise fun a b => a.start + a.bytes ≤ b.start
  small : ∀ m ∈ c.anc, m.files.length ≤ pipeAncMaxfds
  slots : c.anc.length < pipeAncSlots

structure Books (s : Pair) : Prop where
  once : ∀ f, (s.queued ++ s.installed ++ s.closed).count f = if f < s.nextFile then 1 else 0
  chan : ∀ e, ChanBooks (s.chan e)

theorem books_boot : Books boot where
  once := fun _ => rfl
  chan := fun _ => ⟨rfl, fun _ hm => absurd hm not_mem_nil, List.Pairwise.nil,
    fun _ hm => absurd hm not_mem_nil, Nat.succ_pos 7⟩

section

variable {s s' : Pair} {e : Bool} {f n total : ℕ} {p : Pipe} {c : Chan} {m : Anc}

@[simp] theorem setChan_self (s : Pair) (e : Bool) (c : Chan) : (s.setChan e c).chan e = c :=
  update_self ..

theorem setChan_ne (s : Pair) (c : Chan) {d : Bool} (h : d ≠ e) :
    (s.setChan e c).chan d = s.chan d := update_of_ne h ..

def filesOf (c : Chan) : List ℕ := c.anc.flatMap Anc.files

theorem count_queued (s : Pair) (e : Bool) (f : ℕ) :
    s.queued.count f = (filesOf (s.chan e)).count f + (filesOf (s.chan (!e))).count f := by
  rw [queued, flatMap_append, count_append]
  cases e
  · rfl
  · exact Nat.add_comm ..

variable {installed closed : List ℕ}

theorem Books.setChan (h : Books s) {next : ℕ} {log : List Event} (hc : ChanBooks c)
    (hcount : ∀ f, (filesOf c).count f + installed.count f + closed.count f +
        (if f < s.nextFile then 1 else 0) =
      (filesOf (s.chan e)).count f + s.installed.count f + s.closed.count f +
        if f < next then 1 else 0) :
    Books { s.setChan e c with
      nextFile := next
      installed := installed
      closed := closed
      log := log } := by
  refine ⟨fun f => ?_, fun d => ?_⟩
  · have hold := h.once f
    have hnew := hcount f
    have hother : (s.setChan e c).chan (!e) = s.chan (!e) := setChan_ne _ _ (Bool.not_ne_self e)
    rw [count_append, count_append, count_queued s e] at hold
    show ((s.setChan e c).queued ++ installed ++ closed).count f = _
    rw [count_append, count_append, count_queued _ e, setChan_self, hother]
    show _ = if f < next then 1 else 0
    omega
  · show ChanBooks ((s.setChan e c).chan d)
    by_cases hd : d = e
    · rw [hd, setChan_self]
      exact hc
    · rw [setChan_ne _ _ hd]
      exact h.chan d

theorem Books.wrote (h : Books s) (hp : p.count = (s.chan e).pipe.count + n) :
    Books (s.wrote e p n) := by
  have hc := h.chan e
  refine h.setChan ⟨?_, fun m hm => ?_, hc.order, hc.small, hc.slots⟩ fun f => rfl
  · show (s.chan e).taken + p.count = (s.chan e).written + n
    rw [hp, ← Nat.add_assoc, hc.bytes]
  · exact (hc.ends m hm).trans (Nat.le_add_right ..)

theorem Books.took (h : Books s) (hp : p.count + n = (s.chan (!e)).pipe.count) :
    Books (s.took e p n) := by
  have hc := h.chan (!e)
  refine h.setChan ⟨?_, hc.ends, hc.order, hc.small, hc.slots⟩ fun f => rfl
  show (s.chan (!e)).taken + n + p.count = (s.chan (!e)).written
  rw [Nat.add_assoc, Nat.add_comm n, hp, hc.bytes]

theorem count_range' (first k f : ℕ) :
    (List.range' first k).count f + (if f < first then 1 else 0) =
      if f < first + k then 1 else 0 := by
  by_cases hmem : f ∈ List.range' first k
  · have hrange := mem_range'_1.mp hmem
    rw [count_eq_one_of_mem nodup_range' hmem, if_neg (by omega), if_pos hrange.2]
  · have hrange := mt mem_range'_1.mpr hmem
    rw [count_eq_zero_of_not_mem hmem, Nat.zero_add]
    congr 1
    exact propext ⟨fun h => by omega, fun h => by omega⟩

theorem cloned_eq_iff {c : Control} {k : ℕ} : cloned c k = k ↔ ∀ i < k, c.fd i = .file true := by
  unfold cloned
  constructor
  · intro h i hi
    have hpre := takeWhile_prefix (l := List.range k) fun i => decide (c.fd i = .file true)
    have heq := hpre.eq_of_length (by rw [h, length_range])
    have hall := takeWhile_eq_self_iff.mp heq i (mem_range.mpr hi)
    exact of_decide_eq_true hall
  · intro h
    rw [takeWhile_eq_self_iff.mpr fun i hi =>
      decide_eq_true (h i (mem_range.mp hi)), length_range]

structure Queues (s s' : Pair) : Prop where
  log : s'.log = s.log
  taken : ∀ e, (s'.chan e).taken = (s.chan e).taken
  anc : ∀ e, ∀ m ∈ (s'.chan e).anc, m ∈ (s.chan e).anc ∨ (s.chan e).taken ≤ m.start

theorem Queues.refl (s : Pair) : Queues s s := ⟨rfl, fun _ => rfl, fun _ _ hm => .inl hm⟩

theorem Queues.trans {s'' : Pair} (h : Queues s s') (h' : Queues s' s'') : Queues s s'' := by
  refine ⟨h'.log.trans h.log, fun e => (h'.taken e).trans (h.taken e), fun e m hm => ?_⟩
  rcases h'.anc e m hm with hm | hm
  · exact h.anc e m hm
  · exact .inr (h.taken e ▸ hm)

theorem Queues.setChan (s : Pair) (e : Bool) {next : ℕ} (htaken : c.taken = (s.chan e).taken)
    (hanc : ∀ m ∈ c.anc, m ∈ (s.chan e).anc ∨ (s.chan e).taken ≤ m.start) :
    Queues s { s.setChan e c with nextFile := next, installed := installed, closed := closed } := by
  refine ⟨rfl, fun d => ?_, fun d => ?_⟩
  · show ((s.setChan e c).chan d).taken = _
    by_cases hd : d = e
    · rw [hd, setChan_self, htaken]
    · rw [setChan_ne _ _ hd]
  · show ∀ m ∈ ((s.setChan e c).chan d).anc, _
    by_cases hd : d = e
    · rwa [hd, setChan_self]
    · rw [setChan_ne _ _ hd]
      exact fun m hm => .inl hm

theorem Queues.wrote (s : Pair) (e : Bool) (p : Pipe) (n : ℕ) : Queues s (s.wrote e p n) :=
  Queues.setChan s e rfl fun _ hm => .inl hm

theorem sendRights_spec (h : Books s) (c : Control) {start : ℕ}
    (hstart : start + total = (s.chan e).written)
    (hends : ∀ m ∈ (s.chan e).anc, m.start + m.bytes ≤ start)
    (htaken : (s.chan e).taken ≤ start) :
    Books (sendRights s e c start total).2.2 ∧ Queues s (sendRights s e c start total).2.2 ∧
      ((sendRights s e c start total).2.1 = c.nfds ↔ c.nfds = 0 ∨ s.openEnd e = true ∧
        c.nfds ≤ pipeAncMaxfds ∧ (∀ i < c.nfds, c.fd i = .file true) ∧
          (s.chan e).anc.length + 1 ≠ pipeAncSlots) := by
  have hc := h.chan e
  unfold sendRights
  split
  · next hnot =>
    refine ⟨h, .refl s, ⟨fun h₀ => .inl h₀.symm, ?_⟩⟩
    rintro (h₀ | hyes)
    · exact h₀.symm
    · rcases hnot with hclosed | h₀
      · rw [hclosed] at hyes
        exact absurd hyes.1 (by decide)
      · exact h₀.symm
  next hnot =>
  rw [not_or] at hnot
  dsimp only
  split
  · next hfail =>
    refine ⟨?_, ⟨rfl, fun _ => rfl, fun _ _ hm => .inl hm⟩, ?_⟩
    · refine ⟨fun f => ?_, h.chan⟩
      have hold := h.once f
      have hrange := count_range' s.nextFile (cloned c (min c.nfds pipeAncMaxfds)) f
      show (s.queued ++ s.installed ++ (List.range' _ _ ++ s.closed)).count f =
        if f < s.nextFile + cloned c (min c.nfds pipeAncMaxfds) then 1 else 0
      rw [count_append, count_append] at hold
      rw [count_append, count_append, count_append]
      omega
    · refine ⟨fun h₀ => .inl h₀.symm, ?_⟩
      rintro (h₀ | ⟨-, hfew, hfiles, hroom⟩)
      · exact absurd h₀ hnot.2
      · rw [min_eq_left hfew] at hfail
        exact absurd (cloned_eq_iff.mpr hfiles) (hfail.resolve_right hroom)
  · next hok =>
    rw [not_or, not_not] at hok
    obtain ⟨hall, hroom⟩ := hok
    refine ⟨?_, Queues.setChan s e rfl fun m hm => ?_, ?_⟩
    · refine h.setChan ⟨hc.bytes, fun m hm => ?_, ?_, fun m hm => ?_, ?_⟩ fun f => ?_
      · rcases mem_append.mp hm with hm | hm
        · exact hc.ends m hm
        · rw [mem_singleton.mp hm]
          exact hstart.le
      · refine pairwise_append.mpr ⟨hc.order, pairwise_singleton _ _, fun a ha b hb => ?_⟩
        rw [mem_singleton.mp hb]
        exact hends a ha
      · rcases mem_append.mp hm with hm | hm
        · exact hc.small m hm
        · rw [mem_singleton.mp hm]
          show (List.range' _ _).length ≤ _
          rw [length_range', hall]
          exact min_le_right ..
      · show (_ ++ [_]).length < _
        rw [length_append]
        exact lt_of_le_of_ne hc.slots hroom
      · have hrange := count_range' s.nextFile (cloned c (min c.nfds pipeAncMaxfds)) f
        show List.count f (List.flatMap Anc.files (_ ++ [_])) + _ + _ + _ = _
        rw [flatMap_append, count_append, flatMap_singleton]
        show (filesOf (s.chan e)).count f + (List.range' _ _).count f + s.installed.count f +
          s.closed.count f + (if f < s.nextFile then 1 else 0) = _ + _ + _ +
            if f < s.nextFile + cloned c (min c.nfds pipeAncMaxfds) then 1 else 0
        omega
    · rcases mem_append.mp hm with hm | hm
      · exact .inl hm
      · rw [mem_singleton.mp hm]
        exact .inr htaken
    · have hopen : s.openEnd e = true := by
        rw [← Bool.not_eq_false]
        exact hnot.1
      constructor
      · intro hn
        have hfew : c.nfds ≤ pipeAncMaxfds := min_eq_left_iff.mp hn
        rw [min_eq_left hfew] at hall
        exact .inr ⟨hopen, hfew, cloned_eq_iff.mp hall, hroom⟩
      · rintro (h₀ | ⟨-, hfew, -⟩)
        · exact absurd h₀ hnot.2
        · exact min_eq_left hfew

theorem sendmsg_spec (h : Books s) (args : SendArgs) :
    Books (sendmsg s e args).2.2 ∧ Queues s (sendmsg s e args).2.2 ∧
      (0 ≤ (sendmsg s e args).1 →
        ((sendmsg s e args).2.1 = args.ctl.asked ↔ args.ctl.asked = 0 ∨ SendsAll s e args)) := by
  have hbad : ∀ (err : ℤ) (t : ℕ), err < 0 →
      (0 ≤ err → (t = args.ctl.asked ↔ args.ctl.asked = 0 ∨ SendsAll s e args)) :=
    fun err t hneg hpos => absurd hneg (not_lt.mpr hpos)
  unfold sendmsg
  split
  · exact ⟨h, .refl s, hbad _ _ neg_errno_lt⟩
  split
  · exact ⟨h, .refl s, hbad _ _ neg_errno_lt⟩
  split
  · exact ⟨h, .refl s, hbad _ _ neg_errno_lt⟩
  have hcount := sendData_count s e args
  rcases hd : sendData s e args with ⟨_ | r, total, p⟩ <;> rw [hd] at hcount
  · -- the data is out
    have hbooks : Books (s.wrote e p total) := h.wrote hcount
    have hqueues := Queues.wrote s e p total
    have hchan : (s.wrote e p total).chan e =
        { s.chan e with pipe := p, written := (s.chan e).written + total } := setChan_self ..
    dsimp only
    split
    · next hlong =>
      refine ⟨hbooks, hqueues, fun _ => ⟨fun h₀ => .inl h₀.symm, ?_⟩⟩
      rintro (h₀ | hall)
      · exact h₀.symm
      · exact absurd hall.short (not_le.mpr hlong)
    next hshort =>
    split
    · next hvalid =>
      have hasked : args.ctl.asked = args.ctl.nfds := if_pos hvalid
      have htaken : (s.chan e).taken ≤ (s.chan e).written :=
        (Nat.le_add_right ..).trans_eq (h.chan e).bytes
      obtain ⟨hb, hq, hiff⟩ := sendRights_spec hbooks args.ctl
        (by rw [hchan] : (s.chan e).written + total = ((s.wrote e p total).chan e).written)
        (by rw [hchan]; exact (h.chan e).ends) (by rw [hchan]; exact htaken)
      refine ⟨hb, hqueues.trans hq, fun _ => ?_⟩
      rw [hasked, hiff, hchan]
      refine or_congr Iff.rfl ⟨?_, ?_⟩
      · rintro ⟨hopen, hfew, hfiles, hroom⟩
        exact ⟨hopen, by rw [hd], not_lt.mp hshort, hfew, hfiles,
          lt_of_le_of_ne (h.chan e).slots hroom⟩
      · intro hall
        exact ⟨hall.isOpen, hall.few, hall.files, hall.room.ne⟩
    · next hvalid =>
      have hasked : args.ctl.asked = 0 := if_neg hvalid
      exact ⟨hbooks, hqueues, fun _ => ⟨fun _ => .inl hasked, fun _ => hasked.symm⟩⟩
  · refine ⟨h.wrote hcount, Queues.wrote s e p total, fun _ => ⟨fun h₀ => .inl h₀.symm, ?_⟩⟩
    rintro (h₀ | hall)
    · exact h₀.symm
    · have hnone := hall.data
      rw [hd] at hnone
      cases hnone

theorem took_none (s : Pair) (e : Bool) : s.took e (s.chan (!e)).pipe 0 = s := by
  unfold took setChan
  rw [Nat.add_zero, update_eq_self]

def Pair.popped (s : Pair) (e : Bool) (p : Pipe) (n : ℕ) (m : Anc) (rest : List Anc)
    (installed closed : List ℕ) : Pair :=
  { s.setChan (!e) ⟨p, rest, (s.chan (!e)).written, (s.chan (!e)).taken + n⟩ with
    installed := installed ++ s.installed
    closed := closed ++ s.closed
    log := s.log ++ [.received m (s.chan (!e)).taken n] }

theorem took_chan (s : Pair) (e : Bool) (p : Pipe) (n : ℕ) : (s.took e p n).chan (!e) =
    { s.chan (!e) with pipe := p, taken := (s.chan (!e)).taken + n } := setChan_self ..

theorem recvRights_nil (args : RecvArgs) (h : (s.chan (!e)).anc = []) (start : ℕ) :
    recvRights (s.took e p n) e args start total = none := by
  unfold recvRights
  rw [took_chan, h]

variable {rest : List Anc}

theorem recvRights_cons (args : RecvArgs) (h : (s.chan (!e)).anc = m :: rest) :
    ∃ installed closed, installed ++ closed = m.files.take pipeAncMaxfds ∧
      recvRights (s.took e p n) e args (s.chan (!e)).taken n =
        some (s.popped e p n m rest installed closed) := by
  have hset : (s.took e p n).setChan (!e) { (s.took e p n).chan (!e) with anc := rest } =
      s.setChan (!e) ⟨p, rest, (s.chan (!e)).written, (s.chan (!e)).taken + n⟩ := by
    rw [took_chan]
    unfold took setChan
    rw [update_idem]
  unfold recvRights
  have hanc : ((s.took e p n).chan (!e)).anc = m :: rest := by
    rw [took_chan]
    exact h
  rw [hanc]
  dsimp only
  rw [hset, installFiles]
  split
  · exact ⟨[], m.files.take pipeAncMaxfds, rfl, rfl⟩
  · exact ⟨_, _, take_append_drop .., rfl⟩

theorem recvmsg_state (s : Pair) (e : Bool) (args : RecvArgs) :
    ∃ p : Pipe, p.count + recvBytes s e args = (s.chan (!e)).pipe.count ∧
      ((recvPops s e args = false ∨ (s.chan (!e)).anc = []) ∧
          (sysSocketRecvmsg s e args).2 = s.took e p (recvBytes s e args) ∨
        recvPops s e args = true ∧ ∃ m rest installed closed, (s.chan (!e)).anc = m :: rest ∧
          installed ++ closed = m.files.take pipeAncMaxfds ∧
          (sysSocketRecvmsg s e args).2 =
            s.popped e p (recvBytes s e args) m rest installed closed) := by
  by_cases hargs : args.hdrOk = false ∨ args.iov.length > iovMax ∨
      (args.iov ≠ [] ∧ args.iovOk = false)
  · -- nothing is looked at
    have hbytes : recvBytes s e args = 0 := by
      rw [recvBytes, if_pos (by tauto)]
    have hpops : recvPops s e args = false := by
      unfold recvPops
      rcases hargs with h | h | ⟨h, h'⟩
      · simp [h]
      · simp [not_le.mpr h]
      · simp [h, h']
    refine ⟨(s.chan (!e)).pipe, by rw [hbytes, Nat.add_zero], .inl ⟨.inl hpops, ?_⟩⟩
    rw [hbytes, took_none, sysSocketRecvmsg]
    split
    · rfl
    split
    · rfl
    · rw [if_pos (by tauto)]
  obtain ⟨hhdr, hlen, hiov⟩ : args.hdrOk = true ∧ args.iov.length ≤ iovMax ∧
      ¬ (args.iov ≠ [] ∧ args.iovOk = false) := by
    simpa only [not_or, Bool.not_eq_false, gt_iff_lt, not_lt] using hargs
  have hbytes : recvBytes s e args = if args.peek = true then 0 else (recvData s e args).2.1 := by
    unfold recvBytes
    by_cases hpeek : args.peek = true
    · rw [if_pos hpeek, if_pos (.inr (.inr (.inr hpeek)))]
    · rw [if_neg hpeek, if_neg (by tauto)]
  have hpops : recvPops s e args = (!args.peek && (recvData s e args).1 = none &&
      args.len ≤ controlMax && s.openEnd e) := by
    have hiov' : (decide (args.iov = []) || args.iovOk) = true := by
      by_cases h : args.iov = []
      · simp [h]
      · simpa [h] using hiov
    unfold recvPops
    rw [hhdr, decide_eq_true hlen, hiov']
    rfl
  have hcount := recvData_count s e args
  rw [hbytes]
  refine ⟨(recvData s e args).2.2, hcount, ?_⟩
  unfold sysSocketRecvmsg
  rw [if_neg (by rw [hhdr]; decide), if_neg (not_lt.mpr hlen), if_neg hiov, hpops]
  rcases recvData s e args with ⟨_ | r, total, p⟩
  · dsimp only
    split
    · next hlong =>
      refine .inl ⟨.inl ?_, rfl⟩
      simp [not_le.mpr hlong]
    next hshort =>
    by_cases hgo : s.openEnd e = true ∧ args.peek = false
    · have htaken : (if args.peek = true then 0 else total) = total :=
        if_neg (by rw [hgo.2]; decide)
      rw [htaken, if_pos (⟨hgo.1, hgo.2⟩ : (s.took e p total).openEnd e = true ∧ args.peek = false)]
      cases hanc : (s.chan (!e)).anc with
      | nil =>
        rw [recvRights_nil args hanc]
        dsimp only
        refine .inl ⟨.inr rfl, ?_⟩
        split <;> rfl
      | cons m rest =>
        obtain ⟨installed, closed, hfiles, hstate⟩ :=
          recvRights_cons (p := p) (n := total) args hanc
        rw [hstate]
        refine .inr ⟨?_, m, rest, installed, closed, rfl, hfiles, rfl⟩
        simp [hgo.1, hgo.2, not_lt.mp hshort]
    · rw [if_neg (fun h : (s.took e p _).openEnd e = true ∧ args.peek = false => hgo h)]
      dsimp only
      refine .inl ⟨.inl ?_, ?_⟩
      · by_cases hopen : s.openEnd e = true
        · have hpeek : args.peek = true := by
            rw [← Bool.not_eq_false]
            exact fun h => hgo ⟨hopen, h⟩
          rw [hpeek]
          rfl
        · rw [Bool.not_eq_true] at hopen
          rw [hopen, Bool.and_false]
      · split <;> rfl
  · exact .inl ⟨.inl (by simp), rfl⟩

theorem Books.popped (h : Books s)
    (hp : p.count + n = (s.chan (!e)).pipe.count) (hanc : (s.chan (!e)).anc = m :: rest)
    (hfiles : installed ++ closed = m.files.take pipeAncMaxfds) :
    Books (s.popped e p n m rest installed closed) := by
  have hc := h.chan (!e)
  have hsub : ∀ a ∈ rest, a ∈ (s.chan (!e)).anc := by
    intro a ha
    rw [hanc]
    exact mem_cons_of_mem m ha
  have hm : m ∈ (s.chan (!e)).anc := by
    rw [hanc]
    exact mem_cons_self
  have horder := hc.order
  have hslots := hc.slots
  rw [hanc] at horder hslots
  refine h.setChan ⟨?_, fun a ha => hc.ends a (hsub a ha), (pairwise_cons.mp horder).2,
    fun a ha => hc.small a (hsub a ha), (Nat.lt_succ_self _).trans hslots⟩ fun f => ?_
  · show (s.chan (!e)).taken + n + p.count = (s.chan (!e)).written
    rw [Nat.add_assoc, Nat.add_comm n, hp, hc.bytes]
  · have hold : filesOf (s.chan (!e)) = m.files ++ rest.flatMap Anc.files := by
      rw [filesOf, hanc, flatMap_cons]
    have hcount := congrArg (List.count f) hfiles
    rw [take_of_length_le (hc.small m hm), count_append] at hcount
    rw [hold, count_append, count_append, count_append, ← hcount]
    show (rest.flatMap Anc.files).count f + _ + _ + _ = _ + _ + _ + if f < s.nextFile then 1 else 0
    omega

theorem Books.conserved_iff (h : Books s) : Conserved s ↔ Clean s :=
  ⟨fun hc => hc.toClean, fun hc => ⟨hc, fun f hf => by rw [h.once f, if_pos hf]⟩⟩

theorem Clean.queues (hs : Clean s) (hq : Queues s s') : Clean s' := by
  refine ⟨?_, ?_, fun d m hm => ?_⟩
  · rw [hq.log]
    exact hs.all
  · rw [hq.log]
    exact hs.together
  · rw [hq.taken d]
    exact (hq.anc d m hm).elim (hs.waiting d m) id

theorem Clean.waiting_setChan (hs : Clean s) (hc : ∀ m ∈ c.anc, c.taken ≤ m.start) (d : Bool) :
    ∀ m ∈ ((s.setChan e c).chan d).anc, ((s.setChan e c).chan d).taken ≤ m.start := by
  by_cases hd : d = e
  · rwa [hd, setChan_self]
  · rw [setChan_ne _ _ hd]
    exact hs.waiting d

variable (h : Books s)
include h

theorem clean_send (hs : Clean s) (args : SendArgs) : Books (sysSocketSendmsg s e args).2 ∧
      (Clean (sysSocketSendmsg s e args).2 ↔ PairOk s (.send e args)) := by
  obtain ⟨hb, hq, hiff⟩ := sendmsg_spec (e := e) h args
  have hclean := hs.queues hq
  unfold PairOk sysSocketSendmsg
  dsimp only
  split
  · next hneg => exact ⟨hb, iff_of_true hclean (.inr (.inl hneg))⟩
  · next hpos =>
    have hres := hiff (not_lt.mp hpos)
    refine ⟨⟨hb.once, hb.chan⟩, ?_⟩
    rw [or_iff_right (a := (sendmsg s e args).1 < 0) hpos, ← hres]
    constructor
    · intro hc
      exact hc.all _ _ (mem_append_right _ (mem_singleton_self _))
    · intro hall
      refine ⟨fun a q hmem => ?_, fun m start n hmem => ?_, hclean.waiting⟩
      · rcases mem_append.mp hmem with hmem | hmem
        · exact hclean.all a q hmem
        · cases mem_singleton.mp hmem
          exact hall
      · rcases mem_append.mp hmem with hmem | hmem
        · exact hclean.together m start n hmem
        · cases mem_singleton.mp hmem

theorem clean_took (hs : Clean s) : Clean (s.took e p n) ↔ TakesFit (s.chan (!e)) n false := by
  have hc := h.chan (!e)
  constructor
  · intro hclean m hm
    have hw := hclean.waiting (!e) m
    rw [took_chan] at hw
    exact hw (mem_of_mem_head? hm)
  · intro hfit
    refine ⟨hs.all, hs.together, hs.waiting_setChan fun m hm => ?_⟩
    change m ∈ (s.chan (!e)).anc at hm
    have horder := hc.order
    cases hanc : (s.chan (!e)).anc with
    | nil =>
      rw [hanc] at hm
      exact absurd hm not_mem_nil
    | cons a rest =>
      have hfirst : (s.chan (!e)).taken + n ≤ a.start := hfit a (by rw [hanc]; rfl)
      rw [hanc] at horder hm
      rcases mem_cons.mp hm with rfl | hm
      · exact hfirst
      · exact hfirst.trans ((Nat.le_add_right ..).trans ((pairwise_cons.mp horder).1 m hm))

theorem clean_popped (hs : Clean s) (hanc : (s.chan (!e)).anc = m :: rest) :
    Clean (s.popped e p n m rest installed closed) ↔ TakesFit (s.chan (!e)) n true := by
  constructor
  · intro hclean a ha
    rw [hanc] at ha
    cases ha
    exact hclean.together m _ n (mem_append_right _ (mem_singleton_self _))
  · intro hfit
    obtain ⟨hstart, hpos, hle⟩ : (s.chan (!e)).taken = m.start ∧ 0 < n ∧ n ≤ m.bytes :=
      hfit m (by rw [hanc]; rfl)
    refine ⟨fun a q hmem => ?_, fun a start k hmem => ?_, hs.waiting_setChan fun a ha => ?_⟩
    · rcases mem_append.mp hmem with hmem | hmem
      · exact hs.all a q hmem
      · cases mem_singleton.mp hmem
    · rcases mem_append.mp hmem with hmem | hmem
      · exact hs.together a start k hmem
      · cases mem_singleton.mp hmem
        exact ⟨hstart, hpos, hle⟩
    · have horder := (h.chan (!e)).order
      rw [hanc] at horder
      have hnext := (pairwise_cons.mp horder).1 a ha
      show (s.chan (!e)).taken + n ≤ a.start
      omega

theorem clean_recv (hs : Clean s) (args : RecvArgs) : Books (sysSocketRecvmsg s e args).2 ∧
      (Clean (sysSocketRecvmsg s e args).2 ↔ PairOk s (.recv e args)) := by
  obtain ⟨p, hcount, ⟨hnot, hstate⟩ | ⟨hpops, m, rest, installed, closed, hanc, hfiles, hstate⟩⟩ :=
    recvmsg_state s e args
  · rw [hstate]
    refine ⟨h.took hcount, (clean_took h hs).trans ?_⟩
    show _ ↔ TakesFit (s.chan (!e)) (recvBytes s e args) (recvPops s e args)
    rcases hnot with hpops | hnil
    · rw [hpops]
    · have hnone : ∀ pops, TakesFit (s.chan (!e)) (recvBytes s e args) pops := by
        intro pops m hm
        rw [hnil] at hm
        cases hm
      exact iff_of_true (hnone _) (hnone _)
  · rw [hstate]
    refine ⟨h.popped hcount hanc hfiles, (clean_popped h hs hanc).trans ?_⟩
    show _ ↔ TakesFit (s.chan (!e)) (recvBytes s e args) (recvPops s e args)
    rw [hpops]

theorem pipeFree_spec (e : Bool) : Books (pipeFree s e) ∧ Queues s (pipeFree s e) := by
  have hc := h.chan e
  refine ⟨h.setChan ⟨hc.bytes, fun m hm => absurd hm not_mem_nil, List.Pairwise.nil,
    fun m hm => absurd hm not_mem_nil, Nat.succ_pos 7⟩ fun f => ?_,
    Queues.setChan _ e rfl fun m hm => absurd hm not_mem_nil⟩
  rw [count_append]
  show 0 + s.installed.count f + ((filesOf (s.chan e)).count f + s.closed.count f) +
    (if f < s.nextFile then 1 else 0) = (filesOf (s.chan e)).count f + _ + _ +
      if f < s.nextFile then 1 else 0
  omega

theorem pipeEndpointPut_spec (hp : p.count = (s.chan e).pipe.count) :
    Books (pipeEndpointPut s e p) ∧ Queues s (pipeEndpointPut s e p) := by
  have hc := h.chan e
  have hset : Books (s.setChan e { s.chan e with pipe := p }) ∧
      Queues s (s.setChan e { s.chan e with pipe := p }) := by
    refine ⟨h.setChan ⟨?_, hc.ends, hc.order, hc.small, hc.slots⟩ fun f => rfl,
      Queues.setChan s e rfl fun m hm => .inl hm⟩
    show (s.chan e).taken + p.count = _
    rw [hp]
    exact hc.bytes
  unfold pipeEndpointPut
  split
  · obtain ⟨hb, hq⟩ := pipeFree_spec hset.1 e
    exact ⟨hb, hset.2.trans hq⟩
  · exact hset

theorem sysClose_spec (e : Bool) : Books (sysClose s e).2 ∧ Queues s (sysClose s e).2 := by
  have hread : ∀ {s} (d : Bool), Books s → Books (pipeUnrefRead s d) ∧
      Queues s (pipeUnrefRead s d) := by
    intro s d hs
    unfold pipeUnrefRead
    dsimp only
    split
    · exact ⟨hs, rfl, fun _ => rfl, fun _ _ hm => .inl hm⟩
    · exact pipeEndpointPut_spec hs rfl
  have hwrite : ∀ {s} (d : Bool), Books s → Books (pipeUnrefWrite s d) ∧
      Queues s (pipeUnrefWrite s d) := by
    intro s d hs
    unfold pipeUnrefWrite
    dsimp only
    split
    · exact ⟨hs, rfl, fun _ => rfl, fun _ _ hm => .inl hm⟩
    · exact pipeEndpointPut_spec hs rfl
  unfold sysClose
  split
  · exact ⟨h, .refl s⟩
  have hopen : Books { s with openEnd := update s.openEnd e false } := ⟨h.once, h.chan⟩
  obtain ⟨hb, hq⟩ := hread (!e) hopen
  obtain ⟨hb', hq'⟩ := hwrite e hb
  have hshut : Queues s { s with openEnd := update s.openEnd e false } :=
    ⟨rfl, fun _ => rfl, fun _ _ hm => .inl hm⟩
  exact ⟨hb', hshut.trans (hq.trans hq')⟩

theorem pairStep_clean (hs : Clean s) (call : PairCall) :
    Books (pairStep s call) ∧ (Clean (pairStep s call) ↔ PairOk s call) := by
  cases call with
  | send e args => exact clean_send h hs args
  | recv e args => exact clean_recv h hs args
  | read e buf nonblock =>
    exact ⟨h.took (fdReadEx_count ..), clean_took h hs⟩
  | close e =>
    obtain ⟨hb, hq⟩ := sysClose_spec h e
    exact ⟨hb, iff_of_true (hs.queues hq) trivial⟩

end

theorem clean_boot : Clean boot where
  all := fun _ _ hmem => absurd hmem not_mem_nil
  together := fun _ _ _ hmem => absurd hmem not_mem_nil
  waiting := fun _ _ hm => absurd hm not_mem_nil

/-- Descriptors are conserved, and come with their bytes, throughout a run just when every call is
as asked. -/
theorem descriptors_conserved_iff (calls : List PairCall) :
    Always pairStep Conserved boot calls ↔ Along pairStep PairOk boot calls := by
  refine always_iff_along (I := Books) books_boot (books_boot.conserved_iff.mpr clean_boot)
    (fun s call h hc _ => (pairStep_clean h (h.conserved_iff.mp hc) call).1) fun s call h hc => ?_
  obtain ⟨hb, hiff⟩ := pairStep_clean h (h.conserved_iff.mp hc) call
  exact hb.conserved_iff.trans hiff

-- a byte with a number of descriptors, and a call that takes one byte and has room for files
def byteSend (x : UInt8) (n : ℕ) : PairCall :=
  .send false ⟨true, [⟨[x], true⟩], true, false,
    ⟨false, 16 + 4 * n, true, true, 16 + 4 * n, fun _ => .file true⟩⟩

def byteRecv : PairCall :=
  .recv true ⟨true, [⟨1, true⟩], true, false, false, false, 64, true, false, 8⟩

/-- The receiver of `x` gets the descriptor sent with `y`; and of five descriptors the fifth stays
behind, though the call reports success. -/
theorem descriptors_astray :
    (¬ Conserved (exec pairStep boot [byteSend 120 0, byteSend 121 1, byteRecv]) ∧
      .received ⟨[0], 1, 1⟩ 0 1 ∈
        (exec pairStep boot [byteSend 120 0, byteSend 121 1, byteRecv]).log) ∧
    ¬ Conserved (exec pairStep boot [byteSend 120 5]) ∧
      .sent 5 4 ∈ (exec pairStep boot [byteSend 120 5]).log := by
  have hearly : .received ⟨[0], 1, 1⟩ 0 1 ∈
      (exec pairStep boot [byteSend 120 0, byteSend 121 1, byteRecv]).log := by
    decide +kernel
  have hfive : .sent 5 4 ∈ (exec pairStep boot [byteSend 120 5]).log := by decide +kernel
  refine ⟨⟨fun h => ?_, hearly⟩, fun h => ?_, hfive⟩
  · exact absurd (h.together _ _ _ hearly).1 (by decide)
  · exact absurd (h.all _ _ hfive) (by decide)

end Kyronix.Fs.SockPair
