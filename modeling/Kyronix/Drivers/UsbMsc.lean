import Kyronix.Errno
import Kyronix.Lib.Bytes

/-! Transfers of a USB disk (`usb_msc.c`): a request is cut into commands of at most `max_sect`
blocks, each tried three times. What the device answers is up to it. -/
namespace Kyronix.Drivers.Usb

open List Lib.Bytes Lib.Ring

def usbMscCswSignature : UInt32 := 0x53425355

/-- A READ(10) or WRITE(10) as the device reads it, and the bytes that go out with it. -/
structure Command where
  lba : ℕ
  blocks : ℕ
  dataLength : ℕ
  data : List UInt8

/-- The results of the three transfers, the buffer after the second one, and the status block. -/
structure Answer where
  room : Bool
  cbw : ℤ
  data : ℤ
  csw : ℤ
  buf : ℕ → UInt8
  signature : UInt32
  tag : UInt32
  residue : UInt32
  status : UInt8

-- the residue is not looked at
def usbMscScsi (tag : UInt32) (c : Command) (a : Answer) : Except ℤ UInt8 :=
  if a.room = false then .error (-enomem)
  else if a.cbw < 0 then .error a.cbw
  else if c.dataLength > 0 ∧ a.data < 0 then .error a.data
  else if a.csw < 0 then .error a.csw
  else if a.signature ≠ usbMscCswSignature ∨ a.tag ≠ tag then .error (-eio)
  else .ok a.status

structure Exchange where
  tag : UInt32
  command : Command
  answer : Answer

/-- The device and the memory, which may go by all that has been before. -/
structure Env where
  room : List Exchange → Bool
  answer : List Exchange → UInt32 → Command → Answer

structure Host where
  tag : UInt32
  log : List Exchange

def attempts (env : Env) (c : Command) : ℕ → Host → Except ℤ Answer × Host
  | 0, h => (.error (-eio), h)
  | n + 1, h =>
    let tag := h.tag + 1
    let a := env.answer h.log tag c
    let h := ⟨if a.room then tag else h.tag, h.log ++ [⟨tag, c, a⟩]⟩
    match usbMscScsi tag c a with
    | .error e => (.error e, h)
    | .ok status => if status = 0 then (.ok a, h) else attempts env c n h

/-- The arguments of `usb_msc_rw10` but for the buffer. -/
structure Request where
  blockSize : UInt32
  maxSect : UInt32
  lba : UInt64
  count : UInt32
  write : Bool

namespace Request

variable (q : Request) (env : Env) (buf : ℕ → UInt8) (done : ℕ)

def sect : ℕ := if q.maxSect = 0 then 8 else q.maxSect.toNat

def chunk : ℕ := min (q.count.toNat - done) q.sect

def bytes : ℕ := q.chunk done * q.blockSize.toNat % 2 ^ 32

-- the address has four bytes in the command and the number of blocks has two
def command : Command where
  lba := (q.lba.toNat + done) % 2 ^ 64 % 2 ^ 32
  blocks := q.chunk done % 2 ^ 16
  dataLength := q.bytes done
  data := if q.write then slice buf (done * q.blockSize.toNat) (q.bytes done) else []

def carried (c : Command) (a : Answer) : List UInt8 :=
  if q.write then c.data else slice a.buf 0 c.dataLength

theorem sect_pos : 0 < q.sect := by
  unfold sect
  split
  · decide
  · next h => exact Nat.pos_of_ne_zero fun h₀ => h (UInt32.toNat_inj.mp h₀)

def transfer (done : ℕ) (buf : ℕ → UInt8) (h : Host) : ℤ × (ℕ → UInt8) × Host :=
  if done < q.count.toNat then
    if env.room h.log = false then (-enomem, buf, h)
    else match attempts env (q.command buf done) 3 h with
      | (.error e, h) => (e, buf, h)
      | (.ok a, h) =>
        transfer (done + q.chunk done) (if q.write then buf else
          blit buf (done * q.blockSize.toNat) (q.carried (q.command buf done) a)) h
  else (0, buf, h)
termination_by q.count.toNat - done
decreasing_by have := q.sect_pos; unfold chunk; omega

def usbMscRw10 (tag : UInt32) : ℤ × (ℕ → UInt8) × Host :=
  if q.blockSize = 0 then (-eio, buf, ⟨tag, []⟩) else q.transfer env 0 buf ⟨tag, []⟩

/-- No byte of an address, a number of blocks or a length is lost; the last command has the highest
address. -/
structure Fits : Prop where
  address : q.lba.toNat + (q.count.toNat - 1) / q.sect * q.sect < 2 ^ 32
  number : q.chunk 0 < 2 ^ 16
  length : q.chunk 0 * q.blockSize.toNat < 2 ^ 32

/-- Only a request that issues commands has to fit. -/
def Lossless : Prop := q.blockSize ≠ 0 → q.count ≠ 0 → q.Fits

def Issued (c : Command) : Prop :=
  ∃ buf done, c = q.command buf done ∧ done < q.count.toNat ∧ q.sect ∣ done

def Within (c : Command) : Prop :=
  q.lba.toNat ≤ c.lba ∧ c.lba + c.blocks ≤ q.lba.toNat + q.count.toNat ∧
    c.dataLength = c.blocks * q.blockSize.toNat

def succeeded (x : Exchange) : Bool :=
  match usbMscScsi x.tag x.command x.answer with
  | .ok status => status == 0
  | .error _ => false

/-- The blocks from number `done` on are moved in order, and the buffer has or gets their bytes;
`part` says which bytes a command moved. -/
structure Moved (part : Exchange → List UInt8) (buf' : ℕ → UInt8) (log : List Exchange)
    (bs : List UInt8) : Prop where
  bytes : bs = (log.filter succeeded).flatMap part
  blocks : ((log.filter succeeded).flatMap fun x => range' x.command.lba x.command.blocks) =
    range' (q.lba.toNat + done) (q.count.toNat - done)
  length : bs.length = (q.count.toNat - done) * q.blockSize.toNat
  data : if q.write then bs = slice buf (done * q.blockSize.toNat) bs.length ∧ buf' = buf
    else buf' = blit buf (done * q.blockSize.toNat) bs

def whole (x : Exchange) : List UInt8 := q.carried x.command x.answer

/-- A residue is the number of bytes that the device left out. -/
def moved (x : Exchange) : List UInt8 :=
  (q.whole x).take (x.command.dataLength - x.answer.residue.toNat)

def Exact (buf' : ℕ → UInt8) (log : List Exchange) : Prop :=
  ∃ bs, q.Moved buf 0 q.moved buf' log bs

/-- No command that counts as done in a successful call left bytes out. -/
def NoResidue (tag : UInt32) : Prop :=
  let r := q.usbMscRw10 env buf tag
  r.1 = 0 → ∀ x ∈ r.2.2.log, succeeded x = true → x.answer.residue = 0

/-- Commands are for blocks of the request, and success means that all of them were moved. -/
def Right (tag : UInt32) : Prop :=
  let r := q.usbMscRw10 env buf tag
  (∀ x ∈ r.2.2.log, q.Within x.command) ∧ (r.1 = 0 → q.Exact buf r.2.1 r.2.2.log)

variable {q env buf done} {buf' : ℕ → UInt8}

variable {c : Command}

theorem usbMscScsi_error {tag : UInt32} {a : Answer} {e : ℤ}
    (he : usbMscScsi tag c a = .error e) : e ≠ 0 := by
  revert he
  unfold usbMscScsi
  split_ifs with hroom hcbw hdata hcsw hsig <;> rintro ⟨⟩
  · decide
  · exact hcbw.ne
  · exact hdata.2.ne
  · exact hcsw.ne
  · decide

theorem attempts_spec (env : Env) (c : Command) (n : ℕ) (h : Host) : ∃ log,
    (attempts env c n h).2.log = h.log ++ log ∧ (∀ x ∈ log, x.command = c) ∧
    match (attempts env c n h).1 with
    | .error e => e ≠ 0
    | .ok a => ∃ tag, log.filter succeeded = [⟨tag, c, a⟩] := by
  fun_induction attempts env c n h with
  | case1 h => exact ⟨[], (append_nil _).symm, nofun, show -eio ≠ 0 by decide⟩
  | case2 n h tag a h' e hr =>
    exact ⟨[⟨tag, c, a⟩], rfl, fun x hx => mem_singleton.mp hx ▸ rfl, usbMscScsi_error hr⟩
  | case3 n h tag a h' hr =>
    exact ⟨[⟨tag, c, a⟩], rfl, fun x hx => mem_singleton.mp hx ▸ rfl, tag, by simp [succeeded, hr]⟩
  | case4 n h tag a h' status hr hne ih =>
    obtain ⟨log, hlog, hall, hres⟩ := ih
    refine ⟨⟨tag, c, a⟩ :: log, hlog.trans (append_assoc ..), forall_mem_cons.mpr ⟨rfl, hall⟩, ?_⟩
    rwa [filter_cons_of_neg (by simp [succeeded, hr, hne])]

theorem Fits.command (hf : q.Fits) (buf : ℕ → UInt8) (hdone : done < q.count.toNat)
    (hsect : q.sect ∣ done) :
    (q.command buf done).lba = q.lba.toNat + done ∧
      (q.command buf done).blocks = q.chunk done ∧
      q.bytes done = q.chunk done * q.blockSize.toNat := by
  have haddr := hf.address
  have hle : q.chunk done ≤ q.chunk 0 := by
    unfold chunk
    omega
  have hlast : done ≤ (q.count.toNat - 1) / q.sect * q.sect := by
    obtain ⟨k, rfl⟩ := hsect
    rw [Nat.mul_comm q.sect k]
    exact Nat.mul_le_mul_right _ ((Nat.le_div_iff_mul_le q.sect_pos).mpr (by lia))
  refine ⟨?_, Nat.mod_eq_of_lt (hle.trans_lt hf.number),
    Nat.mod_eq_of_lt ((Nat.mul_le_mul_right _ hle).trans_lt hf.length)⟩
  show (q.lba.toNat + done) % 2 ^ 64 % 2 ^ 32 = _
  omega

theorem chunk_pos (hdone : done < q.count.toNat) : 0 < q.chunk done := by
  have := q.sect_pos
  unfold chunk
  omega

theorem Issued.within (h : q.Issued c) (hf : q.Fits) : q.Within c ∧ 0 < c.blocks := by
  obtain ⟨buf, done, rfl, hdone, hsect⟩ := h
  obtain ⟨hlba, hblocks, hlen⟩ := hf.command buf hdone hsect
  have hle : q.chunk done ≤ q.count.toNat - done := min_le_left ..
  have hpos := chunk_pos hdone
  exact ⟨⟨by omega, by omega, hlen.trans (by rw [hblocks])⟩, by omega⟩

theorem Issued.length_carried (h : q.Issued c) (a : Answer) :
    (q.carried c a).length = c.dataLength := by
  obtain ⟨buf, done, rfl, -⟩ := h
  unfold carried command
  split <;> simp

theorem sect_dvd_next (hsect : q.sect ∣ done) (hlt : done + q.chunk done < q.count.toNat) :
    q.sect ∣ done + q.chunk done := by
  have hchunk : q.chunk done = q.sect := by
    unfold chunk at hlt ⊢
    omega
  exact hchunk ▸ hsect.add (dvd_refl _)

theorem Moved.nil {part : Exchange → List UInt8} (hdone : ¬ done < q.count.toNat) :
    q.Moved buf done part buf [] [] := by
  have hzero : q.count.toNat - done = 0 := by omega
  refine ⟨rfl, by rw [hzero]; rfl, by rw [hzero, Nat.zero_mul]; rfl, ?_⟩
  split
  · exact ⟨rfl, rfl⟩
  · exact funext fun i => (blit_of_not_mem buf [] (Nat.lt_or_ge i _)).symm

theorem Moved.append (hf : q.Fits) (hdone : done < q.count.toNat) (hsect : q.sect ∣ done)
    {tag : UInt32} {a : Answer}
    {log log' : List Exchange} {bs : List UInt8}
    (hlog : log.filter succeeded = [⟨tag, q.command buf done, a⟩])
    (h : q.Moved (if q.write then buf else blit buf (done * q.blockSize.toNat)
      (q.carried (q.command buf done) a)) (done + q.chunk done) q.whole buf' log' bs) :
    q.Moved buf done q.whole buf' (log ++ log') (q.carried (q.command buf done) a ++ bs) := by
  obtain ⟨hlba, hblocks, hlen⟩ := hf.command buf hdone hsect
  have hle : q.chunk done ≤ q.count.toNat - done := min_le_left ..
  have hrest : q.count.toNat - done = q.chunk done + (q.count.toNat - (done + q.chunk done)) := by
    omega
  have hxs : (q.carried (q.command buf done) a).length = q.chunk done * q.blockSize.toNat := by
    rw [← hlen, Issued.length_carried ⟨buf, done, rfl, hdone, hsect⟩ a]
    rfl
  refine ⟨?_, ?_, ?_, ?_⟩
  · rw [filter_append, flatMap_append, hlog, ← h.bytes, flatMap_singleton, whole]
  · rw [filter_append, flatMap_append, hlog, h.blocks, flatMap_singleton, hlba, hblocks, hrest,
      ← Nat.add_assoc, range'_append_1]
  · rw [length_append, hxs, h.length, hrest, Nat.add_mul]
  · have hdata := h.data
    rw [Nat.add_mul] at hdata
    split
    · next hw =>
      rw [if_pos hw, if_pos hw] at hdata
      refine ⟨?_, hdata.2⟩
      rw [length_append, slice_add, hxs, ← hdata.1, ← hlen]
      simp [carried, command, hw]
    · next hw =>
      rw [if_neg hw, if_neg hw, ← hxs, ← blit_append] at hdata
      exact hdata

theorem transfer_spec (env : Env) (hf : q.Fits) (done : ℕ) (buf : ℕ → UInt8) (h : Host)
    (hsect : done < q.count.toNat → q.sect ∣ done) : ∃ log,
    let r := q.transfer env done buf h
    r.2.2.log = h.log ++ log ∧ (∀ x ∈ log, q.Issued x.command) ∧
      (r.1 = 0 → ∃ bs, q.Moved buf done q.whole r.2.1 log bs) := by
  fun_induction transfer q env done buf h with
  | case1 => exact ⟨[], (append_nil _).symm, nofun, nofun⟩
  | case2 done buf h hlt hroom e h' hatt =>
    obtain ⟨log, hlog, hall, hres⟩ := attempts_spec env (q.command buf done) 3 h
    rw [hatt] at hlog hres
    exact ⟨log, hlog, fun x hx => ⟨buf, done, hall x hx, hlt, hsect hlt⟩, fun h₀ => absurd h₀ hres⟩
  | case3 done buf h hlt hroom a h' hatt ih =>
    obtain ⟨log, hlog, hall, hres⟩ := attempts_spec env (q.command buf done) 3 h
    rw [hatt] at hlog hres
    obtain ⟨tag, hok⟩ := hres
    obtain ⟨log', hlog', hall', hres'⟩ := ih (sect_dvd_next (hsect hlt))
    refine ⟨log ++ log', ?_, ?_, fun h₀ => ?_⟩
    · exact hlog'.trans ((congrArg (· ++ log') hlog).trans (append_assoc ..))
    · exact forall_mem_append.mpr ⟨fun x hx => ⟨buf, done, hall x hx, hlt, hsect hlt⟩, hall'⟩
    · obtain ⟨bs, hbs⟩ := hres' h₀
      exact ⟨_, hbs.append hf hlt (hsect hlt) hok⟩
  | case4 done buf h hge => exact ⟨[], (append_nil _).symm, nofun, fun _ => ⟨[], .nil hge⟩⟩

/-- All bytes were moved just if no command that counts as done left any out. -/
theorem exact_iff {log : List Exchange} {bs : List UInt8} (h : q.Moved buf 0 q.whole buf' log bs)
    (hall : ∀ x ∈ log, (q.whole x).length = x.command.dataLength ∧ 0 < x.command.dataLength) :
    q.Exact buf buf' log ↔ ∀ x ∈ log, succeeded x = true → x.answer.residue = 0 := by
  constructor
  · rintro ⟨bs', h'⟩ x hx hok
    by_contra hres
    have hlen : bs'.length = bs.length := h'.length.trans h.length.symm
    rw [h'.bytes, h.bytes, length_flatMap, length_flatMap] at hlen
    have hshort : (q.moved x).length < (q.whole x).length := by
      have hne : x.answer.residue.toNat ≠ 0 := fun h₀ => hres (UInt32.toNat_inj.mp h₀)
      have := hall x hx
      rw [moved, length_take]
      omega
    exact (sum_lt_sum (fun y => (q.moved y).length) _ (fun y _ => length_take_le' ..)
      ⟨x, mem_filter.mpr ⟨hx, hok⟩, hshort⟩).ne hlen
  · intro hres
    refine ⟨bs, { h with bytes := h.bytes.trans (flatMap_congr fun x hx => ?_) }⟩
    obtain ⟨hmem, hok⟩ := mem_filter.mp hx
    rw [moved, hres x hmem hok, take_of_length_le (by simp [hall x hmem])]

theorem right_iff (hq : q.Lossless) (env : Env) (buf : ℕ → UInt8) (tag : UInt32) :
    q.Right env buf tag ↔ q.NoResidue env buf tag := by
  unfold Right NoResidue usbMscRw10
  split
  · exact iff_of_true ⟨nofun, nofun⟩ nofun
  · next hsize =>
    by_cases hcount : q.count = 0
    · have hge : ¬ 0 < q.count.toNat := by simp [hcount]
      rw [transfer, if_neg hge]
      exact iff_of_true ⟨nofun, fun _ => ⟨[], .nil hge⟩⟩ nofun
    · have hf := hq hsize hcount
      obtain ⟨log, hlog, hall, hres⟩ := transfer_spec env hf 0 buf ⟨tag, []⟩ fun _ => dvd_zero _
      obtain rfl : _ = log := hlog
      refine (and_iff_right fun x hx => ((hall x hx).within hf).1).trans
        (imp_congr_right fun h₀ => ?_)
      obtain ⟨bs, hbs⟩ := hres h₀
      refine exact_iff hbs fun x hx => ⟨(hall x hx).length_carried _, ?_⟩
      obtain ⟨hin, hpos⟩ := (hall x hx).within hf
      rw [hin.2.2]
      exact Nat.mul_pos hpos (Nat.pos_of_ne_zero fun h => hsize (UInt32.toNat_inj.mp h))

end Request

open Request

def obliging (residue : UInt32) : Env where
  room := fun _ => true
  answer := fun _ tag _ => ⟨true, 31, 0, 13, fun _ => 0, usbMscCswSignature, tag, residue, 0⟩

variable {q : Request} {done : ℕ}

theorem attempts_obliging (c : Command) (n : ℕ) (h : Host) : ∃ x : Exchange,
    attempts (obliging 0) c (n + 1) h = (.ok x.answer, ⟨x.tag, h.log ++ [x]⟩) ∧
      x.command = c ∧ succeeded x = true ∧ x.answer.residue = 0 :=
  ⟨⟨h.tag + 1, c, (obliging 0).answer h.log (h.tag + 1) c⟩,
    by simp [attempts, obliging, usbMscScsi], rfl, by simp [succeeded, obliging, usbMscScsi], rfl⟩

/-- With a device that does all it is asked to, every command is issued. -/
theorem transfer_obliging (q : Request) (done : ℕ) (buf : ℕ → UInt8) (h : Host) : ∃ log,
    let r := q.transfer (obliging 0) done buf h
    r.1 = 0 ∧ r.2.2.log = h.log ++ log ∧
      (∀ x ∈ log, succeeded x = true ∧ x.answer.residue = 0) ∧
      (log.map (·.command.blocks)).sum ≤ q.count.toNat - done ∧
      (2 ^ 16 ≤ q.chunk done → (log.map (·.command.blocks)).sum < q.count.toNat - done) ∧
      ∀ k, done + k * q.sect < q.count.toNat →
        ∃ x ∈ log, ∃ buf, x.command = q.command buf (done + k * q.sect) := by
  fun_induction transfer q (obliging 0) done buf h with
  | case1 _ _ _ _ hroom => exact absurd hroom (by simp [obliging])
  | case2 done buf h hlt hroom e h' hatt =>
    obtain ⟨x, hx, -⟩ := attempts_obliging (q.command buf done) 2 h
    exact absurd (hatt.symm.trans hx) (by simp)
  | case3 done buf h hlt hroom a h' hatt ih =>
    obtain ⟨x, hx, hcmd, hok⟩ := attempts_obliging (q.command buf done) 2 h
    obtain ⟨-, rfl⟩ := Prod.mk.inj (hatt.symm.trans hx)
    obtain ⟨log, hzero, hlog, hall, hle, -, hstarts⟩ := ih
    have hblocks : x.command.blocks = q.chunk done % 2 ^ 16 := by rw [hcmd]; rfl
    have hmod : q.chunk done % 2 ^ 16 ≤ q.chunk done := Nat.mod_le ..
    have hchunk : q.chunk done ≤ q.count.toNat - done := min_le_left ..
    refine ⟨x :: log, hzero, hlog.trans (append_assoc ..), forall_mem_cons.mpr ⟨hok, hall⟩, ?_, ?_,
      ?_⟩
    · rw [map_cons, sum_cons]
      omega
    · rw [map_cons, sum_cons]
      omega
    · rintro (_ | k) hk
      · exact ⟨x, mem_cons_self, buf, by simpa using hcmd⟩
      · have hsect : q.chunk done = q.sect := by
          unfold chunk
          lia
        have heq : done + (k + 1) * q.sect = done + q.chunk done + k * q.sect := by
          rw [hsect, Nat.succ_mul]
          omega
        rw [heq] at hk ⊢
        obtain ⟨y, hy, hycmd⟩ := hstarts k hk
        exact ⟨y, mem_cons_of_mem _ hy, hycmd⟩
  | case4 done buf h hge =>
    refine ⟨[], rfl, (append_nil _).symm, nofun, Nat.zero_le _, fun hbig => ?_, by lia⟩
    unfold chunk at hbig
    omega

theorem fits_of_right (hsize : q.blockSize ≠ 0) (hcount : q.count ≠ 0) {buf : ℕ → UInt8}
    {tag : UInt32} (h : q.NoResidue (obliging 0) buf tag → q.Right (obliging 0) buf tag) :
    q.Fits := by
  unfold NoResidue Right usbMscRw10 at h
  rw [if_neg hsize] at h
  obtain ⟨log, hzero, hlog, hok, -, hshort, hstarts⟩ := transfer_obliging q 0 buf ⟨tag, []⟩
  dsimp only at h
  rw [hlog, nil_append] at h
  obtain ⟨hin, hexact⟩ := h fun _ x hx _ => (hok x hx).2
  obtain ⟨bs, hmoved⟩ := hexact hzero
  have hpos : 0 < q.count.toNat := Nat.pos_of_ne_zero fun h => hcount (UInt32.toNat_inj.mp h)
  have hnum : q.chunk 0 < 2 ^ 16 := by
    by_contra hbig
    have hlen := congrArg List.length hmoved.blocks
    simp only [filter_eq_self.mpr fun x hx => (hok x hx).1, length_flatMap, length_range'] at hlen
    exact (hshort (not_lt.mp hbig)).ne hlen
  refine ⟨?_, hnum, ?_⟩
  · obtain ⟨x, hx, buf', hcmd⟩ := hstarts ((q.count.toNat - 1) / q.sect)
      (by have := Nat.div_mul_le_self (q.count.toNat - 1) q.sect; omega)
    have hle : q.lba.toNat ≤
        (q.lba.toNat + (0 + (q.count.toNat - 1) / q.sect * q.sect)) % 2 ^ 64 % 2 ^ 32 := by
      have hle := (hin x hx).1
      rwa [hcmd] at hle
    have hlast := Nat.div_mul_le_self (q.count.toNat - 1) q.sect
    have := q.count.toNat_lt
    omega
  · obtain ⟨x, hx, buf', hcmd⟩ := hstarts 0 (by simpa using hpos)
    have hlen : q.chunk 0 * q.blockSize.toNat % 2 ^ 32 =
        q.chunk 0 % 2 ^ 16 * q.blockSize.toNat := by
      have hlen := (hin x hx).2.2
      rw [hcmd, Nat.zero_mul] at hlen
      exact hlen
    rw [Nat.mod_eq_of_lt hnum] at hlen
    exact hlen ▸ Nat.mod_lt _ (by decide)

/-- Requests with no residue are served right, whatever the device does, just if no command loses a
byte of its address or length; then those with a residue are the only ones served wrong. -/
theorem usb_transfer_exact_iff (q : Request) :
    ((∀ env buf tag, q.NoResidue env buf tag → q.Right env buf tag) ↔ q.Lossless) ∧
      (q.Lossless → ∀ env buf tag, q.Right env buf tag ↔ q.NoResidue env buf tag) :=
  ⟨⟨fun h hsize hcount => fits_of_right hsize hcount (h (obliging 0) (fun _ => 0) 0),
    fun hq env buf tag => (right_iff hq env buf tag).mpr⟩, right_iff⟩

def readOne (lba : UInt64) : Request := ⟨512, 8, lba, 1, false⟩

theorem usb_transfer_exact_iff_one :
    (readOne 7).Right (obliging 0) (fun _ => 1) 0 ∧
      ¬ (readOne 7).Right (obliging 512) (fun _ => 1) 0 := by
  obtain ⟨-, h⟩ := usb_transfer_exact_iff (readOne 7)
  have hq : (readOne 7).Lossless := fun _ _ => ⟨by decide, by decide, by decide⟩
  refine ⟨(h hq _ _ _).mpr ?_, fun hright => absurd ((h hq _ _ _).mp hright) ?_⟩
  · unfold NoResidue
    decide +kernel
  · unfold NoResidue
    decide +kernel

/-- A command with a residue of all 512 bytes counts as done, and a read of block `2 ^ 32` asks for
the first block of the disk. -/
theorem usb_transfer_inexact :
    let run (residue : UInt32) (lba : UInt64) :=
      let r := (readOne lba).usbMscRw10 (obliging residue) (fun _ => 1) 0
      (r.1, r.2.2.log.map fun x => (succeeded x, x.answer.residue, x.command.lba))
    run 512 0 = (0, [(true, 512, 0)]) ∧ run 0 4294967296 = (0, [(true, 0, 0)]) := by
  decide +kernel

end Kyronix.Drivers.Usb
