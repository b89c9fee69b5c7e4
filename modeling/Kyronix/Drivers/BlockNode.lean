import Kyronix.Errno
import Kyronix.Lib.Bytes
import Kyronix.Lib.Run

/-! Reads and writes of block device nodes (`blockdev.c`) and the partitions of a disk
(`partition.c`). The transfers of the driver succeed; `log` has what it was asked for. -/
namespace Kyronix.Drivers

open Lib.Ring Lib.Bytes List

structure Transfer where
  lba : ℕ
  count : ℕ

structure Disk where
  sectors : ℕ
  sectorSize : ℕ
  data : ℕ → UInt8
  log : List Transfer

/-- A device node stands for the disk, or for a window of its sectors. -/
inductive Dev
  | disk
  | part (offsetLba sectors : ℕ)
deriving DecidableEq

def blkIoMax : ℕ := 16 * 1024 * 1024

/-- The outcomes of `uptr_ok` on the caller's buffer and of `kmalloc`. -/
structure Env where
  user : Bool
  room : Bool

namespace Disk

variable {d : Disk} {dev : Dev} {lba count pos len : ℕ} {buf : List UInt8} {env : Env}

def read (d : Disk) (lba count : ℕ) : List UInt8 × Disk :=
  (slice d.data (lba * d.sectorSize) (count * d.sectorSize),
    { d with log := ⟨lba, count⟩ :: d.log })

def write (d : Disk) (lba count : ℕ) (buf : List UInt8) : Disk :=
  { d with
    data := blit d.data (lba * d.sectorSize) (buf.take (count * d.sectorSize))
    log := ⟨lba, count⟩ :: d.log }

def partitionLba (offsetLba sectors lba count : ℕ) : Option ℕ :=
  if sectors ≤ lba ∨ sectors - lba < count then none
  else if 2 ^ 64 - 1 - lba < offsetLba then none
  else some (offsetLba + lba)

def devRead (d : Disk) (dev : Dev) (lba count : ℕ) : Option (List UInt8 × Disk) :=
  match dev with
  | .disk => some (d.read lba count)
  | .part offsetLba sectors =>
    if count = 0 then some ([], d)
    else (partitionLba offsetLba sectors lba count).map fun lba => d.read lba count

def devWrite (d : Disk) (dev : Dev) (lba count : ℕ) (buf : List UInt8) : Option Disk :=
  match dev with
  | .disk => some (d.write lba count buf)
  | .part offsetLba sectors =>
    if count = 0 then some d
    else (partitionLba offsetLba sectors lba count).map fun lba => d.write lba count buf

def devSectors (d : Disk) : Dev → ℕ
  | .disk => d.sectors
  | .part _ sectors => sectors

def sectorCount (d : Disk) (pos len : ℕ) : ℕ :=
  (pos % d.sectorSize + len + d.sectorSize - 1) / d.sectorSize % 2 ^ 32

def totalBytes (d : Disk) (dev : Dev) : Option ℕ :=
  if d.sectorSize = 0 ∨ blkIoMax < d.sectorSize then none
  else if (2 ^ 64 - 1) / d.sectorSize < d.devSectors dev then none
  else some (d.devSectors dev * d.sectorSize)

def served (total len pos : ℕ) : ℕ := min (min len (total - pos)) blkIoMax

def blkRead (d : Disk) (dev : Dev) (len pos : ℕ) (env : Env) : Except ℤ (List UInt8) × Disk :=
  if len = 0 then (.ok [], d)
  else match d.totalBytes dev with
    | none => (.error einval, d)
    | some total =>
      if total ≤ pos then (.ok [], d)
      else if env.user = false then (.error efault, d)
      else if env.room = false then (.error enomem, d)
      else
        let len := served total len pos
        let off := pos % d.sectorSize
        let count := d.sectorCount pos len
        match d.devRead dev (pos / d.sectorSize) count with
        | none => (.error einval, d)
        | some (kbuf, d') =>
          (.ok ((kbuf.drop off).take (min len (count * d.sectorSize - off))), d')

def mergeWrite (d : Disk) (dev : Dev) (buf : List UInt8) (pos count : ℕ) : Option Disk :=
  let off := pos % d.sectorSize
  if off ≠ 0 ∨ buf.length % d.sectorSize ≠ 0 then
    (d.devRead dev (pos / d.sectorSize) count).bind fun (kbuf, d) =>
      d.devWrite dev (pos / d.sectorSize) count
        (kbuf.take off ++ (buf ++ kbuf.drop (off + buf.length)))
  else d.devWrite dev (pos / d.sectorSize) count buf

def blkWrite (d : Disk) (dev : Dev) (buf : List UInt8) (pos : ℕ) (env : Env) : Except ℤ ℕ × Disk :=
  if buf.length = 0 then (.ok 0, d)
  else match d.totalBytes dev with
    | none => (.error einval, d)
    | some total =>
      if total ≤ pos then (.error enospc, d)
      else if env.user = false then (.error efault, d)
      else if env.room = false then (.error enomem, d)
      else
        let len := served total buf.length pos
        match d.mergeWrite dev (buf.take len) pos (d.sectorCount pos len) with
        | none => (.error einval, d)
        | some d => (.ok len, d)

def mbrEntry (d : Disk) (sector : ℕ → UInt8) (p : ℕ) : Option Dev :=
  let first := decode (slice sector (p + 8) 4)
  let count := decode (slice sector (p + 12) 4)
  if sector (p + 4) = 0 ∨ count = 0 then none
  else if d.sectors ≤ first ∨ d.sectors - first < count then none
  else some (.part first count)

/-- `mem` and `room i` tell whether there is memory for the sector and for the device of entry `i`.
-/
def scanDisk (d : Disk) (mem : Bool) (room : ℕ → Bool) : List Dev :=
  if d.sectorSize < 512 ∨ mem = false then []
  else if decode (slice d.data 510 2) ≠ 0xAA55 then []
  else (List.range 4).filterMap fun i =>
    if room i then d.mbrEntry d.data (446 + 16 * i) else none

def first : Dev → ℕ
  | .disk => 0
  | .part offsetLba _ => offsetLba

def OnDisk (d : Disk) (dev : Dev) : Prop := first dev + d.devSectors dev ≤ d.sectors

theorem onDisk_scanDisk {mem : Bool} {room : ℕ → Bool} (h : dev ∈ d.scanDisk mem room) :
    d.OnDisk dev := by
  unfold scanDisk at h
  split at h
  · cases h
  split at h
  · cases h
  · obtain ⟨i, -, hi⟩ := mem_filterMap.mp h
    split at hi
    · unfold mbrEntry at hi
      dsimp only at hi
      split at hi
      · cases hi
      split at hi
      · cases hi
      · next hin =>
        cases hi
        unfold OnDisk first devSectors
        dsimp only
        omega
    · cases hi

theorem onDisk_disk (d : Disk) : d.OnDisk .disk := (Nat.zero_add d.sectors).le

structure Sized (d d' : Disk) : Prop where
  sectors : d'.sectors = d.sectors
  sectorSize : d'.sectorSize = d.sectorSize

theorem Sized.trans {d₁ d₂ : Disk} (h : Sized d d₁) (h' : Sized d₁ d₂) : Sized d d₂ :=
  ⟨h'.sectors.trans h.sectors, h'.sectorSize.trans h.sectorSize⟩

variable {d' : Disk}

theorem Sized.devSectors (h : Sized d d') (dev : Dev) : d'.devSectors dev = d.devSectors dev := by
  cases dev with
  | disk => exact h.sectors
  | part o n => rfl

theorem Sized.onDisk (h : Sized d d') (hon : d.OnDisk dev) : d'.OnDisk dev := by
  unfold OnDisk
  rw [h.devSectors, h.sectors]
  exact hon

structure Touched (d d' : Disk) (dev : Dev) : Prop extends Sized d d' where
  log : ∃ ts, d'.log = ts ++ d.log ∧ ∀ t ∈ ts,
    first dev ≤ t.lba ∧ t.lba + t.count ≤ first dev + d.devSectors dev

theorem Touched.refl (d : Disk) (dev : Dev) : Touched d d dev :=
  ⟨⟨rfl, rfl⟩, [], rfl, nofun⟩

theorem Touched.trans {d₁ d₂ : Disk} (h : Touched d d₁ dev) (h' : Touched d₁ d₂ dev) :
    Touched d d₂ dev := by
  obtain ⟨ts, hlog, hts⟩ := h.log
  obtain ⟨us, hlog', hus⟩ := h'.log
  refine ⟨h.toSized.trans h'.toSized, us ++ ts, ?_, ?_⟩
  · rw [hlog', hlog, append_assoc]
  · intro t ht
    rcases mem_append.mp ht with ht | ht
    · rw [← h.devSectors dev]
      exact hus t ht
    · exact hts t ht

theorem touched_of_log (hs : d'.sectors = d.sectors)
    (hss : d'.sectorSize = d.sectorSize) (hlog : d'.log = ⟨first dev + lba, count⟩ :: d.log)
    (h : lba + count ≤ d.devSectors dev) : Touched d d' dev := by
  refine ⟨⟨hs, hss⟩, [⟨first dev + lba, count⟩], hlog, fun t ht => ?_⟩
  rw [mem_singleton.mp ht]
  refine ⟨Nat.le_add_right _ _, ?_⟩
  dsimp only
  omega

section Window

variable (hon : d.OnDisk dev) (hsec : d.sectors < 2 ^ 64) (hc : count ≠ 0)
  (hend : lba + count ≤ d.devSectors dev)
include hon hsec hc hend

theorem partitionLba_eq {o n : ℕ} (hdev : dev = .part o n) :
    partitionLba o n lba count = some (o + lba) := by
  subst hdev
  have hwin : o + n ≤ d.sectors := hon
  have hend : lba + count ≤ n := hend
  unfold partitionLba
  rw [if_neg (by omega), if_neg (by omega)]

theorem devRead_eq : d.devRead dev lba count = some (d.read (first dev + lba) count) := by
  cases hdev : dev with
  | disk =>
    unfold devRead first
    rw [Nat.zero_add]
  | part o n =>
    unfold devRead
    dsimp only
    rw [if_neg hc, partitionLba_eq hon hsec hc hend hdev]
    rfl

theorem devWrite_eq (buf : List UInt8) :
    d.devWrite dev lba count buf = some (d.write (first dev + lba) count buf) := by
  cases hdev : dev with
  | disk =>
    unfold devWrite first
    rw [Nat.zero_add]
  | part o n =>
    unfold devWrite
    dsimp only
    rw [if_neg hc, partitionLba_eq hon hsec hc hend hdev]
    rfl

end Window

theorem sectorCount_covers {n : ℕ} (hss : 0 < d.sectorSize) (hmax : d.sectorSize ≤ blkIoMax)
    (hlen : 0 < len) (hle : len ≤ blkIoMax) (hend : pos + len ≤ n * d.sectorSize) :
    d.sectorCount pos len ≠ 0 ∧
      pos % d.sectorSize + len ≤ d.sectorCount pos len * d.sectorSize ∧
      pos / d.sectorSize + d.sectorCount pos len ≤ n := by
  have hoff := Nat.mod_lt pos hss
  have hpos := Nat.div_add_mod' pos d.sectorSize
  set c := (pos % d.sectorSize + len + d.sectorSize - 1) / d.sectorSize with hcdef
  have hlow : pos % d.sectorSize + len ≤ c * d.sectorSize := by
    have hceil := Nat.lt_div_mul_add (a := pos % d.sectorSize + len + d.sectorSize - 1) hss
    rw [← hcdef] at hceil
    omega
  have hhigh : c * d.sectorSize ≤ pos % d.sectorSize + len + d.sectorSize - 1 :=
    Nat.div_mul_le_self _ _
  have hcount : c ≤ 2 * blkIoMax + blkIoMax :=
    (Nat.div_le_self _ _).trans (by omega)
  have heq : d.sectorCount pos len = c := Nat.mod_eq_of_lt (hcount.trans_lt (by decide))
  rw [heq]
  refine ⟨?_, hlow, ?_⟩
  · rintro hzero
    rw [hzero] at hlow
    omega
  · have hlt : (pos / d.sectorSize + c) * d.sectorSize < (n + 1) * d.sectorSize := by
      rw [Nat.add_mul, Nat.succ_mul]
      omega
    exact Nat.le_of_lt_succ (Nat.lt_of_mul_lt_mul_right hlt)

/-- What the reference serves: the whole request, unless it passes the end of the window or is
longer than 16 MiB. -/
def refLen (size len pos : ℕ) : ℕ :=
  if len ≤ size - pos ∧ len ≤ 2 ^ 24 then len else min (size - pos) (2 ^ 24)

theorem served_eq (size len pos : ℕ) : served size len pos = refLen size len pos := by
  unfold served refLen blkIoMax
  split <;> omega

def refRead (data : ℕ → UInt8) (base size len pos : ℕ) : List UInt8 :=
  slice data (base + pos) (refLen size len pos)

def refWrite (data : ℕ → UInt8) (base size : ℕ) (buf : List UInt8) (pos : ℕ) : ℕ → UInt8 :=
  blit data (base + pos) (buf.take (refLen size buf.length pos))

/-- Why a request is refused: the disk exceeds the limits, a bad buffer, or no memory. -/
def Refuses (d : Disk) (dev : Dev) (env : Env) : Prop :=
  blkIoMax < d.sectorSize ∨ 2 ^ 64 ≤ d.devSectors dev * d.sectorSize ∨ env.user = false ∨
    env.room = false

theorem totalBytes_none (hss : 0 < d.sectorSize) (h : d.totalBytes dev = none) :
    d.Refuses dev env := by
  unfold totalBytes at h
  split at h
  · next hsize => exact .inl (hsize.resolve_left hss.ne')
  split at h
  · next htotal =>
    have := (Nat.div_lt_iff_lt_mul hss).mp htotal
    exact .inr (.inl (by omega))
  · cases h

theorem totalBytes_some {total : ℕ} (h : d.totalBytes dev = some total) :
    total = d.devSectors dev * d.sectorSize ∧ d.sectorSize ≤ blkIoMax := by
  unfold totalBytes at h
  split at h
  · cases h
  · next hsize =>
    split at h
    · cases h
    · exact ⟨(Option.some.inj h).symm, by omega⟩

theorem served_pos {total : ℕ} (hlen : len ≠ 0) (hpos : pos < total) :
    0 < served total len pos ∧ served total len pos ≤ blkIoMax ∧
      pos + served total len pos ≤ total := by
  have hmax : 0 < blkIoMax := by decide
  unfold served
  omega

theorem served_le_len (total len pos : ℕ) : served total len pos ≤ len :=
  (Nat.min_le_left _ _).trans (Nat.min_le_left _ _)

section

variable (hon : d.OnDisk dev) (hsec : d.sectors < 2 ^ 64)
include hon hsec

theorem blkRead_spec (hss : 0 < d.sectorSize) (len pos : ℕ) (env : Env) :
    Touched d (d.blkRead dev len pos env).2 dev ∧ (d.blkRead dev len pos env).2.data = d.data ∧
      match (d.blkRead dev len pos env).1 with
      | .error _ => d.Refuses dev env
      | .ok bs => bs = refRead d.data (first dev * d.sectorSize) (d.devSectors dev * d.sectorSize)
          len pos := by
  unfold blkRead
  split
  · next hlen => exact ⟨.refl d dev, rfl, by simp [refRead, refLen, slice, hlen]⟩
  next hlen =>
  split
  · next hnone => exact ⟨.refl d dev, rfl, totalBytes_none hss hnone⟩
  next total hsome =>
  obtain ⟨rfl, hmax⟩ := totalBytes_some hsome
  split
  · next hpos =>
    exact ⟨.refl d dev, rfl, by simp [refRead, refLen, slice, Nat.sub_eq_zero_of_le hpos, hlen]⟩
  next hpos =>
  split
  · next huser => exact ⟨.refl d dev, rfl, .inr (.inr (.inl huser))⟩
  split
  · next hroom => exact ⟨.refl d dev, rfl, .inr (.inr (.inr hroom))⟩
  obtain ⟨hlen', hle, hend⟩ := served_pos hlen (Nat.lt_of_not_le hpos)
  obtain ⟨hcount, hcover, hin⟩ := sectorCount_covers hss hmax hlen' hle hend
  dsimp only
  rw [devRead_eq hon hsec hcount hin]
  refine ⟨touched_of_log rfl rfl rfl hin, rfl, ?_⟩
  dsimp only [read]
  rw [Nat.min_eq_left (by omega), drop_take_slice hcover, Nat.add_mul, Nat.add_assoc,
    Nat.div_add_mod', served_eq]
  rfl

theorem mergeWrite_spec (hc : count ≠ 0)
    (hcover : pos % d.sectorSize + buf.length ≤ count * d.sectorSize)
    (hin : pos / d.sectorSize + count ≤ d.devSectors dev) :
    ∃ d', d.mergeWrite dev buf pos count = some d' ∧ Touched d d' dev ∧
      d'.data = blit d.data (first dev * d.sectorSize + pos) buf := by
  have hbase : (first dev + pos / d.sectorSize) * d.sectorSize + pos % d.sectorSize =
      first dev * d.sectorSize + pos := by
    rw [Nat.add_mul, Nat.add_assoc, Nat.div_add_mod']
  unfold mergeWrite
  dsimp only
  split
  · rw [devRead_eq hon hsec hc hin, Option.bind_some]
    have hread : Touched d (d.read (first dev + pos / d.sectorSize) count).2 dev :=
      touched_of_log rfl rfl rfl hin
    have hin' := (hread.devSectors dev).symm ▸ hin
    rw [hread.sectorSize, devWrite_eq (hread.onDisk hon) hsec hc hin']
    refine ⟨_, rfl, hread.trans (touched_of_log rfl rfl rfl hin'), ?_⟩
    dsimp only [write, read]
    rw [take_of_length_le, blit_patch hcover, hbase]
    simp only [length_append, length_take, length_drop, length_slice]
    omega
  · next haligned =>
    rw [devWrite_eq hon hsec hc hin]
    refine ⟨_, rfl, touched_of_log rfl rfl rfl hin, ?_⟩
    have hzero : pos % d.sectorSize = 0 := by omega
    dsimp only [write]
    rw [take_of_length_le (by omega), ← hbase, hzero, Nat.add_zero]

theorem blkWrite_spec (hss : 0 < d.sectorSize) (buf : List UInt8) (pos : ℕ) (env : Env) :
    Touched d (d.blkWrite dev buf pos env).2 dev ∧
      match (d.blkWrite dev buf pos env).1 with
      | .error _ => (d.blkWrite dev buf pos env).2.data = d.data ∧
          (d.Refuses dev env ∨ d.devSectors dev * d.sectorSize ≤ pos)
      | .ok n => n = refLen (d.devSectors dev * d.sectorSize) buf.length pos ∧
          (d.blkWrite dev buf pos env).2.data = refWrite d.data (first dev * d.sectorSize)
            (d.devSectors dev * d.sectorSize) buf pos := by
  unfold blkWrite
  split
  · next hlen =>
    rw [eq_nil_of_length_eq_zero hlen]
    exact ⟨.refl d dev, by simp [refLen], funext fun i => by simp [refWrite, blit]⟩
  next hlen =>
  split
  · next hnone => exact ⟨.refl d dev, rfl, .inl (totalBytes_none hss hnone)⟩
  next total hsome =>
  obtain ⟨rfl, hmax⟩ := totalBytes_some hsome
  split
  · next hpos => exact ⟨.refl d dev, rfl, .inr hpos⟩
  next hpos =>
  split
  · next huser => exact ⟨.refl d dev, rfl, .inl (.inr (.inr (.inl huser)))⟩
  split
  · next hroom => exact ⟨.refl d dev, rfl, .inl (.inr (.inr (.inr hroom)))⟩
  obtain ⟨hlen', hle, hend⟩ := served_pos hlen (Nat.lt_of_not_le hpos)
  obtain ⟨hcount, hcover, hin⟩ := sectorCount_covers hss hmax hlen' hle hend
  have htake : (buf.take (served (d.devSectors dev * d.sectorSize) buf.length pos)).length =
      served (d.devSectors dev * d.sectorSize) buf.length pos :=
    length_take_of_le (served_le_len ..)
  obtain ⟨d', hwrite, htouch, hdata⟩ :=
    mergeWrite_spec hon hsec hcount (by rwa [htake]) hin
  dsimp only
  rw [hwrite]
  rw [served_eq] at hdata ⊢
  exact ⟨htouch, rfl, hdata⟩

end

inductive Call
  | read (dev : Dev) (len pos : ℕ) (env : Env)
  | write (dev : Dev) (buf : List UInt8) (pos : ℕ) (env : Env)

def Call.target : Call → Dev
  | .read dev .. => dev
  | .write dev .. => dev

inductive Reply
  | bytes (bs : List UInt8)
  | count (n : ℕ)
  | error (e : ℤ)

structure Answer where
  reply : Reply
  transfers : List Transfer

def readReply : Except ℤ (List UInt8) → Reply
  | .ok bs => .bytes bs
  | .error e => .error e

def writeReply : Except ℤ ℕ → Reply
  | .ok n => .count n
  | .error e => .error e

def call (d : Disk) (c : Call) : Reply × Disk :=
  match c with
  | .read dev len pos env =>
    let r := d.blkRead dev len pos env
    (readReply r.1, r.2)
  | .write dev buf pos env =>
    let r := d.blkWrite dev buf pos env
    (writeReply r.1, r.2)

def serve (d : Disk) (c : Call) : Answer × Disk :=
  let r := { d with log := [] }.call c
  (⟨r.1, r.2.log⟩, r.2)

def serveAll (d : Disk) : List Call → List Answer × Disk
  | [] => ([], d)
  | c :: cs =>
    let r := d.serve c
    let rs := r.2.serveAll cs
    (r.1 :: rs.1, rs.2)

/-- The reference: the disk is one byte array, a device a window of it. A call is refused for a
cause in `Refuses`, or because a write starts behind the window. -/
inductive RefCall (d : Disk) (data : ℕ → UInt8) : Call → Reply → (ℕ → UInt8) → Prop
  | read (dev : Dev) (len pos : ℕ) (env : Env) :
    RefCall d data (.read dev len pos env)
      (.bytes (refRead data (first dev * d.sectorSize) (d.devSectors dev * d.sectorSize) len pos))
      data
  | write (dev : Dev) (buf : List UInt8) (pos : ℕ) (env : Env) :
    RefCall d data (.write dev buf pos env)
      (.count (refLen (d.devSectors dev * d.sectorSize) buf.length pos))
      (refWrite data (first dev * d.sectorSize) (d.devSectors dev * d.sectorSize) buf pos)
  | readRefused (dev : Dev) (len pos : ℕ) (env : Env) (e : ℤ) (h : d.Refuses dev env) :
    RefCall d data (.read dev len pos env) (.error e) data
  | writeRefused (dev : Dev) (buf : List UInt8) (pos : ℕ) (env : Env) (e : ℤ)
      (h : d.Refuses dev env ∨ d.devSectors dev * d.sectorSize ≤ pos) :
    RefCall d data (.write dev buf pos env) (.error e) data

inductive RefRun (d : Disk) : (ℕ → UInt8) → List Call → List Answer → (ℕ → UInt8) → Prop
  | nil (data : ℕ → UInt8) : RefRun d data [] [] data
  | cons {data mid data' : ℕ → UInt8} {c : Call} {cs : List Call} {a : Answer} {as : List Answer}
      (hcall : RefCall d data c a.reply mid)
      (hwindow : ∀ t ∈ a.transfers,
        first c.target ≤ t.lba ∧ t.lba + t.count ≤ first c.target + d.devSectors c.target)
      (hrest : RefRun d mid cs as data') : RefRun d data (c :: cs) (a :: as) data'

variable {c : Call}

theorem call_refines (hon : d.OnDisk c.target) (hsec : d.sectors < 2 ^ 64)
    (hss : 0 < d.sectorSize) :
    Touched d (d.call c).2 c.target ∧ RefCall d d.data c (d.call c).1 (d.call c).2.data := by
  cases c with
  | read dev len pos env =>
    change d.OnDisk dev at hon
    obtain ⟨htouch, hdata, hreply⟩ := blkRead_spec hon hsec hss len pos env
    refine ⟨htouch, ?_⟩
    unfold call
    dsimp only
    rw [hdata]
    split at hreply
    · next e heq =>
      rw [heq]
      exact .readRefused dev len pos env e hreply
    · next bs heq =>
      rw [heq, hreply]
      exact .read dev len pos env
  | write dev buf pos env =>
    change d.OnDisk dev at hon
    obtain ⟨htouch, hreply⟩ := blkWrite_spec hon hsec hss buf pos env
    refine ⟨htouch, ?_⟩
    unfold call
    dsimp only
    split at hreply
    · next e heq =>
      rw [heq, hreply.1]
      exact .writeRefused dev buf pos env e hreply.2
    · next n heq =>
      rw [heq, hreply.1, hreply.2]
      exact .write dev buf pos env

variable {data data' : ℕ → UInt8}

theorem RefCall.sized {r : Reply}
    (h : RefCall d' data c r data') (hsized : Sized d d') : RefCall d data c r data' := by
  cases h with
  | read dev len pos env =>
    rw [hsized.sectorSize, hsized.devSectors]
    exact .read dev len pos env
  | write dev buf pos env =>
    rw [hsized.sectorSize, hsized.devSectors]
    exact .write dev buf pos env
  | readRefused dev len pos env e h =>
    unfold Refuses at h
    rw [hsized.sectorSize, hsized.devSectors] at h
    exact .readRefused dev len pos env e h
  | writeRefused dev buf pos env e h =>
    unfold Refuses at h
    rw [hsized.sectorSize, hsized.devSectors] at h
    exact .writeRefused dev buf pos env e h

theorem serve_refines {d₁ : Disk} (hsized : Sized d d₁) (hon : d.OnDisk c.target)
    (hsec : d.sectors < 2 ^ 64) (hss : 0 < d.sectorSize) :
    Sized d (d₁.serve c).2 ∧
      RefCall d d₁.data c (d₁.serve c).1.reply (d₁.serve c).2.data ∧
      ∀ t ∈ (d₁.serve c).1.transfers, first c.target ≤ t.lba ∧
        t.lba + t.count ≤ first c.target + d.devSectors c.target := by
  have hsized' : Sized d { d₁ with log := [] } := ⟨hsized.sectors, hsized.sectorSize⟩
  obtain ⟨htouch, hcall⟩ := call_refines (c := c) (hsized'.onDisk hon)
    (hsized'.sectors.symm ▸ hsec) (hsized'.sectorSize.symm ▸ hss)
  refine ⟨hsized'.trans htouch.toSized, hcall.sized hsized', fun t ht => ?_⟩
  obtain ⟨ts, hlog, hts⟩ := htouch.log
  rw [← hsized'.devSectors]
  refine hts t ?_
  rw [append_nil] at hlog
  exact hlog ▸ ht

theorem serveAll_refines {d₁ : Disk} {cs : List Call} (hsized : Sized d d₁)
    (hon : ∀ c ∈ cs, d.OnDisk c.target) (hsec : d.sectors < 2 ^ 64) (hss : 0 < d.sectorSize) :
    RefRun d d₁.data cs (d₁.serveAll cs).1 (d₁.serveAll cs).2.data := by
  induction cs generalizing d₁ with
  | nil => exact .nil d₁.data
  | cons c cs ih =>
    obtain ⟨hsized', hcall, hwindow⟩ :=
      serve_refines hsized (hon c mem_cons_self) hsec hss
    exact .cons hcall hwindow (ih hsized' fun c hc => hon c (mem_cons_of_mem _ hc))

/-- The nodes of a disk and its partitions refine one byte array: every call answers as the
reference does and stays within the window of its device. -/
theorem block_nodes_refine (d : Disk) (hsec : d.sectors < 2 ^ 64) (hss : 512 ≤ d.sectorSize)
    (mem : Bool) (room : ℕ → Bool) (cs : List Call)
    (hcs : ∀ c ∈ cs, c.target ∈ Dev.disk :: d.scanDisk mem room) :
    RefRun d d.data cs (d.serveAll cs).1 (d.serveAll cs).2.data := by
  refine serveAll_refines ⟨rfl, rfl⟩ (fun c hc => ?_) hsec (by omega)
  rcases mem_cons.mp (hcs c hc) with hdisk | hpart
  · rw [hdisk]
    exact d.onDisk_disk
  · exact onDisk_scanDisk hpart

def Outside (d : Disk) (i : ℕ) (dev : Dev) : Prop :=
  i < first dev * d.sectorSize ∨ (first dev + d.devSectors dev) * d.sectorSize ≤ i

theorem RefCall.outside {r : Reply} {i : ℕ}
    (h : RefCall d data c r data') (hi : d.Outside i c.target) : data' i = data i := by
  cases h with
  | write dev buf pos env =>
    rw [Outside, Call.target, Nat.add_mul] at hi
    refine blit_of_not_mem _ _ ?_
    rw [length_take, ← served_eq, served]
    omega
  | _ => rfl

theorem RefRun.outside {cs : List Call} {as : List Answer} {i : ℕ}
    (h : RefRun d data cs as data') (hi : ∀ c ∈ cs, d.Outside i c.target) : data' i = data i := by
  induction h with
  | nil => rfl
  | cons hcall _ _ ih =>
    rw [ih fun c hc => hi c (mem_cons_of_mem _ hc), hcall.outside (hi _ mem_cons_self)]

/-- Whatever is done to partitions, the table in front of them and the other partitions stay. -/
theorem partitions_isolated (d : Disk) (hsec : d.sectors < 2 ^ 64) (hss : 512 ≤ d.sectorSize)
    (mem : Bool) (room : ℕ → Bool) (cs : List Call) (hcs : ∀ c ∈ cs, c.target ∈ d.scanDisk mem room)
    {i : ℕ} (hi : ∀ c ∈ cs, d.Outside i c.target) : (d.serveAll cs).2.data i = d.data i :=
  (serveAll_refines ⟨rfl, rfl⟩ (fun c hc => onDisk_scanDisk (hcs c hc)) hsec (by omega)).outside hi

def tableDisk : Disk where
  sectors := 4
  sectorSize := 512
  data := fun i =>
    if i = 450 then 0x83 else if i = 454 then 1 else if i = 458 then 2
    else if i = 510 then 0x55 else if i = 511 then 0xAA else 0
  log := []

theorem block_nodes_refine_partition :
    RefRun tableDisk tableDisk.data [.write (.part 1 2) [7] 1023 ⟨true, true⟩,
        .read .disk 2 1535 ⟨true, true⟩]
      (tableDisk.serveAll [.write (.part 1 2) [7] 1023 ⟨true, true⟩,
        .read .disk 2 1535 ⟨true, true⟩]).1
      (tableDisk.serveAll [.write (.part 1 2) [7] 1023 ⟨true, true⟩,
        .read .disk 2 1535 ⟨true, true⟩]).2.data := by
  have hscan : tableDisk.scanDisk true (fun _ => true) = [.part 1 2] := by decide
  refine block_nodes_refine tableDisk (by decide) (by decide) true (fun _ => true) _ ?_
  rw [hscan]
  simp [Call.target]

theorem partitions_isolated_table :
    (tableDisk.serveAll [.write (.part 1 2) [7] 1023 ⟨true, true⟩]).2.data 510 = 0x55 := by
  have hscan : tableDisk.scanDisk true (fun _ => true) = [.part 1 2] := by decide
  refine partitions_isolated tableDisk (by decide) (by decide) true (fun _ => true) _ ?_ ?_
  · rw [hscan]
    simp [Call.target]
  · simp [Call.target, Outside, first, tableDisk]

end Disk

end Kyronix.Drivers
