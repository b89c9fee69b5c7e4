import Kyronix.Errno
import Kyronix.Lib.ByteFile
import Kyronix.Lib.Run

/-! Regular files of the RAM file system (`vfs.c`): the buffer behind a node, the calls that read,
write, seek and truncate it, and the POSIX file they stand for. -/
namespace Kyronix.Fs

open Lib.ByteFile Lib.Run Function List

def int64Max : ℕ := 2 ^ 63 - 1
def uint64Max : ℕ := 2 ^ 64 - 1

structure RamNode where
  size : ℕ
  capacity : ℕ
  data : ℕ → UInt8

inductive AccMode
  | rdonly
  | wronly
  | rdwr
deriving DecidableEq

structure Ofd where
  pos : ℕ
  mode : AccMode

structure RamSys where
  node : RamNode
  ofd : ℕ → Ofd

def RamSys.seek (s : RamSys) (d pos : ℕ) : RamSys :=
  { s with ofd := update s.ofd d { s.ofd d with pos := pos } }

def pageUp (n : ℕ) : ℕ := (n + 4095) / 4096 * 4096

/-- The answer of `kmalloc`; there is no block of 2^63 bytes. -/
def newBuffer (n : ℕ) (mem : Option (ℕ → UInt8)) : Option (ℕ → UInt8) :=
  if n ≤ int64Max then mem else none

namespace RamNode

def reserve (n : RamNode) (stop : ℕ) (mem : Option (ℕ → UInt8)) : Except ℤ RamNode :=
  if stop > n.capacity then
    if stop > uint64Max - 4095 then .error (-efbig)
    else match newBuffer (pageUp stop) mem with
      | none => .error (-enospc)
      | some new =>
        .ok { n with
          data := fun i => if i < n.size then n.data i else new i
          capacity := pageUp stop }
  else .ok n

def store (n : RamNode) (off : ℕ) (bs : Bytes) : RamNode :=
  { n with
    data := fun i => if off ≤ i ∧ i < off + bs.length then byte bs (i - off) else n.data i
    size := max n.size (off + bs.length) }

def writeAt (n : RamNode) (off : ℕ) (bs : Bytes) (mem : Option (ℕ → UInt8)) :
    Except ℤ RamNode := (n.reserve (off + bs.length) mem).map fun n => n.store off bs

def readAt (n : RamNode) (off len : ℕ) : Bytes :=
  (List.range (min len (n.size - off))).map fun i => n.data (off + i)

def vfsNodeTruncate (n : RamNode) (len : ℕ) (mem : Option (ℕ → UInt8)) : Except ℤ RamNode :=
  let fill := fun n : RamNode =>
    { n with data := fun i => if n.size ≤ i ∧ i < len then 0 else n.data i, size := len }
  if len > n.capacity then
    if len > uint64Max - 4095 then .error (-efbig)
    else match newBuffer (pageUp len) mem with
      | none => .error (-enospc)
      | some new =>
        .ok (fill { n with
          data := fun i => if i < n.capacity then n.data i else new i
          capacity := pageUp len })
  else .ok (fill n)

end RamNode

structure Ret where
  value : ℤ
  bytes : Bytes
deriving DecidableEq

namespace RamSys

/-- `readable` is the outcome of `uptr_ok` on the caller's buffer. -/
def fdWrite (s : RamSys) (d : ℕ) (bs : Bytes) (readable : Bool) (mem : Option (ℕ → UInt8)) :
    Ret × RamSys :=
  let pos := (s.ofd d).pos
  if bs.length = 0 then (⟨0, []⟩, s)
  else if readable = false then (⟨-efault, []⟩, s)
  else if (s.ofd d).mode = .rdonly then (⟨-ebadf, []⟩, s)
  else if pos > int64Max ∨ bs.length > int64Max - pos then (⟨-efbig, []⟩, s)
  else match s.node.writeAt pos bs mem with
    | .error e => (⟨e, []⟩, s)
    | .ok n => (⟨bs.length, []⟩, { s with node := n }.seek d (pos + bs.length))

def fdPwrite (s : RamSys) (d : ℕ) (bs : Bytes) (off : ℕ) (readable : Bool)
    (mem : Option (ℕ → UInt8)) : Ret × RamSys :=
  if (s.ofd d).mode = .rdonly then (⟨-ebadf, []⟩, s)
  else if bs.length = 0 then (⟨0, []⟩, s)
  else if readable = false then (⟨-efault, []⟩, s)
  else if off > int64Max then (⟨-einval, []⟩, s)
  else if bs.length > int64Max - off then (⟨-efbig, []⟩, s)
  else match s.node.writeAt off bs mem with
    | .error e => (⟨e, []⟩, s)
    | .ok n => (⟨bs.length, []⟩, { s with node := n })

def fdRead (s : RamSys) (d len : ℕ) (writable : Bool) : Ret × RamSys :=
  let pos := (s.ofd d).pos
  if len = 0 then (⟨0, []⟩, s)
  else if writable = false then (⟨-efault, []⟩, s)
  else if (s.ofd d).mode = .wronly then (⟨-ebadf, []⟩, s)
  else if pos ≥ s.node.size then (⟨0, []⟩, s)
  else
    let r := min len (s.node.size - pos)
    (⟨r, s.node.readAt pos len⟩, s.seek d (pos + r))

def fdPread (s : RamSys) (d len off : ℕ) (writable : Bool) : Ret × RamSys :=
  if (s.ofd d).mode = .wronly then (⟨-ebadf, []⟩, s)
  else if len = 0 then (⟨0, []⟩, s)
  else if writable = false then (⟨-efault, []⟩, s)
  else if off ≥ s.node.size then (⟨0, []⟩, s)
  else (⟨(min len (s.node.size - off) : ℕ), s.node.readAt off len⟩, s)

end RamSys

inductive Whence
  | set
  | cur
  | end
deriving DecidableEq

def Whence.base (w : Whence) (pos size : ℕ) : ℕ :=
  match w with
  | .set => 0
  | .cur => pos
  | .end => size

def toInt64 (x : ℤ) : ℤ := (x + 2 ^ 63) % 2 ^ 64 - 2 ^ 63

def RamSys.fdLseek (s : RamSys) (d : ℕ) (off : Int64) (whence : Option Whence) : Ret × RamSys :=
  match whence with
  | none => (⟨-einval, []⟩, s)
  | some w =>
    let newPos := toInt64 (toInt64 (w.base (s.ofd d).pos s.node.size) + off.toInt)
    if newPos < 0 then (⟨-einval, []⟩, s)
    else (⟨newPos, []⟩, s.seek d newPos.toNat)

inductive FileAct
  | write (d : ℕ) (bs : Bytes) (readable : Bool) (mem : Option (ℕ → UInt8))
  | pwrite (d : ℕ) (bs : Bytes) (off : ℕ) (readable : Bool) (mem : Option (ℕ → UInt8))
  | lseek (d : ℕ) (off : Int64) (whence : Option Whence)
  | read (d len : ℕ) (writable : Bool)
  | pread (d len off : ℕ) (writable : Bool)
  | truncate (len : ℕ) (mem : Option (ℕ → UInt8))

def RamSys.call (s : RamSys) : FileAct → Ret × RamSys
  | .write d bs readable mem => s.fdWrite d bs readable mem
  | .pwrite d bs off readable mem => s.fdPwrite d bs off readable mem
  | .lseek d off whence => s.fdLseek d off whence
  | .read d len writable => s.fdRead d len writable
  | .pread d len off writable => s.fdPread d len off writable
  | .truncate len mem =>
    match s.node.vfsNodeTruncate len mem with
    | .error e => (⟨e, []⟩, s)
    | .ok n => (⟨0, []⟩, { s with node := n })

/-- The reference: the bytes, the offsets, and the places written since the file was last cut below
them. -/
structure PosixSys where
  bytes : Bytes
  pos : ℕ → ℕ
  written : ℕ → Bool

open PosixSys

namespace PosixSys

def writeAt (p : PosixSys) (off : ℕ) (bs : Bytes) : PosixSys :=
  { p with
    bytes := write p.bytes off bs
    written := fun i => p.written i || (off ≤ i && i < off + bs.length) }

def seek (p : PosixSys) (d pos : ℕ) : PosixSys := { p with pos := update p.pos d pos }

def call (p : PosixSys) : FileAct → Ret × PosixSys
  | .write d bs _ _ =>
    (⟨bs.length, []⟩, (p.writeAt (p.pos d) bs).seek d (p.pos d + bs.length))
  | .pwrite _ bs off _ _ => (⟨bs.length, []⟩, p.writeAt off bs)
  | .lseek d off whence =>
    let newPos := (whence.elim 0 fun w => w.base (p.pos d) p.bytes.length : ℤ) + off.toInt
    (⟨newPos, []⟩, p.seek d newPos.toNat)
  | .read d len _ =>
    let bs := Lib.ByteFile.read p.bytes (p.pos d) len
    (⟨bs.length, bs⟩, p.seek d (p.pos d + bs.length))
  | .pread _ len off _ =>
    let bs := Lib.ByteFile.read p.bytes off len
    (⟨bs.length, bs⟩, p)
  | .truncate len _ =>
    (⟨0, []⟩, { p with
      bytes := resize p.bytes len
      written := fun i => p.written i && i < len })

end PosixSys

def fileStep (x : RamSys × PosixSys) (a : FileAct) : RamSys × PosixSys :=
  let r := x.1.call a
  (r.2, if r.1.value < 0 then x.2 else (x.2.call a).2)

variable {n n' : RamNode} {c bs : Bytes} {off len : ℕ} {mem : Option (ℕ → UInt8)}

structure RamNode.Holds (n : RamNode) (c : Bytes) : Prop where
  size : n.size = c.length
  data : ∀ i < n.size, n.data i = byte c i
  cap : n.size ≤ n.capacity
  capMax : n.capacity ≤ int64Max

def RamNode.GapClear (n : RamNode) (off : ℕ) (bs : Bytes) (mem : Option (ℕ → UInt8)) : Prop :=
  ∀ n', n.reserve (off + bs.length) mem = .ok n' → ∀ i, n.size ≤ i → i < off → n'.data i = 0

theorem le_pageUp (k : ℕ) : k ≤ pageUp k := by
  unfold pageUp
  omega

theorem newBuffer_some {k : ℕ} {new : ℕ → UInt8} (h : newBuffer k mem = some new) :
    k ≤ int64Max := by
  unfold newBuffer at h
  split at h
  · next hk => exact hk
  · cases h

structure RamNode.Reserved (n n' : RamNode) (stop : ℕ) : Prop where
  size : n'.size = n.size
  data : ∀ i < n.size, n'.data i = n.data i
  cap : stop ≤ n'.capacity
  grow : n.capacity ≤ n'.capacity
  capMax : n'.capacity ≤ int64Max

theorem RamNode.Holds.reserve {stop : ℕ} (h : n.Holds c) (hr : n.reserve stop mem = .ok n') :
    n.Reserved n' stop := by
  unfold RamNode.reserve at hr
  split at hr
  · next hstop =>
    split at hr
    · cases hr
    · split at hr
      · cases hr
      · next new hnew =>
        cases hr
        refine ⟨rfl, fun i hi => if_pos hi, le_pageUp stop, ?_, newBuffer_some hnew⟩
        exact hstop.le.trans (le_pageUp stop)
  · next hstop =>
    cases hr
    exact ⟨rfl, fun _ _ => rfl, Nat.le_of_not_lt hstop, le_rfl, h.capMax⟩

theorem RamNode.Holds.writeAt (h : n.Holds c) (hbs : bs ≠ []) (hgap : n.GapClear off bs mem)
    (hw : n.writeAt off bs mem = .ok n') : n'.Holds (write c off bs) := by
  unfold RamNode.writeAt at hw
  cases hr : n.reserve (off + bs.length) mem with
  | error e =>
    rw [hr] at hw
    cases hw
  | ok n₁ =>
    rw [hr] at hw
    cases hw
    have hres := h.reserve hr
    refine ⟨?_, fun i hi => ?_, ?_, hres.capMax⟩
    · show max n₁.size (off + bs.length) = _
      rw [length_write hbs, hres.size, h.size]
    · show (if off ≤ i ∧ i < off + bs.length then byte bs (i - off) else n₁.data i) = _
      rw [byte_write]
      split
      · rfl
      · next hout =>
        by_cases hold : i < n.size
        · rw [hres.data i hold, h.data i hold]
        · -- not old and not written: in the gap
          have hlt : i < max n₁.size (off + bs.length) := hi
          rw [hres.size] at hlt
          have hoff : i < off := by omega
          rw [hgap n₁ hr i (Nat.le_of_not_lt hold) hoff, byte_of_le]
          exact h.size ▸ Nat.le_of_not_lt hold
    · show max n₁.size (off + bs.length) ≤ n₁.capacity
      rw [hres.size]
      exact max_le (h.cap.trans hres.grow) hres.cap

theorem RamNode.Holds.vfsNodeTruncate (h : n.Holds c) (ht : n.vfsNodeTruncate len mem = .ok n') :
    n'.Holds (resize c len) := by
  -- the bytes are right whatever buffer is behind them, as long as it keeps the old ones
  have hfill : ∀ n₁ : RamNode, n₁.size = n.size → (∀ i < n.size, n₁.data i = n.data i) →
      ∀ i < len, (if n₁.size ≤ i ∧ i < len then 0 else n₁.data i) = byte (resize c len) i := by
    intro n₁ hsize hdata i hi
    rw [byte_resize, if_pos hi, hsize]
    by_cases hold : i < n.size
    · rw [if_neg fun hc => Nat.not_le.mpr hold hc.1, hdata i hold, h.data i hold]
    · rw [if_pos ⟨Nat.le_of_not_lt hold, hi⟩, byte_of_le]
      exact h.size ▸ Nat.le_of_not_lt hold
  unfold RamNode.vfsNodeTruncate at ht
  split at ht
  · next hlen =>
    split at ht
    · cases ht
    · split at ht
      · cases ht
      · next new hnew =>
        cases ht
        have hdata : ∀ i < n.size, (if i < n.capacity then n.data i else new i) = n.data i :=
          fun i hi => if_pos (hi.trans_le h.cap)
        exact ⟨(length_resize c len).symm,
          hfill { n with data := fun i => if i < n.capacity then n.data i else new i,
                         capacity := pageUp len } rfl hdata,
          le_pageUp len, newBuffer_some hnew⟩
  · next hlen =>
    cases ht
    exact ⟨(length_resize c len).symm, hfill n rfl fun _ _ => rfl, Nat.le_of_not_lt hlen, h.capMax⟩

theorem RamNode.Holds.readAt (h : n.Holds c) (off len : ℕ) :
    n.readAt off len = Lib.ByteFile.read c off len := by
  have hr : min len (n.size - off) = min len (c.length - off) := by rw [h.size]
  apply read_eq_map hr
  intro i hi
  exact h.data (off + i) (by omega)

structure FileInv (x : RamSys × PosixSys) : Prop where
  node : x.1.node.Holds x.2.bytes
  pos : ∀ d, (x.1.ofd d).pos = x.2.pos d
  posMax : ∀ d, x.2.pos d ≤ int64Max
  unwritten : ∀ i, x.2.written i = false → byte x.2.bytes i = 0

def CallOk (x : RamSys × PosixSys) (a : FileAct) : Prop :=
  ((x.1.call a).1.value < 0 ∧ (x.1.call a).2 = x.1) ∨
    (0 ≤ (x.1.call a).1.value ∧ (x.1.call a).1 = (x.2.call a).1 ∧
      FileInv ((x.1.call a).2, (x.2.call a).2))

variable {s : RamSys} {p : PosixSys}

theorem FileInv.seek (h : FileInv (s, p)) (d : ℕ) {pos : ℕ} (hpos : pos ≤ int64Max) :
    FileInv (s.seek d pos, p.seek d pos) := by
  refine ⟨h.node, fun d' => ?_, fun d' => ?_, h.unwritten⟩
  · show (update s.ofd d { s.ofd d with pos := pos } d').pos =
      update p.pos d pos d'
    by_cases hd : d' = d
    · rw [hd, update_self, update_self]
    · rw [update_of_ne hd, update_of_ne hd]
      exact h.pos d'
  · show update p.pos d pos d' ≤ int64Max
    by_cases hd : d' = d
    · rw [hd, update_self]
      exact hpos
    · rw [update_of_ne hd]
      exact h.posMax d'

theorem FileInv.writeAt (h : FileInv (s, p)) (hbs : bs ≠ []) (hgap : s.node.GapClear off bs mem)
    (hw : s.node.writeAt off bs mem = .ok n) :
    FileInv ({ s with node := n }, p.writeAt off bs) := by
  refine ⟨h.node.writeAt hbs hgap hw, h.pos, h.posMax, fun i hi => ?_⟩
  replace hi : (p.written i || (decide (off ≤ i) && decide (i < off + bs.length))) = false := hi
  rw [Bool.or_eq_false_iff, Bool.and_eq_false_iff, decide_eq_false_iff_not,
    decide_eq_false_iff_not] at hi
  show byte (write p.bytes off bs) i = 0
  rw [byte_write, if_neg (by omega)]
  exact h.unwritten i hi.1

theorem FileInv.truncate (h : FileInv (s, p)) (ht : s.node.vfsNodeTruncate len mem = .ok n) :
    FileInv ({ s with node := n }, (p.call (.truncate len mem)).2) := by
  refine ⟨h.node.vfsNodeTruncate ht, h.pos, h.posMax, fun i hi => ?_⟩
  replace hi : (p.written i && decide (i < len)) = false := hi
  show byte (resize p.bytes len) i = 0
  rw [byte_resize]
  split
  · next hlt =>
    apply h.unwritten i
    simpa [hlt] using hi
  · rfl

theorem reserve_error {stop : ℕ} {e : ℤ} (h : n.reserve stop mem = .error e) : e < 0 := by
  unfold RamNode.reserve at h
  split at h
  · split at h
    · cases h
      decide
    · split at h
      · cases h
        decide
      · cases h
  · cases h

theorem writeAt_error {e : ℤ} (h : n.writeAt off bs mem = .error e) : e < 0 := by
  unfold RamNode.writeAt at h
  cases hr : n.reserve (off + bs.length) mem with
  | error e' =>
    rw [hr] at h
    cases h
    exact reserve_error hr
  | ok n₁ =>
    rw [hr] at h
    cases h

theorem vfsNodeTruncate_error {e : ℤ} (h : n.vfsNodeTruncate len mem = .error e) : e < 0 := by
  unfold RamNode.vfsNodeTruncate at h
  split at h
  · split at h
    · cases h
      decide
    · split at h
      · cases h
        decide
      · cases h
  · cases h

theorem PosixSys.writeAt_nil (p : PosixSys) (off : ℕ) : p.writeAt off [] = p := by
  have hw : (fun i => p.written i || (decide (off ≤ i) && decide (i < off + 0))) = p.written := by
    funext i
    rw [Bool.or_eq_left_iff_imp.mpr]
    intro hi
    simp at hi
    omega
  show mk p.bytes p.pos _ = p
  exact congrArg (mk p.bytes p.pos) hw

theorem PosixSys.seek_self (p : PosixSys) (d : ℕ) : p.seek d (p.pos d) = p :=
  congrArg (mk p.bytes · p.written) (update_eq_self d p.pos)

theorem CallOk.write (h : FileInv (s, p)) (d : ℕ) (readable : Bool)
    (hgap : 0 ≤ (s.fdWrite d bs readable mem).1.value → s.node.GapClear (s.ofd d).pos bs mem) :
    CallOk (s, p) (.write d bs readable mem) := by
  have hpos := h.pos d
  unfold CallOk RamSys.call
  revert hgap
  unfold RamSys.fdWrite
  dsimp only
  split
  · next hlen =>
    intro _
    obtain rfl := length_eq_zero_iff.mp hlen
    refine .inr ⟨le_rfl, rfl, ?_⟩
    show FileInv (s, (p.writeAt (p.pos d) []).seek d (p.pos d + 0))
    rw [writeAt_nil, Nat.add_zero, seek_self]
    exact h
  split
  · exact fun _ => .inl ⟨neg_errno_lt, rfl⟩
  split
  · exact fun _ => .inl ⟨neg_errno_lt, rfl⟩
  split
  · exact fun _ => .inl ⟨neg_errno_lt, rfl⟩
  next hlen _ _ hmax =>
  split
  · next e he => exact fun _ => .inl ⟨writeAt_error he, rfl⟩
  · next n hn =>
    intro hgap
    have hbs : bs ≠ [] := fun e => hlen (by rw [e]; rfl)
    have hval : (0 : ℤ) ≤ (bs.length : ℤ) := Int.natCast_nonneg _
    have hw := h.writeAt hbs (hgap hval) hn
    refine .inr ⟨hval, rfl, ?_⟩
    show FileInv (_, (p.writeAt (p.pos d) bs).seek d (p.pos d + bs.length))
    replace hpos : (s.ofd d).pos = p.pos d := hpos
    rw [hpos] at hw hmax ⊢
    exact hw.seek d (by omega)

theorem CallOk.pwrite (h : FileInv (s, p)) (d : ℕ) (readable : Bool)
    (hgap : 0 ≤ (s.fdPwrite d bs off readable mem).1.value → s.node.GapClear off bs mem) :
    CallOk (s, p) (.pwrite d bs off readable mem) := by
  unfold CallOk RamSys.call
  dsimp only
  revert hgap
  unfold RamSys.fdPwrite
  split
  · exact fun _ => .inl ⟨neg_errno_lt, rfl⟩
  split
  · next hlen =>
    intro _
    obtain rfl := length_eq_zero_iff.mp hlen
    refine .inr ⟨le_rfl, rfl, ?_⟩
    show FileInv (s, p.writeAt off [])
    rw [writeAt_nil]
    exact h
  split
  · exact fun _ => .inl ⟨neg_errno_lt, rfl⟩
  split
  · exact fun _ => .inl ⟨neg_errno_lt, rfl⟩
  split
  · exact fun _ => .inl ⟨neg_errno_lt, rfl⟩
  next hlen _ _ _ =>
  split
  · next e he => exact fun _ => .inl ⟨writeAt_error he, rfl⟩
  · next n hn =>
    intro hgap
    have hbs : bs ≠ [] := fun e => hlen (by rw [e]; rfl)
    have hval : (0 : ℤ) ≤ (bs.length : ℤ) := Int.natCast_nonneg _
    exact .inr ⟨hval, rfl, h.writeAt hbs (hgap hval) hn⟩

theorem read_nil_of_le (hoff : c.length ≤ off) : Lib.ByteFile.read c off len = [] := by
  rw [Lib.ByteFile.read, drop_eq_nil_of_le hoff, take_nil]

theorem CallOk.read (h : FileInv (s, p)) (d len : ℕ) (writable : Bool) :
    CallOk (s, p) (.read d len writable) := by
  have hpos : (s.ofd d).pos = p.pos d := h.pos d
  have hsize : s.node.size = p.bytes.length := h.node.size
  -- a read of nothing leaves everything as it is
  have hnil : Lib.ByteFile.read p.bytes (p.pos d) len = [] →
      (⟨0, []⟩ : Ret) = (p.call (.read d len writable)).1 ∧
        FileInv (s, (p.call (.read d len writable)).2) := by
    intro hnil
    unfold call
    dsimp only
    rw [hnil]
    refine ⟨rfl, ?_⟩
    show FileInv (s, p.seek d (p.pos d))
    rw [seek_self]
    exact h
  unfold CallOk
  simp only [RamSys.call]
  unfold RamSys.fdRead
  dsimp only
  split
  · next hlen => exact .inr ⟨le_rfl, hnil (by rw [hlen, Lib.ByteFile.read, take_zero])⟩
  split
  · exact .inl ⟨neg_errno_lt, rfl⟩
  split
  · exact .inl ⟨neg_errno_lt, rfl⟩
  split
  · next hge => exact .inr ⟨le_rfl, hnil (read_nil_of_le (by omega))⟩
  next hlt =>
  have hread := h.node.readAt (p.pos d) len
  have hlen : (Lib.ByteFile.read p.bytes (p.pos d) len).length =
      min len (s.node.size - (s.ofd d).pos) := by
    rw [length_read, hsize, hpos]
  refine .inr ⟨Int.natCast_nonneg _, ?_, ?_⟩
  · unfold call
    dsimp only
    rw [hlen, hpos, hread]
  · have hmax : s.node.size ≤ int64Max := h.node.cap.trans h.node.capMax
    have hle : (s.ofd d).pos + min len (s.node.size - (s.ofd d).pos) ≤ int64Max := by omega
    unfold call
    dsimp only
    rw [hlen, ← hpos]
    exact h.seek d hle

theorem CallOk.pread (h : FileInv (s, p)) (d len off : ℕ) (writable : Bool) :
    CallOk (s, p) (.pread d len off writable) := by
  have hsize : s.node.size = p.bytes.length := h.node.size
  have hnil : Lib.ByteFile.read p.bytes off len = [] →
      (⟨0, []⟩ : Ret) = (p.call (.pread d len off writable)).1 := by
    intro hnil
    unfold call
    dsimp only
    rw [hnil]
    rfl
  unfold CallOk
  simp only [RamSys.call]
  unfold RamSys.fdPread
  split
  · exact .inl ⟨neg_errno_lt, rfl⟩
  split
  · next hlen => exact .inr ⟨le_rfl, hnil (by rw [hlen, Lib.ByteFile.read, take_zero]), h⟩
  split
  · exact .inl ⟨neg_errno_lt, rfl⟩
  split
  · next hge => exact .inr ⟨le_rfl, hnil (read_nil_of_le (by omega)), h⟩
  · refine .inr ⟨Int.natCast_nonneg _, ?_, h⟩
    unfold call
    dsimp only
    rw [length_read, h.node.readAt off len, hsize]

theorem toInt64_of_nonneg {b : ℕ} (hb : b ≤ int64Max) (off : Int64)
    (h : 0 ≤ toInt64 (toInt64 b + off.toInt)) :
    toInt64 (toInt64 b + off.toInt) = b + off.toInt ∧ (b + off.toInt).toNat ≤ int64Max := by
  have hlo := off.le_toInt
  have hhi := off.toInt_lt
  unfold toInt64 int64Max at *
  omega

theorem CallOk.lseek (h : FileInv (s, p)) (d : ℕ) (off : Int64) (whence : Option Whence) :
    CallOk (s, p) (.lseek d off whence) := by
  have hpos : (s.ofd d).pos = p.pos d := h.pos d
  have hsize : s.node.size = p.bytes.length := h.node.size
  cases whence with
  | none => exact .inl ⟨neg_errno_lt, rfl⟩
  | some w =>
    have hbase : w.base (s.ofd d).pos s.node.size ≤ int64Max := by
      cases w with
      | set => exact Nat.zero_le _
      | cur => exact hpos ▸ h.posMax d
      | «end» => exact h.node.cap.trans h.node.capMax
    unfold CallOk
    simp only [RamSys.call]
    unfold RamSys.fdLseek
    dsimp only
    split
    · exact .inl ⟨neg_errno_lt, rfl⟩
    · next hneg =>
      have hnn := Int.not_lt.mp hneg
      obtain ⟨heq, hmax⟩ := toInt64_of_nonneg hbase off hnn
      refine .inr ⟨hnn, ?_, ?_⟩
      · rw [heq, hpos, hsize]
        rfl
      · have hseek := h.seek d hmax
        rw [heq]
        rw [hpos, hsize] at hseek ⊢
        exact hseek

theorem CallOk.truncate (h : FileInv (s, p)) (len : ℕ) (mem : Option (ℕ → UInt8)) :
    CallOk (s, p) (.truncate len mem) := by
  unfold CallOk
  simp only [RamSys.call]
  split
  · next e he => exact .inl ⟨vfsNodeTruncate_error he, rfl⟩
  · next n hn => exact .inr ⟨le_rfl, rfl, h.truncate hn⟩

/-- A write that succeeds finds zeros between the end of the file and its place. -/
def FileAct.GapClear (x : RamSys × PosixSys) (a : FileAct) : Prop :=
  0 ≤ (x.1.call a).1.value → match a with
    | .write d bs _ mem => x.1.node.GapClear (x.1.ofd d).pos bs mem
    | .pwrite _ bs off _ mem => x.1.node.GapClear off bs mem
    | _ => True

/-- The file reads back as the reference does, and what was not written reads as zero. -/
structure FilesAgree (x : RamSys × PosixSys) : Prop where
  bytes : x.1.node.readAt 0 x.1.node.size = x.2.bytes
  pos : ∀ d, (x.1.ofd d).pos = x.2.pos d
  unwritten : ∀ i, x.2.written i = false → byte x.2.bytes i = 0

def RetAgrees (x : RamSys × PosixSys) (a : FileAct) : Prop :=
  0 ≤ (x.1.call a).1.value → (x.1.call a).1 = (x.2.call a).1

variable {x : RamSys × PosixSys}

theorem FileInv.callOk (h : FileInv x) (a : FileAct) (ha : a.GapClear x) : CallOk x a := by
  obtain ⟨s, p⟩ := x
  cases a with
  | write d bs readable mem => exact .write h d readable ha
  | pwrite d bs off readable mem => exact .pwrite h d readable ha
  | lseek d off whence => exact .lseek h d off whence
  | read d len writable => exact .read h d len writable
  | pread d len off writable => exact .pread h d len off writable
  | truncate len mem => exact .truncate h len mem

theorem FileInv.step (h : FileInv x) (a : FileAct)
    (ha : a.GapClear x) : FileInv (fileStep x a) := by
  unfold fileStep
  dsimp only
  rcases h.callOk a ha with ⟨hneg, hsame⟩ | ⟨hnn, _, hinv⟩
  · rw [if_pos hneg, hsame]
    exact h
  · rw [if_neg (Int.not_lt.mpr hnn)]
    exact hinv

theorem FileInv.agree (h : FileInv x) : FilesAgree x := by
  refine ⟨?_, h.pos, h.unwritten⟩
  rw [h.node.readAt, h.node.size, Lib.ByteFile.read, drop_zero, take_length]

/-- As `vfs_create_file` makes it, and its reference. -/
def createdFile (init : Bytes) (mode : ℕ → AccMode) : RamSys × PosixSys :=
  (⟨⟨init.length, init.length, byte init⟩, fun d => ⟨0, mode d⟩⟩,
    ⟨init, fun _ => 0, fun i => i < init.length⟩)

theorem fileInv_created {init : Bytes} (hinit : init.length ≤ int64Max) (mode : ℕ → AccMode) :
    FileInv (createdFile init mode) := by
  refine ⟨⟨rfl, fun _ _ => rfl, le_rfl, hinit⟩, fun _ => rfl, fun _ => Nat.zero_le _, ?_⟩
  intro i hi
  exact byte_of_le (Nat.le_of_not_lt (of_decide_eq_false hi))

/-- As long as no write leaves a gap of other bytes than zeros, every call that succeeds returns
what the POSIX file returns, and the contents stay the same. -/
theorem ramfs_refines_posix (init : Bytes) (hinit : init.length ≤ int64Max)
    (mode : ℕ → AccMode) (acts : List FileAct)
    (h : Along fileStep (fun x a => a.GapClear x) (createdFile init mode) acts) :
    Always fileStep FilesAgree (createdFile init mode) acts ∧
      Along fileStep RetAgrees (createdFile init mode) acts := by
  have hinv : Always fileStep FileInv (createdFile init mode) acts :=
    h.always (fileInv_created hinit mode) fun x a hx ha => hx.step a ha
  refine ⟨fun pre hp => (hinv pre hp).agree, fun pre a hp hnn => ?_⟩
  have hx := hinv pre ((prefix_append pre [a]).trans hp)
  rcases hx.callOk a (h pre a hp) with ⟨hneg, _⟩ | ⟨_, heq, _⟩
  · exact absurd hnn (Int.not_le.mpr hneg)
  · exact heq

theorem RamNode.gapClear_of_le (h : off ≤ n.size) : n.GapClear off bs mem :=
  fun _ _ _ hi hlt => absurd (hi.trans_lt hlt) (Nat.not_lt.mpr h)

-- a file is written, cut, continued at its new end and read back
theorem ramfs_refines_posix_rewrite :
    let acts : List FileAct := [] ++ [.write 0 [97, 98] true (some fun _ => 7)] ++
      [.truncate 1 none] ++ [.pwrite 0 [99] 1 true none] ++ [.pread 0 9 0 true]
    let start := createdFile [] fun _ => .rdwr
    Along fileStep RetAgrees start acts ∧
      ((exec fileStep start acts).1.call (.pread 0 9 0 true)).1 = ⟨2, [97, 99]⟩ := by
  intro acts start
  refine ⟨(ramfs_refines_posix [] (Nat.zero_le _) _ _ ?_).2, by decide⟩
  refine along_concat.mpr ⟨along_concat.mpr ⟨along_concat.mpr ⟨along_concat.mpr ⟨along_nil, ?_⟩,
    ?_⟩, ?_⟩, ?_⟩
  · exact fun _ => RamNode.gapClear_of_le (by decide)
  · exact fun _ => trivial
  · exact fun _ => RamNode.gapClear_of_le (by decide)
  · exact fun _ => trivial

/-- A file is emptied and written past its end: the byte in between is the old one, where the
reference has a zero. -/
theorem write_past_end_shows_old_bytes :
    let x := exec fileStep (createdFile [97, 98] fun _ => .rdwr)
      [.truncate 0 none, .pwrite 0 [1] 1 true none]
    (x.1.call (.pread 0 2 0 true)).1 = ⟨2, [97, 1]⟩ ∧
      (x.2.call (.pread 0 2 0 true)).1 = ⟨2, [0, 1]⟩ ∧ x.2.written 0 = false := by
  decide

end Kyronix.Fs
