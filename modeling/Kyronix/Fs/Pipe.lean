import Kyronix.Lib.Ring

/-! The copy sections of `pipe.c`. A section runs under the pipe lock, so it is one atomic step; it
ends with the call returning or with the caller queued and asleep. -/
namespace Kyronix.Fs
open Lib List Ring

def pipeBufsz : ℕ := 65536
def pipeMagic : ℕ := 0x4b59504950454d47

/-- The part of `pipe_t` the copy sections use; the two positions carry their bounds. -/
structure Pipe where
  magic : ℕ
  buf : ℕ → UInt8
  rpos : ℕ
  count : ℕ
  writeRefs : ℕ
  readRefs : ℕ
  rpos_lt : rpos < pipeBufsz
  count_le : count ≤ pipeBufsz

open Pipe

def pipeAlloc (writeRefs readRefs : ℕ) : Pipe :=
  ⟨pipeMagic, fun _ => 0, 0, 0, writeRefs, readRefs, by decide, Nat.zero_le _⟩

variable (p : Pipe)

def pipeValid : Bool := p.magic == pipeMagic

def Pipe.contents : List UInt8 := view pipeBufsz p.buf p.rpos p.count

@[simp] theorem Pipe.length_contents : p.contents.length = p.count := length_view ..

inductive Pipe.Outcome where
  | ret
  | sigpipe
  | block
deriving DecidableEq, Repr

def Pipe.consume (n : ℕ) : Pipe :=
  { p with
    rpos := (p.rpos + n) % 2 ^ 32 % pipeBufsz
    count := p.count - n
    rpos_lt := Nat.mod_lt _ (by decide)
    count_le := (Nat.sub_le ..).trans p.count_le }

def Pipe.copyOut (pos n : ℕ) : List UInt8 :=
  -- the second `memcpy` runs only when it has bytes to copy
  let first := min n (pipeBufsz - pos)
  slice p.buf pos first ++ slice p.buf 0 (n - first)

@[simp] theorem Pipe.length_copyOut (pos n : ℕ) : (p.copyOut pos n).length = n := by
  simp [copyOut]

-- `out` holds the `done` bytes that have been copied so far
def pipeReadLoop (p : Pipe) (len : ℕ) (out : List UInt8) : Pipe.Outcome × List UInt8 × Pipe :=
  if out.length < len then
    if p.count = 0 then
      if p.writeRefs = 0 then (.ret, out, p)
      else if 0 < out.length then (.ret, out, p)
      else (.block, out, p)
    else
      let take := min (len - out.length) p.count
      pipeReadLoop (p.consume take) len (out ++ p.copyOut p.rpos take)
  else (.ret, out, p)
termination_by len - out.length
decreasing_by simp only [length_append, length_copyOut]; omega

-- the comparison and `available` are 64-bit, the position is 32-bit
def pipePeekLoop (p : Pipe) (len : ℕ) (skip : UInt64) (out : List UInt8) :
    Pipe.Outcome × List UInt8 :=
  if out.length < len then
    if p.count ≤ (skip.toNat + out.length) % 2 ^ 64 then
      if p.writeRefs = 0 then (.ret, out)
      else if 0 < out.length then (.ret, out)
      else (.block, out)
    else
      let available := p.count - (skip.toNat + out.length) % 2 ^ 64
      let take := min (len - out.length) available
      let pos := (p.rpos + skip.toNat % 2 ^ 32 + out.length % 2 ^ 32) % 2 ^ 32 % pipeBufsz
      pipePeekLoop p len skip (out ++ p.copyOut pos take)
  else (.ret, out)
termination_by len - out.length
decreasing_by simp only [length_append, length_copyOut]; omega

def Pipe.produce (xs : List UInt8) (h : xs.length ≤ pipeBufsz - p.count) : Pipe :=
  { p with
    buf := blitRing pipeBufsz p.buf ((p.rpos + p.count) % 2 ^ 32 % pipeBufsz) xs
    count := p.count + xs.length
    count_le := by have := p.count_le; omega }

def pipeWriteLoop (p : Pipe) (data : List UInt8) (done : ℕ) : Pipe.Outcome × ℕ × Pipe :=
  if done < data.length then
    if p.count = pipeBufsz then
      if p.readRefs = 0 then (.sigpipe, done, p) else (.block, done, p)
    else
      let put := min (data.length - done) (pipeBufsz - p.count)
      pipeWriteLoop (p.produce ((data.drop done).take put) (by simp; omega)) data (done + put)
  else (.ret, done, p)
termination_by data.length - done
decreasing_by have := p.count_le; omega

theorem Pipe.contents_consume {n : ℕ} (h : n ≤ p.count) :
    (p.consume n).contents = p.contents.drop n := by
  have hb := p.count_le
  have hr := p.rpos_lt
  have hmod : (p.rpos + n) % 2 ^ 32 = p.rpos + n := by
    unfold pipeBufsz at hb hr
    exact Nat.mod_eq_of_lt (by omega)
  simp only [contents, consume, hmod]
  exact (view_drop _ _ _ h).symm

theorem Pipe.copyOut_front {n : ℕ} (h : n ≤ p.count) : p.copyOut p.rpos n = p.contents.take n := by
  rw [contents, view_take _ _ _ h]
  exact slice_append_slice p.buf p.rpos_lt (h.trans p.count_le)

theorem Pipe.copyOut_skip {k n : ℕ} (h : k + n ≤ p.count) :
    p.copyOut ((p.rpos + k) % pipeBufsz) n = (p.contents.drop k).take n := by
  rw [contents, view_drop _ _ _ (by omega), view_take _ _ _ (by omega)]
  exact slice_append_slice p.buf (Nat.mod_lt _ (by decide))
    ((by omega : n ≤ p.count).trans p.count_le)

theorem Pipe.contents_produce (xs : List UInt8) (h : xs.length ≤ pipeBufsz - p.count) :
    (p.produce xs h).contents = p.contents ++ xs := by
  have hb := p.count_le
  have hr := p.rpos_lt
  have hmod : (p.rpos + p.count) % 2 ^ 32 = p.rpos + p.count := by
    unfold pipeBufsz at hb hr
    exact Nat.mod_eq_of_lt (by omega)
  simp only [contents, produce, hmod]
  exact view_blitRing p.buf (by decide) (by omega)

theorem pipeReadLoop_spec (len : ℕ) (out : List UInt8) :
    (pipeReadLoop p len out).2.1 = out ++ p.contents.take (len - out.length) ∧
      (pipeReadLoop p len out).2.2.contents = p.contents.drop (len - out.length) := by
  fun_induction pipeReadLoop p len out with
  | case1 p out hlt h0 | case2 p out hlt h0 | case3 p out hlt h0 =>
    simp [length_eq_zero_iff.mp ((p.length_contents).trans h0)]
  | case4 p out hlt h0 take ih =>
    have htake : take ≤ p.count := min_le_right ..
    have hlen : len - (out ++ p.copyOut p.rpos take).length = len - out.length - take := by
      simp only [length_append, length_copyOut]; omega
    have hle : take ≤ len - out.length := min_le_left ..
    rw [ih.1, ih.2, hlen, p.contents_consume htake, p.copyOut_front htake, append_assoc,
      take_append_take_drop hle, drop_drop, Nat.add_sub_of_le hle]
    exact ⟨rfl, rfl⟩
  | case5 p out hlt => simp [Nat.sub_eq_zero_of_le (Nat.not_lt.mp hlt)]

theorem pipeReadLoop_block {p : Pipe} {len : ℕ} {out : List UInt8}
    (h : (pipeReadLoop p len out).1 ≠ .ret) :
    out = [] ∧ p.count = 0 ∧ p.writeRefs ≠ 0 ∧ 0 < len := by
  fun_induction pipeReadLoop p len out with
  | case1 | case2 | case5 => simp at h
  | case3 p out hlt h0 hw hd =>
    exact ⟨length_eq_zero_iff.mp (by omega), h0, hw, by omega⟩
  | case4 p out hlt h0 take ih =>
    have hnil := congrArg List.length (ih h).1
    simp only [length_append, length_copyOut, length_nil] at hnil
    omega

theorem pipePeekLoop_spec (len : ℕ) (skip : UInt64) (out : List UInt8)
    (h : skip.toNat + out.length < 2 ^ 64) :
    (pipePeekLoop p len skip out).2 =
      out ++ (p.contents.drop (skip.toNat + out.length)).take (len - out.length) := by
  have hb := p.count_le
  have hr := p.rpos_lt
  have hl := p.length_contents
  unfold pipeBufsz at hb hr
  fun_induction pipePeekLoop p len skip out with
  | case1 out hlt h0 | case2 out hlt h0 | case3 out hlt h0 =>
    rw [Nat.mod_eq_of_lt h] at h0
    simp [drop_of_length_le (by omega : p.contents.length ≤ skip.toNat + out.length)]
  | case4 out hlt h0 available take pos ih =>
    rw [Nat.mod_eq_of_lt h] at h0
    have havail : available = p.count - (skip.toNat + out.length) := by
      simp only [available, Nat.mod_eq_of_lt h]
    have hpos : pos = (p.rpos + (skip.toNat + out.length)) % pipeBufsz := by
      simp only [pos]
      rw [Nat.mod_eq_of_lt (by omega : skip.toNat < 2 ^ 32),
        Nat.mod_eq_of_lt (by omega : out.length < 2 ^ 32), Nat.add_assoc,
        Nat.mod_eq_of_lt (by omega : p.rpos + (skip.toNat + out.length) < 2 ^ 32)]
    have hcopy : p.copyOut pos take = (p.contents.drop (skip.toNat + out.length)).take take := by
      rw [hpos]
      exact p.copyOut_skip (by omega)
    have hlen : (out ++ p.copyOut pos take).length = out.length + take := by simp
    have hrest : p.contents.drop (skip.toNat + (out.length + take)) =
        (p.contents.drop (skip.toNat + out.length)).drop take := by
      rw [drop_drop, Nat.add_assoc]
    rw [ih (by rw [hlen]; omega), hlen, hcopy, append_assoc, hrest, ← Nat.sub_sub,
      take_append_take_drop (by omega)]
  | case5 out hlt => simp [Nat.sub_eq_zero_of_le (Nat.not_lt.mp hlt)]

theorem pipePeekLoop_eq_read (len : ℕ) (skip : UInt64) :
    (pipePeekLoop p len skip []).2 =
      (pipeReadLoop p (skip.toNat + len) []).2.1.drop skip.toNat := by
  rw [pipePeekLoop_spec p len skip [] (by simpa using skip.toNat_lt), (pipeReadLoop_spec ..).1]
  simp [drop_take]

theorem pipePeekLoop_block {p : Pipe} {len : ℕ} {skip : UInt64} (hlen : 0 < len)
    (h : p.count = 0) (hw : p.writeRefs ≠ 0) : (pipePeekLoop p len skip []).1 = .block := by
  rw [pipePeekLoop]
  simp [hlen, h, hw]

theorem pipeWriteLoop_spec (data : List UInt8) (done : ℕ) (h : done ≤ data.length) :
    done ≤ (pipeWriteLoop p data done).2.1 ∧ (pipeWriteLoop p data done).2.1 ≤ data.length ∧
      (pipeWriteLoop p data done).2.2.contents =
        p.contents ++ (data.drop done).take ((pipeWriteLoop p data done).2.1 - done) := by
  fun_induction pipeWriteLoop p data done with
  | case1 p done hlt hfull hr => simp [h]
  | case2 p done hlt hfull hr => simp [h]
  | case3 p done hlt hfull put ih =>
    obtain ⟨hge, hle, hcont⟩ := ih (by omega)
    refine ⟨by omega, hle, ?_⟩
    rw [hcont, contents_produce, append_assoc, ← drop_drop, ← Nat.sub_sub]
    rw [take_append_take_drop (by omega)]
  | case4 p done hlt => simp [h]

end Kyronix.Fs
