import Kyronix.Fs.Fat32
import Kyronix.Fs.RamFile

/-! A file of a mounted FAT32 volume under the calls of `vfs.c`: the driver refuses writes, but has
no function for truncation, so the code for RAM files resizes the node. -/
namespace Kyronix.Fs.Fat32

open Lib.Run

/-- A node of `process_dirent`, with the first cluster in `fs_private` and the modes of the
descriptors that hold it. -/
structure FatNode where
  node : RamNode
  file : Option ℕ
  deleted : Bool
  ofds : List AccMode

def processDirent (size cluster : ℕ) : FatNode := ⟨⟨size, 0, fun _ => 0⟩, some cluster, false, []⟩

inductive NodeAct
  | open (mode : AccMode) (trunc allowed : Bool) (mem : Option (ℕ → UInt8))
  | write (d len : ℕ) (readable : Bool)
  | pwrite (d len off : ℕ) (readable : Bool)
  | copyFileRange (d len off : ℕ) (got : ℤ)
  | truncate (len : ℕ) (allowed : Bool) (mem : Option (ℕ → UInt8))
  | ftruncate (d len : ℕ) (mem : Option (ℕ → UInt8))
  | link
  | unlink
  | close (d : ℕ)

namespace FatNode

variable (s : FatNode)

def read (v : Volume) (off len : ℕ) (room : Bool) (c : Cache) :
    Except ℤ (List UInt8) × Cache := v.regRead s.node.size s.file off len room c

def regWriteRo : ℤ := -erofs

def fdWrite (d len : ℕ) (readable : Bool) : ℤ :=
  match s.ofds[d]? with
  | none => -ebadf
  | some mode =>
    if len = 0 then 0
    else if readable = false then -efault
    else if mode = .rdonly then -ebadf
    else regWriteRo

def fdPwrite (d len off : ℕ) (readable : Bool) : ℤ :=
  match s.ofds[d]? with
  | none => -ebadf
  | some mode =>
    if mode = .rdonly then -ebadf
    else if len = 0 then 0
    else if readable = false then -efault
    else if off > int64Max then -einval
    else if len > int64Max - off then -efbig
    else regWriteRo

/-- `got` is what reading the other file returned. The loop ends in its first turn, since no write
to the node succeeds. -/
def copyFileRange (d len off : ℕ) (got : ℤ) : ℤ :=
  if off > int64Max then -einval
  else if len = 0 then 0
  else if got ≤ 0 then got
  else s.fdPwrite d got.toNat off true

def resize (len : ℕ) (mem : Option (ℕ → UInt8)) : ℤ × FatNode :=
  match s.node.vfsNodeTruncate len mem with
  | .error e => (e, s)
  | .ok n => (0, { s with node := n })

/-- `allowed` is the outcome of the mount's and the node's permissions. -/
def fdOpen (mode : AccMode) (trunc allowed : Bool) (mem : Option (ℕ → UInt8)) : ℤ × FatNode :=
  if s.deleted then (-enoent, s)
  else if allowed = false then (-eacces, s)
  else
    let r := if trunc then s.resize 0 mem else (0, s)
    if r.1 < 0 then r else (r.1, { r.2 with ofds := r.2.ofds ++ [mode] })

def truncate (len : ℕ) (allowed : Bool) (mem : Option (ℕ → UInt8)) : ℤ × FatNode :=
  if s.deleted then (-enoent, s)
  else if allowed = false then (-eacces, s)
  else s.resize len mem

def ftruncate (d len : ℕ) (mem : Option (ℕ → UInt8)) : ℤ × FatNode :=
  match s.ofds[d]? with
  | none => (-ebadf, s)
  | some mode => if mode = .rdonly then (-ebadf, s) else s.resize len mem

def destroy : FatNode :=
  if s.deleted ∧ s.ofds = [] then { s with file := none } else s

def call : NodeAct → ℤ × FatNode
  | .open mode trunc allowed mem => s.fdOpen mode trunc allowed mem
  | .write d len readable => (s.fdWrite d len readable, s)
  | .pwrite d len off readable => (s.fdPwrite d len off readable, s)
  | .copyFileRange d len off got => (s.copyFileRange d len off got, s)
  | .truncate len allowed mem => s.truncate len allowed mem
  | .ftruncate d len mem => s.ftruncate d len mem
  -- The new name gets a node of its own.
  | .link => (0, s)
  | .unlink => if s.deleted then (-enoent, s) else (0, { s with deleted := true }.destroy)
  | .close d =>
    if d < s.ofds.length then (0, { s with ofds := s.ofds.eraseIdx d }.destroy) else (-ebadf, s)

def step (a : NodeAct) : FatNode := (s.call a).2

/-- No call sets another length: those that may truncate do so to the length the node has. -/
def KeepsLength : NodeAct → Prop
  | .open _ trunc allowed _ => s.deleted = false → allowed = true → trunc = true → s.node.size = 0
  | .truncate len allowed _ => s.deleted = false → allowed = true → len = s.node.size
  | .ftruncate d len _ => ∀ mode, s.ofds[d]? = some mode → mode ≠ .rdonly → len = s.node.size
  | _ => True

def Same (s₀ s : FatNode) : Prop :=
  (s.deleted = false ∨ s.ofds ≠ []) → s.node.size = s₀.node.size ∧ s.file = s₀.file ∧
    ∀ v off len room c, s.read v off len room c = s₀.read v off len room c

theorem size_vfsNodeTruncate {n n' : RamNode} {len : ℕ} {mem : Option (ℕ → UInt8)}
    (h : n.vfsNodeTruncate len mem = .ok n') : n'.size = len := by
  unfold RamNode.vfsNodeTruncate at h
  dsimp only at h
  split_ifs at h
  · split at h
    · cases h
    · cases h
      rfl
  · cases h
    rfl

variable {s₀ s : FatNode}

theorem Same.resize (h : Same s₀ s) {len : ℕ} (hlen : len = s.node.size)
    (mem : Option (ℕ → UInt8)) : Same s₀ (s.resize len mem).2 := by
  unfold FatNode.resize
  split
  · exact h
  · next n hn =>
    have hsize : n.size = s.node.size := (size_vfsNodeTruncate hn).trans hlen
    intro hheld
    simpa only [hsize, read] using h hheld

theorem resize_deleted (len : ℕ) (mem : Option (ℕ → UInt8)) :
    (s.resize len mem).2.deleted = s.deleted := by
  unfold FatNode.resize
  split <;> rfl

theorem Same.reopen (h : Same s₀ s) (hheld : s.deleted = false ∨ s.ofds ≠ []) (deleted : Bool)
    (ofds : List AccMode) : Same s₀ { s with deleted := deleted, ofds := ofds } :=
  fun _ => h hheld

theorem Same.destroy (h : Same s₀ s) : Same s₀ s.destroy := by
  unfold FatNode.destroy
  split_ifs with hgone
  · rintro (hdel | hofds)
    · exact nomatch hgone.1.symm.trans hdel
    · exact absurd hgone.2 hofds
  · exact h

theorem Same.step (h : Same s₀ s) (a : NodeAct) (ha : s.KeepsLength a) : Same s₀ (s.step a) := by
  cases a with
  | «open» mode trunc allowed mem =>
    rw [FatNode.step, call, fdOpen]
    split
    · exact h
    next hdel =>
    rw [Bool.not_eq_true] at hdel
    split
    · exact h
    next hno =>
    have hr : Same s₀ (if trunc then s.resize 0 mem else (0, s)).2 ∧
        (if trunc then s.resize 0 mem else (0, s)).2.deleted = s.deleted := by
      split_ifs with ht
      · exact ⟨h.resize (ha hdel (Bool.not_eq_false _ ▸ hno) ht).symm mem, resize_deleted 0 mem⟩
      · exact ⟨h, rfl⟩
    generalize (if trunc then s.resize 0 mem else (0, s)) = r at hr ⊢
    dsimp only
    split_ifs
    · exact hr.1
    · exact hr.1.reopen (.inl (hr.2.trans hdel)) _ _
  | write d len readable => exact h
  | pwrite d len off readable => exact h
  | copyFileRange d len off got => exact h
  | truncate len allowed mem =>
    rw [FatNode.step, call, FatNode.truncate]
    split_ifs with hdel hno
    · exact h
    · exact h
    · exact h.resize (ha (Bool.not_eq_true _ ▸ hdel) (Bool.not_eq_false _ ▸ hno)) mem
  | ftruncate d len mem =>
    rw [FatNode.step, call, FatNode.ftruncate]
    split
    · exact h
    · next mode hd =>
      split_ifs with hmode
      · exact h
      · exact h.resize (ha mode hd hmode) mem
  | link => exact h
  | unlink =>
    rw [FatNode.step, call]
    split_ifs with hdel
    · exact h
    · exact (h.reopen (.inl (by simpa using hdel)) _ _).destroy
  | close d =>
    rw [FatNode.step, call]
    split_ifs with hd
    · exact (h.reopen (.inr (List.ne_nil_of_length_pos (by omega))) _ _).destroy
    · exact h

end FatNode

theorem fat_node_unchanged (size cluster : ℕ) (as : List NodeAct)
    (h : Along FatNode.step FatNode.KeepsLength (processDirent size cluster) as) :
    Always FatNode.step (FatNode.Same (processDirent size cluster)) (processDirent size cluster)
      as :=
  h.always (fun _ => ⟨rfl, rfl, fun _ _ _ _ _ => rfl⟩) fun _ a hs ha => hs.step a ha

theorem fat_node_unchanged_write :
    Always FatNode.step (FatNode.Same (processDirent 5 2)) (processDirent 5 2)
      [.open .rdwr false true none, .write 0 3 true] :=
  fat_node_unchanged 5 2 _ (along_cons.mpr ⟨fun _ _ => nofun, along_cons.mpr ⟨trivial, along_nil⟩⟩)

theorem fat_node_truncated :
    ((processDirent 5 2).step (.open .rdonly true true none)).node.size = 0 ∧
    ((processDirent 5 2).step (.truncate 1 true (some fun _ => 0))).node.size = 1 := by
  decide +kernel

end Kyronix.Fs.Fat32
