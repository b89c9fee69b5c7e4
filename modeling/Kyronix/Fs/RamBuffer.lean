import Kyronix.Lib.Table
import Kyronix.Fs.RamFile

/-! The buffers behind regular files (`vfs.c`): what size, capacity and pointer the calls leave in a
node, and where they read and write in the buffers. -/
namespace Kyronix.Fs.Buffer

open Lib.Run

/-- `data` is how many bytes were asked of the allocator, `none` for NULL. A node with `fs_ops` or
of shared memory is `foreign`. -/
structure Node where
  size : ℕ
  capacity : ℕ
  data : Option ℕ
  foreign : Bool
deriving DecidableEq

structure Access where
  buf : Option ℕ
  start : ℕ
  len : ℕ
deriving DecidableEq

structure Sys where
  node : ℕ → Option Node
  -- the copies of the calls that read, write and truncate
  log : List Access

variable (s : Sys)

def Sys.set (k : ℕ) (n : Node) : Sys :=
  { s with node := Function.update s.node k (some n) }

def Sys.touch (as : List Access) : Sys := { s with log := s.log ++ as }

def Node.filled (n : Node) (size : ℕ) : Node :=
  { n with size := size, capacity := size, data := if size > 0 then some size else none }

/-- The name has the node `k`, or will have it. `mem` and `again` are the answers of `kmalloc` for
the new node and for new contents of an old one. -/
def vfsCreateFile (k size : ℕ) (mem again : Bool) : Sys :=
  if size > 0 ∧ mem = false then s
  else match s.node k with
    | none => s.set k (Node.filled ⟨0, 0, none, false⟩ size)
    | some old =>
      if size > 0 ∧ again = false then s.set k (old.filled 0) else s.set k (old.filled size)

def writeNode (k : ℕ) (n : Node) (off len : ℕ) (mem : Bool) : Sys :=
  let stop := off + len
  if stop > n.capacity then
    if stop > uint64Max - 4095 then s
    else if mem = false then s
    else
      let new := some (pageUp stop)
      let copied := if n.data = none then [] else [⟨n.data, 0, n.size⟩, ⟨new, 0, n.size⟩]
      (s.set k { n with capacity := pageUp stop, data := new, size := max n.size stop }).touch
        (copied ++ [⟨new, off, len⟩])
  else (s.set k { n with size := max n.size stop }).touch [⟨n.data, off, len⟩]

def fdPwrite (k off len : ℕ) (mem : Bool) : Sys :=
  match s.node k with
  | none => s
  | some n =>
    if len = 0 ∨ off > int64Max ∨ len > int64Max - off ∨ n.foreign = true then s
    else writeNode s k n off len mem

def fdPread (k off len : ℕ) : Sys :=
  match s.node k with
  | none => s
  | some n =>
    if len = 0 ∨ off ≥ n.size ∨ n.foreign = true then s
    else s.touch [⟨n.data, off, min len (n.size - off)⟩]

def cutNode (k : ℕ) (n : Node) (len : ℕ) : Sys :=
  (s.set k { n with size := len }).touch
    (if len > n.size then [⟨n.data, n.size, len - n.size⟩] else [])

def vfsNodeTruncate (k len : ℕ) (mem : Bool) : Sys :=
  match s.node k with
  | none => s
  | some n =>
    if n.foreign = true then s
    else if len > n.capacity then
      if len > uint64Max - 4095 then s
      else if mem = false then s
      else cutNode s k { n with data := some (pageUp len), capacity := pageUp len } len
    else cutNode s k n len

def linked (n : Node) : Node :=
  if n.data ≠ none ∧ n.size > 0 then ⟨n.size, n.size, some n.size, false⟩
  else ⟨n.size, n.capacity, none, false⟩

def vfsLink (src k : ℕ) (mem : Bool) : Sys :=
  match s.node src with
  | none => s
  | some n =>
    if n.data ≠ none ∧ n.size > 0 ∧ mem = false then s
    else if s.node k ≠ none then s
    else s.set k (linked n)

inductive Act
  | create (k size : ℕ) (mem again : Bool)
  | write (k off len : ℕ) (mem : Bool)
  | read (k off len : ℕ)
  | truncate (k len : ℕ) (mem : Bool)
  | link (src k : ℕ) (mem : Bool)
  -- another file system makes a node, or changes the size of one of its own
  | mount (k size : ℕ)
  | resize (k size : ℕ)
deriving DecidableEq

def bufStep : Act → Sys
  | .create k size mem again => vfsCreateFile s k size mem again
  | .write k off len mem => fdPwrite s k off len mem
  | .read k off len => fdPread s k off len
  | .truncate k len mem => vfsNodeTruncate s k len mem
  | .link src k mem => vfsLink s src k mem
  | .mount k size => if s.node k = none then s.set k ⟨size, 0, none, true⟩ else s
  | .resize k size =>
    match s.node k with
    | none => s
    | some n => if n.foreign = true then s.set k { n with size := size } else s

structure Node.Bounded (n : Node) : Prop where
  size : n.size ≤ n.capacity
  data : 0 < n.capacity → ∃ bytes, n.data = some bytes ∧ n.capacity ≤ bytes

def Access.Inside (a : Access) : Prop := ∃ bytes, a.buf = some bytes ∧ a.start + a.len ≤ bytes

structure Bounded (s : Sys) : Prop where
  node : ∀ k n, s.node k = some n → n.foreign = false → n.Bounded
  log : ∀ a ∈ s.log, a.Inside

/-- A link that goes through is of a file with contents in its buffer, or of one without contents or
buffer. -/
def LinkOk : Act → Prop
  | .link src k _ => ∀ n, s.node src = some n → s.node k = none →
    n.size > 0 ∧ n.data ≠ none ∨ n.size = 0 ∧ n.capacity = 0
  | _ => True

variable {s : Sys} {k : ℕ} {n : Node} {as : List Access}

theorem Bounded.set (h : Bounded s) (hn : n.foreign = false → n.Bounded) : Bounded (s.set k n) := by
  refine ⟨fun m x hx hf => ?_, h.log⟩
  rcases Lib.of_update hx with ⟨-, ⟨⟩⟩ | ⟨-, hx⟩
  · exact hn hf
  · exact h.node m x hx hf

theorem Bounded.touch (h : Bounded s) (has : ∀ a ∈ as, a.Inside) : Bounded (s.touch as) := by
  refine ⟨h.node, fun a ha => ?_⟩
  rcases List.mem_append.mp ha with ha | ha
  · exact h.log a ha
  · exact has a ha

theorem Node.bounded_filled (n : Node) (size : ℕ) : (n.filled size).Bounded := by
  refine ⟨Nat.le_refl size, fun hpos => ⟨size, ?_, Nat.le_refl size⟩⟩
  exact if_pos hpos

theorem Node.Bounded.inside (h : n.Bounded) {start len : ℕ} (hlen : 0 < len)
    (hend : start + len ≤ n.capacity) : Access.Inside ⟨n.data, start, len⟩ := by
  obtain ⟨bytes, hdata, hcap⟩ := h.data (by omega)
  exact ⟨bytes, hdata, hend.trans hcap⟩

theorem Node.Bounded.size_le (h : n.Bounded) {bytes : ℕ} (hdata : n.data = some bytes) :
    n.size ≤ bytes := by
  rcases Nat.eq_zero_or_pos n.capacity with h0 | hpos
  · exact (h.size.trans_eq h0).trans (Nat.zero_le bytes)
  · obtain ⟨b, hb, hcap⟩ := h.data hpos
    obtain rfl := Option.some.inj (hdata.symm.trans hb)
    exact h.size.trans hcap

theorem Bounded.create (h : Bounded s) (k size : ℕ) (mem again : Bool) :
    Bounded (vfsCreateFile s k size mem again) := by
  unfold vfsCreateFile
  split
  · exact h
  split
  · exact h.set fun _ => Node.bounded_filled _ size
  · split
    · exact h.set fun _ => Node.bounded_filled _ 0
    · exact h.set fun _ => Node.bounded_filled _ size

theorem Bounded.write (h : Bounded s) (k off len : ℕ) (mem : Bool) :
    Bounded (fdPwrite s k off len mem) := by
  unfold fdPwrite
  split
  · exact h
  next n hn =>
    split
    · exact h
    next hok =>
      simp only [not_or] at hok
      have hlen : 0 < len := Nat.pos_of_ne_zero hok.1
      have hb := h.node k n hn (by simpa using hok.2.2.2)
      have hsize := hb.size
      have hup := le_pageUp (off + len)
      unfold writeNode
      dsimp only
      split
      · next hgrow =>
        split
        · exact h
        split
        · exact h
        -- the new buffer holds the old contents and the bytes that are written
        have hold : n.size ≤ pageUp (off + len) := hsize.trans (hgrow.le.trans hup)
        have hnode : Node.Bounded { n with
            capacity := pageUp (off + len), data := some (pageUp (off + len)),
            size := max n.size (off + len) } :=
          ⟨max_le hold hup, fun _ => ⟨_, rfl, Nat.le_refl _⟩⟩
        refine (h.set fun _ => hnode).touch fun a ha => ?_
        rcases List.mem_append.mp ha with ha | ha
        · split at ha
          · cases ha
          next hdata =>
            obtain ⟨bytes, hbytes⟩ := Option.ne_none_iff_exists'.mp hdata
            rcases List.mem_pair.mp ha with rfl | rfl
            · exact ⟨bytes, hbytes, (Nat.zero_add _).trans_le (hb.size_le hbytes)⟩
            · exact ⟨_, rfl, (Nat.zero_add _).trans_le hold⟩
        · rw [List.mem_singleton.mp ha]
          exact ⟨_, rfl, hup⟩
      · next hfits =>
        have hend : off + len ≤ n.capacity := not_lt.mp hfits
        have hnode : Node.Bounded { n with size := max n.size (off + len) } :=
          ⟨max_le hsize hend, hb.data⟩
        refine (h.set fun _ => hnode).touch fun a ha => ?_
        rw [List.mem_singleton.mp ha]
        exact hb.inside hlen hend

theorem Bounded.read (h : Bounded s) (k off len : ℕ) : Bounded (fdPread s k off len) := by
  unfold fdPread
  split
  · exact h
  next n hn =>
    split
    · exact h
    next hok =>
      simp only [not_or] at hok
      have hlen : 0 < len := Nat.pos_of_ne_zero hok.1
      have hb := h.node k n hn (by simpa using hok.2.2)
      have hsize := hb.size
      have hoff : off < n.size := not_le.mp hok.2.1
      refine h.touch fun a ha => ?_
      rw [List.mem_singleton.mp ha]
      have hmin : min len (n.size - off) ≤ n.size - off := min_le_right _ _
      exact hb.inside (lt_min hlen (by omega)) (by omega)

theorem Bounded.cutNode (h : Bounded s) (hn : n.Bounded) {len : ℕ} (hlen : len ≤ n.capacity) :
    Bounded (cutNode s k n len) := by
  have hnode : Node.Bounded { n with size := len } := ⟨hlen, hn.data⟩
  refine (h.set fun _ => hnode).touch fun a ha => ?_
  split at ha
  · next hgrow =>
    rw [List.mem_singleton.mp ha]
    exact hn.inside (Nat.sub_pos_of_lt hgrow) (by omega)
  · cases ha

theorem Bounded.truncate (h : Bounded s) (k len : ℕ) (mem : Bool) :
    Bounded (vfsNodeTruncate s k len mem) := by
  unfold vfsNodeTruncate
  split
  · exact h
  next n hn =>
    split
    · exact h
    next hf =>
      have hb := h.node k n hn (by simpa using hf)
      have hup := le_pageUp len
      split
      · next hgrow =>
        split
        · exact h
        split
        · exact h
        have hnew : Node.Bounded { n with data := some (pageUp len), capacity := pageUp len } :=
          ⟨hb.size.trans (hgrow.le.trans hup), fun _ => ⟨_, rfl, Nat.le_refl _⟩⟩
        exact h.cutNode hnew hup
      · next hfits => exact h.cutNode hb (not_lt.mp hfits)

theorem bounded_linked_iff (n : Node) :
    (linked n).Bounded ↔ n.size > 0 ∧ n.data ≠ none ∨ n.size = 0 ∧ n.capacity = 0 := by
  unfold linked
  split
  · next hcopy =>
    refine iff_of_true ⟨Nat.le_refl _, fun _ => ⟨_, rfl, Nat.le_refl _⟩⟩ ?_
    exact .inl ⟨hcopy.2, hcopy.1⟩
  · next hcopy =>
    constructor
    · intro hb
      have hcap : n.capacity = 0 := by
        by_contra hne
        obtain ⟨bytes, hnone, -⟩ := hb.data (Nat.pos_of_ne_zero hne)
        cases hnone
      exact .inr ⟨Nat.le_zero.mp (hb.size.trans_eq hcap), hcap⟩
    · rintro (⟨hsize, hdata⟩ | ⟨hsize, hcap⟩)
      · exact absurd ⟨hdata, hsize⟩ hcopy
      · refine ⟨(hsize.trans hcap.symm).le, fun hpos => ?_⟩
        exact absurd hcap hpos.ne'

theorem bounded_link_iff (h : Bounded s) (src k : ℕ) (mem : Bool) :
    Bounded (vfsLink s src k mem) ↔ LinkOk s (.link src k mem) := by
  unfold vfsLink LinkOk
  cases hsrc : s.node src with
  | none => exact iff_of_true h fun m hm => absurd (hsrc.symm.trans hm) (by simp)
  | some n =>
    dsimp only
    have hsame : ∀ m, s.node src = some m → m = n := fun m hm =>
      Option.some.inj (hm.symm.trans hsrc)
    by_cases hmem : n.data ≠ none ∧ n.size > 0 ∧ mem = false
    · rw [if_pos hmem]
      refine iff_of_true h fun m hm _ => ?_
      rw [hsame m hm]
      exact .inl ⟨hmem.2.1, hmem.1⟩
    · rw [if_neg hmem]
      by_cases hk : s.node k = none
      · rw [if_neg (not_not.mpr hk)]
        constructor
        · intro hb m hm _
          rw [hsame m hm]
          have hforeign : (linked n).foreign = false := by
            unfold linked
            split <;> rfl
          refine (bounded_linked_iff n).mp (hb.node k (linked n) ?_ hforeign)
          exact Function.update_self ..
        · intro hok
          exact h.set fun _ => (bounded_linked_iff n).mpr (hok n hsrc hk)
      · rw [if_pos hk]
        exact iff_of_true h fun _ _ hnone => absurd hnone hk

theorem bounded_step_iff (h : Bounded s) (act : Act) : Bounded (bufStep s act) ↔ LinkOk s act := by
  cases act with
  | create k size mem again => exact iff_of_true (h.create k size mem again) trivial
  | write k off len mem => exact iff_of_true (h.write k off len mem) trivial
  | read k off len => exact iff_of_true (h.read k off len) trivial
  | truncate k len mem => exact iff_of_true (h.truncate k len mem) trivial
  | link src k mem => exact bounded_link_iff h src k mem
  | mount k size =>
    refine iff_of_true ?_ trivial
    show Bounded (if s.node k = none then s.set k ⟨size, 0, none, true⟩ else s)
    split
    · exact h.set nofun
    · exact h
  | resize k size =>
    refine iff_of_true ?_ trivial
    unfold bufStep
    dsimp only
    split
    · exact h
    · next n hn =>
      split
      · next hf => exact h.set fun hno => absurd hf (by simp [show n.foreign = false from hno])
      · exact h

def Sys.boot : Sys := ⟨fun _ => none, []⟩

/-- Sizes, capacities and buffers agree and all copies stay inside just when every link is of a file
with contents or without a buffer. -/
theorem buffers_bounded_iff (acts : List Act) :
    Always bufStep Bounded Sys.boot acts ↔ Along bufStep LinkOk Sys.boot acts := by
  refine always_iff_along (I := fun _ => True) trivial ⟨nofun, nofun⟩ (fun _ _ _ _ _ => trivial) ?_
  exact fun s act _ h => bounded_step_iff h act

/-- The link of an emptied file has room for 3 bytes and no buffer, and a write through it goes to
NULL. -/
theorem emptied_link_has_no_buffer :
    let acts := [.create 0 3 true true, .truncate 0 0 true, .link 0 1 true, .write 1 0 1 true]
    ¬ Always bufStep Bounded Sys.boot acts ∧
      (exec bufStep Sys.boot acts).node 1 = some ⟨1, 3, none, false⟩ ∧
      ⟨none, 0, 1⟩ ∈ (exec bufStep Sys.boot acts).log := by
  intro acts
  have hnode : (exec bufStep Sys.boot acts).node 1 = some ⟨1, 3, none, false⟩ := by decide +kernel
  refine ⟨fun hall => ?_, hnode, by decide +kernel⟩
  obtain ⟨bytes, hnone, -⟩ := ((hall acts List.prefix_rfl).node 1 _ hnode rfl).data (by decide)
  cases hnone

end Kyronix.Fs.Buffer
