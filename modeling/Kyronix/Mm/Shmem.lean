import Kyronix.Errno
import Kyronix.Lib.ByteFile
import Kyronix.Lib.Bytes
import Kyronix.Lib.Table

/-! Shared memory objects (`shmem.c`): an array of page frames with a size and seals. -/
namespace Kyronix.Mm.Shmem

open Lib Lib.Ring Function

def shmemMaxPages : ℕ := 256 * 1024

abbrev Seals := BitVec 32

def fSealSeal : Seals := 0x0001
def fSealShrink : Seals := 0x0002
def fSealGrow : Seals := 0x0004
def fSealWrite : Seals := 0x0008
def fSealFutureWrite : Seals := 0x0010

def has (seals mask : Seals) : Bool := seals &&& mask ≠ 0

abbrev Page := ℕ → UInt8

/-- `pages i` is the frame of page `i` with its bytes, or none. -/
structure Obj where
  pages : ℕ → Option Page
  npages : ℕ
  size : ℕ
  seals : Seals

/-- What memory a call finds: whether `krealloc` succeeds, and the allocation of page `i`. -/
structure Mem where
  array : Bool
  page : ℕ → Bool

def Mem.Ample (mem : Mem) : Prop := mem.array = true ∧ ∀ i, mem.page i = true

namespace Obj

variable {o o' : Obj} {mem : Mem} {off len size want i n : ℕ} {buf : List UInt8}

def pagesFor (size : ℕ) : ℕ := (size + 4095) % 2 ^ 64 / 4096

def create : Obj := ⟨fun _ => none, 0, 0, 0⟩

def setPage (o : Obj) (i : ℕ) (p : Page) : Obj :=
  { o with pages := update o.pages i (some p) }

def growArray (o : Obj) (want : ℕ) (mem : Mem) : Option Obj :=
  if want ≤ o.npages then some o
  else if mem.array = false then none
  else some { o with
    pages := fun i => if o.npages ≤ i ∧ i < want then none else o.pages i
    npages := want }

def fillPages (o : Obj) (mem : Mem) : ℕ → ℕ → Bool × Obj
  | _, 0 => (true, o)
  | i, n + 1 =>
    match o.pages i with
    | some _ => o.fillPages mem (i + 1) n
    | none =>
      if mem.page i = false then (false, o)
      else (o.setPage i fun _ => 0).fillPages mem (i + 1) n

def zeroTail (o : Obj) : Option Obj :=
  let tail := o.size % 4096
  if tail = 0 then some o
  else if o.npages ≤ o.size / 4096 then none
  else (o.pages (o.size / 4096)).map fun p =>
    o.setPage (o.size / 4096) fun i => if tail ≤ i then 0 else p i

def growTo (o : Obj) (size : ℕ) (mem : Mem) : Option (Except ℤ Unit × Obj) :=
  match o.growArray (pagesFor size) mem with
  | none => some (.error enomem, o)
  | some o =>
    match o.fillPages mem 0 (pagesFor size) with
    | (false, o) => some (.error enomem, o)
    | (true, o) => o.zeroTail.map fun o => (.ok (), { o with size := size })

def shrinkTo (o : Obj) (size : ℕ) : Obj :=
  { o with
    pages := fun i => if pagesFor size ≤ i ∧ i < o.npages then none else o.pages i
    size := size }

/-- None is an access to memory that is not the object's, here and below. -/
def resize (o : Obj) (size : ℕ) (mem : Mem) : Option (Except ℤ Unit × Obj) :=
  if size = o.size then some (.ok (), o)
  else if o.size < size ∧ has o.seals fSealGrow then some (.error eperm, o)
  else if size < o.size ∧ has o.seals fSealShrink then some (.error eperm, o)
  else if shmemMaxPages < pagesFor size then some (.error efbig, o)
  else if o.size < size then o.growTo size mem
  else some (.ok (), o.shrinkTo size)

def pagePhys (o : Obj) (off : ℕ) (mem : Mem) : Option Page × Obj :=
  let idx := off / 4096
  if shmemMaxPages ≤ idx then (none, o)
  else match o.growArray (idx + 1) mem with
    | none => (none, o)
    | some o =>
      match o.pages idx with
      | some p => (some p, o)
      | none =>
        if mem.page idx = false then (none, o) else (some fun _ => 0, o.setPage idx fun _ => 0)

def readPages (o : Obj) (mem : Mem) (off len : ℕ) : List UInt8 × Obj :=
  if len = 0 then ([], o)
  else match o.pagePhys off mem with
    | (none, o) => ([], o)
    | (some page, o) =>
      let chunk := min (4096 - off % 4096) len
      let rest := o.readPages mem (off + chunk) (len - chunk)
      (slice page (off % 4096) chunk ++ rest.1, rest.2)
termination_by len
decreasing_by omega

def read (o : Obj) (off len : ℕ) (mem : Mem) : Except ℤ (List UInt8) × Obj :=
  if o.size ≤ off then (.ok [], o)
  else
    let len := min len (o.size - off)
    let r := o.readPages mem off len
    (if r.1 = [] ∧ len ≠ 0 then .error enomem else .ok r.1, r.2)

def writePages (o : Obj) (mem : Mem) (buf : List UInt8) (off : ℕ) : ℕ × Obj :=
  if buf.length = 0 then (0, o)
  else match o.pagePhys off mem with
    | (none, o) => (0, o)
    | (some page, o) =>
      let chunk := min (4096 - off % 4096) buf.length
      let o := o.setPage (off / 4096) (blit page (off % 4096) (buf.take chunk))
      let rest := o.writePages mem (buf.drop chunk) (off + chunk)
      (chunk + rest.1, rest.2)
termination_by buf.length
decreasing_by
  rw [List.length_drop]
  omega

def store (o : Obj) (buf : List UInt8) (off : ℕ) (mem : Mem) : Except ℤ ℕ × Obj :=
  let r := o.writePages mem buf off
  (if r.1 = 0 then .error enomem else .ok r.1, r.2)

def write (o : Obj) (buf : List UInt8) (off : ℕ) (mem : Mem) : Option (Except ℤ ℕ × Obj) :=
  if has o.seals (fSealWrite ||| fSealFutureWrite) then some (.error eperm, o)
  else if buf.length = 0 then some (.ok 0, o)
  else if 2 ^ 64 - 1 < off + buf.length then some (.error efbig, o)
  else if o.size < off + buf.length then
    (o.resize (off + buf.length) mem).map fun
      | (.error e, o) => (.error e, o)
      | (.ok (), o) => o.store buf off mem
  else some (o.store buf off mem)

def sealMask : Seals := fSealSeal ||| fSealShrink ||| fSealGrow ||| fSealWrite ||| fSealFutureWrite

def addSeals (o : Obj) (seals : Seals) : Except ℤ Unit × Obj :=
  if has seals (~~~sealMask) then (.error einval, o)
  else if has o.seals fSealSeal then (.error eperm, o)
  else (.ok (), { o with seals := o.seals ||| seals })

def byte (o : Obj) (i : ℕ) : UInt8 :=
  match o.pages (i / 4096) with
  | some p => p (i % 4096)
  | none => 0

def contents (o : Obj) : List UInt8 := slice o.byte 0 o.size

def span (size : ℕ) : ℕ := (size + 4095) / 4096

structure Sound (o : Obj) : Prop where
  framed : ∀ i < span o.size, ∃ p, o.pages i = some p
  spanned : span o.size ≤ o.npages
  bounded : o.npages ≤ shmemMaxPages
  clean : ∀ i p, span o.size ≤ i → i < o.npages → o.pages i = some p → ∀ j, p j = 0

theorem pagesFor_eq (h : size ≤ 2 ^ 64 - 4096) : pagesFor size = span size := by
  unfold pagesFor span
  rw [Nat.mod_eq_of_lt (by omega)]

theorem page_of_lt_size (h : i < size) : i / 4096 < span size := by
  unfold span
  omega

theorem length_contents (o : Obj) : o.contents.length = o.size := length_slice ..

theorem byte_contents (o : Obj) (i : ℕ) :
    ByteFile.byte o.contents i = if i < o.size then o.byte i else 0 := by
  split
  · next h =>
    unfold ByteFile.byte contents slice
    simp [h]
  · next h => exact ByteFile.byte_of_le (by rw [length_contents]; omega)

theorem sound_create : Sound create where
  framed i h := absurd h (by simp [span, create])
  spanned := by simp [span, create]
  bounded := Nat.zero_le _
  clean i p _ h := absurd h (Nat.not_lt_zero i)

structure Alike (o o' : Obj) : Prop where
  size : o'.size = o.size
  seals : o'.seals = o.seals
  pages : ∀ i < span o.size, o'.pages i = o.pages i

theorem Alike.contents (h : Alike o o') : o'.contents = o.contents := by
  unfold Obj.contents
  rw [h.size]
  refine Bytes.slice_congr fun i _ hi => ?_
  unfold byte
  rw [h.pages _ (page_of_lt_size (by omega))]

theorem growArray_spec (hs : Sound o) (hw : want ≤ shmemMaxPages)
    (h : o.growArray want mem = some o') : Alike o o' ∧ Sound o' ∧ want ≤ o'.npages := by
  unfold growArray at h
  split at h
  · next hle =>
    cases h
    exact ⟨⟨rfl, rfl, fun _ _ => rfl⟩, hs, hle⟩
  split at h
  · cases h
  next hlt _ =>
  cases h
  have hspan := hs.spanned
  have hpages : ∀ i < span o.size, (if o.npages ≤ i ∧ i < want then none else o.pages i) =
      o.pages i := fun i hi => if_neg (by omega)
  refine ⟨⟨rfl, rfl, hpages⟩, ⟨fun i hi => ?_, ?_, hw, fun i p hle hi hp => ?_⟩, le_rfl⟩
  · dsimp only
    rw [hpages i hi]
    exact hs.framed i hi
  · dsimp only
    omega
  · dsimp only at hle hi hp
    split at hp
    · cases hp
    · exact hs.clean i p hle (by omega) hp

theorem growArray_ample (h : mem.Ample) : o.growArray want mem ≠ none := by
  unfold growArray
  rw [h.1, if_neg (by decide : ¬true = false)]
  split <;> simp

structure Filled (o o' : Obj) : Prop where
  size : o'.size = o.size
  seals : o'.seals = o.seals
  npages : o'.npages = o.npages
  kept : ∀ i p, o.pages i = some p → o'.pages i = some p
  fresh : ∀ i p, o'.pages i = some p → o.pages i = some p ∨ ∀ j, p j = 0

theorem Filled.refl (o : Obj) : Filled o o := ⟨rfl, rfl, rfl, fun _ _ h => h, fun _ _ h => .inl h⟩

theorem Filled.trans {o₁ o₂ : Obj} (h : Filled o o₁) (h' : Filled o₁ o₂) : Filled o o₂ where
  size := h'.size.trans h.size
  seals := h'.seals.trans h.seals
  npages := h'.npages.trans h.npages
  kept i p hp := h'.kept i p (h.kept i p hp)
  fresh i p hp := by
    rcases h'.fresh i p hp with hp | hzero
    · exact h.fresh i p hp
    · exact .inr hzero

theorem filled_setPage (h : o.pages i = none) : Filled o (o.setPage i fun _ => 0) := by
  refine ⟨rfl, rfl, rfl, fun j p hp => ?_, fun j p hp => ?_⟩
  · have hne : j ≠ i := by
      rintro rfl
      rw [h] at hp
      cases hp
    exact (update_of_ne hne ..).trans hp
  · rcases of_update hp with ⟨-, ⟨⟩⟩ | ⟨-, hp⟩
    · exact .inr fun _ => rfl
    · exact .inl hp

theorem fillPages_filled (o : Obj) (mem : Mem) (i n : ℕ) : Filled o (o.fillPages mem i n).2 := by
  induction n generalizing o i with
  | zero => exact .refl o
  | succ n ih =>
    unfold fillPages
    split
    · exact ih o (i + 1)
    · next hnone =>
      split
      · exact .refl o
      · exact (filled_setPage hnone).trans (ih _ (i + 1))

theorem fillPages_complete (o : Obj) (mem : Mem) (i n : ℕ) (h : (o.fillPages mem i n).1 = true)
    {j : ℕ} (hle : i ≤ j) (hlt : j < i + n) : ∃ p, (o.fillPages mem i n).2.pages j = some p := by
  induction n generalizing o i with
  | zero => omega
  | succ n ih =>
    unfold fillPages at h ⊢
    split at h
    · next p hp =>
      rcases Nat.eq_or_lt_of_le hle with rfl | hlt'
      · exact ⟨p, (fillPages_filled o mem (i + 1) n).kept i p hp⟩
      · exact ih o (i + 1) h hlt' (by omega)
    · split at h
      · cases h
      · next hroom =>
        rw [if_neg hroom]
        rcases Nat.eq_or_lt_of_le hle with rfl | hlt'
        · refine ⟨_, (fillPages_filled _ mem (i + 1) n).kept i (fun _ => 0) ?_⟩
          exact update_self ..
        · exact ih _ (i + 1) h hlt' (by omega)

theorem fillPages_ample (o : Obj) (i n : ℕ) (h : mem.Ample) : (o.fillPages mem i n).1 = true := by
  induction n generalizing o i with
  | zero => rfl
  | succ n ih =>
    unfold fillPages
    split
    · exact ih o (i + 1)
    · rw [if_neg (by rw [h.2]; decide)]
      exact ih _ (i + 1)

theorem Filled.alike (h : Filled o o') (hs : Sound o) : Alike o o' where
  size := h.size
  seals := h.seals
  pages i hi := by
    obtain ⟨p, hp⟩ := hs.framed i hi
    rw [hp, h.kept i p hp]

theorem Filled.sound (h : Filled o o') (hs : Sound o) : Sound o' where
  framed i hi := by
    obtain ⟨p, hp⟩ := hs.framed i (h.size ▸ hi)
    exact ⟨p, h.kept i p hp⟩
  spanned := by
    rw [h.size, h.npages]
    exact hs.spanned
  bounded := h.npages ▸ hs.bounded
  clean i p hle hlt hp := by
    rcases h.fresh i p hp with hp | hzero
    · exact hs.clean i p (h.size ▸ hle) (h.npages ▸ hlt) hp
    · exact hzero

theorem zeroTail_spec (hs : Sound o) : ∃ o', o.zeroTail = some o' ∧ o'.size = o.size ∧
    o'.seals = o.seals ∧ o'.npages = o.npages ∧
    (∀ i, (∃ p, o.pages i = some p) → ∃ p, o'.pages i = some p) ∧
    (∀ i, span o.size ≤ i → o'.pages i = o.pages i) ∧
    ∀ i, i / 4096 < o.npages → o'.byte i = if i < o.size then o.byte i else 0 := by
  have hclean : ∀ i, span o.size ≤ i / 4096 → i / 4096 < o.npages → o.byte i = 0 := by
    intro i hle hlt
    unfold byte
    split
    · next p hp => exact hs.clean _ p hle hlt hp _
    · rfl
  unfold zeroTail
  dsimp only
  split
  · next htail =>
    refine ⟨o, rfl, rfl, rfl, rfl, fun _ h => h, fun _ _ => rfl, fun i hi => ?_⟩
    split
    · rfl
    · exact hclean i (by unfold span; omega) hi
  next htail =>
  have hlast : o.size / 4096 < span o.size := by
    unfold span
    omega
  obtain ⟨p, hp⟩ := hs.framed _ hlast
  rw [if_neg (by have := hs.spanned; omega), hp, Option.map_some]
  refine ⟨_, rfl, rfl, rfl, rfl, fun i hi => ?_, fun i hi => ?_, fun i hi => ?_⟩
  · by_cases heq : i = o.size / 4096
    · rw [heq]
      exact ⟨_, update_self ..⟩
    · obtain ⟨q, hq⟩ := hi
      exact ⟨q, (update_of_ne heq ..).trans hq⟩
  · exact update_of_ne (by omega) ..
  · by_cases heq : i / 4096 = o.size / 4096
    · unfold byte setPage
      dsimp only
      rw [heq, update_self, hp]
      dsimp only
      split
      · rw [if_neg (by omega)]
      · rw [if_pos (by omega)]
    · have hsame : (o.setPage (o.size / 4096) fun j =>
          if o.size % 4096 ≤ j then 0 else p j).byte i = o.byte i := by
        unfold byte setPage
        dsimp only
        rw [update_of_ne heq]
      rw [hsame]
      split
      · rfl
      · exact hclean i (by unfold span; omega) hi

theorem zeroTail_grown (hs : Sound o) (hlt : o.size < size) (hnp : span size ≤ o.npages)
    (hfull : ∀ i < span size, ∃ p, o.pages i = some p) :
    ∃ o', o.zeroTail = some o' ∧ Sound { o' with size := size } ∧ o'.seals = o.seals ∧
      contents { o' with size := size } = ByteFile.resize o.contents size := by
  obtain ⟨o', htail, hsize, hseals, hnp', hframed, hsame, hbyte⟩ := zeroTail_spec hs
  have hspan : span o.size ≤ span size := by
    unfold span
    omega
  refine ⟨o', htail, ⟨fun i hi => hframed i (hfull i hi), ?_, ?_, fun i p hle hi hp => ?_⟩,
    hseals, ?_⟩
  · exact hnp'.symm ▸ hnp
  · exact hnp'.symm ▸ hs.bounded
  · have hle' := hspan.trans hle
    exact hs.clean i p hle' (hnp' ▸ hi) (hsame i hle' ▸ hp)
  · refine ByteFile.bytes_ext ?_ fun i hi => ?_
    · rw [length_contents, ByteFile.length_resize]
    · rw [length_contents] at hi
      have hpage := page_of_lt_size hi
      rw [byte_contents, if_pos hi, ByteFile.byte_resize, if_pos hi, byte_contents]
      exact hbyte i (by dsimp only at hpage; omega)

theorem growTo_spec (mem : Mem) (hs : Sound o) (hlt : o.size < size)
    (hw : size ≤ 4096 * shmemMaxPages) :
    ∃ r o', o.growTo size mem = some (r, o') ∧ Sound o' ∧ o'.seals = o.seals ∧
      (r = .ok () ∧ o'.contents = ByteFile.resize o.contents size ∨
        r = .error enomem ∧ ¬mem.Ample ∧ o'.contents = o.contents) := by
  have hspan : span size ≤ shmemMaxPages := by
    unfold span
    omega
  unfold growTo
  rw [pagesFor_eq (hw.trans (by decide))]
  cases harray : o.growArray (span size) mem with
  | none => exact ⟨_, o, rfl, hs, rfl, .inr ⟨rfl, fun h => growArray_ample h harray, rfl⟩⟩
  | some o₁ =>
    obtain ⟨halike, hs₁, hnp⟩ := growArray_spec hs hspan harray
    have hfilled := fillPages_filled o₁ mem 0 (span size)
    have hs₂ := hfilled.sound hs₁
    have halike₂ := hfilled.alike hs₁
    have hseals := halike₂.seals.trans halike.seals
    have hcontents := halike₂.contents.trans halike.contents
    dsimp only
    split
    · next o₂ hfill =>
      rw [hfill] at hs₂ hseals hcontents
      refine ⟨_, o₂, rfl, hs₂, hseals, .inr ⟨rfl, fun h => ?_, hcontents⟩⟩
      have := fillPages_ample o₁ 0 (span size) h
      rw [hfill] at this
      cases this
    · next o₂ hfill =>
      have hcomplete := fun j => fillPages_complete o₁ mem 0 (span size) (by rw [hfill]) (j := j)
      rw [hfill] at hs₂ hseals hcontents hcomplete hfilled halike₂
      have hlt₂ : o₂.size < size := by rwa [halike₂.size, halike.size]
      obtain ⟨o₃, htail, hs₃, hseals₃, hgrown⟩ := zeroTail_grown hs₂ hlt₂
        (hfilled.npages.symm ▸ hnp) fun i hi => hcomplete i (Nat.zero_le i) (by omega)
      rw [htail]
      exact ⟨_, _, rfl, hs₃, hseals₃.trans hseals, .inl ⟨rfl, hgrown.trans (by rw [hcontents])⟩⟩

theorem shrinkTo_spec (hs : Sound o) (hlt : size < o.size) (hw : size ≤ 4096 * shmemMaxPages) :
    Sound (o.shrinkTo size) ∧ (o.shrinkTo size).contents = ByteFile.resize o.contents size := by
  have hspan : span size ≤ span o.size := by
    unfold span
    omega
  have hpages : ∀ i < span size, (o.shrinkTo size).pages i = o.pages i := by
    intro i hi
    refine if_neg ?_
    rw [pagesFor_eq (hw.trans (by decide))]
    omega
  refine ⟨⟨fun i hi => ?_, hspan.trans hs.spanned, hs.bounded, fun i p hle hi hp => ?_⟩, ?_⟩
  · rw [hpages i hi]
    exact hs.framed i (hi.trans_le hspan)
  · unfold shrinkTo at hp
    dsimp only at hp
    rw [pagesFor_eq (hw.trans (by decide)), if_pos ⟨hle, hi⟩] at hp
    cases hp
  · refine ByteFile.bytes_ext ?_ fun i hi => ?_
    · rw [length_contents, ByteFile.length_resize]
      rfl
    · rw [length_contents] at hi
      have hi : i < size := hi
      have hsize : (o.shrinkTo size).size = size := rfl
      rw [byte_contents, hsize, if_pos hi, ByteFile.byte_resize, if_pos hi, byte_contents,
        if_pos (hi.trans hlt)]
      unfold byte
      rw [hpages _ (page_of_lt_size hi)]

theorem Sound.page (hs : Sound o) (h : i < o.size) :
    i / 4096 < shmemMaxPages ∧ i / 4096 < o.npages ∧ ∃ p, o.pages (i / 4096) = some p := by
  have hpage := page_of_lt_size h
  have hnp := hs.spanned
  have hmax := hs.bounded
  exact ⟨by omega, by omega, hs.framed _ hpage⟩

theorem pagePhys_eq {p : Page} (hmax : off / 4096 < shmemMaxPages) (hnp : off / 4096 < o.npages)
    (hp : o.pages (off / 4096) = some p) : o.pagePhys off mem = (some p, o) := by
  unfold pagePhys growArray
  rw [if_neg (by omega), if_pos (by omega)]
  dsimp only
  rw [hp]

theorem slice_page {p : Page} (hp : o.pages (off / 4096) = some p)
    (h : off % 4096 + len ≤ 4096) : slice p (off % 4096) len = slice o.byte off len := by
  refine List.map_congr_left fun i hi => ?_
  have hi := List.mem_range.mp hi
  unfold byte
  rw [show (off + i) / 4096 = off / 4096 by omega, hp,
    show (off + i) % 4096 = off % 4096 + i by omega]

theorem readPages_eq (hs : Sound o) (h : off + len ≤ o.size) :
    o.readPages mem off len = (slice o.byte off len, o) := by
  induction len using Nat.strong_induction_on generalizing off with
  | h len ih =>
    unfold readPages
    split
    · next hzero =>
      rw [hzero]
      rfl
    next hlen =>
    obtain ⟨hmax, hnp, p, hp⟩ := hs.page (i := off) (by omega)
    rw [pagePhys_eq hmax hnp hp]
    dsimp only
    rw [ih _ (by omega) (by omega), slice_page hp (by omega), ← Bytes.slice_add,
      Nat.add_sub_cancel' (by omega)]

theorem byte_setPage_blit {p : Page} (hp : o.pages (off / 4096) = some p)
    (h : off % 4096 + buf.length ≤ 4096) :
    (o.setPage (off / 4096) (blit p (off % 4096) buf)).byte = blit o.byte off buf := by
  funext i
  unfold byte setPage
  dsimp only
  by_cases hpage : i / 4096 = off / 4096
  · rw [hpage, update_self]
    dsimp only
    by_cases hin : off ≤ i ∧ i < off + buf.length
    · obtain ⟨j, rfl⟩ := Nat.exists_eq_add_of_le hin.1
      rw [show (off + j) % 4096 = off % 4096 + j by omega, blit_of_mem _ _ (by omega),
        blit_of_mem _ _ (by omega)]
    · rw [blit_of_not_mem _ _ (by omega), blit_of_not_mem _ _ (by omega), hpage, hp]
  · rw [update_of_ne hpage, blit_of_not_mem _ _ (by omega)]

structure Written (o o' : Obj) (b : ℕ → UInt8) : Prop where
  size : o'.size = o.size
  seals : o'.seals = o.seals
  npages : o'.npages = o.npages
  framed : ∀ i, (∃ p, o.pages i = some p) → ∃ p, o'.pages i = some p
  beyond : ∀ i, span o.size ≤ i → o'.pages i = o.pages i
  bytes : o'.byte = b

theorem Written.sound {b : ℕ → UInt8} (h : Written o o' b) (hs : Sound o) : Sound o' where
  framed i hi := h.framed i (hs.framed i (h.size ▸ hi))
  spanned := by
    rw [h.size, h.npages]
    exact hs.spanned
  bounded := h.npages ▸ hs.bounded
  clean i p hle hlt hp := by
    rw [h.size] at hle
    rw [h.beyond i hle] at hp
    exact hs.clean i p hle (h.npages ▸ hlt) hp

theorem writePages_spec (mem : Mem) (hs : Sound o) (h : off + buf.length ≤ o.size) :
    ∃ o', o.writePages mem buf off = (buf.length, o') ∧ Written o o' (blit o.byte off buf) := by
  induction hn : buf.length using Nat.strong_induction_on generalizing o buf off with
  | h n ih =>
    unfold writePages
    split
    · next hzero =>
      have hnil := List.eq_nil_of_length_eq_zero hzero
      subst hnil
      refine ⟨o, by rw [← hn]; rfl, rfl, rfl, rfl, fun _ h => h, fun _ _ => rfl, ?_⟩
      exact funext fun i => (blit_of_not_mem _ _ (Nat.lt_or_ge i off)).symm
    next hlen =>
    obtain ⟨hmax, hnp, p, hp⟩ := hs.page (i := off) (by omega)
    have hpage : off / 4096 < span o.size := page_of_lt_size (by omega)
    rw [pagePhys_eq hmax hnp hp]
    dsimp only
    generalize hchunk : min (4096 - off % 4096) buf.length = chunk
    have htake : (buf.take chunk).length = chunk := List.length_take_of_le (by omega)
    have hfirst : Written o (o.setPage (off / 4096) (blit p (off % 4096) (buf.take chunk)))
        (blit o.byte off (buf.take chunk)) := by
      refine ⟨rfl, rfl, rfl, fun i hi => ?_, fun i hi => ?_, byte_setPage_blit hp (by omega)⟩
      · by_cases heq : i = off / 4096
        · rw [heq]
          exact ⟨_, update_self ..⟩
        · obtain ⟨q, hq⟩ := hi
          exact ⟨q, (update_of_ne heq ..).trans hq⟩
      · exact update_of_ne (by omega) ..
    have hdrop : (buf.drop chunk).length = buf.length - chunk := List.length_drop
    have hend : off + chunk + (buf.drop chunk).length ≤
        (o.setPage (off / 4096) (blit p (off % 4096) (buf.take chunk))).size := by
      rw [hfirst.size]
      omega
    obtain ⟨o', hrest, hwritten⟩ := ih _ (by omega) (hfirst.sound hs) hend rfl
    refine ⟨o', ?_, hwritten.size.trans hfirst.size, hwritten.seals.trans hfirst.seals,
      hwritten.npages.trans hfirst.npages, fun i hi => hwritten.framed i (hfirst.framed i hi),
      fun i hi => (hwritten.beyond i (hfirst.size.symm ▸ hi)).trans (hfirst.beyond i hi), ?_⟩
    · rw [hrest]
      exact Prod.ext (by dsimp only; omega) rfl
    · rw [hwritten.bytes, hfirst.bytes, ← List.take_append_drop chunk buf, Bytes.blit_append]
      simp only [List.take_append_drop, htake]

end Obj

end Kyronix.Mm.Shmem
