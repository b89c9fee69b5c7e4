import Kyronix.Mm.Shmem

/-! Calls on a shared memory object against a sealed byte array, which it follows in every run that
asks for no size within a page of 2^64; there the number of pages wraps to zero. -/
namespace Kyronix.Mm.Shmem

open Lib List ByteFile

structure Ref where
  bytes : List UInt8
  seals : Seals

namespace Ref

variable {a b c : Ref}

/-- `room` tells whether there is memory to grow. -/
def resize (a : Ref) (n : ℕ) (room : Bool) : Except ℤ Unit × Ref :=
  if n = a.bytes.length then (.ok (), a)
  else if a.bytes.length < n ∧ has a.seals fSealGrow then (.error eperm, a)
  else if n < a.bytes.length ∧ has a.seals fSealShrink then (.error eperm, a)
  else if 4096 * shmemMaxPages < n then (.error efbig, a)
  else if a.bytes.length < n ∧ room = false then (.error enomem, a)
  else (.ok (), { a with bytes := ByteFile.resize a.bytes n })

def store (a : Ref) (buf : List UInt8) (off : ℕ) : Except ℤ ℕ × Ref :=
  (.ok buf.length, { a with bytes := write a.bytes off buf })

def write (a : Ref) (buf : List UInt8) (off : ℕ) (room : Bool) : Except ℤ ℕ × Ref :=
  if has a.seals (fSealWrite ||| fSealFutureWrite) then (.error eperm, a)
  else if buf.length = 0 then (.ok 0, a)
  else if 2 ^ 64 ≤ off + buf.length then (.error efbig, a)
  else if a.bytes.length < off + buf.length then
    match a.resize (off + buf.length) room with
    | (.error e, a) => (.error e, a)
    | (.ok (), a) => a.store buf off
  else a.store buf off

def addSeals (a : Ref) (seals : Seals) : Except ℤ Unit × Ref :=
  if has seals (~~~Obj.sealMask) then (.error einval, a)
  else if has a.seals fSealSeal then (.error eperm, a)
  else (.ok (), { a with seals := a.seals ||| seals })

variable {room : Bool}

theorem length_resize {n : ℕ} {u : Unit} (h : a.resize n room = (.ok u, b)) :
    b.bytes.length = n := by
  unfold resize at h
  split at h
  · next hn =>
    cases h
    exact hn.symm
  iterate 4
    split at h
    · cases h
  cases h
  exact length_resize ..

theorem resize_seals {n : ℕ} {r : Except ℤ Unit} (h : a.resize n room = (r, b)) :
    b.seals = a.seals := by
  unfold resize at h
  iterate 5
    split at h
    · cases h
      rfl
  cases h
  rfl

theorem resize_grown {n : ℕ} {u : Unit} (hlt : a.bytes.length < n)
    (h : a.resize n room = (.ok u, b)) :
    b.bytes.length = n ∧ ∀ i, byte b.bytes i = byte a.bytes i := by
  refine ⟨length_resize h, fun i => ?_⟩
  unfold resize at h
  rw [if_neg (by omega)] at h
  iterate 4
    split at h
    · cases h
  cases h
  rw [byte_resize]
  split
  · rfl
  · exact (byte_of_le (by omega)).symm

theorem resize_error {n : ℕ} {e : ℤ} (h : a.resize n room = (.error e, b)) : b = a := by
  unfold resize at h
  iterate 5
    split at h
    · cases h
      try rfl
  cases h

theorem write_cases (a : Ref) {buf : List UInt8} (hlen : buf.length ≠ 0) (off : ℕ) (room : Bool) :
    (∃ e, a.write buf off room = (.error e, a)) ∨
      (a.write buf off room).1 = .ok buf.length ∧
        (a.write buf off room).2.bytes.length = max a.bytes.length (off + buf.length) ∧
        ∀ i, byte (a.write buf off room).2.bytes i =
          if off ≤ i ∧ i < off + buf.length then byte buf (i - off)
          else byte a.bytes i := by
  have hne : buf ≠ [] := length_pos_iff.mp (Nat.pos_of_ne_zero hlen)
  unfold write
  rw [if_neg hlen]
  split
  · exact .inl ⟨_, rfl⟩
  split
  · exact .inl ⟨_, rfl⟩
  split
  · next hend =>
    split
    · next e b hb =>
      rw [resize_error hb]
      exact .inl ⟨e, rfl⟩
    · next b hb =>
      obtain ⟨hlength, hbytes⟩ := resize_grown hend hb
      refine .inr ⟨rfl, ?_, fun i => ?_⟩
      · unfold store
        rw [length_write hne, hlength]
        omega
      · unfold store
        rw [byte_write, hbytes]
  · next hend =>
    exact .inr ⟨rfl, length_write hne, fun i => byte_write⟩

end Ref

inductive Call
  | resize (size : ℕ) (mem : Mem)
  | read (off len : ℕ) (mem : Mem)
  | write (buf : List UInt8) (off : ℕ) (mem : Mem)
  | addSeals (seals : Seals)

inductive Reply
  | done
  | bytes (bs : List UInt8)
  | count (n : ℕ)
  | error (e : ℤ)

open Reply

def Reply.of {α : Type} (f : α → Reply) : Except ℤ α → Reply
  | .ok x => f x
  | .error e => .error e

def Obj.call (o : Obj) : Call → Option (Reply × Obj)
  | .resize size mem => (o.resize size mem).map fun r => (of (fun _ => .done) r.1, r.2)
  | .read off len mem => let r := o.read off len mem; some (of .bytes r.1, r.2)
  | .write buf off mem => (o.write buf off mem).map fun r => (of .count r.1, r.2)
  | .addSeals seals => let r := o.addSeals seals; some (of (fun _ => .done) r.1, r.2)

def Obj.calls (o : Obj) : List Call → Option (List Reply × Obj)
  | [] => some ([], o)
  | c :: cs =>
    (o.call c).bind fun r => (r.2.calls cs).map fun rs => (r.1 :: rs.1, rs.2)

def Ref.call (a : Ref) (c : Call) (room : Bool) : Reply × Ref :=
  match c with
  | .resize size _ => let r := a.resize size room; (of (fun _ => .done) r.1, r.2)
  | .read off len _ => (.bytes (read a.bytes off len), a)
  | .write buf off _ => let r := a.write buf off room; (of .count r.1, r.2)
  | .addSeals seals => let r := a.addSeals seals; (of (fun _ => .done) r.1, r.2)

def Call.Ample : Call → Prop
  | .resize _ mem => mem.Ample
  | .read _ _ mem => mem.Ample
  | .write _ _ mem => mem.Ample
  | .addSeals _ => True

inductive RefRun : Ref → List Call → List Reply → Ref → Prop
  | nil (a : Ref) : RefRun a [] [] a
  | cons {a b : Ref} {c : Call} {cs : List Call} {rs : List Reply} (room : Bool)
      (hroom : c.Ample → room = true) (hrest : RefRun (a.call c room).2 cs rs b) :
      RefRun a (c :: cs) ((a.call c room).1 :: rs) b

/-- The number of pages of every size that the call asks for is below 2^52. -/
def Call.Fits : Call → Prop
  | .resize size _ => size ≤ 2 ^ 64 - 4096
  | .write buf off _ => off + buf.length ≤ 2 ^ 64 - 4096 ∨ 2 ^ 64 ≤ off + buf.length
  | .read .. => True
  | .addSeals _ => True

def Obj.abs (o : Obj) : Ref := ⟨o.contents, o.seals⟩

namespace Obj

variable {o o' : Obj} {mem : Mem} {off len size : ℕ} {buf : List UInt8}

section

variable (mem : Mem) (hs : Sound o)
include hs

theorem resize_refines (hfit : size ≤ 2 ^ 64 - 4096) :
    ∃ r o' room, o.resize size mem = some (r, o') ∧ Sound o' ∧ (mem.Ample → room = true) ∧
      o.abs.resize size room = (r, o'.abs) := by
  have hmax : shmemMaxPages < span size ↔ 4096 * shmemMaxPages < size := by
    unfold span
    omega
  unfold resize Ref.resize abs
  simp only [length_contents, pagesFor_eq hfit, hmax]
  iterate 3
    split
    · exact ⟨_, o, true, rfl, hs, fun _ => rfl, rfl⟩
  split
  · exact ⟨_, o, true, rfl, hs, fun _ => rfl, rfl⟩
  next hbig =>
  have hw : size ≤ 4096 * shmemMaxPages := Nat.le_of_not_lt hbig
  split
  · next hlt =>
    obtain ⟨r, o', hgrown, hs', hseals, ⟨rfl, hbytes⟩ | ⟨rfl, hmem, hbytes⟩⟩ :=
      growTo_spec mem hs hlt hw
    · refine ⟨_, o', true, hgrown, hs', fun _ => rfl, ?_⟩
      rw [if_neg (by simp), hbytes, hseals]
    · refine ⟨_, o', false, hgrown, hs', fun h => absurd h hmem, ?_⟩
      rw [if_pos ⟨hlt, rfl⟩, hbytes, hseals]
  · obtain ⟨hs', hbytes⟩ := shrinkTo_spec hs (by omega) hw
    refine ⟨_, _, true, rfl, hs', fun _ => rfl, ?_⟩
    rw [if_neg (by simp), hbytes]
    rfl

theorem store_refines (hlen : buf.length ≠ 0) (h : off + buf.length ≤ o.size) :
    ∃ o', o.store buf off mem = (.ok buf.length, o') ∧ Sound o' ∧
      o.abs.store buf off = (.ok buf.length, o'.abs) := by
  obtain ⟨o', hpages, hwritten⟩ := writePages_spec mem hs h
  have hne : buf ≠ [] := length_pos_iff.mp (Nat.pos_of_ne_zero hlen)
  refine ⟨o', ?_, hwritten.sound hs, ?_⟩
  · unfold store
    rw [hpages]
    exact Prod.ext (if_neg hlen) rfl
  · unfold Ref.store abs
    have hbytes : o'.contents = ByteFile.write o.contents off buf := by
      refine ByteFile.bytes_ext ?_ fun i hi => ?_
      · rw [length_contents, ByteFile.length_write hne, length_contents, hwritten.size]
        omega
      · rw [length_contents, hwritten.size] at hi
        rw [byte_contents, hwritten.size, if_pos hi, ByteFile.byte_write, byte_contents, if_pos hi,
          hwritten.bytes]
        by_cases hin : off ≤ i ∧ i < off + buf.length
        · obtain ⟨j, rfl⟩ := Nat.exists_eq_add_of_le hin.1
          rw [if_pos hin, Ring.blit_of_mem _ _ (by omega), Nat.add_sub_cancel_left, ByteFile.byte,
            getD_eq_getElem]
        · rw [if_neg hin, Ring.blit_of_not_mem _ _ (by omega)]
    rw [hbytes, hwritten.seals]

theorem write_refines (hfit : off + buf.length ≤ 2 ^ 64 - 4096 ∨ 2 ^ 64 ≤ off + buf.length) :
    ∃ r o' room, o.write buf off mem = some (r, o') ∧ Sound o' ∧ (mem.Ample → room = true) ∧
      o.abs.write buf off room = (r, o'.abs) := by
  unfold write Ref.write
  by_cases hseal : has o.seals (fSealWrite ||| fSealFutureWrite)
  · exact ⟨_, o, true, if_pos hseal, hs, fun _ => rfl, if_pos hseal⟩
  have hseal' : ¬has o.abs.seals (fSealWrite ||| fSealFutureWrite) := hseal
  simp only [if_neg hseal, if_neg hseal']
  by_cases hlen : buf.length = 0
  · exact ⟨_, o, true, if_pos hlen, hs, fun _ => rfl, if_pos hlen⟩
  simp only [if_neg hlen]
  by_cases hbig : 2 ^ 64 ≤ off + buf.length
  · exact ⟨_, o, true, if_pos (by omega), hs, fun _ => rfl, if_pos hbig⟩
  simp only [if_neg (show ¬2 ^ 64 - 1 < off + buf.length by omega), if_neg hbig]
  by_cases hend : o.size < off + buf.length
  · obtain ⟨r, o₁, room, hresize, hs₁, hroom, href⟩ :=
      resize_refines mem hs (hfit.resolve_right hbig)
    have hend' : o.abs.bytes.length < off + buf.length := (length_contents o).symm ▸ hend
    simp only [if_pos hend, if_pos hend', hresize, Option.map_some]
    cases r with
    | error e => exact ⟨_, o₁, room, rfl, hs₁, hroom, by rw [href]⟩
    | ok u =>
      have hsize : off + buf.length ≤ o₁.size := by
        have hlen₁ := Ref.length_resize href
        rw [← length_contents o₁]
        exact hlen₁.ge
      obtain ⟨o', hstore, hs', href'⟩ := store_refines mem hs₁ hlen hsize
      refine ⟨_, o', room, congrArg some hstore, hs', hroom, ?_⟩
      rw [href]
      exact href'
  · have hend' : ¬o.abs.bytes.length < off + buf.length := (length_contents o).symm ▸ hend
    obtain ⟨o', hstore, hs', href⟩ := store_refines mem hs hlen (Nat.le_of_not_lt hend)
    simp only [if_neg hend, if_neg hend']
    exact ⟨_, o', true, congrArg some hstore, hs', fun _ => rfl, href⟩

theorem read_refines (off len : ℕ) :
    o.read off len mem = (.ok (ByteFile.read o.contents off len), o) := by
  have hread : ∀ n, n = min len (o.size - off) →
      Ring.slice o.byte off n = ByteFile.read o.contents off len := by
    intro n hn
    refine ByteFile.read_eq_map (by rwa [length_contents]) fun i hi => ?_
    rw [byte_contents, if_pos (by omega)]
  unfold read
  split
  · next hpast =>
    rw [← hread 0 (by omega)]
    rfl
  next hin =>
  dsimp only
  rw [readPages_eq hs (by omega), ← hread _ rfl, if_neg]
  rintro ⟨hnil, hne⟩
  have hlen := congrArg List.length hnil
  rw [Ring.length_slice] at hlen
  exact hne hlen

end

theorem call_refines {c : Call} (hs : Sound o) (hfit : c.Fits) :
    ∃ r o' room, o.call c = some (r, o') ∧ Sound o' ∧ (c.Ample → room = true) ∧
      o.abs.call c room = (r, o'.abs) := by
  cases c with
  | resize size mem =>
    obtain ⟨r, o', room, hcall, hs', hroom, href⟩ := resize_refines mem hs hfit
    refine ⟨_, o', room, congrArg (Option.map _) hcall, hs', hroom, ?_⟩
    unfold Ref.call
    dsimp only
    rw [href]
  | read off len mem =>
    refine ⟨_, o, true, ?_, hs, fun _ => rfl, rfl⟩
    unfold call
    dsimp only
    rw [read_refines mem hs off len]
    rfl
  | write buf off mem =>
    obtain ⟨r, o', room, hcall, hs', hroom, href⟩ := write_refines mem hs hfit
    refine ⟨_, o', room, congrArg (Option.map _) hcall, hs', hroom, ?_⟩
    unfold Ref.call
    dsimp only
    rw [href]
  | addSeals seals =>
    refine ⟨_, (o.addSeals seals).2, true, rfl, ?_, fun _ => rfl, ?_⟩
    · unfold addSeals
      split
      · exact hs
      split
      · exact hs
      · exact ⟨hs.framed, hs.spanned, hs.bounded, hs.clean⟩
    · unfold Ref.call Ref.addSeals addSeals abs
      dsimp only
      split
      · rfl
      split <;> rfl

theorem calls_refine {cs : List Call} (hs : Sound o) (hfit : ∀ c ∈ cs, c.Fits) :
    ∃ rs o', o.calls cs = some (rs, o') ∧ Sound o' ∧ RefRun o.abs cs rs o'.abs := by
  induction cs generalizing o with
  | nil => exact ⟨[], o, rfl, hs, .nil _⟩
  | cons c cs ih =>
    obtain ⟨r, o₁, room, hcall, hs₁, hroom, href⟩ := call_refines hs (hfit c mem_cons_self)
    obtain ⟨rs, o', hcalls, hs', hrun⟩ := ih hs₁ fun c hc => hfit c (mem_cons_of_mem _ hc)
    refine ⟨r :: rs, o', ?_, hs', ?_⟩
    · unfold calls
      rw [hcall, Option.bind_some, hcalls]
      rfl
    · have hrest := RefRun.cons (a := o.abs) room hroom (by rwa [href])
      rwa [href] at hrest

end Obj

theorem has_or {s t mask : Seals} (h : has s mask) : has (s ||| t) mask := by
  unfold has at h ⊢
  rw [decide_eq_true_eq] at h ⊢
  intro hzero
  rw [BitVec.and_or_distrib_right] at hzero
  exact h (BitVec.or_eq_zero_iff.mp hzero).1

/-- What the seals of `a` leave to later states `b`: with a write seal the old bytes up to some
position and zeros from there, because the array may still be cut and grown. -/
structure Sealed (a b : Ref) : Prop where
  seals : ∀ mask, has a.seals mask → has b.seals mask
  fixed : has a.seals fSealSeal → b.seals = a.seals
  grow : has a.seals fSealGrow → b.bytes.length ≤ a.bytes.length
  shrink : has a.seals fSealShrink → a.bytes.length ≤ b.bytes.length
  write : has a.seals (fSealWrite ||| fSealFutureWrite) →
    ∃ m, (has a.seals fSealShrink → a.bytes.length ≤ m) ∧
      ∀ i, byte b.bytes i = if i < m then byte a.bytes i else 0

theorem Sealed.refl (a : Ref) : Sealed a a where
  seals _ h := h
  fixed _ := rfl
  grow _ := le_rfl
  shrink _ := le_rfl
  write _ := by
    refine ⟨a.bytes.length, fun _ => le_rfl, fun i => ?_⟩
    split
    · rfl
    · next h => exact byte_of_le (Nat.le_of_not_lt h)

theorem Sealed.trans {a b c : Ref} (h : Sealed a b) (h' : Sealed b c) : Sealed a c where
  seals mask hm := h'.seals mask (h.seals mask hm)
  fixed hm := (h'.fixed (h.seals _ hm)).trans (h.fixed hm)
  grow hm := (h'.grow (h.seals _ hm)).trans (h.grow hm)
  shrink hm := (h.shrink hm).trans (h'.shrink (h.seals _ hm))
  write hm := by
    obtain ⟨m, hlen, hbytes⟩ := h.write hm
    obtain ⟨m', hlen', hbytes'⟩ := h'.write (h.seals _ hm)
    refine ⟨min m m', fun hs => ?_, fun i => ?_⟩
    · exact Nat.le_min.mpr ⟨hlen hs, (h.shrink hs).trans (hlen' (h.seals _ hs))⟩
    · rw [hbytes', hbytes]
      by_cases hi : i < m'
      · rw [if_pos hi]
        congr 1
        exact propext (by omega)
      · rw [if_neg hi, if_neg (by omega)]

namespace Ref

variable {a : Ref}

theorem sealed_resize (a : Ref) (n : ℕ) (room : Bool) : Sealed a (a.resize n room).2 := by
  unfold resize
  split
  · exact .refl a
  split
  · exact .refl a
  next hgrow =>
  split
  · exact .refl a
  next hshrink =>
  iterate 2
    split
    · exact .refl a
  refine ⟨fun _ h => h, fun _ => rfl, fun h => ?_, fun h => ?_, fun _ => ?_⟩
  · rw [ByteFile.length_resize]
    exact Nat.le_of_not_lt fun hlt => hgrow ⟨hlt, h⟩
  · rw [ByteFile.length_resize]
    exact Nat.le_of_not_lt fun hlt => hshrink ⟨hlt, h⟩
  · exact ⟨n, fun h => Nat.le_of_not_lt fun hlt => hshrink ⟨hlt, h⟩,
      fun i => ByteFile.byte_resize⟩

theorem sealed_store {buf : List UInt8} {off : ℕ} (hlen : buf.length ≠ 0)
    (hopen : ¬has a.seals (fSealWrite ||| fSealFutureWrite))
    (hin : off + buf.length ≤ a.bytes.length) : Sealed a (a.store buf off).2 := by
  have hsize : (ByteFile.write a.bytes off buf).length = a.bytes.length := by
    rw [ByteFile.length_write (length_pos_iff.mp (Nat.pos_of_ne_zero hlen))]
    omega
  exact ⟨fun _ h => h, fun _ => rfl, fun _ => hsize.le, fun _ => hsize.ge,
    fun h => absurd h hopen⟩

theorem sealed_write (a : Ref) (buf : List UInt8) (off : ℕ) (room : Bool) :
    Sealed a (a.write buf off room).2 := by
  unfold write
  split
  · exact .refl a
  next hopen =>
  split
  · exact .refl a
  next hlen =>
  split
  · exact .refl a
  split
  · have hresize := sealed_resize a (off + buf.length) room
    split
    · next e b hb =>
      rw [hb] at hresize
      exact hresize
    · next b hb =>
      have hend := length_resize hb
      have hseals := resize_seals hb
      rw [hb] at hresize
      exact hresize.trans (sealed_store hlen (hseals ▸ hopen) hend.ge)
  · next hin => exact sealed_store hlen hopen (Nat.le_of_not_lt hin)

theorem sealed_call (a : Ref) (c : Call) (room : Bool) : Sealed a (a.call c room).2 := by
  cases c with
  | resize size mem => exact sealed_resize a size room
  | read off len mem => exact .refl a
  | write buf off mem => exact sealed_write a buf off room
  | addSeals seals =>
    unfold call addSeals
    dsimp only
    split
    · exact .refl a
    split
    · exact .refl a
    · next hseal =>
      have h := Sealed.refl a
      exact ⟨fun _ => has_or, fun h => absurd h hseal, h.grow, h.shrink, h.write⟩

end Ref

theorem RefRun.sealed {a b : Ref} {cs : List Call} {rs : List Reply} (h : RefRun a cs rs b) :
    Sealed a b := by
  induction h with
  | nil a => exact .refl a
  | cons room hroom hrest ih => exact (Ref.sealed_call _ _ room).trans ih

def Ref.empty : Ref := ⟨[], 0⟩

/-- In a run that asks for no size within a page of 2^64, the object answers as a sealed byte array,
every page has its frame, and what was sealed stays. -/
theorem shmem_refines (cs cs' : List Call) (hfit : ∀ c ∈ cs ++ cs', c.Fits) :
    ∃ rs o rs' o', Obj.create.calls cs = some (rs, o) ∧ o.calls cs' = some (rs', o') ∧
      RefRun .empty cs rs o.abs ∧ RefRun o.abs cs' rs' o'.abs ∧
      (∀ i < Obj.span o'.size, ∃ p, o'.pages i = some p) ∧
      Obj.span o'.size ≤ o'.npages ∧ o'.npages ≤ shmemMaxPages ∧ Sealed o.abs o'.abs := by
  obtain ⟨rs, o, hcalls, hs, hrun⟩ :=
    Obj.calls_refine Obj.sound_create fun c hc => hfit c (mem_append_left _ hc)
  obtain ⟨rs', o', hcalls', hs', hrun'⟩ :=
    Obj.calls_refine hs fun c hc => hfit c (mem_append_right _ hc)
  exact ⟨rs, o, rs', o', hcalls, hcalls', hrun, hrun', hs'.framed, hs'.spanned, hs'.bounded,
    hrun'.sealed⟩

def fullMem : Mem := ⟨true, fun _ => true⟩

theorem shmem_refines_cut :
    ∃ rs o rs' o', Obj.create.calls [.write [7, 7] 0 fullMem, .resize 1 fullMem] = some (rs, o) ∧
      o.calls [.resize 2 fullMem, .addSeals fSealWrite, .read 0 2 fullMem] = some (rs', o') ∧
      RefRun .empty [.write [7, 7] 0 fullMem, .resize 1 fullMem] rs o.abs ∧
      RefRun o.abs [.resize 2 fullMem, .addSeals fSealWrite, .read 0 2 fullMem] rs' o'.abs ∧
      (∀ i < Obj.span o'.size, ∃ p, o'.pages i = some p) ∧
      Obj.span o'.size ≤ o'.npages ∧ o'.npages ≤ shmemMaxPages ∧ Sealed o.abs o'.abs := by
  refine shmem_refines _ _ fun c hc => ?_
  simp only [cons_append, nil_append, mem_cons, not_mem_nil, or_false] at hc
  rcases hc with rfl | rfl | rfl | rfl | rfl
  · exact .inl (by decide)
  · exact (by decide : 1 ≤ 2 ^ 64 - 4096)
  · exact (by decide : 2 ≤ 2 ^ 64 - 4096)
  · trivial
  · trivial

/-- The last size before 2^64 is accepted as one of no pages: bytes behind the first GiB cannot be
read, and the next growth leaves the array. -/
theorem shmem_wraps :
    (∃ o, Obj.create.calls [.resize (2 ^ 64 - 2) fullMem] = some ([.done], o) ∧
      shmemMaxPages < Obj.span o.size ∧ (¬∃ p, o.pages 0 = some p) ∧
      (o.read (2 ^ 30) 1 fullMem).1 = .error enomem ∧
      ¬∃ b, RefRun .empty [.resize (2 ^ 64 - 2) fullMem] [.done] b) ∧
    Obj.create.calls [.resize (2 ^ 64 - 2) fullMem, .resize (2 ^ 64 - 1) fullMem] = none := by
  refine ⟨⟨⟨fun _ => none, 0, 2 ^ 64 - 2, 0⟩, rfl, by decide, ?_, ?_, ?_⟩, rfl⟩
  · rintro ⟨p, hp⟩
    cases hp
  · unfold Obj.read Obj.readPages
    rfl
  · rintro ⟨b, hrun⟩
    -- the reference refuses a size of so many pages, whatever memory there is
    have hrefused : ∀ room, (Ref.empty.call (.resize (2 ^ 64 - 2) fullMem) room).1 =
        .error efbig := fun room => by cases room <;> rfl
    generalize hrs : [done] = rs at hrun
    cases hrun with
    | cons room hroom hrest =>
      rw [hrefused] at hrs
      cases hrs

end Kyronix.Mm.Shmem
