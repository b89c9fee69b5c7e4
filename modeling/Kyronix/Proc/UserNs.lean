import Kyronix.Errno

/-! User namespaces (`ns.c`): the table of id ranges written through `/proc/<pid>/uid_map`, the
parser of its text, and the translations of ids it stands for. -/
namespace Kyronix.Proc

open List

def nsUidGidMapMax : ℕ := 5

-- ns_uid_gid_map_t
structure IdRange where
  inside : UInt32
  outside : UInt32
  count : UInt32
deriving DecidableEq, Repr

open IdRange

def IdRange.Bounded (m : IdRange) : Prop :=
  m.count ≠ 0 ∧ m.inside.toNat + m.count.toNat ≤ 0x100000000 ∧
    m.outside.toNat + m.count.toNat ≤ 0x100000000

instance (m : IdRange) : Decidable m.Bounded := inferInstanceAs (Decidable (_ ∧ _))

def IdRange.Apart (m r : IdRange) : Prop :=
  ¬ (m.inside.toNat < r.inside.toNat + r.count.toNat ∧
      r.inside.toNat < m.inside.toNat + m.count.toNat) ∧
    ¬ (m.outside.toNat < r.outside.toNat + r.count.toNat ∧
      r.outside.toNat < m.outside.toNat + m.count.toNat)

instance (m r : IdRange) : Decidable (m.Apart r) := inferInstanceAs (Decidable (_ ∧ _))

/-- The ranges of a written map; overlapping or overflowing ones cannot be stored. -/
structure IdMap where
  ranges : List IdRange
  bounded : ∀ m ∈ ranges, m.Bounded
  apart : ranges.Pairwise fun m r => r.Apart m

def IdMap.empty : IdMap := ⟨[], by simp, List.Pairwise.nil⟩

def IdMap.add (t : IdMap) (m : IdRange) : Option IdMap :=
  if h : m.Bounded ∧ ∀ r ∈ t.ranges, m.Apart r then
    some ⟨t.ranges ++ [m], by
      intro r hr
      rcases mem_append.mp hr with hr | hr
      · exact t.bounded r hr
      · rw [mem_singleton.mp hr]
        exact h.1, by
      refine pairwise_append.mpr ⟨t.apart, pairwise_singleton .., fun r hr q hq => ?_⟩
      rw [mem_singleton.mp hq]
      exact h.2 r hr⟩
  else none

def isBlank (c : UInt8) : Bool := c == 32 || c == 9

def isSpace (c : UInt8) : Bool := c == 10 || c == 13 || c == 32 || c == 9

def isDigit (c : UInt8) : Bool := c ≥ 48 && c ≤ 57

def parseDigits (v : ℕ) : List UInt8 → Option (ℕ × List UInt8)
  | [] => some (v, [])
  | c :: s =>
    if isDigit c then
      let v' := v * 10 + (c.toNat - 48)
      if v' > 0xffffffff then none else parseDigits v' s
    else some (v, c :: s)

def parseU32Span (s : List UInt8) : Option (UInt32 × List UInt8) :=
  match s.dropWhile isBlank with
  | [] => none
  | c :: s =>
    if isDigit c then
      (parseDigits 0 (c :: s)).map fun (v, s) => (UInt32.ofNat v, s.dropWhile isBlank)
    else none

-- one line of the map: inside, outside, count, and then a line end or the end of the text
def parseRange (s : List UInt8) : Option (IdRange × List UInt8) := do
  let (inside, s) ← parseU32Span s
  let (outside, s) ← parseU32Span s
  let (n, s) ← parseU32Span s
  return (⟨inside, outside, n⟩, s)

-- the loop of `user_map_write`; `room` is the number of entries still free
def parseMap : (room : ℕ) → IdMap → List UInt8 → Option IdMap
  | room, t, s =>
    match s.dropWhile isSpace with
    | [] => some t
    | c :: s =>
      match room with
      | 0 => none
      | room + 1 =>
        match parseRange (c :: s) with
        | none => none
        | some (m, s) =>
          match t.add m with
          | none => none
          | some t =>
            match s.dropWhile isBlank with
            | [] => some t
            | c :: s => if c ≠ 10 ∧ c ≠ 13 then none else parseMap room t (c :: s)

structure UserNamespace where
  initial : Bool
  mapWritten : Bool
  gidMapWritten : Bool
  groupsDisabled : Bool
  uidMap : IdMap
  gidMap : IdMap

def initUserNs : UserNamespace := ⟨true, false, false, false, IdMap.empty, IdMap.empty⟩

-- user_ns_create: a zeroed namespace
def userNsCreate : UserNamespace := ⟨false, false, false, false, IdMap.empty, IdMap.empty⟩

/-- `readable` is the outcome of `uptr_ok` on the user's buffer. -/
def userMapWrite (ns : UserNamespace) (gid readable : Bool) (buf : List UInt8) :
    ℤ × UserNamespace :=
  if buf.length = 0 ∨ buf.length ≥ 512 then (-einval, ns)
  else if !readable then (-efault, ns)
  else if (gid && ns.gidMapWritten) || (!gid && ns.mapWritten) then (-eperm, ns)
  else if gid && !ns.groupsDisabled then (-eperm, ns)
  else match parseMap nsUidGidMapMax IdMap.empty buf with
    | none => (-einval, ns)
    | some t =>
      if t.ranges.length = 0 then (-einval, ns)
      else if gid then (0, { ns with gidMap := t, gidMapWritten := true })
      else (0, { ns with uidMap := t, mapWritten := true })

-- the loop shared by the translations: the first range `[a, a + count)` holding `id`
def translate (src dst : IdRange → UInt32) (id : UInt32) : List IdRange → Option UInt32
  | [] => none
  | m :: rest =>
    let off := id.toUInt64 - (src m).toUInt64
    if id ≥ src m ∧ off < m.count.toUInt64 then some (dst m + off.toUInt32)
    else translate src dst id rest

-- `none` stands for the return value -1
def nsUidToLocal (ns : UserNamespace) (kuid : UInt32) : Option UInt32 :=
  if ns.initial then some kuid else translate outside inside kuid ns.uidMap.ranges

def nsLocalToKuid (ns : UserNamespace) (uid : UInt32) : Option UInt32 :=
  if ns.initial then some uid else translate inside outside uid ns.uidMap.ranges

section Translate

variable {src dst : IdRange → UInt32} {id o : UInt32} {l : List IdRange} {m : IdRange}

def Holds (src : IdRange → UInt32) (m : IdRange) (id : UInt32) : Prop :=
  (src m).toNat ≤ id.toNat ∧ id.toNat < (src m).toNat + m.count.toNat

-- the test of the loop, in which `off` is a 64-bit difference
theorem holds_iff : (id ≥ src m ∧ id.toUInt64 - (src m).toUInt64 < m.count.toUInt64) ↔
    Holds src m id := by
  have hsub : id ≥ src m → (id.toUInt64 - (src m).toUInt64).toNat = id.toNat - (src m).toNat := by
    intro h
    exact UInt64.toNat_sub_of_le _ _ (by simpa using h)
  constructor
  · rintro ⟨h, hlt⟩
    have hlt' := UInt64.lt_iff_toNat_lt.mp hlt
    rw [hsub h, UInt32.toNat_toUInt64] at hlt'
    have hle := UInt32.le_iff_toNat_le.mp h
    exact ⟨hle, by omega⟩
  · rintro ⟨hle, hlt⟩
    have h : id ≥ src m := UInt32.le_iff_toNat_le.mpr hle
    refine ⟨h, UInt64.lt_iff_toNat_lt.mpr ?_⟩
    rw [hsub h, UInt32.toNat_toUInt64]
    omega

theorem toNat_translated (h : Holds src m id)
    (hb : (dst m).toNat + m.count.toNat ≤ 0x100000000) :
    (dst m + (id.toUInt64 - (src m).toUInt64).toUInt32).toNat =
      (dst m).toNat + (id.toNat - (src m).toNat) := by
  have hle : id ≥ src m := UInt32.le_iff_toNat_le.mpr h.1
  have hoff : (id.toUInt64 - (src m).toUInt64).toUInt32.toNat = id.toNat - (src m).toNat := by
    rw [UInt64.toNat_toUInt32, UInt64.toNat_sub_of_le _ _ (by simpa using hle),
      UInt32.toNat_toUInt64, UInt32.toNat_toUInt64]
    exact Nat.mod_eq_of_lt ((Nat.sub_le ..).trans_lt id.toNat_lt)
  rw [UInt32.toNat_add, hoff]
  exact Nat.mod_eq_of_lt (by have := h.2; have := h.1; omega)

theorem translate_eq_some (h : translate src dst id l = some o)
    (hb : ∀ m ∈ l, (dst m).toNat + m.count.toNat ≤ 0x100000000) :
    ∃ m ∈ l, Holds src m id ∧ o.toNat = (dst m).toNat + (id.toNat - (src m).toNat) := by
  induction l with
  | nil => cases h
  | cons m rest ih =>
    rw [translate] at h
    split at h
    next hm =>
      have hh := holds_iff.mp hm
      refine ⟨m, mem_cons_self .., hh, ?_⟩
      rw [← Option.some.inj h]
      exact toNat_translated hh (hb m (mem_cons_self ..))
    next =>
      obtain ⟨m', hm', hh⟩ := ih h fun m hm => hb m (mem_cons_of_mem _ hm)
      exact ⟨m', mem_cons_of_mem _ hm', hh⟩

theorem translate_of_mem (hp : l.Pairwise fun m r => ∀ id, Holds src m id → ¬ Holds src r id)
    (hm : m ∈ l) (hh : Holds src m id)
    (hb : (dst m).toNat + m.count.toNat ≤ 0x100000000) :
    ∃ o, translate src dst id l = some o ∧
      o.toNat = (dst m).toNat + (id.toNat - (src m).toNat) := by
  induction l with
  | nil => cases hm
  | cons r rest ih =>
    obtain ⟨hr, hp⟩ := pairwise_cons.mp hp
    rcases mem_cons.mp hm with rfl | hm
    · rw [translate, if_pos (holds_iff.mpr hh)]
      exact ⟨_, rfl, toNat_translated hh hb⟩
    · have hn : ¬ Holds src r id := fun h => hr m hm id h hh
      rw [translate, if_neg (mt holds_iff.mp hn)]
      exact ih hp hm

end Translate

theorem IdMap.outside_apart (t : IdMap) : t.ranges.Pairwise fun m r =>
    ∀ id, Holds outside m id → ¬ Holds outside r id := by
  refine t.apart.imp fun {m r} hap id hm hr => hap.2 ⟨?_, ?_⟩
  · exact hr.1.trans_lt hm.2
  · exact hm.1.trans_lt hr.2

theorem nsUidToLocal_of_nsLocalToKuid {ns : UserNamespace} {uid kuid : UInt32}
    (h : nsLocalToKuid ns uid = some kuid) : nsUidToLocal ns kuid = some uid := by
  unfold nsLocalToKuid at h
  unfold nsUidToLocal
  split at h
  next hi =>
    rw [if_pos hi]
    exact h.symm
  next hi =>
    rw [if_neg hi]
    obtain ⟨m, hm, hh, ho⟩ := translate_eq_some h fun m hm => (ns.uidMap.bounded m hm).2.2
    have hout : Holds outside m kuid := ⟨by omega, by have := hh.2; have := hh.1; omega⟩
    obtain ⟨o, heq, hto⟩ := translate_of_mem ns.uidMap.outside_apart hm hout
      (ns.uidMap.bounded m hm).2.1
    rw [heq]
    have hid : o.toNat = uid.toNat := by have := hh.1; omega
    rw [UInt32.toNat_inj.mp hid]

end Kyronix.Proc
