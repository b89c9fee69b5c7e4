import Kyronix.Proc.UserNs

/-! Id maps both ways: group ids beside user ids, the text that `/proc/<pid>/uid_map` shows, and
that writing this text gives the same map again. -/
namespace Kyronix.Proc

open List IdRange IdMap

-- `%u`
def decimal (n : ℕ) : List UInt8 :=
  if n < 10 then [UInt8.ofNat (48 + n)] else decimal (n / 10) ++ [UInt8.ofNat (48 + n % 10)]

def printRange (m : IdRange) : List UInt8 :=
  decimal m.inside.toNat ++ 32 :: (decimal m.outside.toNat ++ 32 :: (decimal m.count.toNat ++ [10]))

-- the loop of `ns_user_map_read`; a line that does not fit ends it
def printRanges : (room : ℕ) → List IdRange → List UInt8
  | _, [] => []
  | room, m :: rest =>
    let line := printRange m
    if line.length ≥ room then [] else line ++ printRanges (room - line.length) rest

variable (ns : UserNamespace)

def UserNamespace.mapOf (gid : Bool) : IdMap :=
  if gid then ns.gidMap else ns.uidMap

-- "0 0 4294967295\n"
def initialMapText : List UInt8 := [48, 32, 48, 32, 52, 50, 57, 52, 57, 54, 55, 50, 57, 53, 10]

def nsUserMapRead (gid : Bool) (len : ℕ) : List UInt8 :=
  if ns.initial then initialMapText.take len else printRanges len (ns.mapOf gid).ranges

/-- `allowed` is whether the caller writes its own map or has privileges on the host. -/
def nsUserMapWriteTo (gid allowed readable : Bool) (buf : List UInt8) : ℤ × UserNamespace :=
  if ns.initial then (-eperm, ns)
  else if !allowed then (-eperm, ns)
  else userMapWrite ns gid readable buf

def nsGidToLocal (kgid : UInt32) : Option UInt32 :=
  if ns.initial then some kgid else translate outside inside kgid ns.gidMap.ranges

def nsLocalToKgid (gid : UInt32) : Option UInt32 :=
  if ns.initial then some gid else translate inside outside gid ns.gidMap.ranges

theorem IdMap.inside_apart (t : IdMap) : t.ranges.Pairwise fun m r =>
    ∀ id, Holds inside m id → ¬ Holds inside r id := by
  refine t.apart.imp fun {m r} hap id hm hr => hap.1 ⟨?_, ?_⟩
  · exact hr.1.trans_lt hm.2
  · exact hm.1.trans_lt hr.2

section Translate

variable {src dst : IdRange → UInt32} {l : List IdRange} {x y : UInt32}

theorem translate_back (hp : l.Pairwise fun m r => ∀ id, Holds dst m id → ¬ Holds dst r id)
    (hs : ∀ m ∈ l, (src m).toNat + m.count.toNat ≤ 0x100000000)
    (hd : ∀ m ∈ l, (dst m).toNat + m.count.toNat ≤ 0x100000000)
    (h : translate src dst x l = some y) : translate dst src y l = some x := by
  obtain ⟨m, hm, hx, hy⟩ := translate_eq_some h hd
  have hholds : Holds dst m y := by
    obtain ⟨hle, hlt⟩ := hx
    exact ⟨by omega, by omega⟩
  obtain ⟨o, heq, ho⟩ := translate_of_mem hp hm hholds (hs m hm)
  have hox : o.toNat = x.toNat := by
    have hle := hx.1
    omega
  rw [heq, UInt32.toNat_inj.mp hox]

theorem IdMap.translate_inverse (t : IdMap) (x k : UInt32) :
    translate inside outside x t.ranges = some k ↔
      translate outside inside k t.ranges = some x :=
  ⟨translate_back t.outside_apart (fun m hm => (t.bounded m hm).2.1)
      fun m hm => (t.bounded m hm).2.2,
    translate_back t.inside_apart (fun m hm => (t.bounded m hm).2.2)
      fun m hm => (t.bounded m hm).2.1⟩

end Translate

/-- The translations are inverse to each other, and add an offset within a range without
wrapping around. -/
structure Bijective (ns : UserNamespace) : Prop where
  uids : ∀ x k, nsLocalToKuid ns x = some k ↔ nsUidToLocal ns k = some x
  gids : ∀ x k, nsLocalToKgid ns x = some k ↔ nsGidToLocal ns k = some x
  uidSum : ns.initial = false → ∀ x k, nsLocalToKuid ns x = some k →
    ∃ m ∈ ns.uidMap.ranges, ∃ off < m.count.toNat,
      x.toNat = m.inside.toNat + off ∧ k.toNat = m.outside.toNat + off
  gidSum : ns.initial = false → ∀ x k, nsLocalToKgid ns x = some k →
    ∃ m ∈ ns.gidMap.ranges, ∃ off < m.count.toNat,
      x.toNat = m.inside.toNat + off ∧ k.toNat = m.outside.toNat + off

theorem IdMap.translate_sum (t : IdMap) {x k : UInt32}
    (h : translate inside outside x t.ranges = some k) :
    ∃ m ∈ t.ranges, ∃ off < m.count.toNat,
      x.toNat = m.inside.toNat + off ∧ k.toNat = m.outside.toNat + off := by
  obtain ⟨m, hm, ⟨hle, hlt⟩, hk⟩ := translate_eq_some h fun m hm => (t.bounded m hm).2.2
  exact ⟨m, hm, x.toNat - m.inside.toNat, by omega, by omega, hk⟩

theorem bijective (ns : UserNamespace) : Bijective ns := by
  refine ⟨?_, ?_, ?_, ?_⟩
  · intro x k
    unfold nsLocalToKuid nsUidToLocal
    split
    · simp [eq_comm]
    · exact ns.uidMap.translate_inverse x k
  · intro x k
    unfold nsLocalToKgid nsGidToLocal
    split
    · simp [eq_comm]
    · exact ns.gidMap.translate_inverse x k
  · intro hi x k h
    rw [nsLocalToKuid, if_neg (by simp [hi])] at h
    exact ns.uidMap.translate_sum h
  · intro hi x k h
    rw [nsLocalToKgid, if_neg (by simp [hi])] at h
    exact ns.gidMap.translate_sum h

section Parse

variable {n : ℕ} {rest : List UInt8} {c : UInt8}

theorem isDigit_ofNat (h : n < 10) :
    isDigit (UInt8.ofNat (48 + n)) = true ∧ (UInt8.ofNat (48 + n)).toNat - 48 = n := by
  interval_cases n <;> decide

theorem head_decimal (n : ℕ) : ∃ c s, decimal n = c :: s ∧ isDigit c = true := by
  induction n using Nat.strong_induction_on with
  | _ n ih =>
    unfold decimal
    split
    · next h => exact ⟨_, [], rfl, (isDigit_ofNat h).1⟩
    · next h =>
      obtain ⟨c, s, heq, hc⟩ := ih (n / 10) (by omega)
      exact ⟨c, s ++ [UInt8.ofNat (48 + n % 10)], by rw [heq]; rfl, hc⟩

theorem parseDigits_decimal (hn : n ≤ 0xffffffff) :
    parseDigits 0 (decimal n ++ rest) = parseDigits n rest := by
  induction n using Nat.strong_induction_on generalizing rest with
  | _ n ih =>
    unfold decimal
    split
    · next h =>
      obtain ⟨hdig, hval⟩ := isDigit_ofNat h
      rw [singleton_append, parseDigits, if_pos hdig, hval]
      rw [Nat.zero_mul, Nat.zero_add, if_neg (by omega)]
    · next h =>
      obtain ⟨hdig, hval⟩ := isDigit_ofNat (Nat.mod_lt n (by decide : 10 > 0))
      rw [append_assoc, ih (n / 10) (by omega) (by omega), singleton_append, parseDigits,
        if_pos hdig, hval]
      rw [Nat.div_add_mod' n 10, if_neg (by omega)]

theorem not_blank_of_isDigit (h : isDigit c = true) : isBlank c = false ∧ isSpace c = false := by
  have hspace : isSpace c = false := by
    cases hs : isSpace c with
    | false => rfl
    | true =>
      have hc : ((c = 10 ∨ c = 13) ∨ c = 32) ∨ c = 9 := by simpa [isSpace] using hs
      rcases hc with ((rfl | rfl) | rfl) | rfl <;> exact absurd h (by decide)
  refine ⟨?_, hspace⟩
  rw [isSpace, Bool.or_assoc] at hspace
  exact (Bool.or_eq_false_iff.mp hspace).2

theorem parseU32Span_decimal (v : UInt32) (hc : isDigit c = false) :
    parseU32Span (decimal v.toNat ++ c :: rest) = some (v, (c :: rest).dropWhile isBlank) := by
  obtain ⟨d, s, heq, hd⟩ := head_decimal v.toNat
  have hv : v.toNat ≤ 0xffffffff := Nat.le_of_lt_succ v.toNat_lt
  have hdrop : (decimal v.toNat ++ c :: rest).dropWhile isBlank = decimal v.toNat ++ c :: rest := by
    rw [heq, cons_append, dropWhile_cons_of_neg (by simp [(not_blank_of_isDigit hd).1])]
  have hparse : parseDigits 0 (decimal v.toNat ++ c :: rest) = some (v.toNat, c :: rest) := by
    rw [parseDigits_decimal hv, parseDigits, if_neg (by simp [hc])]
  unfold parseU32Span
  rw [hdrop]
  rw [heq, cons_append] at hparse ⊢
  dsimp only
  rw [if_pos hd, hparse]
  simp

theorem dropWhile_decimal (p : UInt8 → Bool) (hp : ∀ c, isDigit c = true → p c = false) (n : ℕ)
    (rest : List UInt8) : (decimal n ++ rest).dropWhile p = decimal n ++ rest := by
  obtain ⟨d, s, heq, hd⟩ := head_decimal n
  rw [heq, cons_append, dropWhile_cons_of_neg (by simp [hp d hd])]

theorem parseRange_printRange (m : IdRange) (rest : List UInt8) :
    parseRange (printRange m ++ rest) = some (m, 10 :: rest) := by
  have hblank : ∀ n tail, (32 :: (decimal n ++ tail)).dropWhile isBlank = decimal n ++ tail := by
    intro n tail
    rw [dropWhile_cons_of_pos (by decide)]
    exact dropWhile_decimal isBlank (fun c hc => (not_blank_of_isDigit hc).1) n tail
  unfold printRange parseRange
  simp only [append_assoc, cons_append, nil_append]
  rw [parseU32Span_decimal m.inside (by decide), hblank]
  dsimp only [Option.bind_eq_bind, Option.bind_some]
  rw [parseU32Span_decimal m.outside (by decide), hblank]
  dsimp only [Option.bind_some]
  rw [parseU32Span_decimal m.count (by decide), dropWhile_cons_of_neg (by decide)]
  rfl

end Parse

theorem IdMap.ext {t u : IdMap} (h : t.ranges = u.ranges) : t = u := by
  cases t
  cases u
  cases h
  rfl

theorem IdMap.add_next (t : IdMap) {done rest : List IdRange} {m : IdRange}
    (h : t.ranges = done ++ m :: rest) (acc : IdMap) (hacc : acc.ranges = done) :
    ∃ acc', acc.add m = some acc' ∧ acc'.ranges = done ++ [m] := by
  have hok : m.Bounded ∧ ∀ r ∈ acc.ranges, m.Apart r := by
    refine ⟨t.bounded m (by rw [h]; simp), fun r hr => ?_⟩
    have hap := t.apart
    rw [h] at hap
    exact (pairwise_append.mp hap).2.2 r (hacc ▸ hr) m mem_cons_self
  refine ⟨_, dif_pos hok, ?_⟩
  show acc.ranges ++ [m] = done ++ [m]
  rw [hacc]

def printAll (l : List IdRange) : List UInt8 := (l.map printRange).flatten

theorem parseMap_printAll (t : IdMap) (done rest : List IdRange) (h : t.ranges = done ++ rest)
    (room : ℕ) (hroom : rest.length ≤ room) (acc : IdMap) (hacc : acc.ranges = done)
    (s : List UInt8) (hs : s = printAll rest ∨ s = 10 :: printAll rest) :
    parseMap room acc s = some t := by
  induction rest generalizing done room acc s with
  | nil =>
    have hnil : s.dropWhile isSpace = [] := by rcases hs with rfl | rfl <;> rfl
    rw [parseMap, hnil]
    rw [append_nil] at h
    exact congrArg some (ext (hacc.trans h.symm))
  | cons m rest ih =>
    obtain ⟨d, line, hline, hd⟩ := head_decimal m.inside.toNat
    have htext : printAll (m :: rest) = printRange m ++ printAll rest := rfl
    have hstart : s.dropWhile isSpace = printRange m ++ printAll rest := by
      have hdrop : (printRange m ++ printAll rest).dropWhile isSpace =
          printRange m ++ printAll rest := by
        unfold printRange
        rw [append_assoc]
        exact dropWhile_decimal isSpace (fun c hc => (not_blank_of_isDigit hc).2) _ _
      rcases hs with rfl | rfl
      · exact hdrop
      · rw [dropWhile_cons_of_pos (by decide)]
        exact hdrop
    obtain ⟨room, rfl⟩ : ∃ k, room = k + 1 := ⟨room - 1, by rw [length_cons] at hroom; omega⟩
    obtain ⟨acc', hadd, hacc'⟩ := t.add_next h acc hacc
    have hrange := parseRange_printRange m (printAll rest)
    have hcons : printRange m ++ printAll rest = d :: (line ++ 32 :: (decimal m.outside.toNat ++
        32 :: (decimal m.count.toNat ++ [10])) ++ printAll rest) := by
      rw [printRange, hline]
      rfl
    rw [parseMap, hstart]
    rw [hcons] at hrange ⊢
    dsimp only
    rw [hrange]
    dsimp only
    rw [hadd]
    rw [dropWhile_cons_of_neg (by decide)]
    dsimp only
    rw [if_neg (by decide)]
    exact ih (done ++ [m]) (by rw [h]; simp) room (Nat.le_of_succ_le_succ hroom) acc' hacc' _
      (.inr rfl)

theorem IdMap.length_add {t u : IdMap} {m : IdRange} (h : t.add m = some u) :
    u.ranges.length = t.ranges.length + 1 := by
  unfold add at h
  split at h
  · rw [← Option.some.inj h]
    simp
  · cases h

theorem parseMap_length {room : ℕ} {acc t : IdMap} {s : List UInt8}
    (h : parseMap room acc s = some t) : t.ranges.length ≤ acc.ranges.length + room := by
  induction room generalizing acc s with
  | zero =>
    rw [parseMap] at h
    split at h
    · rw [Option.some.inj h]
      exact Nat.le_refl _
    · cases h
  | succ room ih =>
    rw [parseMap] at h
    split at h
    · rw [Option.some.inj h]
      omega
    · dsimp only at h
      split at h
      · cases h
      · split at h
        · cases h
        next u hu =>
          have hlen := length_add hu
          split at h
          · rw [← Option.some.inj h]
            omega
          · split at h
            · cases h
            · have hrest := ih h
              omega

theorem length_decimal (n k : ℕ) (hn : n < 10 ^ (k + 1)) : (decimal n).length ≤ k + 1 := by
  induction k generalizing n with
  | zero =>
    unfold decimal
    rw [if_pos (by omega)]
    rfl
  | succ k ih =>
    unfold decimal
    split
    · simp
    · have hdiv : n / 10 < 10 ^ (k + 1) := by
        rw [pow_succ] at hn
        omega
      have hle := ih (n / 10) hdiv
      rw [length_append, length_singleton]
      omega

theorem length_printRange (m : IdRange) :
    0 < (printRange m).length ∧ (printRange m).length ≤ 33 := by
  have hlen : ∀ v : UInt32, (decimal v.toNat).length ≤ 10 := by
    intro v
    exact length_decimal v.toNat 9 (v.toNat_lt.trans (by decide))
  have h1 := hlen m.inside
  have h2 := hlen m.outside
  have h3 := hlen m.count
  unfold printRange
  simp only [length_append, length_cons, length_nil]
  omega

theorem printRanges_eq (room : ℕ) (l : List IdRange) (h : 33 * l.length < room) :
    printRanges room l = printAll l := by
  induction l generalizing room with
  | nil => rfl
  | cons m rest ih =>
    have hm := (length_printRange m).2
    rw [length_cons] at h
    unfold printRanges
    rw [if_neg (by omega), ih (room - (printRange m).length) (by omega)]
    rfl

theorem length_printAll (l : List IdRange) : (printAll l).length ≤ 33 * l.length := by
  induction l with
  | nil => exact Nat.le_refl 0
  | cons m rest ih =>
    have hm := (length_printRange m).2
    show (printRange m ++ printAll rest).length ≤ _
    rw [length_append, length_cons]
    omega

theorem userMapWrite_cases (ns : UserNamespace) (gid readable : Bool) (buf : List UInt8) :
    (userMapWrite ns gid readable buf).1 ≠ 0 ∧ (userMapWrite ns gid readable buf).2 = ns ∨
      ∃ t, (userMapWrite ns gid readable buf).1 = 0 ∧ 0 < t.ranges.length ∧
        t.ranges.length ≤ nsUidGidMapMax ∧ (userMapWrite ns gid readable buf).2.mapOf gid = t ∧
        (userMapWrite ns gid readable buf).2.initial = ns.initial := by
  have hinval : -einval ≠ 0 := by decide
  have hfault : -efault ≠ 0 := by decide
  have hperm : -eperm ≠ 0 := by decide
  unfold userMapWrite
  split
  · exact .inl ⟨hinval, rfl⟩
  split
  · exact .inl ⟨hfault, rfl⟩
  split
  · exact .inl ⟨hperm, rfl⟩
  split
  · exact .inl ⟨hperm, rfl⟩
  split
  · exact .inl ⟨hinval, rfl⟩
  next t ht =>
    have hlen := parseMap_length ht
    rw [show empty.ranges.length = 0 from rfl, Nat.zero_add] at hlen
    split
    · exact .inl ⟨hinval, rfl⟩
    next hne =>
      refine .inr ⟨t, ?_⟩
      cases gid with
      | true | false => exact ⟨rfl, Nat.pos_of_ne_zero hne, hlen, rfl, rfl⟩

structure Fresh (ns : UserNamespace) (gid : Bool) : Prop where
  inner : ns.initial = false
  uids : ns.mapWritten = false
  gids : ns.gidMapWritten = false
  groups : gid = true → ns.groupsDisabled = true

theorem userMapWrite_printAll {fresh : UserNamespace} {gid : Bool} (hf : Fresh fresh gid)
    (t : IdMap) (hpos : 0 < t.ranges.length) (hmax : t.ranges.length ≤ nsUidGidMapMax) :
    (userMapWrite fresh gid true (printAll t.ranges)).1 = 0 ∧
      (userMapWrite fresh gid true (printAll t.ranges)).2.mapOf gid = t := by
  have hlen := length_printAll t.ranges
  have hfirst : (printAll t.ranges).length ≠ 0 := by
    obtain ⟨m, rest, hm⟩ := exists_cons_of_length_pos hpos
    have hline := (length_printRange m).1
    rw [hm]
    show (printRange m ++ printAll rest).length ≠ 0
    rw [length_append]
    omega
  have hparse := parseMap_printAll t [] t.ranges rfl nsUidGidMapMax hmax empty rfl
    (printAll t.ranges) (.inl rfl)
  have hshort : (printAll t.ranges).length < 512 := by
    simp only [nsUidGidMapMax] at hmax
    omega
  unfold userMapWrite
  rw [if_neg (by omega), if_neg (by decide), if_neg (by simp [hf.uids, hf.gids]),
    if_neg (by cases gid <;> simp [hf.groups]), hparse]
  dsimp only
  rw [if_neg (by omega)]
  cases gid <;> exact ⟨rfl, rfl⟩

/-- A rejected text changes nothing. An accepted one gives inverse translations, and what is then
read gives the same map in a namespace without one. -/
theorem id_maps_round_trip (ns : UserNamespace) (gid allowed readable : Bool) (buf : List UInt8) :
    let r := nsUserMapWriteTo ns gid allowed readable buf
    (r.1 ≠ 0 → r.2 = ns) ∧
    (r.1 = 0 → Bijective r.2 ∧ ∀ fresh, Fresh fresh gid →
      (nsUserMapWriteTo fresh gid true true (nsUserMapRead r.2 gid 256)).1 = 0 ∧
      (nsUserMapWriteTo fresh gid true true (nsUserMapRead r.2 gid 256)).2.mapOf gid =
        r.2.mapOf gid) := by
  intro r
  have hperm : -eperm ≠ 0 := by decide
  by_cases hno : ns.initial = true ∨ allowed = false
  · have hr : r = (-eperm, ns) := by
      show nsUserMapWriteTo ns gid allowed readable buf = _
      unfold nsUserMapWriteTo
      rcases hno with hi | ha
      · rw [if_pos hi]
      · rw [ha]
        split <;> rfl
    rw [hr]
    exact ⟨fun _ => rfl, fun h0 => absurd h0 hperm⟩
  · rw [not_or] at hno
    have hr : r = userMapWrite ns gid readable buf := by
      show nsUserMapWriteTo ns gid allowed readable buf = _
      unfold nsUserMapWriteTo
      rw [if_neg hno.1, if_neg (by simpa using hno.2)]
    rw [hr]
    rcases userMapWrite_cases ns gid readable buf with
      ⟨hne, hsame⟩ | ⟨t, h0, hpos, hmax, hmap, hinit⟩
    · exact ⟨fun _ => hsame, fun h0 => absurd h0 hne⟩
    · refine ⟨fun hne => absurd h0 hne, fun _ => ⟨bijective _, fun fresh hf => ?_⟩⟩
      have hread : nsUserMapRead (userMapWrite ns gid readable buf).2 gid 256 =
          printAll t.ranges := by
        unfold nsUserMapRead
        rw [hinit, if_neg hno.1, hmap]
        apply printRanges_eq
        simp only [nsUidGidMapMax] at hmax
        omega
      have hwrite : ∀ text, nsUserMapWriteTo fresh gid true true text =
          userMapWrite fresh gid true text := by
        intro text
        unfold nsUserMapWriteTo
        rw [if_neg (by simp [hf.inner]), if_neg (by decide)]
      rw [hwrite, hread, hmap]
      exact userMapWrite_printAll hf t hpos hmax

/-- What is read from the group map "0 0 1" is refused by a namespace that still allows setgroups.
-/
theorem gid_map_needs_setgroups_denied :
    let r := nsUserMapWriteTo { userNsCreate with groupsDisabled := true } true true true
      [48, 32, 48, 32, 49, 10]
    r.1 = 0 ∧ (nsUserMapWriteTo userNsCreate true true true (nsUserMapRead r.2 true 256)).1 =
      -eperm := by
  decide +kernel

end Kyronix.Proc
