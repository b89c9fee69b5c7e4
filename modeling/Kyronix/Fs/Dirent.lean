import Kyronix.Lib.Bytes
import Kyronix.Lib.Tiling

/-! The records of a block of an ext2 directory: where the loops over a block stop, and what
entering a name and taking one out does to its bytes. -/
namespace Kyronix.Fs.Ext2

open Lib.Ring Lib.Bytes Lib.Tiling List

def direntLen (n : ℕ) : ℕ := (n + 8 + 3) / 4 * 4

variable (bs : ℕ) (b : ℕ → UInt8)

def inodeAt (p : ℕ) : ℕ := decode (slice b p 4)
def recLen (p : ℕ) : ℕ := decode (slice b (p + 4) 2)
def nameLen (p : ℕ) : ℕ := (b (p + 6)).toNat
def nameAt (p : ℕ) : List UInt8 := slice b (p + 8) (nameLen b p)

def setInode (p x : ℕ) : ℕ → UInt8 := blit b p (encode 4 x)
def setRecLen (p x : ℕ) : ℕ → UInt8 := blit b (p + 4) (encode 2 x)

/-- All fields but the length of the record. -/
def fill (p ino : ℕ) (name : List UInt8) (ftype : UInt8) : ℕ → UInt8 :=
  let b := setInode b p ino
  let b := blit b (p + 6) [UInt8.ofNat name.length]
  let b := blit b (p + 7) [ftype]
  blit b (p + 8) (name.take (name.length % 256))

def stops (bs : ℕ) (b : ℕ → UInt8) (pos : ℕ) : List ℕ :=
  if pos + 8 ≤ bs ∧ 8 ≤ recLen b pos then pos :: stops bs b (pos + recLen b pos) else []
termination_by bs - pos
decreasing_by omega

def Matches (b : ℕ → UInt8) (name : List UInt8) (p : ℕ) : Prop :=
  inodeAt b p ≠ 0 ∧ nameLen b p = name.length % 256 ∧
    slice b (p + 8) (name.length % 256) = name.take (name.length % 256)

instance (b : ℕ → UInt8) (name : List UInt8) (p : ℕ) : Decidable (Matches b name p) :=
  inferInstanceAs (Decidable (_ ∧ _ ∧ _))

def findIn (name : List UInt8) : Option ℕ :=
  ((stops bs b 0).find? fun p => Matches b name p).map (inodeAt b)

def actual (p : ℕ) : ℕ := if inodeAt b p ≠ 0 then direntLen (nameLen b p) else 0
def slack (p : ℕ) : ℕ := (recLen b p + 2 ^ 32 - actual b p) % 2 ^ 32

/-- A name is entered behind the name of a record with room, or in its place. -/
def place (p ino : ℕ) (name : List UInt8) (ftype : UInt8) : ℕ → UInt8 :=
  if actual b p ≠ 0 then
    fill (setRecLen (setRecLen b p (actual b p)) (p + actual b p) (slack b p)) (p + actual b p)
      ino name ftype
  else fill b p ino name ftype

structure Tiled (bs : ℕ) (b : ℕ → UInt8) (l : List ℕ) : Prop where
  tiles : Tiles (recLen b) 0 l bs
  long : ∀ p ∈ l, direntLen (nameLen b p) ≤ recLen b p

def WellFormed : Prop := Tiled bs b (stops bs b 0)

def entryAt (p : ℕ) : Option (List UInt8 × ℕ) :=
  if inodeAt b p = 0 then none else some (nameAt b p, inodeAt b p)

def newEntry (name : List UInt8) (ino : ℕ) : Option (List UInt8 × ℕ) :=
  if ino = 0 then none else some (name, ino)

def entriesOf : List (List UInt8 × ℕ) :=
  (stops bs b 0).filterMap (entryAt b)

variable {bs ino n p q x y : ℕ} {b c : ℕ → UInt8} {name : List UInt8} {ftype : UInt8}
  {l l₁ l₂ : List ℕ} {prev : Option ℕ}

theorem le_direntLen (n : ℕ) : n + 8 ≤ direntLen n := by
  unfold direntLen
  omega

theorem direntLen_le (hn : n ≤ 255) : direntLen n ≤ 264 := by
  unfold direntLen
  omega

structure SameEntry (b c : ℕ → UInt8) (p : ℕ) : Prop where
  entry : entryAt c p = entryAt b p
  nameLen : nameLen c p = nameLen b p

theorem sameEntry_of (hino : ∀ i, p ≤ i → i < p + 4 → c i = b i)
    (hname : ∀ i, p + 6 ≤ i → i < p + 8 + nameLen b p → c i = b i) : SameEntry b c p := by
  have hlen : nameLen c p = nameLen b p := by
    unfold nameLen
    rw [hname (p + 6) le_rfl (by omega)]
  have hinode : inodeAt c p = inodeAt b p := congrArg decode (slice_congr hino)
  refine ⟨?_, hlen⟩
  have hnameAt : slice c (p + 8) (nameLen b p) = slice b (p + 8) (nameLen b p) :=
    slice_congr fun i hle hlt => hname i (by omega) hlt
  unfold entryAt nameAt
  rw [hinode, hlen, hnameAt]

theorem recLen_of (h : ∀ i, p + 4 ≤ i → i < p + 6 → c i = b i) : recLen c p = recLen b p :=
  congrArg decode (slice_congr h)

theorem recLen_setRecLen (hx : x < 2 ^ 16) : recLen (setRecLen b p x) p = x := by
  unfold recLen setRecLen
  have hslice := slice_blit b (p + 4) (encode 2 x)
  rw [length_encode] at hslice
  rw [hslice, decode_encode hx]

theorem setRecLen_apart {i : ℕ} (h : i < p + 4 ∨ p + 6 ≤ i) : setRecLen b p x i = b i := by
  refine blit_of_not_mem b _ ?_
  rw [length_encode]
  omega

theorem setInode_apart {i : ℕ} (h : i < p ∨ p + 4 ≤ i) : setInode b p x i = b i := by
  refine blit_of_not_mem b _ ?_
  rw [length_encode]
  omega

theorem inodeAt_setInode (hx : x < 2 ^ 32) : inodeAt (setInode b p x) p = x := by
  unfold inodeAt setInode
  have hslice := slice_blit b p (encode 4 x)
  rw [length_encode] at hslice
  rw [hslice, decode_encode hx]

section Fill

variable (hname : name.length ≤ 255)
include hname

theorem fill_eq : fill b p ino name ftype =
    blit (blit (blit (setInode b p ino) (p + 6) [UInt8.ofNat name.length]) (p + 7) [ftype])
      (p + 8) name := by
  unfold fill
  rw [Nat.mod_eq_of_lt (by omega), take_length]

theorem fill_apart {i : ℕ} (h : i < p ∨ p + 8 + name.length ≤ i ∨ p + 4 ≤ i ∧ i < p + 6) :
    fill b p ino name ftype i = b i := by
  rw [fill_eq hname, blit_of_not_mem _ _ (by omega),
    blit_of_not_mem _ _ (by rw [length_singleton]; omega),
    blit_of_not_mem _ _ (by rw [length_singleton]; omega), setInode_apart (by omega)]

theorem recLen_fill : recLen (fill b p ino name ftype) p = recLen b p :=
  recLen_of fun _ hle hlt => fill_apart hname (.inr (.inr ⟨hle, hlt⟩))

theorem nameLen_fill : nameLen (fill b p ino name ftype) p = name.length := by
  unfold nameLen
  have hbyte : fill b p ino name ftype (p + 6) = UInt8.ofNat name.length := by
    rw [fill_eq hname, blit_of_not_mem _ _ (by omega), blit_of_not_mem _ _ (by omega)]
    exact blit_of_mem _ [UInt8.ofNat name.length] (i := 0) (by simp)
  rw [hbyte, UInt8.toNat_ofNat', Nat.mod_eq_of_lt (by omega)]

theorem entryAt_fill (hino : ino < 2 ^ 32) :
    entryAt (fill b p ino name ftype) p = newEntry name ino := by
  have hnameAt : nameAt (fill b p ino name ftype) p = name := by
    unfold nameAt
    rw [nameLen_fill hname, fill_eq hname]
    exact slice_blit _ _ name
  have hinode : inodeAt (fill b p ino name ftype) p = ino := by
    have hsame : inodeAt (fill b p ino name ftype) p = inodeAt (setInode b p ino) p := by
      refine congrArg decode (slice_congr fun i hle hlt => ?_)
      rw [fill_eq hname, blit_of_not_mem, blit_of_not_mem, blit_of_not_mem]
      all_goals omega
    rw [hsame, inodeAt_setInode hino]
  unfold entryAt newEntry
  rw [hinode, hnameAt]

end Fill

theorem mem_middle (hq : q ∈ l₁ ++ l₂) : q ∈ l₁ ++ p :: l₂ :=
  mem_append.mpr ((mem_append.mp hq).imp_right (mem_cons_of_mem p))

theorem Tiled.apart (h : Tiled bs b (l₁ ++ p :: l₂)) (hq : q ∈ l₁ ++ l₂)
    (hc : ∀ i, i < p ∨ p + recLen b p ≤ i → c i = b i) :
    SameEntry b c q ∧ recLen c q = recLen b q := by
  have hmem : q ∈ l₁ ++ p :: l₂ := mem_middle hq
  have hnodup := h.tiles.nodup fun r hr =>
    Nat.lt_of_lt_of_le (by omega) ((le_direntLen (nameLen b r)).trans (h.long r hr))
  have hne : q ≠ p := fun heq => (nodup_middle.mp hnodup).notMem (heq ▸ hq)
  have hroom := (le_direntLen _).trans (h.long q hmem)
  have happart := h.tiles.disjoint hmem (by simp) hne
  have hsame : ∀ i, q ≤ i → i < q + recLen b q → c i = b i := fun i hle hlt => hc i (by omega)
  refine ⟨sameEntry_of (fun i hle hlt => ?_) fun i hle hlt => ?_, recLen_of fun i hle hlt => ?_⟩
  · exact hsame i hle (by omega)
  · exact hsame i (by omega) (by omega)
  · exact hsame i (by omega) (by omega)

theorem filterMap_entryAt (h : ∀ q ∈ l, SameEntry b c q) :
    l.filterMap (entryAt c) = l.filterMap (entryAt b) :=
  filterMap_congr fun q hq => (h q hq).entry

theorem filterMap_cons_toList {α β : Type*} (f : α → Option β) (a : α) (l : List α) :
    (a :: l).filterMap f = (f a).toList ++ l.filterMap f := by
  cases h : f a with
  | none => rw [filterMap_cons_none h]; rfl
  | some b => rw [filterMap_cons_some h]; rfl

theorem Tiled.fill (h : Tiled bs b (l₁ ++ p :: l₂)) (ftype : UInt8) (hfree : inodeAt b p = 0)
    (hname : name.length ≤ 255) (hino : ino < 2 ^ 32)
    (hroom : direntLen name.length ≤ recLen b p) :
    Tiled bs (fill b p ino name ftype) (l₁ ++ p :: l₂) ∧
      (l₁ ++ p :: l₂).filterMap (entryAt b) =
        l₁.filterMap (entryAt b) ++ l₂.filterMap (entryAt b) ∧
      (l₁ ++ p :: l₂).filterMap (entryAt (Ext2.fill b p ino name ftype)) =
        l₁.filterMap (entryAt b) ++ ((newEntry name ino).toList ++ l₂.filterMap (entryAt b)) := by
  have hlen := (le_direntLen name.length).trans hroom
  have hother : ∀ q ∈ l₁ ++ l₂, SameEntry b (Ext2.fill b p ino name ftype) q ∧
      recLen (Ext2.fill b p ino name ftype) q = recLen b q :=
    fun q hq => h.apart hq fun i hi => fill_apart hname (by omega)
  have hrec : ∀ q ∈ l₁ ++ p :: l₂, recLen (Ext2.fill b p ino name ftype) q = recLen b q := by
    intro q hq
    by_cases heq : q = p
    · rw [heq, recLen_fill hname]
    · exact (hother q (by simpa [heq] using hq)).2
  refine ⟨⟨h.tiles.congr hrec, fun q hq => ?_⟩, ?_, ?_⟩
  · rw [hrec q hq]
    by_cases heq : q = p
    · rw [heq, nameLen_fill hname]
      exact hroom
    · rw [(hother q (by simpa [heq] using hq)).1.nameLen]
      exact h.long q hq
  · have hnone : entryAt b p = none := if_pos hfree
    rw [filterMap_append, filterMap_cons_none hnone]
  · rw [filterMap_append, filterMap_cons_toList, entryAt_fill hname hino,
      filterMap_entryAt fun q hq => (hother q (mem_append_left l₂ hq)).1,
      filterMap_entryAt fun q hq => (hother q (mem_append_right l₁ hq)).1]

theorem Tiled.cut (h : Tiled bs b (l₁ ++ p :: l₂)) (ftype : UInt8)
    (hx : x = direntLen (nameLen b p)) (hxy : recLen b p = x + y) (hy : y < 2 ^ 16)
    (hname : name.length ≤ 255) (hino : ino < 2 ^ 32) (hroom : direntLen name.length ≤ y)
    (hc : c = Ext2.fill (setRecLen (setRecLen b p x) (p + x) y) (p + x) ino name ftype) :
    Tiled bs c (l₁ ++ p :: (p + x) :: l₂) ∧
      (l₁ ++ p :: (p + x) :: l₂).filterMap (entryAt c) =
        (l₁.filterMap (entryAt b) ++ (entryAt b p).toList) ++
          ((newEntry name ino).toList ++ l₂.filterMap (entryAt b)) := by
  have hlen := (le_direntLen name.length).trans hroom
  have hown := le_direntLen (nameLen b p)
  have hown' := direntLen_le (n := nameLen b p) (Nat.le_of_lt_succ (b (p + 6)).toNat_lt)
  have hbytes : ∀ i, (i < p + 4 ∨ p + 6 ≤ i) → (i < p + x ∨ p + x + y ≤ i) → c i = b i := by
    intro i h₁ h₂
    rw [hc, fill_apart hname (by omega), setRecLen_apart (by omega), setRecLen_apart (by omega)]
  have hother : ∀ q ∈ l₁ ++ l₂, SameEntry b c q ∧ recLen c q = recLen b q :=
    fun q hq => h.apart hq fun i hi => hbytes i (by omega) (by omega)
  have hfirst : recLen c p = x := by
    have hsame : recLen c p = recLen (setRecLen b p x) p := by
      refine recLen_of fun i hle hlt => ?_
      rw [hc, fill_apart hname (by omega), setRecLen_apart (by omega)]
    rw [hsame, recLen_setRecLen (by omega)]
  have hsecond : recLen c (p + x) = y := by
    rw [hc, recLen_fill hname, recLen_setRecLen hy]
  have hentry : SameEntry b c p :=
    sameEntry_of (fun i hle hlt => hbytes i (by omega) (by omega))
      fun i hle hlt => hbytes i (by omega) (by omega)
  have hnew : nameLen c (p + x) = name.length ∧ entryAt c (p + x) = newEntry name ino := by
    rw [hc]
    exact ⟨nameLen_fill hname, entryAt_fill hname hino⟩
  refine ⟨⟨h.tiles.split hxy hfirst hsecond fun q hq => (hother q hq).2, fun q hq => ?_⟩, ?_⟩
  · by_cases heq : q = p
    · rw [heq, hfirst, hentry.nameLen, hx]
    by_cases heq' : q = p + x
    · rw [heq', hsecond, hnew.1]
      exact hroom
    · obtain ⟨hsame, hrec⟩ := hother q (by simpa [heq, heq'] using hq)
      rw [hrec, hsame.nameLen]
      exact h.long q (by simpa [heq, heq'] using hq)
  · rw [filterMap_append, filterMap_cons_toList, filterMap_cons_toList, hnew.2, hentry.entry,
      filterMap_entryAt fun q hq => (hother q (mem_append_left l₂ hq)).1,
      filterMap_entryAt fun q hq => (hother q (mem_append_right l₁ hq)).1,
      append_assoc]

theorem matches_iff (hname : name.length ≤ 255) :
    Matches b name p ↔ entryAt b p = some (name, inodeAt b p) := by
  unfold Matches entryAt nameAt
  rw [Nat.mod_eq_of_lt (by omega), take_length]
  constructor
  · rintro ⟨hino, hlen, hslice⟩
    rw [if_neg hino, hlen, hslice]
  · intro h
    split at h
    · cases h
    · next hino =>
      have heq : slice b (p + 8) (nameLen b p) = name := congrArg Prod.fst (Option.some.inj h)
      have hlen : nameLen b p = name.length := by rw [← heq, length_slice]
      exact ⟨hino, hlen, hlen ▸ heq⟩

theorem entryAt_some {e : List UInt8 × ℕ} (h : entryAt b p = some e) : e.2 = inodeAt b p := by
  unfold entryAt at h
  split at h
  · cases h
  · rw [← Option.some.inj h]

theorem lookup_entries (hname : name.length ≤ 255) (l : List ℕ) :
    (l.filterMap (entryAt b)).lookup name =
      (l.find? fun p => Matches b name p).map (inodeAt b) := by
  induction l with
  | nil => rfl
  | cons p l ih =>
    by_cases hm : Matches b name p
    · rw [List.find?_cons_of_pos (by simpa using hm),
        filterMap_cons_some ((matches_iff hname).mp hm), lookup_cons_self]
      rfl
    · rw [List.find?_cons_of_neg (by simpa using hm), ← ih]
      cases he : entryAt b p with
      | none => rw [filterMap_cons_none he]
      | some e =>
        have hne : name ≠ e.1 := by
          rintro rfl
          exact hm ((matches_iff hname).mpr (he.trans (congrArg some
            (Prod.ext rfl (entryAt_some he)))))
        rw [filterMap_cons_some he, lookup_cons, beq_false_of_ne hne]

theorem findIn_eq (hname : name.length ≤ 255) : findIn bs b name = (entriesOf bs b).lookup name :=
  (lookup_entries hname _).symm

theorem Tiled.clear (h : Tiled bs b (p :: l)) : Tiled bs (setInode b p 0) (p :: l) ∧
    (p :: l).filterMap (entryAt (setInode b p 0)) = l.filterMap (entryAt b) := by
  have hroom := (le_direntLen _).trans (h.long p mem_cons_self)
  have hother : ∀ q ∈ l, SameEntry b (setInode b p 0) q ∧
      recLen (setInode b p 0) q = recLen b q := fun q hq =>
    (show Tiled bs b ([] ++ p :: l) from h).apart hq fun i hi => setInode_apart (by omega)
  have hrec : recLen (setInode b p 0) p = recLen b p :=
    recLen_of fun i hle hlt => setInode_apart (by omega)
  have hlen : nameLen (setInode b p 0) p = nameLen b p :=
    congrArg UInt8.toNat (setInode_apart (by omega))
  have hnone : entryAt (setInode b p 0) p = none := if_pos (inodeAt_setInode (by decide))
  refine ⟨⟨h.tiles.congr fun q hq => ?_, fun q hq => ?_⟩, ?_⟩
  · rcases mem_cons.mp hq with rfl | hq
    · exact hrec
    · exact (hother q hq).2
  · rcases mem_cons.mp hq with rfl | hql
    · rw [hrec, hlen]
      exact h.long q hq
    · rw [(hother q hql).2, (hother q hql).1.nameLen]
      exact h.long q hq
  · rw [filterMap_cons_none hnone]
    exact filterMap_entryAt fun q hq => (hother q hq).1

theorem Tiled.merge (h : Tiled bs b (l₁ ++ q :: p :: l₂)) (hbs : bs < 2 ^ 16)
    (hc : c = setRecLen b q (recLen b q + recLen b p)) :
    Tiled bs c (l₁ ++ q :: l₂) ∧
      (l₁ ++ q :: l₂).filterMap (entryAt c) = (l₁ ++ q :: l₂).filterMap (entryAt b) := by
  have hq : q ∈ l₁ ++ q :: p :: l₂ := by simp
  have hroom := (le_direntLen _).trans (h.long q hq)
  obtain ⟨m, -, rfl, rfl, hrest⟩ := tiles_append.mp h.tiles
  have hend := hrest.le
  have hbytes : ∀ i, i < q + 4 ∨ q + 6 ≤ i → c i = b i := by
    intro i hi
    rw [hc, setRecLen_apart hi]
  have hother : ∀ r ∈ l₁ ++ l₂, SameEntry b c r ∧ recLen c r = recLen b r :=
    fun r hr => h.apart (mem_middle hr) fun i hi => hbytes i (by omega)
  have hfirst : recLen c q = recLen b q + recLen b (q + recLen b q) := by
    rw [hc, recLen_setRecLen (by omega)]
  have hentry : SameEntry b c q :=
    sameEntry_of (fun i hle hlt => hbytes i (by omega)) fun i hle hlt => hbytes i (by omega)
  have hall : ∀ r ∈ l₁ ++ q :: l₂, SameEntry b c r ∧ recLen b r ≤ recLen c r := by
    intro r hr
    by_cases heq : r = q
    · rw [heq, hfirst]
      exact ⟨hentry, Nat.le_add_right _ _⟩
    · obtain ⟨hsame, hrec⟩ := hother r (by simpa [heq] using hr)
      exact ⟨hsame, hrec.ge⟩
  refine ⟨⟨h.tiles.join hfirst fun r hr => (hother r hr).2, fun r hr => ?_⟩, ?_⟩
  · obtain ⟨hsame, hle⟩ := hall r hr
    rw [hsame.nameLen]
    refine (h.long r ?_).trans hle
    simp only [mem_append, mem_cons] at hr ⊢
    tauto
  · exact filterMap_entryAt fun r hr => (hall r hr).1

end Kyronix.Fs.Ext2
