import Mathlib

/-! Files as arrays of bytes, the way POSIX describes them: a file that grows past its end grows
with zeros. -/
namespace Kyronix.Lib.ByteFile

open List

abbrev Bytes := List UInt8

variable {c d bs : Bytes} {o n i len : ℕ}

def byte (c : Bytes) (i : ℕ) : UInt8 := c.getD i 0

def resize (c : Bytes) (n : ℕ) : Bytes := c.take n ++ List.replicate (n - c.length) 0

/-- Write at offset `o`, extending the file with zeros up to there first. A write of no bytes
does nothing. -/
def write (c : Bytes) (o : ℕ) (bs : Bytes) : Bytes :=
  if bs = [] then c
  else
    let c := if c.length < o then resize c o else c
    c.take o ++ bs ++ c.drop (o + bs.length)

def read (c : Bytes) (o len : ℕ) : Bytes := (c.drop o).take len

theorem byte_of_le (h : c.length ≤ i) : byte c i = 0 := getD_eq_default _ _ h

theorem bytes_ext (hlen : c.length = d.length) (h : ∀ i < c.length, byte c i = byte d i) :
    c = d := by
  apply ext_getElem hlen
  intro i hc hd
  have hi := h i hc
  rwa [byte, byte, getD_eq_getElem _ _ hc, getD_eq_getElem _ _ hd] at hi

theorem length_resize (c : Bytes) (n : ℕ) : (resize c n).length = n := by
  rw [resize, length_append, length_take, length_replicate]
  omega

theorem byte_append :
    byte (c ++ d) i = if i < c.length then byte c i else byte d (i - c.length) := by
  split
  · next h => exact getD_append _ _ _ _ h
  · next h => exact getD_append_right _ _ _ _ (Nat.le_of_not_lt h)

theorem byte_take : byte (c.take n) i = if i < n then byte c i else 0 := by
  unfold byte
  simp only [getD_eq_getElem?_getD, List.getElem?_take]
  split <;> rfl

theorem byte_drop : byte (c.drop n) i = byte c (n + i) := by
  unfold byte
  simp only [getD_eq_getElem?_getD, List.getElem?_drop]

theorem byte_zeros : byte (List.replicate n 0) i = 0 := by
  unfold byte
  rw [getD_eq_getElem?_getD, List.getElem?_replicate]
  split <;> rfl

theorem byte_resize : byte (resize c n) i = if i < n then byte c i else 0 := by
  rw [resize, byte_append, byte_take, byte_zeros, length_take]
  split
  · rfl
  · next h =>
    split
    · next hn => exact (byte_of_le (by omega)).symm
    · rfl

theorem length_write (h : bs ≠ []) : (write c o bs).length = max c.length (o + bs.length) := by
  have hpos : 0 < bs.length := length_pos_of_ne_nil h
  rw [write, if_neg h]
  simp only [length_append, length_take, length_drop]
  split
  · next hlt =>
    rw [length_resize]
    omega
  · omega

theorem byte_write : byte (write c o bs) i =
    if o ≤ i ∧ i < o + bs.length then byte bs (i - o) else byte c i := by
  by_cases h : bs = []
  · subst h
    rw [write, if_pos rfl, if_neg fun hi => Nat.not_lt.mpr hi.1 hi.2]
  · rw [write, if_neg h]
    -- the file after the extension: at least `o` long, with the same bytes
    obtain ⟨c', hlen, hbyte, heq⟩ : ∃ c' : Bytes, o ≤ c'.length ∧ (∀ j, byte c' j = byte c j) ∧
        (if c.length < o then resize c o else c) = c' := by
      by_cases hlt : c.length < o
      · refine ⟨resize c o, (length_resize c o).ge, fun j => ?_, if_pos hlt⟩
        rw [byte_resize]
        split
        · rfl
        · exact (byte_of_le (by omega)).symm
      · exact ⟨c, Nat.le_of_not_lt hlt, fun _ => rfl, if_neg hlt⟩
    dsimp only
    rw [heq, byte_append, byte_append, byte_take, byte_drop, length_append, length_take,
      Nat.min_eq_left hlen]
    by_cases h1 : i < o
    · rw [if_pos (by omega), if_pos h1, if_pos h1, if_neg (by omega), hbyte]
    · by_cases h2 : i < o + bs.length
      · rw [if_pos h2, if_neg h1, if_pos (by omega)]
      · rw [if_neg h2, if_neg (by omega), hbyte]
        congr 1
        omega

theorem length_read : (read c o len).length = min len (c.length - o) := by
  rw [read, length_take, length_drop]

theorem byte_read (h : i < len) : byte (read c o len) i = byte c (o + i) := by
  rw [read, byte_take, if_pos h, byte_drop]

theorem read_eq_map {r : ℕ} {f : ℕ → UInt8} (hr : r = min len (c.length - o))
    (hf : ∀ i < r, f i = byte c (o + i)) : (List.range r).map f = read c o len := by
  have hlen : ((List.range r).map f).length = (read c o len).length := by
    rw [length_map, length_range, length_read, hr]
  apply bytes_ext hlen
  intro i hi
  rw [length_map, length_range] at hi
  rw [byte_read (by omega), ← hf i hi, byte]
  simp [hi]

end Kyronix.Lib.ByteFile
