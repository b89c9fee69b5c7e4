import Kyronix.Lib.Ring

/-! Numbers in byte buffers, the lowest byte first, and a buffer of bytes as one of 32-bit words. -/
namespace Kyronix.Lib.Bytes

open Lib.Ring List

def decode : List UInt8 → ℕ
  | [] => 0
  | b :: bs => b.toNat + 256 * decode bs

def encode : ℕ → ℕ → List UInt8
  | 0, _ => []
  | n + 1, x => UInt8.ofNat x :: encode n (x / 256)

@[simp] theorem length_encode (n x : ℕ) : (encode n x).length = n := by
  induction n generalizing x with
  | zero => rfl
  | succ n ih => rw [encode, length_cons, ih]

theorem decode_encode {n x : ℕ} (h : x < 256 ^ n) : decode (encode n x) = x := by
  induction n generalizing x with
  | zero => exact (Nat.lt_one_iff.mp h).symm
  | succ n ih =>
    rw [encode, decode, ih (Nat.div_lt_of_lt_mul (by rwa [pow_succ'] at h)), UInt8.toNat_ofNat']
    exact Nat.mod_add_div x 256

section Fields

variable {α : Type*} {buf buf' : ℕ → α} {pos n q : ℕ} {xs : List α}

theorem slice_congr (h : ∀ i, pos ≤ i → i < pos + n → buf' i = buf i) :
    slice buf' pos n = slice buf pos n := by
  unfold slice
  refine map_congr_left fun i hi => h _ (Nat.le_add_right pos i) ?_
  exact Nat.add_lt_add_left (mem_range.mp hi) pos

theorem slice_blit (buf : ℕ → α) (pos : ℕ) (xs : List α) :
    slice (blit buf pos xs) pos xs.length = xs := by
  apply ext_getElem (length_slice ..)
  intro i _ hi
  simp only [slice, getElem_map, getElem_range]
  exact blit_of_mem buf xs hi

theorem drop_take_slice {o m : ℕ} (h : o + m ≤ n) :
    ((slice buf pos n).drop o).take m = slice buf (pos + o) m := by
  apply ext_getElem
  · rw [length_take, length_drop, length_slice, length_slice]
    omega
  · intro i _ hi
    simp only [slice, getElem_take, getElem_drop, getElem_map, getElem_range,
      Nat.add_assoc]

theorem slice_add (buf : ℕ → α) (pos m n : ℕ) :
    slice buf pos (m + n) = slice buf pos m ++ slice buf (pos + m) n := by
  simp only [slice, range_add, map_append, map_map, Function.comp_def,
    Nat.add_assoc]

theorem blit_append (buf : ℕ → α) (pos : ℕ) (xs ys : List α) :
    blit buf pos (xs ++ ys) = blit (blit buf pos xs) (pos + xs.length) ys := by
  funext i
  by_cases hxs : pos ≤ i ∧ i < pos + xs.length
  · obtain ⟨j, rfl⟩ := Nat.exists_eq_add_of_le hxs.1
    have hj : j < xs.length := by omega
    rw [blit_of_not_mem _ ys (by omega), blit_of_mem _ xs hj,
      blit_of_mem _ (xs ++ ys) (by rw [length_append]; omega), getElem_append_left hj]
  by_cases hys : pos + xs.length ≤ i ∧ i < pos + xs.length + ys.length
  · obtain ⟨j, rfl⟩ := Nat.exists_eq_add_of_le hys.1
    have hj : j < ys.length := by omega
    rw [blit_of_mem _ ys hj, Nat.add_assoc,
      blit_of_mem _ (xs ++ ys) (by rw [length_append]; omega),
      getElem_append_right (by omega)]
    simp only [Nat.add_sub_cancel_left]
  · rw [blit_of_not_mem _ ys (by omega), blit_of_not_mem _ xs (by omega),
      blit_of_not_mem _ (xs ++ ys) (by rw [length_append]; omega)]

theorem blit_patch {o : ℕ} (h : o + xs.length ≤ n) :
    blit buf pos ((slice buf pos n).take o ++ (xs ++ (slice buf pos n).drop (o + xs.length))) =
      blit buf (pos + o) xs := by
  have hlen : ((slice buf pos n).take o ++
      (xs ++ (slice buf pos n).drop (o + xs.length))).length = n := by
    simp only [length_append, length_take, length_drop, length_slice]
    omega
  funext i
  by_cases hout : i < pos ∨ pos + n ≤ i
  · rw [blit_of_not_mem _ _ (hlen.symm ▸ hout), blit_of_not_mem _ _ (by omega)]
  · obtain ⟨j, rfl⟩ := Nat.exists_eq_add_of_le (show pos ≤ i by omega)
    have hj : j < n := by omega
    rw [blit_of_mem _ _ (hlen.symm ▸ hj)]
    rcases Nat.lt_or_ge j o with hjo | hjo
    · rw [getElem_append_left (by simp; omega), blit_of_not_mem _ _ (by omega)]
      simp [slice]
    · obtain ⟨k, rfl⟩ := Nat.exists_eq_add_of_le hjo
      have htake : ((slice buf pos n).take o).length = o := by simp; omega
      rw [getElem_append_right (by omega), ← Nat.add_assoc]
      simp only [htake, Nat.add_sub_cancel_left]
      rcases Nat.lt_or_ge k xs.length with hk | hk
      · rw [getElem_append_left hk, blit_of_mem _ _ hk]
      · rw [getElem_append_right hk, blit_of_not_mem _ _ (by omega)]
        simp only [slice, getElem_drop, getElem_map, getElem_range]
        congr 1
        omega

end Fields

def byteOf (buf : ℕ → ℕ) (i : ℕ) : UInt8 := UInt8.ofNat (buf (i / 4) / 256 ^ (i % 4))

end Kyronix.Lib.Bytes
