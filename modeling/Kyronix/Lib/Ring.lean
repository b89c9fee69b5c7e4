import Mathlib

/-! A ring buffer of fixed capacity, read as the list of its cells from a start position. Copies are
made in two parts, up to the end of the store and then from its start. -/
namespace Kyronix.Lib.Ring

open List

variable {α : Type*}

variable (cap : ℕ) (buf : ℕ → α)

def slice (pos n : ℕ) : List α := (List.range n).map fun i => buf (pos + i)

def blit (pos : ℕ) (xs : List α) : ℕ → α := fun i =>
  if h : pos ≤ i ∧ i < pos + xs.length then xs[i - pos] else buf i

def view (pos n : ℕ) : List α :=
  (List.range n).map fun i => buf ((pos + i) % cap)

@[simp] theorem length_slice (pos n : ℕ) : (slice buf pos n).length = n := by
  simp [slice]

@[simp] theorem length_view (pos n : ℕ) :
    (view cap buf pos n).length = n := by simp [view]

@[simp] theorem view_zero (pos : ℕ) : view cap buf pos 0 = [] := rfl

theorem view_add (pos a b : ℕ) :
    view cap buf pos (a + b) = view cap buf pos a ++ view cap buf ((pos + a) % cap) b := by
  simp only [view, range_add, map_append, map_map, Function.comp_def,
    Nat.mod_add_mod, Nat.add_assoc]

variable {a n : ℕ} {cap pos : ℕ} {i : ℕ} {xs : List α}

theorem view_take (cap : ℕ) (buf : ℕ → α) (pos : ℕ) (h : a ≤ n) :
    (view cap buf pos n).take a = view cap buf pos a := by
  obtain ⟨b, rfl⟩ := Nat.exists_eq_add_of_le h
  rw [view_add, take_left' (length_view ..)]

theorem view_drop (cap : ℕ) (buf : ℕ → α) (pos : ℕ) (h : a ≤ n) :
    (view cap buf pos n).drop a = view cap buf ((pos + a) % cap) (n - a) := by
  obtain ⟨b, rfl⟩ := Nat.exists_eq_add_of_le h
  rw [view_add, drop_left' (length_view ..), Nat.add_sub_cancel_left]

theorem take_append_take_drop {α : Type*} {l : List α} {b : ℕ} (h : a ≤ b) :
    l.take a ++ (l.drop a).take (b - a) = l.take b := by
  rw [← take_add, Nat.add_sub_cancel' h]

variable (buf : ℕ → α)

theorem slice_eq_view (h : pos + n ≤ cap) : slice buf pos n = view cap buf pos n := by
  refine map_congr_left fun i hi => ?_
  rw [Nat.mod_eq_of_lt (by have := mem_range.mp hi; omega)]

theorem slice_append_slice (hpos : pos < cap) (hn : n ≤ cap) :
    slice buf pos (min n (cap - pos)) ++ slice buf 0 (n - min n (cap - pos)) =
      view cap buf pos n := by
  have hsplit : n = min n (cap - pos) + (n - min n (cap - pos)) := by omega
  conv_rhs => rw [hsplit, view_add]
  have hfst : pos + min n (cap - pos) ≤ cap := by omega
  have hsnd : 0 + (n - min n (cap - pos)) ≤ cap := by omega
  rw [slice_eq_view buf hfst, slice_eq_view buf hsnd]
  rcases Nat.lt_or_ge n (cap - pos) with h | h
  · rw [min_eq_left h.le, Nat.sub_self, view_zero, view_zero]
  · rw [min_eq_right h, show pos + (cap - pos) = cap by omega, Nat.mod_self]

theorem blit_of_mem (xs : List α) (h : i < xs.length) : blit buf pos xs (pos + i) = xs[i] := by
  have hi : pos ≤ pos + i ∧ pos + i < pos + xs.length := by omega
  rw [blit, dif_pos hi]
  congr 1
  omega

theorem blit_of_not_mem (xs : List α)
    (h : i < pos ∨ pos + xs.length ≤ i) : blit buf pos xs i = buf i := by
  rw [blit, dif_neg (by omega)]

def blitRing (cap : ℕ) (buf : ℕ → α) (pos : ℕ) (xs : List α) : ℕ → α :=
  blit (blit buf pos (xs.take (min xs.length (cap - pos)))) 0
    (xs.drop (min xs.length (cap - pos)))

theorem blitRing_at (hpos : pos < cap) (hlen : xs.length ≤ cap) (hi : i < xs.length) :
    blitRing cap buf pos xs ((pos + i) % cap) = xs[i] := by
  unfold blitRing
  rcases Nat.lt_or_ge (pos + i) cap with h | h
  · rw [Nat.mod_eq_of_lt h, blit_of_not_mem _ _ (by simp; omega),
      blit_of_mem _ _ (by simp; omega), getElem_take]
  · have hmod : (pos + i) % cap = 0 + (pos + i - cap) := by
      rw [Nat.mod_eq_sub_mod h, Nat.mod_eq_of_lt (by omega), zero_add]
    rw [hmod, blit_of_mem _ _ (by simp; omega), getElem_drop]
    congr 1
    omega

theorem blitRing_frame (hpos : pos < cap) (hlen : xs.length ≤ i) (hi : i < cap) :
    blitRing cap buf pos xs ((pos + i) % cap) = buf ((pos + i) % cap) := by
  have hlt : (pos + i) % cap < cap := Nat.mod_lt _ (by omega)
  have hmod : (pos + i) % cap = pos + i ∨ (pos + i) % cap + cap = pos + i := by
    rcases Nat.lt_or_ge (pos + i) cap with h | h
    · exact .inl (Nat.mod_eq_of_lt h)
    · right
      rw [Nat.mod_eq_sub_mod h, Nat.mod_eq_of_lt (by omega)]
      omega
  unfold blitRing
  rw [blit_of_not_mem _ _ (by simp; omega), blit_of_not_mem _ _ (by simp; omega)]

theorem view_blitRing {rpos count : ℕ} (hcap : 0 < cap) (hroom : count + xs.length ≤ cap) :
    view cap (blitRing cap buf ((rpos + count) % cap) xs) rpos (count + xs.length) =
      view cap buf rpos count ++ xs := by
  have hpos : (rpos + count) % cap < cap := Nat.mod_lt _ hcap
  rw [view_add]
  congr 1
  · -- the old cells lie `cap - count + i` cells after the write position
    refine map_congr_left fun i hi => ?_
    have hi' := mem_range.mp hi
    have hshift : (rpos + i) % cap = ((rpos + count) % cap + (cap - count + i)) % cap := by
      rw [Nat.mod_add_mod, show rpos + count + (cap - count + i) = rpos + i + cap by omega,
        Nat.add_mod_right]
    rw [hshift]
    exact blitRing_frame buf hpos (by omega) (by omega)
  · refine ext_getElem (by simp) fun i h₁ h₂ => ?_
    simp only [view, getElem_map, getElem_range]
    exact blitRing_at buf hpos (by omega) h₂

end Kyronix.Lib.Ring
