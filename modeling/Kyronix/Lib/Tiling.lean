import Mathlib

/-! Blocks laid end to end: a list of start positions that covers an interval without gaps, each
block as wide as a function of its position says. -/
namespace Kyronix.Lib.Tiling

open List

def Tiles (width : ℕ → ℕ) : ℕ → List ℕ → ℕ → Prop
  | a, [], e => a = e
  | a, b :: l, e => b = a ∧ Tiles width (b + width b) l e

variable {width width' : ℕ → ℕ} {a b c e m : ℕ} {l l₁ l₂ : List ℕ}

theorem tiles_append :
    Tiles width a (l₁ ++ l₂) e ↔ ∃ m, Tiles width a l₁ m ∧ Tiles width m l₂ e := by
  induction l₁ generalizing a with
  | nil => simp [Tiles]
  | cons b l₁ ih =>
    simp only [cons_append, Tiles, ih]
    constructor
    · rintro ⟨hb, m, h₁, h₂⟩
      exact ⟨m, ⟨hb, h₁⟩, h₂⟩
    · rintro ⟨m, ⟨hb, h₁⟩, h₂⟩
      exact ⟨hb, m, h₁, h₂⟩

section

variable (h : Tiles width a l e)
include h

theorem Tiles.congr (hw : ∀ b ∈ l, width' b = width b) : Tiles width' a l e := by
  induction l generalizing a with
  | nil => exact h
  | cons b l ih =>
    obtain ⟨hb, hl⟩ := h
    refine ⟨hb, ?_⟩
    rw [hw b (mem_cons_self ..)]
    exact ih hl fun c hc => hw c (mem_cons_of_mem _ hc)

theorem Tiles.le : a ≤ e := by
  induction l generalizing a with
  | nil => exact le_of_eq h
  | cons b l ih =>
    obtain ⟨rfl, hl⟩ := h
    exact (Nat.le_add_right b (width b)).trans (ih hl)

theorem Tiles.bounds (hb : b ∈ l) : a ≤ b ∧ b + width b ≤ e := by
  induction l generalizing a with
  | nil => cases hb
  | cons c l ih =>
    obtain ⟨rfl, hl⟩ := h
    rcases mem_cons.mp hb with rfl | hb
    · exact ⟨le_rfl, hl.le⟩
    · have hin := ih hl hb
      exact ⟨(Nat.le_add_right c (width c)).trans hin.1, hin.2⟩

theorem Tiles.nodup (hw : ∀ b ∈ l, 0 < width b) : l.Nodup := by
  induction l generalizing a with
  | nil => exact nodup_nil
  | cons b l ih =>
    obtain ⟨rfl, hl⟩ := h
    have hb := hw b (mem_cons_self ..)
    refine nodup_cons.mpr ⟨fun hmem => ?_, ih hl fun c hc => hw c (mem_cons_of_mem _ hc)⟩
    have := (hl.bounds hmem).1
    omega

theorem Tiles.disjoint (hb : b ∈ l) (hc : c ∈ l) (hne : b ≠ c) :
    b + width b ≤ c ∨ c + width c ≤ b := by
  induction l generalizing a with
  | nil => cases hb
  | cons d l ih =>
    obtain ⟨rfl, hl⟩ := h
    rcases mem_cons.mp hb with rfl | hbl <;> rcases mem_cons.mp hc with rfl | hcl
    · exact absurd rfl hne
    · exact Or.inl (hl.bounds hcl).1
    · exact Or.inr (hl.bounds hbl).1
    · exact ih hl hbl hcl

theorem Tiles.length_le (hw : ∀ b ∈ l, 0 < width b) : a + l.length ≤ e := by
  induction l generalizing a with
  | nil => exact le_of_eq h
  | cons b l ih =>
    obtain ⟨rfl, hl⟩ := h
    have hb := hw b (mem_cons_self ..)
    have hle := ih hl fun c hc => hw c (mem_cons_of_mem _ hc)
    rw [length_cons]
    omega

theorem Tiles.sum_eq : a + (l.map width).sum = e := by
  induction l generalizing a with
  | nil => exact h
  | cons b l ih =>
    obtain ⟨rfl, hl⟩ := h
    rw [map_cons, sum_cons, ← Nat.add_assoc]
    exact ih hl

theorem Tiles.dvd (ha : c ∣ a) (hw : ∀ b ∈ l, c ∣ width b) (hb : b ∈ l) : c ∣ b := by
  induction l generalizing a with
  | nil => cases hb
  | cons d l ih =>
    obtain ⟨rfl, hl⟩ := h
    rcases mem_cons.mp hb with rfl | hb
    · exact ha
    · exact ih hl (dvd_add ha (hw d (mem_cons_self ..)))
        (fun x hx => hw x (mem_cons_of_mem _ hx)) hb

end

theorem Tiles.split (h : Tiles width a (l₁ ++ b :: l₂) e) {x y : ℕ} (hxy : width b = x + y)
    (hb : width' b = x) (hc : width' (b + x) = y) (hw : ∀ c ∈ l₁ ++ l₂, width' c = width c) :
    Tiles width' a (l₁ ++ b :: (b + x) :: l₂) e := by
  obtain ⟨m, h₁, rfl, h₂⟩ := tiles_append.mp h
  refine tiles_append.mpr ⟨b, h₁.congr fun c hcl => hw c (mem_append_left _ hcl), rfl, ?_, ?_⟩
  · rw [hb]
  · rw [hc, Nat.add_assoc, ← hxy]
    exact h₂.congr fun c hcl => hw c (mem_append_right _ hcl)

theorem Tiles.join (h : Tiles width a (l₁ ++ b :: c :: l₂) e)
    (hb : width' b = width b + width c) (hw : ∀ d ∈ l₁ ++ l₂, width' d = width d) :
    Tiles width' a (l₁ ++ b :: l₂) e := by
  obtain ⟨m, h₁, rfl, rfl, h₂⟩ := tiles_append.mp h
  refine tiles_append.mpr ⟨b, h₁.congr fun d hd => hw d (mem_append_left _ hd), rfl, ?_⟩
  rw [hb, ← Nat.add_assoc]
  exact h₂.congr fun d hd => hw d (mem_append_right _ hd)

end Kyronix.Lib.Tiling
