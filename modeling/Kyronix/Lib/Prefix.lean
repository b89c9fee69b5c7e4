import Mathlib

/-! Longest-prefix match: of the prefixes of a list that a table has a value for, the longest one,
with the rest of the list. -/
namespace Kyronix.Lib.Prefix

open List Option

variable {α β : Type*} {f g : List α → Option β} {l p q rest : List α} {x : α} {v : β}

def longest (f : List α → Option β) : List α → Option (List α × β)
  | [] => (f []).map ([], ·)
  | x :: xs => (longest (fun ys => f (x :: ys)) xs).or ((f []).map (x :: xs, ·))

theorem longest_eq_none : longest f l = none ↔ ∀ q, q <+: l → f q = none := by
  induction l generalizing f with
  | nil => simp [longest]
  | cons x xs ih =>
    simp only [longest, or_eq_none_iff, ih, map_eq_none_iff]
    constructor
    · rintro ⟨hlong, hnil⟩ q hq
      cases q with
      | nil => exact hnil
      | cons y ys =>
        obtain ⟨rfl, hys⟩ := cons_prefix_cons.mp hq
        exact hlong ys hys
    · intro hall
      exact ⟨fun ys hys => hall _ (cons_prefix_cons.mpr ⟨rfl, hys⟩), hall [] nil_prefix⟩

theorem longest_eq_some :
    longest f l = some (rest, v) ↔
      ∃ p, l = p ++ rest ∧ f p = some v ∧ ∀ q, q ≠ [] → q <+: rest → f (p ++ q) = none := by
  induction l generalizing f with
  | nil =>
    simp only [longest, map_eq_some_iff, Prod.mk.injEq]
    constructor
    · rintro ⟨w, hw, rfl, rfl⟩
      exact ⟨[], rfl, hw, fun q hq hpre => absurd (prefix_nil.mp hpre) hq⟩
    · rintro ⟨p, hp, hv, -⟩
      obtain ⟨rfl, rfl⟩ := append_eq_nil_iff.mp hp.symm
      exact ⟨v, hv, rfl, rfl⟩
  | cons x xs ih =>
    simp only [longest, or_eq_some_iff, ih, longest_eq_none]
    constructor
    · rintro (⟨p, rfl, hv, hmax⟩ | ⟨hnone, hv⟩)
      · exact ⟨x :: p, rfl, hv, hmax⟩
      · obtain ⟨w, hw, heq⟩ := map_eq_some_iff.mp hv
        cases heq
        refine ⟨[], rfl, hw, fun q hq hpre => ?_⟩
        obtain ⟨y, ys, rfl⟩ := exists_cons_of_ne_nil hq
        obtain ⟨rfl, hys⟩ := cons_prefix_cons.mp hpre
        exact hnone ys hys
    · rintro ⟨p, hp, hv, hmax⟩
      cases p with
      | nil =>
        obtain rfl : x :: xs = rest := hp
        refine .inr ⟨fun ys hys => ?_, map_eq_some_iff.mpr ⟨v, hv, rfl⟩⟩
        exact hmax (x :: ys) (cons_ne_nil x ys) (cons_prefix_cons.mpr ⟨rfl, hys⟩)
      | cons y p =>
        obtain ⟨rfl, rfl⟩ := List.cons.inj hp
        exact .inl ⟨p, rfl, hv, hmax⟩

theorem longest_self : longest f l = some ([], v) ↔ f l = some v := by
  rw [longest_eq_some]
  constructor
  · rintro ⟨p, rfl, hv, -⟩
    rwa [append_nil]
  · intro hv
    exact ⟨l, (append_nil l).symm, hv,
      fun q hq hpre => absurd (prefix_nil.mp hpre) hq⟩

theorem longest_congr (h : ∀ q, q <+: l → f q = g q) : longest f l = longest g l := by
  induction l generalizing f g with
  | nil => rw [longest, longest, h [] nil_prefix]
  | cons x xs ih =>
    have hrest := ih fun q hq => h (x :: q) (cons_prefix_cons.mpr ⟨rfl, hq⟩)
    rw [longest, longest, hrest, h [] nil_prefix]

theorem longest_append (p q : List α) :
    longest f (p ++ q) = (longest (fun z => f (p ++ z)) q).or
      ((longest f p).map fun b => (b.1 ++ q, b.2)) := by
  induction p generalizing f with
  | nil =>
    show longest f q = (longest f q).or _
    cases hq : longest f q with
    | some b => rfl
    | none =>
      have hnil := longest_eq_none.mp hq [] nil_prefix
      simp [longest, hnil]
  | cons x xs ih =>
    rw [cons_append, longest, longest, ih, Option.or_assoc]
    congr 1
    rw [Option.map_or, Option.map_map]
    rfl

theorem longest_shift (hv : f p = some v) (q : List α) :
    longest f (p ++ q) = longest (fun z => f (p ++ z)) q := by
  rw [longest_append]
  cases hq : longest (fun z => f (p ++ z)) q with
  | some b => rfl
  | none =>
    have hnil := longest_eq_none.mp hq [] nil_prefix
    rw [append_nil, hv] at hnil
    cases hnil

theorem longest_concat (hx : f (l ++ [x]) = none) :
    longest f (l ++ [x]) = (longest f l).map fun b => (b.1 ++ [x], b.2) := by
  rw [longest_append]
  cases hl : f l with
  | some v =>
    rw [longest_self.mpr hl]
    simp [longest, hx, hl]
  | none => simp [longest, hx, hl]

theorem longest_root (f : List α → Option β) (q : List α) :
    longest f q = (longest (fun z => if z = [] then none else f z) q).or
      ((f []).map (q, ·)) := by
  cases q with
  | nil => simp [longest]
  | cons x xs => simp [longest]

theorem longest_inj {C : List α → Prop} (hC : ∀ {p q}, C (p ++ q) → C p) :
    (∀ q, C q → longest f q = longest g q) ↔ ∀ q, C q → f q = g q := by
  constructor
  · intro h q hq
    apply Option.ext
    intro v
    have hfg : longest f q = some ([], v) ↔ longest g q = some ([], v) := by rw [h q hq]
    exact longest_self.symm.trans (hfg.trans longest_self)
  · intro h q hq
    apply longest_congr
    rintro p ⟨r, rfl⟩
    exact h p (hC hq)

end Kyronix.Lib.Prefix
