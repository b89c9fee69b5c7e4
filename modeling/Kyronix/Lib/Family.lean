import Kyronix.Lib.Run

/-! Processes that make others: what a process has at one moment, all that descend from it later
have too, if own steps keep it and children inherit it. -/
namespace Kyronix.Lib.Lineage

open Lib.Run Function

/-- Processes by number, with the one that made each. Numbers are not used twice. -/
structure Family (P : Type*) where
  proc : ℕ → Option P
  parent : ℕ → Option ℕ
  next : ℕ

variable {P : Type*} {F G H : Family P} {R : P → P → Prop} {x y : P} {i p q r start : ℕ}

def Family.put (F : Family P) (i : ℕ) (o : Option P) : Family P :=
  { F with proc := update F.proc i o }

def Family.spawn (F : Family P) (i : ℕ) (y : P) : Family P where
  proc := update F.proc F.next (some y)
  parent := update F.parent F.next (some i)
  next := F.next + 1

theorem Family.put_self (F : Family P) (i : ℕ) (o : Option P) : (F.put i o).proc i = o :=
  update_self ..

theorem Family.put_ne (F : Family P) (o : Option P) (h : r ≠ i) :
    (F.put i o).proc r = F.proc r := update_of_ne h ..

theorem Family.spawn_self (F : Family P) (i : ℕ) (y : P) : (F.spawn i y).proc F.next = some y :=
  update_self ..

theorem Family.spawn_ne (F : Family P) (y : P) (h : r ≠ F.next) :
    (F.spawn i y).proc r = F.proc r := update_of_ne h ..

structure Family.Wf (F : Family P) : Prop where
  proc : ∀ {i x}, F.proc i = some x → i < F.next
  parent : ∀ {r q}, F.parent r = some q → r < F.next ∧ q < F.next

def Family.one (x : P) : Family P := ⟨fun i => if i = 0 then some x else none, fun _ => none, 1⟩

theorem Family.one_proc (h : (Family.one x).proc i = some y) : i = 0 ∧ y = x := by
  change (if i = 0 then some x else none) = some y at h
  by_cases hi : i = 0
  · rw [if_pos hi] at h
    exact ⟨hi, (Option.some.inj h).symm⟩
  · rw [if_neg hi] at h
    cases h

theorem Family.one_wf (x : P) : (Family.one x).Wf := by
  refine ⟨?_, fun h => by cases h⟩
  intro i y h
  rw [(one_proc h).1]
  exact Nat.one_pos

/-- The process `p` and those made since the numbers stood at `start` that descend from it. -/
inductive Later (start : ℕ) (F : Family P) (p : ℕ) : ℕ → Prop
  | self : Later start F p p
  | child {q r : ℕ} : Later start F p q → F.parent r = some q → start ≤ r → Later start F p r

inductive Step (R : P → P → Prop) : Family P → Family P → Prop
  | stay (F : Family P) : Step R F F
  | go {F : Family P} {i : ℕ} {x y : P} : F.proc i = some x → R x y → Step R F (F.put i (some y))
  | leave (F : Family P) (i : ℕ) : Step R F (F.put i none)
  | fork {F : Family P} {i : ℕ} {x y : P} : F.proc i = some x → R x y → Step R F (F.spawn i y)

theorem Step.wf (h : Step R F G) (hF : F.Wf) : G.Wf := by
  cases h with
  | stay => exact hF
  | @go i x y hx _ =>
    refine ⟨?_, hF.parent⟩
    intro j z hz
    by_cases hj : j = i
    · subst hj
      exact hF.proc hx
    · exact hF.proc ((F.put_ne _ hj).symm.trans hz)
  | leave i =>
    refine ⟨?_, hF.parent⟩
    intro j z hz
    by_cases hj : j = i
    · subst hj
      rw [F.put_self] at hz
      cases hz
    · exact hF.proc ((F.put_ne _ hj).symm.trans hz)
  | @fork i x y hx _ =>
    constructor
    · intro j z hz
      by_cases hj : j = F.next
      · subst hj
        exact Nat.lt_succ_self _
      · exact (hF.proc ((F.spawn_ne _ hj).symm.trans hz)).trans (Nat.lt_succ_self _)
    · intro j q hq
      by_cases hj : j = F.next
      · subst hj
        have hself : (F.spawn i y).parent F.next = some i := update_self ..
        rw [hself] at hq
        cases hq
        exact ⟨Nat.lt_succ_self _, (hF.proc hx).trans (Nat.lt_succ_self _)⟩
      · obtain ⟨hj, hq⟩ := hF.parent ((update_of_ne hj ..).symm.trans hq)
        exact ⟨hj.trans (Nat.lt_succ_self _), hq.trans (Nat.lt_succ_self _)⟩

theorem Step.all {Q : P → Prop} (hs : Step R F G) (hR : ∀ x y, R x y → Q x → Q y)
    (h : ∀ i x, F.proc i = some x → Q x) (j : ℕ) (z : P) (hz : G.proc j = some z) : Q z := by
  cases hs with
  | stay => exact h j z hz
  | @go i x y hx hxy =>
    by_cases hj : j = i
    · subst hj
      rw [F.put_self] at hz
      cases hz
      exact hR x z hxy (h j x hx)
    · exact h j z ((F.put_ne _ hj).symm.trans hz)
  | leave i =>
    by_cases hj : j = i
    · subst hj
      rw [F.put_self] at hz
      cases hz
    · exact h j z ((F.put_ne _ hj).symm.trans hz)
  | @fork i x y hx hxy =>
    by_cases hj : j = F.next
    · subst hj
      rw [F.spawn_self] at hz
      cases hz
      exact hR x z hxy (h i x hx)
    · exact h j z ((F.spawn_ne _ hj).symm.trans hz)

theorem Later.of_spawn (hF : F.Wf) (hi : i < F.next) (hp : p < F.next)
    (h : Later start (F.spawn i y) p q) :
    q < F.next ∧ Later start F p q ∨ q = F.next ∧ Later start F p i := by
  induction h with
  | self => exact .inl ⟨hp, .self⟩
  | @child q r _ hr hle ih =>
    by_cases heq : r = F.next
    · subst heq
      have hself : (F.spawn i y).parent F.next = some i := update_self ..
      rw [hself] at hr
      cases hr
      rcases ih with ⟨-, ih⟩ | ⟨hlast, -⟩
      · exact .inr ⟨rfl, ih⟩
      · exact absurd hi (by rw [hlast]; exact Nat.lt_irrefl _)
    · have hr' : F.parent r = some q := (update_of_ne heq ..).symm.trans hr
      obtain ⟨hrlt, hqlt⟩ := hF.parent hr'
      rcases ih with ⟨-, ih⟩ | ⟨hlast, -⟩
      · exact .inl ⟨hrlt, .child ih hr' hle⟩
      · exact absurd hqlt (by rw [hlast]; exact Nat.lt_irrefl _)

def Passed (R : P → P → Prop) (start p : ℕ) (x : P) (F : Family P) : Prop :=
  ∀ q y, Later start F p q → F.proc q = some y → R x y

structure Since (start p : ℕ) (F : Family P) : Prop extends Family.Wf F where
  old : p < start
  grown : start ≤ F.next

theorem Since.step (h : Since start p F) (hs : Step R F G) : Since start p G where
  toWf := hs.wf h.toWf
  old := h.old
  grown := by
    cases hs with
    | stay => exact h.grown
    | go => exact h.grown
    | leave => exact h.grown
    | fork => exact h.grown.trans (Nat.le_succ _)

theorem later_put {o : Option P} (h : Later start (F.put i o) p q) : Later start F p q := by
  induction h with
  | self => exact .self
  | child _ hr hle ih => exact .child ih hr hle

theorem Passed.step (htrans : ∀ {a b c}, R a b → R b c → R a c) (hS : Since start p F)
    (h : Passed R start p x F) (hs : Step R F G) : Passed R start p x G := by
  intro q z hq hz
  cases hs with
  | stay => exact h q z hq hz
  | @go i y y' hy hR =>
    by_cases hqi : q = i
    · subst hqi
      rw [F.put_self] at hz
      cases hz
      exact htrans (h q y (later_put hq) hy) hR
    · exact h q z (later_put hq) ((F.put_ne _ hqi).symm.trans hz)
  | leave i =>
    by_cases hqi : q = i
    · subst hqi
      rw [F.put_self] at hz
      cases hz
    · exact h q z (later_put hq) ((F.put_ne _ hqi).symm.trans hz)
  | @fork i y y' hy hR =>
    have hp : p < F.next := Nat.lt_of_lt_of_le hS.old hS.grown
    rcases Later.of_spawn hS.toWf (hS.proc hy) hp hq with ⟨hlt, hq⟩ | ⟨rfl, hi⟩
    · exact h q z hq ((F.spawn_ne _ hlt.ne).symm.trans hz)
    · rw [F.spawn_self] at hz
      cases hz
      exact htrans (h i y hi hy) hR

theorem Passed.now (hF : F.Wf) (hx : F.proc p = some x) (hrefl : ∀ z, R z z) :
    Passed R F.next p x F := by
  intro q y hq hy
  cases hq with
  | self =>
    rw [hx] at hy
    cases hy
    exact hrefl x
  | child _ hr hle => exact absurd (hF.parent hr).1 (Nat.not_lt.mpr hle)

theorem passed_run {A : Type*} {step : Family P → A → Family P} {C : Family P → A → Prop}
    (hstep : ∀ F a, C F a → Step R F (step F a)) (hrefl : ∀ z, R z z)
    (htrans : ∀ {a b c}, R a b → R b c → R a c) (hF : F.Wf) (hx : F.proc p = some x)
    {as : List A} (hok : Along step C F as) : Passed R F.next p x (exec step F as) := by
  have hall : Always step (fun G => Since F.next p G ∧ Passed R F.next p x G) F as := by
    refine Along.always hok ?_ ?_
    · exact ⟨⟨hF, hF.proc hx, Nat.le_refl _⟩, .now hF hx hrefl⟩
    · rintro G a ⟨hS, hP⟩ ha
      exact ⟨hS.step (hstep G a ha), hP.step htrans hS (hstep G a ha)⟩
  exact (hall as List.prefix_rfl).2

end Kyronix.Lib.Lineage
