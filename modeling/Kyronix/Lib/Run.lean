import Mathlib

/-! Runs of a deterministic system: a step function folded over the actions of a run, what holds
in every state it passes through, and what every step of it meets. -/
namespace Kyronix.Lib.Run

open List

variable {σ α : Type*} {step : σ → α → σ} {s : σ} {as bs : List α}

abbrev exec (step : σ → α → σ) (s : σ) (as : List α) : σ := as.foldl step s

def Always (step : σ → α → σ) (P : σ → Prop) (s : σ) (as : List α) : Prop :=
  ∀ pre, pre <+: as → P (exec step s pre)

/-- Every step of the run is taken in a state where `C` allows it. -/
def Along (step : σ → α → σ) (C : σ → α → Prop) (s : σ) (as : List α) : Prop :=
  ∀ pre a, pre ++ [a] <+: as → C (exec step s pre) a

theorem exec_append (as bs : List α) :
    exec step s (as ++ bs) = exec step (exec step s as) bs := foldl_append

theorem exec_concat (as : List α) (a : α) : exec step s (as ++ [a]) = step (exec step s as) a := by
  rw [exec, foldl_append, foldl_cons, foldl_nil]

variable {P : σ → Prop} {C : σ → α → Prop} {a : α}

theorem always_nil : Always step P s [] ↔ P s := by
  constructor
  · intro h
    exact h [] prefix_rfl
  · intro h pre hp
    rw [prefix_nil.mp hp]
    exact h

theorem always_concat :
    Always step P s (as ++ [a]) ↔ Always step P s as ∧ P (exec step s (as ++ [a])) := by
  constructor
  · intro h
    exact ⟨fun pre hp => h pre (hp.trans (prefix_append as [a])), h _ prefix_rfl⟩
  · rintro ⟨h, ha⟩ pre hp
    rcases prefix_concat_iff.mp hp with rfl | hp
    · exact ha
    · exact h pre hp

theorem along_nil : Along step C s [] := by
  intro pre a hp
  exact absurd (prefix_nil.mp hp) (by simp)

theorem along_concat : Along step C s (as ++ [a]) ↔ Along step C s as ∧ C (exec step s as) a := by
  constructor
  · intro h
    exact ⟨fun pre b hp => h pre b (hp.trans (prefix_append as [a])), h as a prefix_rfl⟩
  · rintro ⟨h, ha⟩ pre b hp
    rcases prefix_concat_iff.mp hp with heq | hp
    · obtain ⟨rfl, hb⟩ := append_inj' heq rfl
      rw [singleton_inj.mp hb]
      exact ha
    · exact h pre b hp

theorem along_cons : Along step C s (a :: as) ↔ C s a ∧ Along step C (step s a) as := by
  constructor
  · intro h
    refine ⟨h [] a ⟨as, rfl⟩, fun pre b hp => h (a :: pre) b ?_⟩
    exact prefix_cons_inj a |>.mpr hp
  · rintro ⟨ha, h⟩ pre b hp
    cases pre with
    | nil =>
      obtain ⟨rfl, -⟩ := cons_prefix_cons.mp hp
      exact ha
    | cons c pre =>
      obtain ⟨rfl, htail⟩ := cons_prefix_cons.mp hp
      exact h pre b htail

/-- The invariant rule: what the start has and every allowed step keeps holds throughout. -/
theorem Along.always (h : Along step C s as) (h₀ : P s)
    (hstep : ∀ s a, P s → C s a → P (step s a)) : Always step P s as := by
  induction as using List.reverseRecOn with
  | nil => exact always_nil.mpr h₀
  | append_singleton as a ih =>
    obtain ⟨has, ha⟩ := along_concat.mp h
    have hall := ih has
    refine always_concat.mpr ⟨hall, ?_⟩
    rw [exec_concat]
    exact hstep _ a (hall as prefix_rfl) ha

/-- Where each step keeps `P` just when `C` allows it, `P` holds throughout just when every step
is allowed; `I` is what else the steps rely on. -/
theorem always_iff_along {I : σ → Prop} (hi : I s) (hp : P s)
    (hinv : ∀ s a, I s → P s → C s a → I (step s a))
    (hstep : ∀ s a, I s → P s → (P (step s a) ↔ C s a)) :
    Always step P s as ↔ Along step C s as := by
  have key : (Always step P s as ↔ Along step C s as) ∧
      (Along step C s as → I (exec step s as) ∧ P (exec step s as)) := by
    induction as using List.reverseRecOn with
    | nil => exact ⟨iff_of_true (always_nil.mpr hp) along_nil, fun _ => ⟨hi, hp⟩⟩
    | append_singleton as a ih =>
      obtain ⟨hiff, hkeep⟩ := ih
      rw [always_concat, along_concat, exec_concat, hiff]
      constructor
      · refine and_congr_right fun hrun => ?_
        exact hstep _ a (hkeep hrun).1 (hkeep hrun).2
      · rintro ⟨hrun, ha⟩
        obtain ⟨his, hps⟩ := hkeep hrun
        exact ⟨hinv _ a his hps ha, (hstep _ a his hps).mpr ha⟩
  exact key.1

end Kyronix.Lib.Run
