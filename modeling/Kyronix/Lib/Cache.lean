import Mathlib

/-! A write-back cache over a device: the moves a cache is made of, and what makes the pair look
like one plain map. -/
namespace Kyronix.Lib.Cache

open Function

structure Line (K B : Type*) where
  key : K
  data : B
  valid : Bool
  dirty : Bool

structure Cached (S K B : Type*) where
  line : S → Line K B
  dev : K → B

variable {S K B : Type*} {c : Cached S K B} {m : K → B} {home : K → S → Prop} {s : S} {k : K}

def Cached.Holds (c : Cached S K B) (s : S) (k : K) : Prop :=
  (c.line s).valid = true ∧ (c.line s).key = k

/-- The cache and its device together stand for the map `m`, with `home` the lines a block
may be held in. -/
structure Coherent (home : K → S → Prop) (c : Cached S K B) (m : K → B) : Prop where
  one : ∀ {s s' k}, c.Holds s k → c.Holds s' k → s = s'
  hit : ∀ {s k}, c.Holds s k → (c.line s).data = m k
  idle : ∀ {s}, (c.line s).valid = false → (c.line s).dirty = false
  clean : ∀ {k}, (∀ s, c.Holds s k → (c.line s).dirty = false) → c.dev k = m k
  home : ∀ {s k}, c.Holds s k → home k s

theorem Coherent.dev_of_miss (h : Coherent home c m) (hk : ∀ s, ¬ c.Holds s k) :
    c.dev k = m k := h.clean fun s hs => absurd hs (hk s)

theorem Coherent.dev_of_clean (h : Coherent home c m) (hd : ∀ s, (c.line s).dirty = false) :
    c.dev = m := funext fun _ => h.clean fun s _ => hd s

theorem coherent_of_empty (hv : ∀ s, (c.line s).valid = false)
    (hd : ∀ s, (c.line s).dirty = false) : Coherent home c c.dev where
  one h _ := absurd h.1 (by simp [hv])
  hit h := absurd h.1 (by simp [hv])
  idle _ := hd _
  clean _ := rfl
  home h := absurd h.1 (by simp [hv])

variable [DecidableEq S]

theorem Coherent.replace (h : Coherent home c m) {c' : Cached S K B} {l : Line K B}
    {m' : K → B} (hl : c'.line = update c.line s l)
    (halone : l.valid = true → ∀ s', s' ≠ s → ¬ c.Holds s' l.key)
    (hhit : l.valid = true → l.data = m' l.key)
    (hidle : l.valid = false → l.dirty = false)
    (hhome : l.valid = true → home l.key s)
    (hsame : ∀ s' k, s' ≠ s → c.Holds s' k → m' k = m k)
    (hclean : ∀ k, (l.valid = true → l.key = k → l.dirty = false) →
      (∀ s', s' ≠ s → c.Holds s' k → (c.line s').dirty = false) → c'.dev k = m' k) :
    Coherent home c' m' := by
  have hself : c'.line s = l := by rw [hl, update_self]
  have hne : ∀ s', s' ≠ s → c'.line s' = c.line s' := by
    intro s' hs
    rw [hl, update_of_ne hs]
  have hold : ∀ {s' k}, c'.Holds s' k →
      (s' = s ∧ l.valid = true ∧ l.key = k) ∨ (s' ≠ s ∧ c.Holds s' k) := by
    intro s' k hs'
    by_cases heq : s' = s
    · rw [Cached.Holds, heq, hself] at hs'
      exact .inl ⟨heq, hs'⟩
    · rw [Cached.Holds, hne s' heq] at hs'
      exact .inr ⟨heq, hs'⟩
  constructor
  case one =>
    intro s₁ s₂ k h₁ h₂
    rcases hold h₁ with ⟨e₁, hv, hk⟩ | ⟨n₁, h₁⟩ <;> rcases hold h₂ with ⟨e₂, hv', hk'⟩ | ⟨n₂, h₂⟩
    · rw [e₁, e₂]
    · exact absurd (hk ▸ h₂) (halone hv s₂ n₂)
    · exact absurd (hk' ▸ h₁) (halone hv' s₁ n₁)
    · exact h.one h₁ h₂
  case hit =>
    intro s' k hs'
    rcases hold hs' with ⟨rfl, hv, rfl⟩ | ⟨heq, hs'⟩
    · exact (congrArg Line.data hself).trans (hhit hv)
    · rw [hne s' heq, hsame s' k heq hs']
      exact h.hit hs'
  case idle =>
    intro s' hv
    by_cases heq : s' = s
    · rw [heq, hself] at hv ⊢
      exact hidle hv
    · rw [hne s' heq] at hv ⊢
      exact h.idle hv
  case clean =>
    intro k hk
    apply hclean k
    · intro hv he
      exact (congrArg Line.dirty hself).symm.trans (hk s ⟨by rw [hself, hv], by rw [hself, he]⟩)
    · intro s' heq hs'
      rw [← hne s' heq]
      apply hk s'
      rw [Cached.Holds, hne s' heq]
      exact hs'
  case home =>
    intro s' k hs'
    rcases hold hs' with ⟨rfl, hv, rfl⟩ | ⟨_, hs'⟩
    · exact hhome hv
    · exact h.home hs'

def Cached.invalidate (c : Cached S K B) (s : S) : Cached S K B :=
  { c with line := update c.line s { c.line s with valid := false, dirty := false } }

def Cached.load (c : Cached S K B) (s : S) (k : K) : Cached S K B :=
  { c with line := update c.line s ⟨k, c.dev k, true, (c.line s).dirty⟩ }

def Cached.store (c : Cached S K B) (s : S) (k : K) (b : B) : Cached S K B :=
  { c with line := update c.line s ⟨k, b, true, true⟩ }

theorem Coherent.load (h : Coherent home c m) (hmiss : ∀ s, ¬ c.Holds s k)
    (hd : (c.line s).dirty = false) (hh : home k s) : Coherent home (c.load s k) m := by
  apply h.replace rfl
  case halone => exact fun _ s' _ => hmiss s'
  case hhit => exact fun _ => h.dev_of_miss hmiss
  case hidle => exact fun hv => absurd hv (by simp)
  case hhome => exact fun _ => hh
  case hsame => exact fun _ _ _ _ => rfl
  case hclean =>
    intro k' _ hk
    apply h.clean
    intro s' hs'
    by_cases heq : s' = s
    · rw [heq]
      exact hd
    · exact hk s' heq hs'

variable [DecidableEq K]

def Cached.writeBack (c : Cached S K B) (s : S) : Cached S K B :=
  { line := update c.line s { c.line s with dirty := false }
    dev := update c.dev (c.line s).key (c.line s).data }

def Cached.put (c : Cached S K B) (k : K) (b : B) : Cached S K B :=
  { c with dev := update c.dev k b }

def Cached.flushLine (c : Cached S K B) (s : S) : Cached S K B :=
  if (c.line s).valid && (c.line s).dirty then c.writeBack s else c

theorem Coherent.store (h : Coherent home c m) (b : B)
    (hs : c.Holds s k ∨ (∀ s', ¬ c.Holds s' k) ∧ (c.line s).dirty = false) (hh : home k s) :
    Coherent home (c.store s k b) (update m k b) := by
  -- no other line holds the block that is stored
  have halone : ∀ s', s' ≠ s → ¬ c.Holds s' k := by
    intro s' heq hs'
    rcases hs with hs | ⟨hmiss, _⟩
    · exact heq (h.one hs' hs)
    · exact hmiss s' hs'
  apply h.replace rfl
  case halone => exact fun _ => halone
  case hhit => exact fun _ => (update_self k b m).symm
  case hidle => exact fun hv => absurd hv (by simp)
  case hhome => exact fun _ => hh
  case hsame =>
    intro s' k' heq hs'
    have hkk : k' ≠ k := fun e => halone s' heq (e ▸ hs')
    exact update_of_ne hkk b m
  case hclean =>
    intro k' hself hk
    have hkk : k' ≠ k := fun e => absurd (hself rfl e.symm) (by simp)
    rw [update_of_ne hkk]
    apply h.clean
    intro s' hs'
    by_cases heq : s' = s
    · rcases hs with hs | ⟨_, hd⟩
      · exact absurd ((heq ▸ hs'.2).symm.trans hs.2) hkk
      · rw [heq]
        exact hd
    · exact hk s' heq hs'

theorem Coherent.put_invalidate (h : Coherent home c m) (b : B) (hs : c.Holds s k) :
    Coherent home ((c.put k b).invalidate s) (update m k b) := by
  apply h.replace rfl
  case halone => exact fun hv => absurd hv (by simp)
  case hhit => exact fun hv => absurd hv (by simp)
  case hidle => exact fun _ => rfl
  case hhome => exact fun hv => absurd hv (by simp)
  case hsame =>
    intro s' k' heq hs'
    have hkk : k' ≠ k := fun e => heq (h.one (e ▸ hs') hs)
    exact update_of_ne hkk b m
  case hclean =>
    intro k' _ hk
    show update c.dev k b k' = _
    by_cases heq : k' = k
    · rw [heq, update_self, update_self]
    · rw [update_of_ne heq, update_of_ne heq]
      apply h.clean
      intro s' hs'
      exact hk s' (fun e => heq (hs'.2.symm.trans (e ▸ hs.2))) hs'

theorem Coherent.writeBack (h : Coherent home c m) (hs : c.Holds s k) :
    Coherent home (c.writeBack s) m := by
  have hdata : (c.line s).data = m (c.line s).key := (h.hit hs).trans (congrArg m hs.2.symm)
  apply h.replace rfl
  case halone => exact fun _ s' heq hs' => heq (h.one hs' ⟨hs.1, rfl⟩)
  case hhit => exact fun _ => hdata
  case hidle => exact fun _ => rfl
  case hhome => exact fun _ => h.home ⟨hs.1, rfl⟩
  case hsame => exact fun _ _ _ _ => rfl
  case hclean =>
    intro k' _ hk
    show update c.dev _ _ k' = _
    by_cases heq : k' = (c.line s).key
    · rw [heq, update_self, hdata]
    · rw [update_of_ne heq]
      apply h.clean
      intro s' hs'
      exact hk s' (fun e => heq (by rw [← hs'.2, e])) hs'

theorem holds_writeBack {s' : S} : (c.writeBack s).Holds s' k ↔ c.Holds s' k := by
  by_cases hs : s' = s
  · subst hs
    simp [Cached.Holds, Cached.writeBack]
  · simp [Cached.Holds, Cached.writeBack, hs]

theorem dirty_writeBack_self : ((c.writeBack s).line s).dirty = false := by
  simp [Cached.writeBack]

theorem Coherent.flushLine (h : Coherent home c m) (s : S) : Coherent home (c.flushLine s) m := by
  unfold Cached.flushLine
  split
  · next hs => exact h.writeBack ⟨(Bool.and_eq_true_iff.mp hs).1, rfl⟩
  · exact h

theorem Coherent.dirty_flushLine (h : Coherent home c m) :
    ((c.flushLine s).line s).dirty = false := by
  unfold Cached.flushLine
  split
  · exact dirty_writeBack_self
  · next hs =>
    cases hv : (c.line s).valid with
    | false => exact h.idle hv
    | true => simpa [hv] using hs

theorem dirty_flushLine_of_clean {s' : S} (hs : (c.line s').dirty = false) :
    ((c.flushLine s).line s').dirty = false := by
  unfold Cached.flushLine
  split
  · by_cases heq : s' = s
    · rw [heq]
      exact dirty_writeBack_self
    · simpa [Cached.writeBack, heq] using hs
  · exact hs

theorem Coherent.flush (h : Coherent home c m) (ss : List S) :
    Coherent home (ss.foldl Cached.flushLine c) m ∧
      ∀ s ∈ ss, ((ss.foldl Cached.flushLine c).line s).dirty = false := by
  induction ss using List.reverseRecOn with
  | nil => exact ⟨h, fun s hs => absurd hs List.not_mem_nil⟩
  | append_singleton ss s ih =>
    obtain ⟨hc, hd⟩ := ih
    rw [List.foldl_append, List.foldl_cons, List.foldl_nil]
    refine ⟨hc.flushLine s, fun s' hs' => ?_⟩
    rcases List.mem_append.mp hs' with hs' | hs'
    · exact dirty_flushLine_of_clean (hd s' hs')
    · rw [List.mem_singleton.mp hs']
      exact hc.dirty_flushLine

omit [DecidableEq S] in
theorem Coherent.put (h : Coherent home c m) (b : B) (hmiss : ∀ s, ¬ c.Holds s k) :
    Coherent home (c.put k b) (update m k b) where
  one := h.one
  idle := h.idle
  home := h.home
  hit := by
    intro s k' hs
    have hne : k' ≠ k := fun e => hmiss s (e ▸ hs)
    rw [update_of_ne hne]
    exact h.hit hs
  clean := by
    intro k' hk
    show update c.dev k b k' = _
    by_cases heq : k' = k
    · rw [heq, update_self, update_self]
    · rw [update_of_ne heq, update_of_ne heq]
      exact h.clean hk

end Kyronix.Lib.Cache
