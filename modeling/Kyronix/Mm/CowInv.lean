import Kyronix.Lib.Refs
import Kyronix.Mm.AddrSpace

/-! The invariant behind copy-on-write: every frame is of one kind, shared or private, and a private
frame that is held more than once is writable nowhere. -/
namespace Kyronix.Mm

open Lib Word Lib.Intervals Lib.Refs Function Mem

variable {n : ℕ}

def Mem.entry (s : Mem n) (x : ℕ × UInt64) : Option Pte := (s.pt x.1).pte x.2

def Mem.holds (s : Mem n) : ℕ × UInt64 → Option ℕ := Option.map Pte.frame ∘ s.entry

/-- The kind of a frame is what its mappings say, as far as it has any: true for shared. -/
structure Inv (s : Mem n) (kind : ℕ → Bool) : Prop where
  separate : ∀ p, Separate (segs (s.vmas p))
  dead : ∀ p va, s.alive p = false → s.entry (p, va) = none
  aligned : ∀ x e, s.entry x = some e → x.2.toNat % 4096 = 0
  used : ∀ x f, s.holds x = some f → s.used f = true
  counted : Counted s.holds s.refs
  beyond : ∀ f, pmmRefMaxFrames ≤ f → s.refs f = 0
  kinds : ∀ p va e k, s.entry (p, va) = some e → lookup (s.vmas p) va = some k →
    kind e.frame = k.shared
  cow : ∀ x e, s.entry x = some e → e.flags.write = true → kind e.frame = false →
    s.refs e.frame ≤ 1

section

variable {s s' s'' : Mem n} {kind : ℕ → Bool} {p f : ℕ} {va : UInt64} {e : Pte}

structure SameSpaces (s s' : Mem n) : Prop where
  entry : s'.entry = s.entry
  vmas : s'.vmas = s.vmas
  alive : s'.alive = s.alive
  brkBase : s'.brkBase = s.brkBase

theorem SameSpaces.holds (h : SameSpaces s s') : s'.holds = s.holds := by
  rw [Mem.holds, Mem.holds, h.entry]

theorem entry_setPte : (s.setPte p va e).entry = update s.entry (p, va) (some e) := by
  funext ⟨q, vb⟩
  simp only [entry, setPte, PageTable.set, update_apply, Prod.mk.injEq]
  by_cases hq : q = p
  · subst hq
    by_cases hv : vb = va
    · simp [hv]
    · simp [hv]
  · simp [hq]

theorem entry_vmmUnmap : (vmmUnmap s p va).entry = update s.entry (p, va) none := by
  funext ⟨q, vb⟩
  simp only [entry, vmmUnmap, PageTable.clear, update_apply, Prod.mk.injEq]
  by_cases hq : q = p
  · subst hq
    by_cases hv : vb = va
    · simp [hv]
    · simp [hv]
  · simp [hq]

theorem holds_setPte : (s.setPte p va e).holds = update s.holds (p, va) (some e.frame) := by
  rw [holds, entry_setPte, Function.comp_update]
  rfl

theorem holds_vmmUnmap : (vmmUnmap s p va).holds = update s.holds (p, va) none := by
  rw [holds, entry_vmmUnmap, Function.comp_update]
  rfl

theorem holds_of_entry {x : ℕ × UInt64} (h : s.entry x = some e) : s.holds x = some e.frame := by
  rw [holds, Function.comp_apply, h, Option.map_some]

theorem entry_of_holds {x : ℕ × UInt64} (h : s.holds x = some f) :
    ∃ e, s.entry x = some e ∧ e.frame = f := Option.map_eq_some_iff.mp h

theorem Inv.reframe (h : Inv s kind) (hs : SameSpaces s s')
    (hused : ∀ x g, s.holds x = some g → s'.used g = true) (hcounted : Counted s.holds s'.refs)
    (hbeyond : ∀ f, pmmRefMaxFrames ≤ f → s'.refs f = 0)
    (hle : ∀ x g, s.holds x = some g → s'.refs g ≤ s.refs g) : Inv s' kind := by
  refine ⟨?_, ?_, ?_, ?_, ?_, hbeyond, ?_, ?_⟩
  · rw [hs.vmas]
    exact h.separate
  · rw [hs.entry, hs.alive]
    exact h.dead
  · rw [hs.entry]
    exact h.aligned
  · rwa [hs.holds]
  · rwa [hs.holds]
  · rw [hs.entry, hs.vmas]
    exact h.kinds
  · rw [hs.entry]
    intro x e hx hw hk
    exact (hle x e.frame (holds_of_entry hx)).trans (h.cow x e hx hw hk)

theorem Inv.congr (h : Inv s kind) (hs : SameSpaces s s') (hused : s'.used = s.used)
    (hrefs : s'.refs = s.refs) : Inv s' kind := by
  apply h.reframe hs
  · rw [hused]
    exact h.used
  · rw [hrefs]
    exact h.counted
  · rw [hrefs]
    exact h.beyond
  · intro x g _
    rw [hrefs]

structure Loose (s : Mem n) (f : ℕ) : Prop where
  used : s.used f = true
  free : ∀ x, s.holds x ≠ some f
  once : s.refs f ≤ 1

theorem pmmAlloc_some (ha : pmmAlloc s = (some f, s')) :
    SameSpaces s s' ∧ s'.page = s.page ∧ s.used f = false ∧
      s'.used = update s.used f true ∧
      (s'.refs = if f < pmmRefMaxFrames then update s.refs f 1 else s.refs) ∧
      ∀ g, g ≠ f → s'.refs g = s.refs g := by
  unfold pmmAlloc at ha
  split at ha
  · cases ha
  split at ha
  · cases ha
  rename_i hg
  cases ha
  refine ⟨⟨rfl, rfl, rfl, rfl⟩, rfl, by simpa using hg, rfl, rfl, fun g hgf => ?_⟩
  split
  · exact update_of_ne hgf ..
  · rfl

theorem Inv.alloc (h : Inv s kind) (ha : pmmAlloc s = (some f, s')) : Inv s' kind ∧ Loose s' f := by
  obtain ⟨hs, -, hf, hused, hrefs, hother⟩ := pmmAlloc_some ha
  have hfree : ∀ x, s.holds x ≠ some f := by
    intro x hx
    rw [h.used x f hx] at hf
    cases hf
  have hne : ∀ x g, s.holds x = some g → g ≠ f := by
    rintro x g hx rfl
    exact hfree x hx
  constructor
  · apply h.reframe hs
    · intro x g hx
      rw [hused, update_of_ne (hne x g hx)]
      exact h.used x g hx
    · rw [hrefs]
      split
      · exact h.counted.recount hfree 1
      · exact h.counted
    · intro g hg
      by_cases hgf : g = f
      · rw [hrefs, if_neg (by omega)]
        exact h.beyond g hg
      · rw [hother g hgf]
        exact h.beyond g hg
    · intro x g hx
      exact (hother g (hne x g hx)).le
  · refine ⟨?_, ?_, ?_⟩
    · rw [hused, update_self]
    · rwa [hs.holds]
    · rw [hrefs]
      split
      · rw [update_self]
      · rw [h.beyond f (by omega)]
        exact Nat.zero_le 1

theorem pmmAlloc_none (ha : pmmAlloc s = (none, s')) : ∃ rest, s' = { s with supply := rest } := by
  unfold pmmAlloc at ha
  split at ha
  · cases ha
    exact ⟨s.supply, rfl⟩
  split at ha
  · cases ha
    exact ⟨_, rfl⟩
  · cases ha

theorem pmmFree_spec (hbeyond : ∀ f, pmmRefMaxFrames ≤ f → s.refs f = 0) (f : ℕ) :
    SameSpaces s (pmmFree s f) ∧ (pmmFree s f).page = s.page ∧
      (pmmFree s f).refs = update s.refs f (s.refs f - 1) ∧
      ∀ g, g ≠ f ∨ 1 < s.refs f → (pmmFree s f).used g = s.used g := by
  have hzero : s.refs f = 0 → s.refs = update s.refs f (s.refs f - 1) := by
    intro h₀
    rw [h₀, Nat.zero_sub, ← h₀, update_eq_self]
  unfold pmmFree
  split
  · split
    · rename_i h₀
      exact ⟨⟨rfl, rfl, rfl, rfl⟩, rfl, hzero h₀, fun _ _ => rfl⟩
    · refine ⟨⟨rfl, rfl, rfl, rfl⟩, rfl, rfl, fun g hg => ?_⟩
      split
      · rfl
      · exact update_of_ne (hg.resolve_right ‹_›) ..
  · have h₀ := hbeyond f (by omega)
    refine ⟨⟨rfl, rfl, rfl, rfl⟩, rfl, hzero h₀, fun g hg => ?_⟩
    exact update_of_ne (hg.resolve_right (by omega)) ..

theorem pmmFree_refs_le (hbeyond : ∀ f, pmmRefMaxFrames ≤ f → s.refs f = 0) (f g : ℕ) :
    (pmmFree s f).refs g ≤ s.refs g := by
  rw [(pmmFree_spec hbeyond f).2.2.1]
  by_cases hgf : g = f
  · rw [hgf, update_self]
    exact Nat.sub_le ..
  · rw [update_of_ne hgf]

theorem Inv.freeLoose (h : Inv s kind) (hf : Loose s f) : Inv (pmmFree s f) kind := by
  obtain ⟨hs, -, hrefs, hused⟩ := pmmFree_spec h.beyond f
  apply h.reframe hs
  · intro x g hx
    have hgf : g ≠ f := by
      rintro rfl
      exact hf.free x hx
    rw [hused g (Or.inl hgf)]
    exact h.used x g hx
  · rw [hrefs]
    exact h.counted.recount hf.free _
  · intro g hg
    exact Nat.eq_zero_of_le_zero ((pmmFree_refs_le h.beyond f g).trans (h.beyond g hg).le)
  · intro x g _
    exact pmmFree_refs_le h.beyond f g

def kindAt (s : Mem n) (p : ℕ) (va : UInt64) : Bool := (lookup (s.vmas p) va).any (·.shared)

theorem Inv.put {kind' : ℕ → Bool} (h : Inv s kind) (hvmas : s'.vmas = s.vmas)
    (halive : s'.alive = s.alive) (hused : s'.used = s.used)
    (hentry : s'.entry = update s.entry (p, va) (some e)) (hlive : s.alive p = true)
    (hva : va.toNat % 4096 = 0) (hin : s.used e.frame = true) (hcounted : Counted s'.holds s'.refs)
    (hbeyond : ∀ f, pmmRefMaxFrames ≤ f → s'.refs f = 0)
    (hk : ∀ k, lookup (s.vmas p) va = some k → kind' e.frame = k.shared)
    (hkind : ∀ x e', s.entry x = some e' → x ≠ (p, va) → kind' e'.frame = kind e'.frame)
    (hcow : ∀ x e', s'.entry x = some e' → e'.flags.write = true → kind' e'.frame = false →
      s'.refs e'.frame ≤ 1) : Inv s' kind' := by
  refine ⟨?_, ?_, ?_, ?_, hcounted, hbeyond, ?_, hcow⟩
  · rw [hvmas]
    exact h.separate
  · intro q vb hq
    rw [halive] at hq
    rw [hentry, update_of_ne]
    · exact h.dead q vb hq
    · rintro ⟨rfl, -⟩
      exact absurd (hlive.symm.trans hq) (by decide)
  · rw [hentry]
    exact forall_update_some (fun _ _ => hva) fun x e' _ => h.aligned x e'
  · rw [hused, holds, hentry, Function.comp_update]
    refine forall_update_some (fun g hg => ?_) fun x g _ => h.used x g
    rwa [← Option.some.inj hg]
  · rw [hentry, hvmas]
    intro q vb e' k hx hk'
    revert hk'
    refine forall_update_some (P := fun x e' => lookup (s.vmas x.1) x.2 = some k →
      kind' e'.frame = k.shared) (fun e' he hk' => ?_) (fun x e' hne hx hk' => ?_) (q, vb) e' hx
    · rw [← Option.some.inj he]
      exact hk k hk'
    · rw [hkind x e' hx hne]
      exact h.kinds x.1 x.2 e' k hx hk'

theorem Inv.setPte (h : Inv s kind) (hlive : s.alive p = true) (hva : va.toNat % 4096 = 0)
    (hf : Loose s e.frame) :
    Inv (s.setPte p va e) (update kind e.frame (kindAt s p va)) := by
  have hne : ∀ x e', s.entry x = some e' → e'.frame ≠ e.frame := by
    intro x e' hx heq
    exact hf.free x (heq ▸ holds_of_entry hx)
  refine h.put rfl rfl rfl entry_setPte hlive hva hf.used ?_ h.beyond (fun k hk => ?_)
    (fun x e' hx _ => update_of_ne (hne x e' hx) ..) ?_
  · rw [holds_setPte]
    exact h.counted.take hf.free (p, va)
  · rw [update_self, kindAt, hk, Option.any_some]
  · rw [entry_setPte]
    refine forall_update_some (fun e' he _ _ => ?_) fun x e' _ hx hw hk => ?_
    · rw [← Option.some.inj he]
      exact hf.once
    · rw [update_of_ne (hne x e' hx)] at hk
      exact h.cow x e' hx hw hk

theorem holds_reflag (hx : s.entry (p, va) = some e) (flags : PteFlags) :
    (s.setPte p va { e with flags := flags }).holds = s.holds := by
  rw [holds_setPte, update_eq_iff]
  exact ⟨(holds_of_entry hx).symm, fun _ _ => rfl⟩

theorem Inv.reflag (h : Inv s kind) (hx : s.entry (p, va) = some e) {flags : PteFlags}
    (hw : flags.write = true → kind e.frame = true ∨ s.refs e.frame ≤ 1) :
    Inv (s.setPte p va { e with flags := flags }) kind := by
  have hlive : s.alive p = true := by
    by_contra hdead
    rw [h.dead p va (Bool.eq_false_iff.mpr hdead)] at hx
    cases hx
  refine h.put rfl rfl rfl entry_setPte hlive (h.aligned (p, va) e hx)
    (h.used (p, va) e.frame (holds_of_entry hx)) ?_ h.beyond (fun k hk => h.kinds p va e k hx hk)
    (fun _ _ _ _ => rfl) ?_
  · rw [holds_reflag hx]
    exact h.counted
  · rw [entry_setPte]
    refine forall_update_some (fun e' he hw' hk => ?_) fun x e' _ => h.cow x e'
    rw [← Option.some.inj he] at hw' hk ⊢
    exact (hw hw').resolve_left fun hk' => absurd (hk'.symm.trans hk) (by decide)

theorem Inv.unmap (h : Inv s kind) (p : ℕ) (va : UInt64) : Inv (vmmUnmap s p va) kind := by
  have hsub : ∀ x e, (vmmUnmap s p va).entry x = some e → s.entry x = some e := by
    rw [entry_vmmUnmap]
    exact forall_update_some (fun _ h => nomatch h) fun _ _ _ h => h
  refine ⟨h.separate, ?_, ?_, ?_, ?_, h.beyond, ?_, ?_⟩
  · intro q vb hq
    rw [entry_vmmUnmap, update_apply, h.dead q vb hq, ite_self]
  · exact fun x e hx => h.aligned x e (hsub x e hx)
  · rw [holds_vmmUnmap]
    exact forall_update_some (fun _ h => nomatch h) fun x g _ => h.used x g
  · rw [holds_vmmUnmap]
    exact h.counted.forget (p, va)
  · exact fun q vb e k hx => h.kinds q vb e k (hsub _ e hx)
  · exact fun x e hx => h.cow x e (hsub x e hx)

theorem Inv.unmapFree (h : Inv s kind) (hx : s.entry (p, va) = some e) :
    Inv (pmmFree (vmmUnmap s p va) e.frame) kind := by
  have hu := h.unmap p va
  obtain ⟨hs, -, hrefs, hused⟩ := pmmFree_spec hu.beyond e.frame
  -- another page that holds the frame keeps it allocated
  have hheld : ∀ x, (vmmUnmap s p va).holds x = some e.frame → 1 < s.refs e.frame := by
    rw [holds_vmmUnmap]
    intro x hx'
    by_contra hle
    refine forall_update_some (P := fun x g => g = e.frame → False)
      (fun _ h => absurd h.symm (Option.some_ne_none _)) ?_ x e.frame hx' rfl
    rintro y g hy hyg rfl
    exact hy (h.counted.unique (not_lt.mp hle) hyg (holds_of_entry hx))
  apply hu.reframe hs
  · intro x g hg
    rw [hused g]
    · exact hu.used x g hg
    · by_cases hge : g = e.frame
      · exact Or.inr (hheld x (hge ▸ hg))
      · exact Or.inl hge
  · rw [hrefs, holds_vmmUnmap]
    exact h.counted.drop (holds_of_entry hx)
  · intro g hg
    exact Nat.eq_zero_of_le_zero ((pmmFree_refs_le hu.beyond _ g).trans (hu.beyond g hg).le)
  · intro x g _
    exact pmmFree_refs_le hu.beyond _ g

theorem Inv.share (h : Inv s kind) (hvmas : s'.vmas = s.vmas) (halive : s'.alive = s.alive)
    (hused : s'.used = s.used)
    (hrefs : s'.refs = update s.refs e.frame (s.refs e.frame + 1))
    (hentry : s'.entry = update s.entry (p, va) (some e)) (hlive : s.alive p = true)
    (hva : va.toNat % 4096 = 0) (hmax : e.frame < pmmRefMaxFrames) (hf : 1 ≤ s.refs e.frame)
    (hin : s.used e.frame = true)
    (hk : ∀ k, lookup (s.vmas p) va = some k → kind e.frame = k.shared)
    (hw : kind e.frame = false → e.flags.write = false ∧
      ∀ x e', s.entry x = some e' → e'.frame = e.frame → e'.flags.write = false) :
    Inv s' kind := by
  refine h.put hvmas halive hused hentry hlive hva hin ?_ (fun g hg => ?_) hk
    (fun _ _ _ _ => rfl) ?_
  · rw [hrefs, holds, hentry, Function.comp_update]
    exact h.counted.share hf (p, va)
  · rw [hrefs, update_of_ne (by omega)]
    exact h.beyond g hg
  · rw [hentry, hrefs]
    refine forall_update_some (fun e' he hw' hk' => ?_) fun x e' _ hx hw' hk' => ?_
    · rw [← Option.some.inj he] at hw' hk'
      exact absurd (hw'.symm.trans (hw hk').1) (by decide)
    · have hne : e'.frame ≠ e.frame := by
        intro heq
        rw [heq] at hk'
        exact absurd (hw'.symm.trans ((hw hk').2 x e' hx heq)) (by decide)
      rw [update_of_ne hne]
      exact h.cow x e' hx hw' hk'

theorem vmas_setVmas_self (s : Mem n) (p : ℕ) (r : ℤ × VmaTable n) :
    (s.setVmas p r).2.vmas p = r.2 := update_self ..

theorem vmas_setVmas_of_ne (s : Mem n) {p q : ℕ} (hq : q ≠ p) (r : ℤ × VmaTable n) :
    (s.setVmas p r).2.vmas q = s.vmas q := update_of_ne hq ..

theorem Inv.setVmas {kind' : ℕ → Bool} (h : Inv s kind) {r : ℤ × VmaTable n}
    (hw : Separate (segs r.2))
    (hk : ∀ va e k, s.entry (p, va) = some e → lookup r.2 va = some k → kind' e.frame = k.shared)
    (hk' : ∀ q va e k, q ≠ p → s.entry (q, va) = some e → lookup (s.vmas q) va = some k →
      kind' e.frame = k.shared)
    (hcow : ∀ x e, s.entry x = some e → e.flags.write = true → kind' e.frame = false →
      s.refs e.frame ≤ 1) : Inv (s.setVmas p r).2 kind' := by
  refine ⟨?_, h.dead, h.aligned, h.used, h.counted, h.beyond, ?_, hcow⟩
  · intro q
    by_cases hq : q = p
    · rw [hq, vmas_setVmas_self]
      exact hw
    · rw [vmas_setVmas_of_ne s hq]
      exact h.separate q
  · intro q vb e k hx hl
    by_cases hq : q = p
    · subst hq
      rw [vmas_setVmas_self] at hl
      exact hk vb e k hx hl
    · rw [vmas_setVmas_of_ne s hq] at hl
      exact hk' q vb e k hq hx hl

theorem lookup_below {t t' : VmaTable n} (hw : Separate (segs t)) (hw' : Separate (segs t'))
    (hb : Below SameKind (segs t) (segs t')) {k' : VmaAttrs} (h : lookup t' va = some k') :
    ∃ k, lookup t va = some k ∧ k'.shared = k.shared := by
  obtain ⟨k, hk, hsame⟩ := hb va k' ((lookup_eq_some hw').mp h)
  refine ⟨k, (lookup_eq_some hw).mpr hk, ?_⟩
  rw [VmaAttrs.shared, VmaAttrs.shared, hsame.1]

theorem Inv.below (h : Inv s kind) {r : ℤ × VmaTable n} (hw : Separate (segs r.2))
    (hb : Below SameKind (segs (s.vmas p)) (segs r.2)) : Inv (s.setVmas p r).2 kind := by
  refine h.setVmas hw (fun va e k' hx hl => ?_) (fun q va e k _ => h.kinds q va e k) h.cow
  obtain ⟨k, hk, hsame⟩ := lookup_below (h.separate p) hw hb hl
  rw [hsame]
  exact h.kinds p va e k hx hk

def Mem.Under (s : Mem n) (p : ℕ) (start len : UInt64) (f : ℕ) : Prop :=
  ∃ va e, InRange start len va ∧ s.entry (p, va) = some e ∧ e.frame = f

open Classical in
noncomputable def rekind (kind : ℕ → Bool) (P : ℕ → Prop) (b : Bool) (f : ℕ) : Bool :=
  if P f then b else kind f

theorem Inv.addVma (h : Inv s kind) {start len : UInt64} {prot mapFlags : UInt32} {free : Bool}
    (hadd : ∀ va, InRange start len va → lookup (s.vmas p) va = none → ∀ e,
      s.entry (p, va) = some e →
        s.refs e.frame ≤ 1 ∨ kind e.frame = VmaAttrs.shared ⟨prot, mapFlags, free⟩) :
    ∃ kind', Inv (s.setVmas p (vmaAdd (s.vmas p) start len prot mapFlags free)).2 kind' := by
  have href := add_refines (h.separate p) start len prot mapFlags free
  rcases vmaAdd_spec (h.separate p) start len prot mapFlags free with ⟨-, heq⟩ | ⟨hok, -⟩
  · refine ⟨kind, h.setVmas href.separate (fun va e k hx hl => ?_)
      (fun q va e k _ => h.kinds q va e k) h.cow⟩
    rw [heq] at hl
    exact h.kinds p va e k hx hl
  obtain ⟨hpre, hmap⟩ := href.effect hok
  replace hadd := fun va hva => hadd va hva (hpre va hva)
  generalize hk₀ : VmaAttrs.shared ⟨prot, mapFlags, free⟩ = shared at hadd
  -- the frames under the new mapping take its kind
  have hkeep : ∀ x e, s.entry x = some e → ¬ (x.1 = p ∧ InRange start len x.2) →
      rekind kind (s.Under p start len) shared e.frame = kind e.frame := by
    intro x e hx hout
    by_cases hm : s.Under p start len e.frame
    · obtain ⟨va, e₀, hva, hx₀, hf⟩ := hm
      rcases hadd va hva e₀ hx₀ with hone | hkind
      · rw [hf] at hone
        have hxy := h.counted.unique hone (holds_of_entry hx) (hf ▸ holds_of_entry hx₀)
        rw [hxy] at hout
        exact absurd ⟨rfl, hva⟩ hout
      · rw [hf] at hkind
        rw [hkind]
        exact if_pos ⟨va, e₀, hva, hx₀, hf⟩
    · exact if_neg hm
  refine ⟨rekind kind (s.Under p start len) shared, h.setVmas href.separate
    (fun va e k hx hl => ?_) (fun q va e k hq hx hl => ?_) fun x e hx hw hk => ?_⟩
  · rw [hmap, VmaOp.apply] at hl
    dsimp only at hl
    split at hl
    · rename_i hva
      rw [← Option.some.inj hl, hk₀]
      exact if_pos ⟨va, e, hva, hx, rfl⟩
    · rename_i hva
      rw [hkeep _ e hx fun hin => hva hin.2]
      exact h.kinds p va e k hx hl
  · rw [hkeep _ e hx fun hin => hq hin.1]
    exact h.kinds q va e k hx hl
  · by_cases hm : s.Under p start len e.frame
    · obtain ⟨va, e₀, hva, hx₀, hf⟩ := hm
      rcases hadd va hva e₀ hx₀ with hone | hkind
      · rwa [hf] at hone
      · rw [rekind, if_pos ⟨va, e₀, hva, hx₀, hf⟩, ← hkind, hf] at hk
        exact h.cow x e hx hw hk
    · rw [rekind, if_neg hm] at hk
      exact h.cow x e hx hw hk

end

end Kyronix.Mm
