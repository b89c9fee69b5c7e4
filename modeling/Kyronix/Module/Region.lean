import Kyronix.Module.Deps

/-! Where modules are loaded: whatever is loaded and unloaded, they lie apart in their region. -/
namespace Kyronix.Module

open Lib.Run Function Modules

structure Spot where
  name : CStr
  base : ℕ
  size : ℕ

def LoadedModule.spot (m : LoadedModule) : Option Spot :=
  if m.state = .empty then none else some ⟨m.name, m.base, m.size⟩

def Modules.spots (s : Modules) (c : Slot) : Option Spot := (s.slot c).spot

def Spot.Apart (x y : Spot) : Prop :=
  x.name ≠ y.name ∧ (x.base + x.size ≤ y.base ∨ y.base + y.size ≤ x.base)

structure Placed (s : Modules) : Prop where
  inside : ∀ c x, s.spots c = some x →
    moduleRegionStart ≤ x.base ∧ x.base + x.size ≤ moduleRegionEnd
  apart : ∀ c d x y, c ≠ d → s.spots c = some x → s.spots d = some y → x.Apart y

section

variable {s s' : Modules} {k : Slot} {m : LoadedModule}

theorem spots_set (s : Modules) (k : Slot) (m : LoadedModule) :
    (s.set k m).spots = update s.spots k m.spot := by
  funext c
  unfold spots Modules.set
  grind

theorem spots_set_same (h : m.spot = s.spots k) : (s.set k m).spots = s.spots := by
  rw [spots_set, h, update_eq_self]

theorem Placed.congr (h : Placed s) (hs : s'.spots = s.spots) : Placed s' := by
  obtain ⟨hin, hap⟩ := h
  rw [← hs] at hin hap
  exact ⟨hin, hap⟩

theorem Placed.put (h : Placed s) (hs : s'.spots = update s.spots k m.spot)
    (hm : ∀ x, m.spot = some x → moduleRegionStart ≤ x.base ∧ x.base + x.size ≤ moduleRegionEnd ∧
      ∀ c y, s.spots c = some y → x.Apart y) : Placed s' := by
  obtain ⟨hin, hap⟩ := h
  constructor <;> simp only [hs] <;> grind [Spot.Apart]

theorem Placed.abandonModule (h : Placed s) (k : Slot) : Placed (abandonModule s k) := by
  refine h.put (k := k) (m := {}) ?_ nofun
  funext c
  by_cases hc : c = k
  · rw [hc, update_self, spots, Module.abandonModule, set_self]
  · rw [update_of_ne hc, spots, slot_abandonModule s hc]
    rfl

theorem Placed.restate (h : Placed s) (hk : (s.slot k).state ≠ .empty) {st : ModuleState}
    (hst : st ≠ .empty) : Placed (s.set k { s.slot k with state := st }) :=
  h.congr (spots_set_same (by simp [spots, LoadedModule.spot, hk, hst]))

-- the candidate only moves up, so it stays in the region that the last check bounds
theorem findCandidate_spec (s : Modules) (size candidate : ℕ) :
    candidate ≤ findCandidate s size candidate ∧
      blocker s (findCandidate s size candidate) size = none := by
  fun_induction findCandidate s size candidate
  case case1 h => exact ⟨le_rfl, h⟩
  case case2 candidate i h ih =>
    have hover := List.find?_some h
    have hup := le_pageAlignUp ((s.slot i).base + (s.slot i).size)
    simp only [rangesOverlap, Bool.and_eq_true, decide_eq_true_eq] at hover
    exact ⟨by omega, ih.2⟩

theorem findModuleBase_spec {size : ℕ} (h : findModuleBase s size ≠ 0) :
    moduleRegionStart ≤ findModuleBase s size ∧ findModuleBase s size + size ≤ moduleRegionEnd ∧
      blocker s (findModuleBase s size) size = none := by
  unfold findModuleBase at h ⊢
  grind [findCandidate_spec s size moduleRegionStart]

theorem reserveModule_placed {name : CStr} {size : ℕ} (h : Placed s)
    (hr : reserveModule s name size = .ok (k, s')) : Placed s' ∧ (s'.spots k).isSome := by
  unfold reserveModule at hr
  split at hr
  · cases hr
  next hname =>
  split at hr
  · cases hr
  dsimp only at hr
  split at hr
  · cases hr
  next hbase =>
  cases hr
  obtain ⟨hlo, hhi, hfree⟩ := findModuleBase_spec hbase
  refine ⟨h.put (spots_set s k _) ?_, ?_⟩
  · rintro x ⟨⟩
    refine ⟨hlo, hhi, fun c y hy => ?_⟩
    have hover := List.find?_eq_none.mp hfree c (List.mem_finRange c)
    have hother := List.any_eq_false.mp (Bool.eq_false_iff.mpr hname) c (List.mem_finRange c)
    unfold spots LoadedModule.spot at hy
    unfold rangesOverlap at hover
    grind [Spot.Apart]
  · show ((s.set k _).spots k).isSome
    rw [spots_set, update_self]
    rfl

variable (kallsyms : CStr → ℕ) (env : Env) (img : Image) (secAddr : ℕ → ℕ)

theorem spots_symbolValue (s : Modules) (k : Slot) (symtab : Shdr) (index : ℕ) :
    (symbolValue kallsyms img secAddr s k symtab index).2.spots = s.spots := by
  have hdep : ∀ p, (addDependency s k p).2.spots = s.spots := by
    intro p
    unfold addDependency
    split_ifs
    · rfl
    · rfl
    · refine (spots_set_same ?_).trans (spots_set_same ?_) <;> rfl
  have hsym : ∀ name, (loadedSymbol kallsyms s k name).2.spots = s.spots := by
    intro name
    unfold loadedSymbol
    grind
  unfold symbolValue
  grind

theorem spots_loadInto (l : Layout) (s : Modules) (k : Slot) :
    (loadInto kallsyms env img l k s).2.spots = s.spots := by
  have hword : ∀ t w, (writeWord t k w).spots = t.spots := fun _ _ => spots_set_same (by rfl)
  have hreloc : ∀ secAddr, (applyRelocations kallsyms img secAddr k s).2.spots = s.spots := by
    intro secAddr
    refine untilError_inv (P := fun t => t.spots = s.spots) (fun i t ht => ?_) _ rfl
    unfold applySection
    dsimp only
    split_ifs <;> try exact ht
    refine untilError_inv (P := fun t => t.spots = s.spots) (fun r u hu => ?_) _ ht
    unfold applyRelocation
    grind [spots_symbolValue]
  have hexports : ∀ secAddr t, (buildExports kallsyms env img secAddr k t).2.spots = t.spots := by
    intro secAddr t
    have hset : ∀ es, (t.set k { t.slot k with exports := es }).spots = t.spots :=
      fun _ => spots_set_same rfl
    unfold buildExports
    grind
  unfold loadInto
  grind

theorem moduleLoadImage_placed (h : Placed s) : Placed (moduleLoadImage kallsyms env img s).2 := by
  unfold moduleLoadImage
  split
  · exact h
  split
  · exact h
  split
  · exact h
  next l _ _ =>
  split
  · exact h
  next k s₀ hres =>
  obtain ⟨hp, hk⟩ := reserveModule_placed h hres
  have hspots := spots_loadInto kallsyms env img l s₀ k
  split
  · next hl =>
    rw [hl] at hspots
    exact (hp.congr hspots).abandonModule k
  · next hl =>
    rw [hl] at hspots
    refine (hp.congr hspots).restate ?_ (by decide)
    rw [← hspots] at hk
    simpa [spots, LoadedModule.spot] using hk

theorem moduleStep_placed (h : Placed s) (call : ModuleCall) :
    Placed (moduleStep kallsyms s call) := by
  cases call with
  | load args =>
    unfold moduleStep sysInitModule
    grind [moduleLoadImage_placed]
  | delete args =>
    unfold moduleStep sysDeleteModule
    dsimp only
    split_ifs
    · exact h
    · exact h
    split
    · exact h
    split
    · exact h
    next k hk =>
    split_ifs
    · exact h
    · refine (h.restate ?_ (by decide)).abandonModule k
      have hlive := List.find?_some hk
      simp_all

end

/-- In every run of loads and unloads the modules lie in their region, do not overlap and have names
of their own. -/
theorem modules_apart (kallsyms : CStr → ℕ) (calls : List ModuleCall) :
    Always (moduleStep kallsyms) Placed boot calls := by
  have hall : Along (moduleStep kallsyms) (fun _ _ => True) boot calls := fun _ _ _ => trivial
  exact hall.always ⟨nofun, nofun⟩ fun s call h _ => moduleStep_placed kallsyms h call

end Kyronix.Module
